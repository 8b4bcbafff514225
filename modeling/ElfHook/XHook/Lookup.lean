import Mathlib.Data.List.GetD
import ElfHook.Lib.Chain
import ElfHook.XHook.Elf

/-!
# xHook: looking symbols up

Hash tables as a linker writes them, and what `xh_elf_find_symidx_by_name` finds in them.

* `find_isSome_iff`: it finds a name if and only if a symbol of the table carries it.
* `slots_subset_walk`: where names are unique and each has one jump slot, the walk of a symbol comes
  to all its relocation slots.
* `xh_elf_hook_complete`: so hooking redirects every slot of the symbol, and nothing else.
-/

namespace ElfHook.XHook

open Lib

namespace SymTab

/-! ### `DT_HASH` -/

/-- Every symbol but `STN_UNDEF` is on the chain of its bucket. -/
structure ElfHashed (tab : SymTab) (bucket chain : List Nat) : Prop where
  bucket_lt : ∀ i ∈ bucket, i < chain.length
  chain_lt : ∀ i ∈ chain, i < chain.length
  reach : ∀ i, 0 < i → i < chain.length →
    OnChain (fun j => chain.getD j 0) (· = 0)
      (bucket.getD ((xh_elf_hash (tab.symname i)).toNat % bucket.length) 0) i

theorem hashChain_eq_chase (self : SymTab) (chain : List Nat) (symbol : String) (rounds i : Nat) :
    self.hashChain chain symbol rounds i =
      chase (fun j => chain.getD j 0) (· = 0) (fun j => symbol = self.symname j) rounds i := by
  induction rounds generalizing i with
  | zero => rfl
  | succ rounds ih =>
    rw [hashChain, chase, ih]

variable {self : SymTab} {bucket chain bloom : List Nat} {bits symoffset bloom_shift i : Nat}
  {symbol : String}

theorem getD_lt {xs : List Nat} {n j : Nat} (h : ∀ i ∈ xs, i < n) (hne : xs.getD j 0 ≠ 0) :
    xs.getD j 0 < n := by
  rw [List.getD_eq_getElem?_getD] at hne ⊢
  cases hj : xs[j]? with
  | none =>
    rw [hj] at hne
    exact absurd rfl hne
  | some i => exact h i (List.mem_of_getElem? hj)

/-- No chain leaves the table. -/
theorem ElfHashed.lt_of_onChain (h : self.ElfHashed bucket chain) {b j : Nat}
    (hj : OnChain (fun j => chain.getD j 0) (· = 0) (bucket.getD b 0) j) :
    0 < j ∧ j < chain.length := by
  obtain ⟨k, rfl, hgo⟩ := hj
  have hne := hgo k le_rfl
  refine ⟨Nat.pos_of_ne_zero hne, ?_⟩
  cases k with
  | zero => exact getD_lt h.bucket_lt hne
  | succ k =>
    rw [Function.iterate_succ_apply'] at hne ⊢
    exact getD_lt h.chain_lt hne

theorem ElfHashed.lookup_isSome (h : self.ElfHashed bucket chain) (hpos : 0 < i)
    (hlt : i < chain.length) (hname : self.symname i = symbol) :
    (self.xh_elf_hash_lookup bucket chain symbol).isSome := by
  subst hname
  unfold xh_elf_hash_lookup
  rw [hashChain_eq_chase]
  have hs (j : Nat) (hj : OnChain (fun j => chain.getD j 0) (· = 0)
      (bucket.getD ((xh_elf_hash (self.symname i)).toNat % bucket.length) 0) j) :
      j ∈ Finset.range chain.length :=
    Finset.mem_range.2 (h.lt_of_onChain hj).2
  refine chase_isSome_of_onChain hs (h.reach i hpos hlt) ?_ ?_
  · rfl
  · rw [Finset.card_range]
    exact Nat.le_succ _

theorem ElfHashed.lookup_lt (h : self.ElfHashed bucket chain)
    (hi : self.xh_elf_hash_lookup bucket chain symbol = some i) : 0 < i ∧ i < chain.length := by
  unfold xh_elf_hash_lookup at hi
  rw [hashChain_eq_chase] at hi
  exact h.lt_of_onChain (chase_spec hi).1

/-! ### `DT_GNU_HASH` -/

/-- The symbols from `symoffset` on are sorted by bucket, each bucket names its first symbol, the
entries of `chain` are the hashes but for the lowest bit, which ends a bucket, and the bloom filter
has both bits of every symbol. -/
structure GnuHashed (tab : SymTab) (elfclass_bits : Nat) (bucket chain bloom : List Nat)
    (symoffset bloom_shift : Nat) : Prop where
  bucket_ne : bucket ≠ []
  bucket_lt : ∀ b ∈ bucket, b < symoffset + chain.length
  last : ∀ c, chain.getLast? = some c → c % 2 = 1
  hash : ∀ i < chain.length,
    chain.getD i 1 ||| 1 = (xh_elf_gnu_hash (tab.symname (symoffset + i))).toNat ||| 1
  start : ∀ i < chain.length,
    let b := bucket.getD ((xh_elf_gnu_hash (tab.symname (symoffset + i))).toNat % bucket.length) 0
    symoffset ≤ b ∧ b ≤ symoffset + i ∧
      ∀ j, b ≤ symoffset + j → j < i → chain.getD j 1 % 2 = 0
  bloom : ∀ i < chain.length,
    let hash := (xh_elf_gnu_hash (tab.symname (symoffset + i))).toNat
    let word := bloom.getD (hash / elfclass_bits % bloom.length) 0
    word.testBit (hash % elfclass_bits) ∧ word.testBit (hash >>> bloom_shift % elfclass_bits)

/-- A filter with both bits set lets a symbol through. -/
theorem and_mask_eq {word a b : Nat} (ha : word.testBit a) (hb : word.testBit b) :
    word &&& (1 <<< a ||| 1 <<< b) = 1 <<< a ||| 1 <<< b := by
  apply Nat.eq_of_testBit_eq
  intro j
  rw [Nat.testBit_and, Nat.testBit_or, Nat.one_shiftLeft, Nat.one_shiftLeft, Nat.testBit_two_pow,
    Nat.testBit_two_pow]
  by_cases hja : a = j
  · simp [← hja, ha]
  · by_cases hjb : b = j
    · simp [← hjb, hb]
    · simp [hja, hjb]

/-- The walk along a bucket stops no later than at a symbol with the name and the hash. -/
theorem gnuChain_isSome {hash : Nat} (hmatch : hash ||| 1 = chain.getD (i - symoffset) 1 ||| 1)
    (hname : symbol = self.symname i) {rounds j : Nat} (hj : j ≤ i) (hrounds : i - j < rounds)
    (hrun : ∀ l, j ≤ l → l < i → chain.getD (l - symoffset) 1 % 2 = 0) :
    (self.gnuChain chain symoffset symbol hash rounds j).isSome := by
  induction rounds generalizing j with
  | zero => exact absurd hrounds (Nat.not_lt_zero _)
  | succ rounds ih =>
    rw [gnuChain]
    split_ifs with hfound hend
    · rfl
    · rcases Nat.eq_or_lt_of_le hj with rfl | hlt
      · exact absurd ⟨hmatch, hname⟩ hfound
      · have heven := hrun j le_rfl hlt
        omega
    · rcases Nat.eq_or_lt_of_le hj with rfl | hlt
      · exact absurd ⟨hmatch, hname⟩ hfound
      · exact ih hlt (by omega) fun l hl => hrun l (Nat.le_of_succ_le hl)

theorem GnuHashed.lookup_isSome
    (h : self.GnuHashed bits bucket chain bloom symoffset bloom_shift) (hi : i < chain.length)
    (hname : self.symname (symoffset + i) = symbol) :
    (self.xh_elf_gnu_hash_lookup_def bits bucket chain bloom symoffset bloom_shift
      symbol).isSome := by
  subst hname
  have hhash := h.hash i hi
  obtain ⟨hlo, hhi, hrun⟩ := h.start i hi
  obtain ⟨hbit, hbit'⟩ := h.bloom i hi
  unfold xh_elf_gnu_hash_lookup_def
  simp only
  rw [if_neg (not_not.2 (and_mask_eq hbit hbit')), if_neg (Nat.not_lt.2 hlo)]
  apply gnuChain_isSome (i := symoffset + i) _ rfl hhi (by omega)
  · intro l hl hli
    have heven := hrun (l - symoffset) (by omega) (by omega)
    exact heven
  · rw [Nat.add_sub_cancel_left, hhash]

theorem gnuChain_lt {hash : Nat} (hlast : ∀ c, chain.getLast? = some c → c % 2 = 1)
    {rounds j : Nat} (hlo : symoffset ≤ j) (hhi : j < symoffset + chain.length)
    (hi : self.gnuChain chain symoffset symbol hash rounds j = some i) :
    i < symoffset + chain.length := by
  induction rounds generalizing j with
  | zero => cases hi
  | succ rounds ih =>
    rw [gnuChain] at hi
    split_ifs at hi with hfound hend
    · cases hi
      exact hhi
    · have hnext : j + 1 < symoffset + chain.length := by
        by_contra hge
        apply hend
        have hlen : j - symoffset = chain.length - 1 := by omega
        have hlt : chain.length - 1 < chain.length := by omega
        rw [hlen, List.getD_eq_getElem _ _ hlt]
        apply hlast
        rw [List.getLast?_eq_getElem?, List.getElem?_eq_getElem hlt]
      exact ih (by omega) hnext hi

theorem GnuHashed.lookup_lt (h : self.GnuHashed bits bucket chain bloom symoffset bloom_shift)
    (hi : self.xh_elf_gnu_hash_lookup_def bits bucket chain bloom symoffset bloom_shift symbol =
      some i) : i < symoffset + chain.length := by
  unfold xh_elf_gnu_hash_lookup_def at hi
  simp only at hi
  split_ifs at hi with _ hlo
  have hb : (xh_elf_gnu_hash symbol).toNat % bucket.length < bucket.length :=
    Nat.mod_lt _ (List.length_pos_iff.2 h.bucket_ne)
  apply gnuChain_lt h.last (Nat.not_lt.1 hlo) _ hi
  rw [List.getD_eq_getElem _ _ hb]
  exact h.bucket_lt _ (List.getElem_mem hb)

/-! ### Both tables -/

/-- The hash table of an ELF as a linker writes it. -/
def WellFormed (tab : SymTab) (elfclass_bits : Nat) : Prop :=
  match tab.hash with
  | .elf bucket chain => tab.ElfHashed bucket chain
  | .gnu bucket chain bloom symoffset bloom_shift =>
    tab.GnuHashed elfclass_bits bucket chain bloom symoffset bloom_shift

/-- The symbols of the table, `STN_UNDEF` left out where `DT_HASH` does. -/
def Indexed (tab : SymTab) (i : Nat) : Prop :=
  match tab.hash with
  | .elf _ chain => 0 < i ∧ i < chain.length
  | .gnu _ chain _ symoffset _ => i < symoffset + chain.length

theorem undef_isSome (hi : i < symoffset) (hname : self.symname i = symbol) :
    (self.xh_elf_gnu_hash_lookup_undef symoffset symbol).isSome := by
  unfold xh_elf_gnu_hash_lookup_undef
  rw [List.find?_isSome]
  exact ⟨i, List.mem_range.2 hi, decide_eq_true hname⟩

theorem undef_lt (hi : self.xh_elf_gnu_hash_lookup_undef symoffset symbol = some i) :
    i < symoffset :=
  List.mem_range.1 (List.mem_of_find?_eq_some hi)

theorem indexed_of_find (h : self.WellFormed bits)
    (hi : self.xh_elf_find_symidx_by_name bits symbol = some i) : self.Indexed i := by
  unfold WellFormed at h
  unfold xh_elf_find_symidx_by_name at hi
  unfold Indexed
  cases hhash : self.hash with
  | elf bucket chain =>
    rw [hhash] at h hi
    exact h.lookup_lt hi
  | gnu bucket chain bloom symoffset bloom_shift =>
    rw [hhash] at h hi
    rcases Option.or_eq_some_iff.1 hi with hi | ⟨-, hi⟩
    · exact h.lookup_lt hi
    · exact (undef_lt hi).trans_le (Nat.le_add_right _ _)

theorem find_isSome (h : self.WellFormed bits) (hi : self.Indexed i)
    (hname : self.symname i = symbol) :
    (self.xh_elf_find_symidx_by_name bits symbol).isSome := by
  unfold WellFormed at h
  unfold Indexed at hi
  unfold xh_elf_find_symidx_by_name
  cases hhash : self.hash with
  | elf bucket chain =>
    rw [hhash] at h hi
    exact h.lookup_isSome hi.1 hi.2 hname
  | gnu bucket chain bloom symoffset bloom_shift =>
    rw [hhash] at h hi
    simp only at h hi ⊢
    rw [Option.isSome_or, Bool.or_eq_true]
    by_cases hdef : i < symoffset
    · exact Or.inr (undef_isSome hdef hname)
    · obtain ⟨j, rfl⟩ := Nat.exists_eq_add_of_le (Nat.not_lt.1 hdef)
      exact Or.inl (h.lookup_isSome (Nat.lt_of_add_lt_add_left hi) hname)

/-- The lookup finds a name if and only if a symbol of the table carries it. -/
theorem find_isSome_iff (h : self.WellFormed bits) :
    (self.xh_elf_find_symidx_by_name bits symbol).isSome ↔
      ∃ i, self.Indexed i ∧ self.symname i = symbol := by
  constructor
  · intro hsome
    obtain ⟨i, hi⟩ := Option.isSome_iff_exists.1 hsome
    exact ⟨i, indexed_of_find h hi, symname_of_find hi⟩
  · rintro ⟨i, hi, hname⟩
    exact find_isSome h hi hname

/-- Where no two symbols share a name, the lookup finds each by its own. -/
theorem find_symname (h : self.WellFormed bits) (hi : self.Indexed i)
    (hunique : ∀ j, self.Indexed j → self.symname j = self.symname i → j = i) :
    self.xh_elf_find_symidx_by_name bits (self.symname i) = some i := by
  obtain ⟨j, hj⟩ := Option.isSome_iff_exists.1 (find_isSome h hi rfl)
  rw [hj, hunique j (indexed_of_find h hj) (symname_of_find hj)]

end SymTab

/-! ### Hooking all slots -/

/-- The tables as a linker writes them: a lookup table over unique names, relocations against its
symbols, and no symbol with two jump slots. -/
structure XhElf.Linked (elf : XhElf) (elfclass_bits : Nat) : Prop where
  symtab : elf.symtab.WellFormed elfclass_bits
  unique : ∀ i j, elf.symtab.Indexed i → elf.symtab.Indexed j →
    elf.symtab.symname i = elf.symtab.symname j → i = j
  sym : ∀ rel ∈ elf.relplt ++ elf.reldyn ++ elf.relandroid,
    elf.symtab.symname rel.r_sym ≠ "" → elf.symtab.Indexed rel.r_sym
  jump_slot : elf.relplt.Pairwise fun rel rel' =>
    rel.r_type = .jumpSlot → rel'.r_type = .jumpSlot → rel.r_sym ≠ rel'.r_sym

variable {self : XhElf} {bits : Nat} {symbol : String}

theorem find?_isPlt {rels : List Reloc} {rel : Reloc}
    (h : rels.Pairwise fun rel rel' =>
      rel.r_type = .jumpSlot → rel'.r_type = .jumpSlot → rel.r_sym ≠ rel'.r_sym)
    (hrel : rel ∈ rels) (htype : rel.r_type = .jumpSlot) :
    rels.find? (·.isPlt rel.r_sym) = some rel := by
  induction rels with
  | nil => cases hrel
  | cons rel' rels ih =>
    obtain ⟨hfirst, hrest⟩ := List.pairwise_cons.1 h
    rw [List.find?_cons]
    rcases List.mem_cons.1 hrel with rfl | hmem
    · simp [Reloc.isPlt, htype]
    · have hother : rel'.isPlt rel.r_sym = false := by
        unfold Reloc.isPlt
        rw [decide_eq_false_iff_not]
        exact fun hsame => hfirst rel hmem hsame.2 htype hsame.1
      rw [hother]
      exact ih hrest hmem

/-- The lookup of a slot's symbol finds the index in its relocation. -/
theorem find_of_rel (h : self.Linked bits) (hsymbol : symbol ≠ "") {rel : Reloc}
    (hrel : rel ∈ self.relplt ++ self.reldyn ++ self.relandroid)
    (hname : self.symtab.symname rel.r_sym = symbol) :
    self.symtab.xh_elf_find_symidx_by_name bits symbol = some rel.r_sym := by
  subst hname
  have hindexed := h.sym rel hrel hsymbol
  exact SymTab.find_symname h.symtab hindexed fun j hj hsame => h.unique j _ hj hindexed hsame

theorem slots_subset_walk (h : self.Linked bits) (hsymbol : symbol ≠ "") :
    self.slots symbol ⊆ self.walk bits symbol := by
  intro a ha
  obtain ⟨rel, hrel, rfl⟩ := List.mem_map.1 ha
  unfold XhElf.walk
  rcases List.mem_append.1 hrel with hplt | hdyn
  · obtain ⟨hmem, hslot⟩ := List.mem_filter.1 hplt
    simp only [decide_eq_true_eq] at hslot
    have htables : rel ∈ self.relplt ++ self.reldyn ++ self.relandroid :=
      List.mem_append_left _ (List.mem_append_left _ hmem)
    rw [find_of_rel h hsymbol htables hslot.2]
    refine List.mem_map_of_mem (List.mem_append_left _ ?_)
    rw [find?_isPlt h.jump_slot hmem hslot.1]
    exact Option.mem_toList.2 rfl
  · obtain ⟨hmem, hslot⟩ := List.mem_filter.1 hdyn
    simp only [decide_eq_true_eq] at hslot
    have htables : rel ∈ self.relplt ++ self.reldyn ++ self.relandroid := by
      rw [List.append_assoc]
      exact List.mem_append_right _ hmem
    rw [find_of_rel h hsymbol htables hslot.2]
    refine List.mem_map_of_mem (List.mem_append_right _ (List.mem_filter.2 ⟨hmem, ?_⟩))
    exact decide_eq_true ⟨rfl, hslot.1⟩

/-- Hooking a symbol of an ELF as a linker writes it leaves the new function in every slot of the
symbol, and every other cell but the one for the old pointer as it was. -/
theorem xh_elf_hook_complete {u : Util} (hu : u.Succeeds) (h : self.Linked u.elfclass_bits)
    (hrange : self.InRange) (hsymbol : symbol ≠ "") {new_func : Addr} (hnew : new_func ≠ 0)
    {old_func : Option Addr} (hold : ∀ a ∈ self.slots symbol, old_func ≠ some a) (m : Mem) :
    (∀ a ∈ self.slots symbol, (xh_elf_hook u self new_func old_func symbol m).1 a = new_func) ∧
      (∀ a, a ∉ self.slots symbol → old_func ≠ some a →
        (xh_elf_hook u self new_func old_func symbol m).1 a = m a) ∧
      (xh_elf_hook u self new_func old_func symbol m).2 = 0 := by
  rw [xh_elf_hook_eq hu hrange hnew]
  refine ⟨fun a ha => ?_, fun a ha hne => ?_, rfl⟩
  · apply Redirect.applyAll_holds
    · intro op hop _
      obtain ⟨b, -, rfl⟩ := List.mem_map.1 hop
      rfl
    · intro op hop
      obtain ⟨b, -, rfl⟩ := List.mem_map.1 hop
      exact hold a ha
    · exact Or.inr ⟨_, List.mem_map_of_mem (slots_subset_walk h hsymbol ha), rfl⟩
  · apply Redirect.applyAll_frame
    intro op hop
    obtain ⟨b, hb, rfl⟩ := List.mem_map.1 hop
    refine ⟨fun hab => ha ?_, hne⟩
    rw [← hab]
    exact self.walk_subset_slots _ _ hb

/-! ### A library that imports `pthread_create` and exports `work` -/

def work_symtab : SymTab where
  symname i := if i = 1 then "pthread_create" else if i = 2 then "work" else ""
  hash := .gnu [2] [2090874857] [0x8000010000000000] 2 5

def work_elf : XhElf where
  pathname := "libwork.so"
  base_addr := 0x1000
  bias_addr := 0x1000
  symtab := work_symtab
  relplt := [⟨0x20, 1, .jumpSlot⟩, ⟨0x28, 2, .jumpSlot⟩]
  reldyn := [⟨0x30, 1, .abs⟩, ⟨0x38, 0, .other 1027⟩]
  relandroid := []

theorem gnu_hash_work : xh_elf_gnu_hash "work" = 2090874856 := by
  have hbytes : "work".toUTF8 = ⟨#[119, 111, 114, 107]⟩ := rfl
  have hlist : "work".toUTF8.toList = [119, 111, 114, 107] := by
    rw [hbytes]
    simp [ByteArray.toList, ByteArray.toList.loop, ByteArray.size]
    decide
  rw [xh_elf_gnu_hash, hlist]
  decide

theorem wellFormed_work : work_symtab.WellFormed 64 := by
  have hname : work_symtab.symname (2 + 0) = "work" := rfl
  refine ⟨by decide, by decide, by decide, ?_, ?_, ?_⟩ <;> intro i hi <;>
    obtain rfl : i = 0 := by simpa using hi
  · rw [hname, gnu_hash_work]
    decide
  · rw [hname, gnu_hash_work]
    refine ⟨by decide, by decide, fun j _ hj => absurd hj (Nat.not_lt_zero j)⟩
  · rw [hname, gnu_hash_work]
    decide

theorem find_work :
    (work_symtab.xh_elf_find_symidx_by_name 64 "pthread_create").isSome ∧
      ¬ (work_symtab.xh_elf_find_symidx_by_name 64 "malloc").isSome := by
  rw [SymTab.find_isSome_iff wellFormed_work, SymTab.find_isSome_iff wellFormed_work]
  refine ⟨⟨1, (by decide : 1 < 2 + 1), rfl⟩, ?_⟩
  rintro ⟨i, -, hname⟩
  change (if i = 1 then "pthread_create" else if i = 2 then "work" else "") = "malloc" at hname
  split_ifs at hname <;> revert hname <;> decide

theorem linked_work : work_elf.Linked 64 := by
  refine ⟨wellFormed_work, ?_, ?_, ?_⟩
  · have hnames : ∀ i < 3, ∀ j < 3, work_symtab.symname i = work_symtab.symname j → i = j := by
      decide
    exact fun i j hi hj => hnames i hi j hj
  · intro rel hrel _
    have hlt : ∀ rel ∈ work_elf.relplt ++ work_elf.reldyn ++ work_elf.relandroid,
        rel.r_sym < 3 := by
      decide
    exact hlt rel hrel
  · refine List.pairwise_pair.2 fun _ _ => ?_
    decide

theorem hook_complete_work :
    (xh_elf_hook ⟨64, fun _ => .ok 3, fun _ _ => 0⟩ work_elf 0xcafe (some 0x9000) "pthread_create"
        fun _ => 7).1 0x1020 = 0xcafe ∧
      (xh_elf_hook ⟨64, fun _ => .ok 3, fun _ _ => 0⟩ work_elf 0xcafe (some 0x9000)
        "pthread_create" fun _ => 7).1 0x1030 = 0xcafe ∧
      (xh_elf_hook ⟨64, fun _ => .ok 3, fun _ _ => 0⟩ work_elf 0xcafe (some 0x9000)
        "pthread_create" fun _ => 7).1 0x1028 = 7 := by
  have hu : Util.Succeeds ⟨64, fun _ => .ok 3, fun _ _ => 0⟩ :=
    ⟨fun _ => ⟨3, rfl⟩, fun _ _ => rfl⟩
  have hslots : work_elf.slots "pthread_create" = [0x1020, 0x1030] := by decide
  have hold : ∀ a ∈ work_elf.slots "pthread_create", some 0x9000 ≠ some a := by
    rw [hslots]
    decide
  have hrange : work_elf.InRange := by
    unfold XhElf.InRange
    decide
  obtain ⟨hin, hout, -⟩ := xh_elf_hook_complete hu linked_work hrange (by decide)
    (by decide : 0xcafe ≠ 0) hold fun _ => 7
  rw [hslots] at hin hout
  exact ⟨hin _ (by decide), hin _ (by decide), hout _ (by decide) (by decide)⟩

end ElfHook.XHook

import Mathlib.Tactic.Common
import ElfHook.Lib.Redirect

/-!
# xHook: one mapped ELF

`xh_elf.c` over the tables a mapped ELF leads to. An `Image` is what stands at a base address: the
ELF header, the program headers, and the tables that the dynamic segment points at (a table the
segment does not mention is empty or `none`; the raw pointers to them are not modelled). A relocation
table is the list of entries its iterator yields.

`XhElf.walk` is the list of cells `xh_elf_hook` visits for a symbol, in order, and `XhElf.slots` all
the relocation entries of that symbol. `xh_elf_hook_eq` says that hooking is redirecting the cells of
the walk, and `walk_subset_slots` that no cell of another symbol is visited.
-/

namespace ElfHook.XHook

open Lib

/-- An address, and a pointer stored at one; a sum of addresses that wraps around is not modelled. -/
abbrev Addr := Nat

abbrev Mem := Addr → Addr

def XH_ERRNO_UNKNOWN : Int := 1001
def XH_ERRNO_INVAL : Int := 1002
def XH_ERRNO_NOMEM : Int := 1003
def XH_ERRNO_FORMAT : Int := 1007

/-! ### The ELF header and the program headers -/

structure Ehdr where
  ei_mag : List Nat
  ei_class : Nat
  ei_data : Nat
  ei_version : Nat
  e_type : Nat
  e_machine : Nat
  e_version : Nat

/-- The class and machine that xHook is compiled for. -/
structure Target where
  elfclass : Nat
  machine : Nat

def xh_elf_check_elfheader (target : Target) (ehdr : Ehdr) : Int :=
  if ehdr.ei_mag ≠ [0x7f, 0x45, 0x4c, 0x46] then XH_ERRNO_FORMAT
  else if target.elfclass ≠ ehdr.ei_class then XH_ERRNO_FORMAT
  else if 1 ≠ ehdr.ei_data then XH_ERRNO_FORMAT
  else if 1 ≠ ehdr.ei_version then XH_ERRNO_FORMAT
  else if 2 ≠ ehdr.e_type ∧ 3 ≠ ehdr.e_type then XH_ERRNO_FORMAT
  else if target.machine ≠ ehdr.e_machine then XH_ERRNO_FORMAT
  else if 1 ≠ ehdr.e_version then XH_ERRNO_FORMAT
  else 0

def PT_LOAD : Nat := 1
def PT_DYNAMIC : Nat := 2

structure Phdr where
  p_type : Nat
  p_offset : Nat
  p_vaddr : Nat

def xh_elf_get_first_segment_by_type (phdr : List Phdr) (type : Nat) : Option Phdr :=
  phdr.find? fun p => p.p_type = type

def xh_elf_get_first_segment_by_type_offset (phdr : List Phdr) (type offset : Nat) : Option Phdr :=
  phdr.find? fun p => p.p_type = type ∧ p.p_offset = offset

/-! ### Symbols -/

/-- `DT_HASH`, or `DT_GNU_HASH` where the ELF has one. -/
inductive HashTable where
  | elf (bucket chain : List Nat)
  | gnu (bucket chain bloom : List Nat) (symoffset bloom_shift : Nat)

/-- The symbol names (`strtab + symtab[i].st_name`) and the hash table over them. -/
structure SymTab where
  symname : Nat → String
  hash : HashTable

def xh_elf_hash (name : String) : UInt32 :=
  name.toUTF8.toList.foldl (fun h c =>
    let h := (h <<< 4) + c.toUInt32
    let g := h &&& 0xf0000000
    (h ^^^ g) ^^^ (g >>> 24)) 0

def xh_elf_gnu_hash (name : String) : UInt32 :=
  name.toUTF8.toList.foldl (fun h c => h + ((h <<< 5) + c.toUInt32)) 5381

namespace SymTab

/-- The loop over one chain of a `DT_HASH` table; a chain has at most as many links as the table has
entries, so that many rounds are enough. -/
def hashChain (self : SymTab) (chain : List Nat) (symbol : String) : Nat → Nat → Option Nat
  | 0, _ => none
  | rounds + 1, i =>
    if i = 0 then none
    else if symbol = self.symname i then some i
    else hashChain self chain symbol rounds (chain.getD i 0)

def xh_elf_hash_lookup (self : SymTab) (bucket chain : List Nat) (symbol : String) : Option Nat :=
  hashChain self chain symbol (chain.length + 1)
    (bucket.getD ((xh_elf_hash symbol).toNat % bucket.length) 0)

/-- The loop over one chain of a `DT_GNU_HASH` table, which ends at an entry with the lowest bit set. -/
def gnuChain (self : SymTab) (chain : List Nat) (symoffset : Nat) (symbol : String) (hash : Nat) :
    Nat → Nat → Option Nat
  | 0, _ => none
  | rounds + 1, i =>
    let symhash := chain.getD (i - symoffset) 1
    if hash ||| 1 = symhash ||| 1 ∧ symbol = self.symname i then some i
    else if symhash % 2 = 1 then none
    else gnuChain self chain symoffset symbol hash rounds (i + 1)

/-- Words of the bloom filter have `elfclass_bits` bits. -/
def xh_elf_gnu_hash_lookup_def (self : SymTab) (elfclass_bits : Nat)
    (bucket chain bloom : List Nat) (symoffset bloom_shift : Nat) (symbol : String) : Option Nat :=
  let hash := (xh_elf_gnu_hash symbol).toNat
  let word := bloom.getD (hash / elfclass_bits % bloom.length) 0
  let mask := 1 <<< (hash % elfclass_bits) ||| 1 <<< (hash >>> bloom_shift % elfclass_bits)
  if word &&& mask ≠ mask then none
  else
    let i := bucket.getD (hash % bucket.length) 0
    if i < symoffset then none
    else gnuChain self chain symoffset symbol hash (chain.length + 1) i

def xh_elf_gnu_hash_lookup_undef (self : SymTab) (symoffset : Nat) (symbol : String) : Option Nat :=
  (List.range symoffset).find? fun i => self.symname i = symbol

def xh_elf_find_symidx_by_name (self : SymTab) (elfclass_bits : Nat) (symbol : String) :
    Option Nat :=
  match self.hash with
  | .elf bucket chain => self.xh_elf_hash_lookup bucket chain symbol
  | .gnu bucket chain bloom symoffset bloom_shift =>
    (self.xh_elf_gnu_hash_lookup_def elfclass_bits bucket chain bloom symoffset bloom_shift
      symbol).or (self.xh_elf_gnu_hash_lookup_undef symoffset symbol)

theorem symname_of_hashChain {self : SymTab} {chain : List Nat} {symbol : String} {rounds i j : Nat}
    (h : self.hashChain chain symbol rounds i = some j) : self.symname j = symbol := by
  induction rounds generalizing i with
  | zero => simp [hashChain] at h
  | succ rounds ih =>
    rw [hashChain] at h
    split_ifs at h with _ hname
    · cases h
      exact hname.symm
    · exact ih h

theorem symname_of_gnuChain {self : SymTab} {chain : List Nat} {symoffset hash : Nat}
    {symbol : String} {rounds i j : Nat}
    (h : self.gnuChain chain symoffset symbol hash rounds i = some j) : self.symname j = symbol := by
  induction rounds generalizing i with
  | zero => simp [gnuChain] at h
  | succ rounds ih =>
    rw [gnuChain] at h
    split_ifs at h with hname
    · cases h
      exact hname.2.symm
    · exact ih h

/-- A symbol index that the lookup finds carries the name looked up. -/
theorem symname_of_find {self : SymTab} {bits i : Nat} {symbol : String}
    (h : self.xh_elf_find_symidx_by_name bits symbol = some i) : self.symname i = symbol := by
  unfold xh_elf_find_symidx_by_name at h
  cases hhash : self.hash with
  | elf bucket chain =>
    rw [hhash] at h
    exact symname_of_hashChain h
  | gnu bucket chain bloom symoffset bloom_shift =>
    rw [hhash] at h
    rcases Option.or_eq_some_iff.1 h with h | ⟨_, h⟩
    · simp only [xh_elf_gnu_hash_lookup_def] at h
      split_ifs at h
      exact symname_of_gnuChain h
    · simpa using List.find?_some h

end SymTab

/-! ### Initialising -/

inductive RelType where
  | jumpSlot
  | globDat
  | abs
  | other (n : Nat)
deriving DecidableEq

/-- A relocation entry, `r_info` taken apart. -/
structure Reloc where
  r_offset : Nat
  r_sym : Nat
  r_type : RelType
deriving DecidableEq

/-- The packed Android table: its leading bytes and the entries decoded from the rest. -/
structure Packed where
  header : List Char
  rels : List Reloc

structure Image where
  ehdr : Ehdr
  phdr : List Phdr
  symtab : Option SymTab
  relplt : List Reloc
  reldyn : List Reloc
  relandroid : Option Packed

structure XhElf where
  pathname : String
  base_addr : Addr
  bias_addr : Addr
  symtab : SymTab
  relplt : List Reloc
  reldyn : List Reloc
  relandroid : List Reloc

def xh_elf_init (img : Image) (base_addr : Addr) (pathname : String) : Except Int XhElf :=
  if base_addr = 0 then .error XH_ERRNO_INVAL
  else
    match xh_elf_get_first_segment_by_type_offset img.phdr PT_LOAD 0,
        xh_elf_get_first_segment_by_type img.phdr PT_DYNAMIC, img.symtab with
    | none, _, _ => .error XH_ERRNO_FORMAT
    | some phdr0, dhdr, symtab =>
      if base_addr < phdr0.p_vaddr then .error XH_ERRNO_FORMAT
      else if dhdr.isNone then .error XH_ERRNO_FORMAT
      else if (img.relandroid.map (·.header)).getD ['A', 'P', 'S', '2'] ≠ ['A', 'P', 'S', '2'] then
        .error XH_ERRNO_FORMAT
      else if base_addr - phdr0.p_vaddr = 0 then .error XH_ERRNO_FORMAT
      else
        match symtab with
        | none => .error XH_ERRNO_FORMAT
        | some symtab =>
          .ok { pathname, base_addr, bias_addr := base_addr - phdr0.p_vaddr, symtab
                relplt := img.relplt, reldyn := img.reldyn
                relandroid := (img.relandroid.map (·.rels)).getD [] }

theorem xh_elf_init_pathname {img : Image} {base_addr : Addr} {pathname : String} {self : XhElf}
    (h : xh_elf_init img base_addr pathname = .ok self) : self.pathname = pathname := by
  unfold xh_elf_init at h
  repeat' split at h
  all_goals cases h
  rfl

/-! ### Replacing a pointer -/

/-- The page protection of the process as `xh_util.c` reads and sets it, with its error codes, and
the width of a bloom filter word. -/
structure Util where
  elfclass_bits : Nat
  xh_util_get_addr_protect : Addr → Except Int Nat
  xh_util_set_addr_protect : Addr → Nat → Int

/-- Both calls succeed on every address. -/
def Util.Succeeds (u : Util) : Prop :=
  (∀ addr, ∃ prot, u.xh_util_get_addr_protect addr = .ok prot) ∧
    ∀ addr prot, u.xh_util_set_addr_protect addr prot = 0

def PROT_READ_WRITE : Nat := 3

def xh_elf_replace_function (u : Util) (m : Mem) (addr new_func : Addr) (old_func : Option Addr) :
    Mem × Int :=
  if m addr = new_func then (m, 0)
  else
    match u.xh_util_get_addr_protect addr with
    | .error r => (m, r)
    | .ok old_prot =>
      let r := if old_prot ≠ PROT_READ_WRITE then u.xh_util_set_addr_protect addr PROT_READ_WRITE
        else 0
      if r ≠ 0 then (m, r)
      else
        let old_addr := m addr
        let m := old_func.elim m fun o => Function.update m o old_addr
        -- a failure to restore the protection is only logged
        (Function.update m addr new_func, 0)

/-- Returns the memory, the error code and `found`. -/
def xh_elf_find_and_replace_func (u : Util) (self : XhElf) (is_plt : Bool) (new_func : Addr)
    (old_func : Option Addr) (symidx : Nat) (m : Mem) (rel : Reloc) : Mem × Int × Bool :=
  if rel.r_sym ≠ symidx then (m, 0, false)
  else if is_plt ∧ rel.r_type ≠ .jumpSlot then (m, 0, false)
  else if ¬ is_plt ∧ (rel.r_type ≠ .globDat ∧ rel.r_type ≠ .abs) then (m, 0, false)
  else
    let addr := self.bias_addr + rel.r_offset
    if addr < self.base_addr then (m, XH_ERRNO_FORMAT, true)
    else
      let r := xh_elf_replace_function u m addr new_func old_func
      (r.1, r.2, true)

section Hook

variable (u : Util) (self : XhElf) (new_func : Addr) (old_func : Option Addr) (symidx : Nat)

/-- The loop over `.rel(a).plt`, left at the first entry found. -/
def hookPlt : List Reloc → Mem → Mem × Int
  | [], m => (m, 0)
  | rel :: rels, m =>
    let r := xh_elf_find_and_replace_func u self true new_func old_func symidx m rel
    if r.2.1 ≠ 0 then (r.1, r.2.1) else if r.2.2 then (r.1, 0) else hookPlt rels r.1

/-- The loop over `.rel(a).dyn`, and over `.rel(a).android`. -/
def hookDyn : List Reloc → Mem → Mem × Int
  | [], m => (m, 0)
  | rel :: rels, m =>
    let r := xh_elf_find_and_replace_func u self false new_func old_func symidx m rel
    if r.2.1 ≠ 0 then (r.1, r.2.1) else hookDyn rels r.1

def xh_elf_hook (symbol : String) (m : Mem) : Mem × Int :=
  if new_func = 0 then (m, XH_ERRNO_INVAL)
  else
    match self.symtab.xh_elf_find_symidx_by_name u.elfclass_bits symbol with
    | none => (m, 0)
    | some symidx =>
      let r := hookPlt u self new_func old_func symidx self.relplt m
      if r.2 ≠ 0 then r
      else
        let r := hookDyn u self new_func old_func symidx self.reldyn r.1
        if r.2 ≠ 0 then r
        else hookDyn u self new_func old_func symidx self.relandroid r.1

end Hook

/-! ### The cells of a symbol -/

/-- An entry of a `.plt` table that `xh_elf_find_and_replace_func` accepts. -/
def Reloc.isPlt (rel : Reloc) (symidx : Nat) : Bool :=
  rel.r_sym = symidx ∧ rel.r_type = .jumpSlot

/-- An entry of another table that it accepts. -/
def Reloc.isDyn (rel : Reloc) (symidx : Nat) : Bool :=
  rel.r_sym = symidx ∧ (rel.r_type = .globDat ∨ rel.r_type = .abs)

namespace XhElf

def addr (self : XhElf) (rel : Reloc) : Addr := self.bias_addr + rel.r_offset

/-- The cells of every entry of the three tables. -/
def cells (self : XhElf) : List Addr :=
  (self.relplt ++ self.reldyn ++ self.relandroid).map self.addr

/-- The relocation slots of a symbol: the jump slots of `.plt` and the pointers of the other two
tables whose entry names it. -/
def slots (self : XhElf) (symbol : String) : List Addr :=
  ((self.relplt.filter fun rel => rel.r_type = .jumpSlot ∧ self.symtab.symname rel.r_sym = symbol) ++
    (self.reldyn ++ self.relandroid).filter fun rel =>
      (rel.r_type = .globDat ∨ rel.r_type = .abs) ∧ self.symtab.symname rel.r_sym = symbol).map
    self.addr

/-- The cells that hooking the symbol index visits, in order. -/
def walkIdx (self : XhElf) (symidx : Nat) : List Addr :=
  ((self.relplt.find? (·.isPlt symidx)).toList ++
    (self.reldyn ++ self.relandroid).filter (·.isDyn symidx)).map self.addr

def walk (self : XhElf) (elfclass_bits : Nat) (symbol : String) : List Addr :=
  match self.symtab.xh_elf_find_symidx_by_name elfclass_bits symbol with
  | none => []
  | some symidx => self.walkIdx symidx

/-- No entry of the tables points below the base address, `bias_addr + r_offset` being a sum of natural
numbers. -/
def InRange (self : XhElf) : Prop :=
  ∀ rel ∈ self.relplt ++ self.reldyn ++ self.relandroid, self.base_addr ≤ self.addr rel

theorem walk_subset_slots (self : XhElf) (bits : Nat) (symbol : String) :
    self.walk bits symbol ⊆ self.slots symbol := by
  intro a ha
  unfold walk at ha
  cases hidx : self.symtab.xh_elf_find_symidx_by_name bits symbol with
  | none => simp [hidx] at ha
  | some symidx =>
    have hname := SymTab.symname_of_find hidx
    rw [hidx] at ha
    obtain ⟨rel, hrel, rfl⟩ := List.mem_map.1 ha
    refine List.mem_map.2 ⟨rel, ?_, rfl⟩
    rcases List.mem_append.1 hrel with hplt | hdyn
    · have hfind := Option.mem_toList.1 hplt
      have his := List.find?_some hfind
      simp only [Reloc.isPlt, decide_eq_true_eq] at his
      refine List.mem_append_left _ (List.mem_filter.2 ⟨List.mem_of_find?_eq_some hfind, ?_⟩)
      simp [his.1, his.2, hname]
    · obtain ⟨hmem, his⟩ := List.mem_filter.1 hdyn
      simp only [Reloc.isDyn, decide_eq_true_eq] at his
      refine List.mem_append_right _ (List.mem_filter.2 ⟨hmem, ?_⟩)
      simp [his.1, his.2, hname]

theorem slots_subset_cells (self : XhElf) (symbol : String) :
    self.slots symbol ⊆ self.cells := by
  refine List.map_subset _ ?_
  rw [List.append_assoc]
  exact List.append_subset.2 ⟨fun r hr => List.mem_append_left _ (List.mem_filter.1 hr).1,
    fun r hr => List.mem_append_right _ (List.mem_filter.1 hr).1⟩

end XhElf

/-! ### What hooking does -/

section Spec

variable {u : Util} {self : XhElf} {new_func : Addr} {old_func : Option Addr} {symidx : Nat}

/-- The redirections of a hook in one ELF. -/
def redirects (u : Util) (self : XhElf) (symbol : String) (new_func : Addr)
    (old_func : Option Addr) : List (Redirect Addr Addr) :=
  (self.walk u.elfclass_bits symbol).map fun a => ⟨a, new_func, old_func⟩

theorem xh_elf_replace_function_eq (hu : u.Succeeds) (m : Mem) (addr : Addr) :
    xh_elf_replace_function u m addr new_func old_func =
      (Redirect.apply m ⟨addr, new_func, old_func⟩, 0) := by
  obtain ⟨prot, hprot⟩ := hu.1 addr
  unfold xh_elf_replace_function Redirect.apply Redirect.keep
  split_ifs with hdone
  · rfl
  · simp only [hprot, hu.2, ite_self, ne_eq, not_true_eq_false, if_false]

theorem find_and_replace_plt (hu : u.Succeeds) (m : Mem) (rel : Reloc)
    (hrange : self.base_addr ≤ self.addr rel) :
    xh_elf_find_and_replace_func u self true new_func old_func symidx m rel =
      if rel.isPlt symidx then (Redirect.apply m ⟨self.addr rel, new_func, old_func⟩, 0, true)
      else (m, 0, false) := by
  have hle : ¬ self.bias_addr + rel.r_offset < self.base_addr := Nat.not_lt.2 hrange
  unfold xh_elf_find_and_replace_func
  by_cases hsym : rel.r_sym = symidx <;> by_cases htype : rel.r_type = .jumpSlot <;>
    simp [Reloc.isPlt, hsym, htype, hle, xh_elf_replace_function_eq hu, XhElf.addr]

theorem find_and_replace_dyn (hu : u.Succeeds) (m : Mem) (rel : Reloc)
    (hrange : self.base_addr ≤ self.addr rel) :
    xh_elf_find_and_replace_func u self false new_func old_func symidx m rel =
      if rel.isDyn symidx then (Redirect.apply m ⟨self.addr rel, new_func, old_func⟩, 0, true)
      else (m, 0, false) := by
  have hle : ¬ self.bias_addr + rel.r_offset < self.base_addr := Nat.not_lt.2 hrange
  unfold xh_elf_find_and_replace_func
  by_cases hsym : rel.r_sym = symidx <;> by_cases hglob : rel.r_type = .globDat <;>
    by_cases habs : rel.r_type = .abs <;>
    simp [Reloc.isDyn, hsym, hglob, habs, hle, xh_elf_replace_function_eq hu, XhElf.addr]

theorem hookPlt_eq (hu : u.Succeeds) {rels : List Reloc}
    (hrange : ∀ rel ∈ rels, self.base_addr ≤ self.addr rel) (m : Mem) :
    hookPlt u self new_func old_func symidx rels m =
      (Redirect.applyAll m ((rels.find? (·.isPlt symidx)).toList.map
        fun rel => ⟨self.addr rel, new_func, old_func⟩), 0) := by
  induction rels with
  | nil => rfl
  | cons rel rels ih =>
    rw [hookPlt, find_and_replace_plt hu m rel (hrange rel List.mem_cons_self), List.find?_cons]
    cases rel.isPlt symidx with
    | true => simp
    | false => simpa using ih fun r hr => hrange r (List.mem_cons_of_mem _ hr)

theorem hookDyn_eq (hu : u.Succeeds) {rels : List Reloc}
    (hrange : ∀ rel ∈ rels, self.base_addr ≤ self.addr rel) (m : Mem) :
    hookDyn u self new_func old_func symidx rels m =
      (Redirect.applyAll m ((rels.filter (·.isDyn symidx)).map
        fun rel => ⟨self.addr rel, new_func, old_func⟩), 0) := by
  induction rels generalizing m with
  | nil => rfl
  | cons rel rels ih =>
    have ih := ih fun r hr => hrange r (List.mem_cons_of_mem _ hr)
    rw [hookDyn, find_and_replace_dyn hu m rel (hrange rel List.mem_cons_self), List.filter_cons]
    cases rel.isDyn symidx with
    | true => simpa using ih _
    | false => simpa using ih m

/-- Where the protection calls succeed and the tables are in range, hooking a symbol redirects the
cells of its walk and returns `0`. -/
theorem xh_elf_hook_eq (hu : u.Succeeds) (hrange : self.InRange) (hnew : new_func ≠ 0)
    (symbol : String) (m : Mem) :
    xh_elf_hook u self new_func old_func symbol m =
      (Redirect.applyAll m (redirects u self symbol new_func old_func), 0) := by
  unfold xh_elf_hook redirects XhElf.walk
  rw [if_neg hnew]
  cases self.symtab.xh_elf_find_symidx_by_name u.elfclass_bits symbol with
  | none => rfl
  | some symidx =>
    simp only [XhElf.InRange, List.forall_mem_append] at hrange
    simp only [hookPlt_eq hu hrange.1.1, hookDyn_eq hu hrange.1.2, hookDyn_eq hu hrange.2, ne_eq,
      not_true_eq_false, if_false, XhElf.walkIdx, List.map_append, List.map_map,
      List.filter_append, Redirect.applyAll_append, Function.comp_def]

end Spec

end ElfHook.XHook

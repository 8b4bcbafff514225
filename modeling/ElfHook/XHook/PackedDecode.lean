import ElfHook.XHook.Packed

/-!
# xHook: decoding packed relocation tables

* `readReloc_eq`, `read_group_fields_eq`: one entry, and the head of one group, read back.
* `yields_groups`: the iterator over the groups of a table.
* `entries_encodeTable`: the relocations of every well-formed table come back in order.
* `hookAndroid_encodeTable`: so hooking does not depend on how they are packed.
-/

namespace ElfHook.XHook

open Lib

variable {w : Nat}

section Decode

variable {self self' self'' : PackedRelocIterator w} {rest : List UInt8}

theorem read_word (set : PackedRelocIterator w → BitVec w → PackedRelocIterator w) {x : BitVec w}
    (h : self.decoder = word x ++ rest) :
    self.read set = some (set { self with decoder := rest } x) := by
  unfold PackedRelocIterator.read
  rw [h, decoder_next_word]
  rfl

theorem readIf_word {c : Bool} {set : PackedRelocIterator w → BitVec w → PackedRelocIterator w}
    (x : BitVec w) (rest : List UInt8) (h : self.decoder = (if c then word x else []) ++ rest)
    (hread : c → set { self with decoder := rest } x = self')
    (hskip : c = false → { self with decoder := rest } = self') :
    self.readIf c set = some self' := by
  unfold PackedRelocIterator.readIf
  cases c with
  | true => rw [if_pos rfl, read_word _ h, hread rfl]
  | false =>
    have hrest : rest = self.decoder := by simpa using h.symm
    rw [if_neg Bool.false_ne_true, ← hskip rfl, hrest]

/-- The iterator hands out `rels` in turn and then stands at `self'`. -/
inductive Yields : PackedRelocIterator w → List (RelCommon w) → PackedRelocIterator w → Prop
  | nil (self : PackedRelocIterator w) : Yields self [] self
  | cons {self self₁ self' : PackedRelocIterator w} {rel : RelCommon w} {rels : List (RelCommon w)}
      (hnext : xh_elf_packed_reloc_iterator_next self = some (rel, self₁))
      (hrels : Yields self₁ rels self') : Yields self (rel :: rels) self'

theorem Yields.append {rels rels' : List (RelCommon w)} (h : Yields self rels self')
    (h' : Yields self' rels' self'') : Yields self (rels ++ rels') self'' := by
  induction h with
  | nil => exact h'
  | cons hnext _ ih => exact .cons hnext (ih h')

theorem Yields.entries {rels : List (RelCommon w)} (h : Yields self rels self') (rounds : Nat) :
    XHook.entries (rels.length + rounds) self = rels ++ XHook.entries rounds self' := by
  induction h with
  | nil => simp
  | cons hnext _ ih =>
    rw [List.length_cons, Nat.add_right_comm, XHook.entries, hnext]
    simp only [ih, List.cons_append]

theorem flag_and {a f : Nat} (hw : 4 ≤ w) (ha : a < 16) :
    (BitVec.ofNat w a &&& BitVec.ofNat w f ≠ 0) ↔ a &&& f ≠ 0 := by
  have hpow : 2 ^ 4 ≤ 2 ^ w := Nat.pow_le_pow_right (by decide) hw
  have hlt : a &&& f < 2 ^ w := (Nat.and_le_left).trans_lt (by omega)
  rw [← BitVec.ofNat_and, not_iff_not, ← BitVec.toNat_inj, BitVec.toNat_ofNat,
    Nat.mod_eq_of_lt hlt]
  simp

theorem Group.flags_lt (g : Group w) : g.flags < 16 := by
  unfold Group.flags
  cases g.by_info <;> cases g.by_offset_delta <;> cases g.by_addend <;> cases g.has_addend <;>
    decide

/-- What the flag tests of the iterator say inside a group. -/
structure Flags (g : Group w) (it : PackedRelocIterator w) : Prop where
  info : it.flag RELOCATION_GROUPED_BY_INFO_FLAG = g.by_info
  offset_delta : it.flag RELOCATION_GROUPED_BY_OFFSET_DELTA_FLAG = g.by_offset_delta
  addend : it.flag RELOCATION_GROUPED_BY_ADDEND_FLAG = g.by_addend
  has_addend : it.flag RELOCATION_GROUP_HAS_ADDEND_FLAG = g.has_addend

theorem flags_of_eq (hw : 4 ≤ w) {g : Group w} (h : self.group_flags = BitVec.ofNat w g.flags) :
    Flags g self := by
  have hflag (f : Nat) : self.flag f = decide (g.flags &&& f ≠ 0) := by
    unfold PackedRelocIterator.flag
    rw [h]
    exact decide_eq_decide.2 (flag_and hw g.flags_lt)
  constructor <;> rw [hflag] <;> unfold Group.flags <;>
    cases g.by_info <;> cases g.by_offset_delta <;> cases g.by_addend <;> cases g.has_addend <;>
    decide

/-- Before the entry `e` of a group: what the group gives of it is already there. -/
structure Ready (g : Group w) (e : Rela w) (it : PackedRelocIterator w) : Prop where
  flags : it.group_flags = BitVec.ofNat w g.flags
  offset : g.by_offset_delta → it.r_offset + it.group_r_offset_delta = e.r_offset
  info : g.by_info → it.r_info = e.r_info
  addend : ¬ (g.has_addend ∧ ¬ g.by_addend) → it.r_addend = e.r_addend
  rela : g.has_addend → it.is_use_rela

/-- The iterator after it has read the entry `e`. -/
def PackedRelocIterator.after (self : PackedRelocIterator w) (e : Rela w) (rest : List UInt8) :
    PackedRelocIterator w :=
  { self with
    decoder := rest, r_offset := e.r_offset, r_info := e.r_info, r_addend := e.r_addend
    relocation_index := self.relocation_index + 1
    relocation_group_index := self.relocation_group_index + 1 }

theorem readReloc_eq (hw : 4 ≤ w) {g : Group w} {e : Rela w} (h : Ready g e self)
    (hdec : self.decoder =
      (if g.by_offset_delta then [] else word (e.r_offset - self.r_offset)) ++
        (if g.by_info then [] else word e.r_info) ++
        (if g.has_addend ∧ ¬ g.by_addend then word (e.r_addend - self.r_addend) else []) ++ rest) :
    readReloc self = some (e.common self.is_use_rela, self.after e rest) := by
  have hflags := flags_of_eq hw h.flags
  simp only [List.append_assoc] at hdec
  generalize hrest₂ : (if g.has_addend ∧ ¬ g.by_addend then word (e.r_addend - self.r_addend)
    else []) ++ rest = rest₂ at hdec
  generalize hrest₁ : (if g.by_info then [] else word e.r_info) ++ rest₂ = rest₁ at hdec
  have hoffset : readOffset self =
      some { self with decoder := rest₁, r_offset := e.r_offset } := by
    unfold readOffset
    rw [hflags.offset_delta]
    cases hd : g.by_offset_delta with
    | true =>
      have hrest : rest₁ = self.decoder := by simpa [hd] using hdec.symm
      rw [if_pos rfl, h.offset hd, hrest]
    | false =>
      rw [if_neg Bool.false_ne_true, read_word _ (by simpa [hd] using hdec)]
      simp
  have hinfo : ({ self with
      decoder := rest₁, r_offset := e.r_offset } : PackedRelocIterator w).readIf
      (! self.flag RELOCATION_GROUPED_BY_INFO_FLAG) (fun self val => { self with r_info := val }) =
      some { self with decoder := rest₂, r_offset := e.r_offset, r_info := e.r_info } := by
    rw [hflags.info]
    apply readIf_word e.r_info rest₂
    · rw [← hrest₁]
      cases g.by_info <;> rfl
    · exact fun _ => rfl
    · intro hi
      rw [← h.info (by simpa using hi)]
  have haddend : ({ self with
      decoder := rest₂, r_offset := e.r_offset, r_info := e.r_info } : PackedRelocIterator w).readIf
      (self.is_use_rela && self.flag RELOCATION_GROUP_HAS_ADDEND_FLAG &&
        ! self.flag RELOCATION_GROUPED_BY_ADDEND_FLAG)
      (fun self val => { self with r_addend := self.r_addend + val }) =
      some { self with
        decoder := rest, r_offset := e.r_offset, r_info := e.r_info, r_addend := e.r_addend } := by
    rw [hflags.addend, hflags.has_addend]
    apply readIf_word (e.r_addend - self.r_addend) rest
    · rw [← hrest₂]
      cases hh : g.has_addend with
      | true => simp [h.rela hh]
      | false => simp
    · intro _
      simp
    · intro hc
      rw [← h.addend]
      rintro ⟨hh, hb⟩
      simp [hh, hb, h.rela hh] at hc
  exact Option.bind_eq_some_iff.2 ⟨_, hoffset, Option.bind_eq_some_iff.2 ⟨_, hinfo,
    Option.bind_eq_some_iff.2 ⟨_, haddend, rfl⟩⟩⟩

/-- The iterator after it has read the fields of a group. -/
def PackedRelocIterator.opened (self : PackedRelocIterator w) (g : Group w) (prev : Rela w)
    (rest : List UInt8) : PackedRelocIterator w :=
  { self with
    decoder := rest
    group_size := BitVec.ofNat w g.rels.length
    group_flags := BitVec.ofNat w g.flags
    group_r_offset_delta :=
      if g.by_offset_delta then g.head.r_offset - prev.r_offset else self.group_r_offset_delta
    r_info := if g.by_info then g.head.r_info else self.r_info
    r_addend := if g.has_addend ∧ ¬ g.by_addend then self.r_addend else g.head.r_addend
    relocation_group_index := 0 }

theorem readGroupAddend_eq {g : Group w} {a : BitVec w} (hflags : Flags g self)
    (hrela : g.has_addend → self.is_use_rela) (ha : g.has_addend = false → a = 0)
    (hdec : self.decoder =
      (if g.has_addend ∧ g.by_addend then word (a - self.r_addend) else []) ++ rest) :
    readGroupAddend self = some { self with
      decoder := rest
      r_addend := if g.has_addend ∧ ¬ g.by_addend then self.r_addend else a } := by
  unfold readGroupAddend
  rw [hflags.addend, hflags.has_addend]
  cases hh : g.has_addend with
  | false =>
    have hrest : rest = self.decoder := by simpa [hh] using hdec.symm
    simp [ha hh, hrest]
  | true =>
    cases hb : g.by_addend with
    | false =>
      have hrest : rest = self.decoder := by simpa [hb] using hdec.symm
      simp [hrest]
    | true =>
      have hdec' : self.decoder = word (a - self.r_addend) ++ rest := by simpa [hh, hb] using hdec
      rw [if_pos ⟨rfl, rfl⟩, if_pos (hrela hh), read_word _ hdec']
      simp

theorem read_group_fields_eq (hw : 4 ≤ w) {g : Group w} {prev : Rela w}
    (hg : g.Legal self.is_use_rela prev) (haddend : self.r_addend = prev.r_addend)
    (hdec : self.decoder = g.encode prev ++ rest) :
    xh_elf_packed_reloc_iterator_read_group_fields self =
      some (self.opened g prev (g.encodeRels prev g.rels ++ rest)) := by
  unfold Group.encode at hdec
  simp only [List.append_assoc] at hdec
  generalize hrest₅ : g.encodeRels prev g.rels ++ rest = rest₅ at hdec ⊢
  generalize hrest₄ : (if g.has_addend ∧ g.by_addend then
    word (g.head.r_addend - prev.r_addend) else []) ++ rest₅ = rest₄ at hdec
  generalize hrest₃ : (if g.by_info then word g.head.r_info else []) ++ rest₄ = rest₃ at hdec
  generalize hrest₂ : (if g.by_offset_delta then word (g.head.r_offset - prev.r_offset)
    else []) ++ rest₃ = rest₂ at hdec
  let it₂ : PackedRelocIterator w := { self with
    decoder := rest₂
    group_size := BitVec.ofNat w g.rels.length
    group_flags := BitVec.ofNat w g.flags }
  let it₃ : PackedRelocIterator w := { it₂ with
    decoder := rest₃
    group_r_offset_delta :=
      if g.by_offset_delta then g.head.r_offset - prev.r_offset else self.group_r_offset_delta }
  let it₄ : PackedRelocIterator w := { it₃ with
    decoder := rest₄
    r_info := if g.by_info then g.head.r_info else self.r_info }
  have hflags : Flags g it₂ := flags_of_eq hw rfl
  have hsize := read_word (fun self val => { self with group_size := val }) hdec
  have hgroup : ({ self with
      decoder := word (BitVec.ofNat w g.flags) ++ rest₂
      group_size := BitVec.ofNat w g.rels.length } : PackedRelocIterator w).read
      (fun self val => { self with group_flags := val }) = some it₂ :=
    read_word _ rfl
  have hdelta : it₂.readIf (it₂.flag RELOCATION_GROUPED_BY_OFFSET_DELTA_FLAG)
      (fun self val => { self with group_r_offset_delta := val }) = some it₃ := by
    rw [hflags.offset_delta]
    apply readIf_word _ _ hrest₂.symm
    · intro hc
      simp only [it₃, if_pos hc]
    · intro hc
      simp only [it₃, hc, if_neg Bool.false_ne_true, it₂]
  have hinfo : it₃.readIf (it₃.flag RELOCATION_GROUPED_BY_INFO_FLAG)
      (fun self val => { self with r_info := val }) = some it₄ := by
    rw [show it₃.flag RELOCATION_GROUPED_BY_INFO_FLAG = g.by_info from hflags.info]
    apply readIf_word _ _ hrest₃.symm
    · intro hc
      simp only [it₄, if_pos hc]
    · intro hc
      simp only [it₄, hc, if_neg Bool.false_ne_true, it₃, it₂]
  have hflags₄ : Flags g it₄ :=
    ⟨hflags.info, hflags.offset_delta, hflags.addend, hflags.has_addend⟩
  have hdec₄ : it₄.decoder =
      (if g.has_addend ∧ g.by_addend then word (g.head.r_addend - it₄.r_addend) else []) ++
        rest₅ := by
    rw [show it₄.r_addend = prev.r_addend from haddend]
    exact hrest₄.symm
  have hread := readGroupAddend_eq hflags₄ hg.rela hg.no_addend hdec₄
  exact Option.bind_eq_some_iff.2 ⟨_, hsize, Option.bind_eq_some_iff.2 ⟨_, hgroup,
    Option.bind_eq_some_iff.2 ⟨_, hdelta, Option.bind_eq_some_iff.2 ⟨_, hinfo,
      Option.bind_eq_some_iff.2 ⟨_, hread, rfl⟩⟩⟩⟩⟩

/-- Between two relocations of a group: `k` of the group are left, and `n` after it. -/
structure Within (g : Group w) (e : Rela w) (rest : List UInt8) (k n : Nat)
    (it : PackedRelocIterator w) : Prop where
  flags : it.group_flags = BitVec.ofNat w g.flags
  offset : it.r_offset = e.r_offset
  info : it.r_info = e.r_info
  addend : it.r_addend = e.r_addend
  decoder : it.decoder = rest
  group_left : it.relocation_group_index.toNat + k = it.group_size.toNat
  left : it.relocation_index.toNat + (k + n) = it.relocation_count.toNat

/-- Between two groups: `n` relocations are left. -/
structure Between (e : Rela w) (rest : List UInt8) (n : Nat) (it : PackedRelocIterator w) :
    Prop where
  offset : it.r_offset = e.r_offset
  addend : it.r_addend = e.r_addend
  decoder : it.decoder = rest
  group_left : it.relocation_group_index = it.group_size
  left : it.relocation_index.toNat + n = it.relocation_count.toNat

theorem toNat_add_one {x y : BitVec w} {k : Nat} (h : x.toNat + (k + 1) = y.toNat) :
    (x + 1).toNat + k = y.toNat := by
  have hlt := y.isLt
  have hpos : 1 < 2 ^ w := by omega
  change (x + 1#w).toNat + k = y.toNat
  rw [BitVec.toNat_add, BitVec.toNat_ofNat, Nat.mod_eq_of_lt hpos, Nat.mod_eq_of_lt (by omega)]
  omega

theorem next_within {k n : Nat}
    (hgroup : self.relocation_group_index.toNat + (k + 1) = self.group_size.toNat)
    (hleft : self.relocation_index.toNat + (n + 1) = self.relocation_count.toNat) :
    xh_elf_packed_reloc_iterator_next self = readReloc self := by
  have hcount : ¬ self.relocation_count ≤ self.relocation_index := by
    rw [BitVec.le_def]
    omega
  have hsize : self.relocation_group_index ≠ self.group_size := by
    intro heq
    rw [heq] at hgroup
    omega
  rw [xh_elf_packed_reloc_iterator_next, if_neg hcount, if_neg hsize]

theorem next_between {e : Rela w} {n : Nat} (h : Between e rest (n + 1) self) :
    xh_elf_packed_reloc_iterator_next self =
      (xh_elf_packed_reloc_iterator_read_group_fields self).bind readReloc := by
  have hcount : ¬ self.relocation_count ≤ self.relocation_index := by
    rw [BitVec.le_def, ← h.left]
    omega
  rw [xh_elf_packed_reloc_iterator_next, if_neg hcount, if_pos h.group_left]
  rfl

theorem within_after (rest : List UInt8) {g : Group w} {e : Rela w} {k n : Nat}
    (hflags : self.group_flags = BitVec.ofNat w g.flags)
    (hgroup : self.relocation_group_index.toNat + (k + 1) = self.group_size.toNat)
    (hleft : self.relocation_index.toNat + (k + n + 1) = self.relocation_count.toNat) :
    Within g e rest k n (self.after e rest) :=
  ⟨hflags, rfl, rfl, rfl, rfl, toNat_add_one hgroup, toNat_add_one hleft⟩

/-- The rest of a group. -/
theorem yields_tail (hw : 4 ≤ w) (rest : List UInt8) {g : Group w} {prev : Rela w}
    {es : List (Rela w)} {n : Nat}
    (h : Within g prev (g.encodeRels prev es ++ rest) es.length n self)
    (hchain : (prev :: es).IsChain (g.Fits self.group_r_offset_delta))
    (hrela : g.has_addend → self.is_use_rela) :
    ∃ it, Yields self (es.map (·.common self.is_use_rela)) it ∧
      Between ((prev :: es).getLast (List.cons_ne_nil _ _)) rest n it ∧
      it.is_use_rela = self.is_use_rela ∧ it.relocation_count = self.relocation_count := by
  induction es generalizing self prev with
  | nil =>
    have hend : self.relocation_group_index = self.group_size :=
      BitVec.eq_of_toNat_eq h.group_left
    exact ⟨self, .nil self, ⟨h.offset, h.addend, h.decoder, hend, by simpa using h.left⟩, rfl, rfl⟩
  | cons e es ih =>
    obtain ⟨hfits, hchain⟩ := List.isChain_cons_cons.1 hchain
    have hready : Ready g e self := by
      refine ⟨h.flags, fun hd => ?_, fun hi => ?_, fun ha => ?_, hrela⟩
      · rw [h.offset, ← hfits.offset hd, BitVec.add_comm, BitVec.sub_add_cancel]
      · rw [h.info, hfits.info hi]
      · rw [h.addend, hfits.addend ha]
    have hdec : self.decoder = _ := h.decoder
    rw [Group.encodeRels, ← h.offset, ← h.addend, List.append_assoc _ (g.encodeRels e es)] at hdec
    have hgroup : self.relocation_group_index.toNat + (es.length + 1) = self.group_size.toNat :=
      h.group_left
    have hleft : self.relocation_index.toNat + (es.length + n + 1) =
        self.relocation_count.toNat := by
      rw [Nat.add_right_comm]
      exact h.left
    have hnext := (next_within hgroup hleft).trans (readReloc_eq hw hready hdec)
    obtain ⟨it, hyields, hbetween, hit⟩ := ih (within_after _ h.flags hgroup hleft) hchain hrela
    exact ⟨it, .cons hnext hyields, hbetween, hit⟩

theorem ready_opened (rest : List UInt8) {g : Group w} {prev : Rela w}
    (hg : g.Legal self.is_use_rela prev) (hoffset : self.r_offset = prev.r_offset) :
    Ready g g.head (self.opened g prev rest) := by
  refine ⟨rfl, fun hd => ?_, fun hi => if_pos hi, fun ha => if_neg ha, hg.rela⟩
  change self.r_offset + (if g.by_offset_delta then _ else _) = _
  rw [if_pos hd, hoffset, BitVec.add_comm, BitVec.sub_add_cancel]

/-- The first entry of a group just opened. -/
theorem readReloc_opened (hw : 4 ≤ w) {g : Group w} {prev : Rela w}
    (hg : g.Legal self.is_use_rela prev) (hoffset : self.r_offset = prev.r_offset)
    (haddend : self.r_addend = prev.r_addend) :
    readReloc (self.opened g prev (g.encodeRels prev g.rels ++ rest)) =
      some (g.head.common self.is_use_rela,
        (self.opened g prev (g.encodeRels prev g.rels ++ rest)).after g.head
          (g.encodeRels g.head g.tail ++ rest)) := by
  have hready : Ready g g.head (self.opened g prev (g.encodeRels prev g.rels ++ rest)) :=
    ready_opened _ hg hoffset
  generalize hit : self.opened g prev (g.encodeRels prev g.rels ++ rest) = it at hready ⊢
  have hdec : it.decoder = g.encodeRels prev (g.head :: g.tail) ++ rest := by
    rw [← hit]
    rfl
  have hit_offset : it.r_offset = prev.r_offset := by
    rw [← hit]
    exact hoffset
  have hit_addend (ha : g.has_addend ∧ ¬ g.by_addend) : it.r_addend = prev.r_addend := by
    rw [← hit]
    exact (if_pos ha).trans haddend
  have hword : (if g.has_addend ∧ ¬ g.by_addend then word (g.head.r_addend - prev.r_addend)
      else []) = if g.has_addend ∧ ¬ g.by_addend then word (g.head.r_addend - it.r_addend)
      else [] :=
    if_ctx_congr Iff.rfl (fun ha => by rw [hit_addend ha]) fun _ => rfl
  rw [Group.encodeRels, List.append_assoc _ (g.encodeRels g.head g.tail), ← hit_offset, hword]
    at hdec
  rw [readReloc_eq hw hready hdec, ← hit]
  rfl

theorem yields_group (hw : 4 ≤ w) {g : Group w} {prev : Rela w} {n : Nat}
    (hg : g.Legal self.is_use_rela prev)
    (h : Between prev (g.encode prev ++ rest) (g.rels.length + n) self) :
    ∃ it, Yields self (g.rels.map (·.common self.is_use_rela)) it ∧ Between g.last rest n it ∧
      it.is_use_rela = self.is_use_rela ∧ it.relocation_count = self.relocation_count := by
  have hlt : g.rels.length < 2 ^ w := by
    have hcount := self.relocation_count.isLt
    have hleft := h.left
    omega
  have hfirst : xh_elf_packed_reloc_iterator_next self =
      some (g.head.common self.is_use_rela,
        (self.opened g prev (g.encodeRels prev g.rels ++ rest)).after g.head
          (g.encodeRels g.head g.tail ++ rest)) := by
    have hleft : Between prev (g.encode prev ++ rest) (g.tail.length + n + 1) self := by
      rw [Nat.add_right_comm]
      exact h
    rw [next_between hleft, read_group_fields_eq hw hg h.addend h.decoder, Option.bind_some,
      readReloc_opened hw hg h.offset h.addend]
  have hready := ready_opened (g.encodeRels prev g.rels ++ rest) hg h.offset
  generalize hit : self.opened g prev (g.encodeRels prev g.rels ++ rest) = it at hfirst hready
  have hgroup : it.relocation_group_index.toNat + (g.tail.length + 1) = it.group_size.toNat := by
    rw [← hit]
    exact (Nat.zero_add _).trans ((BitVec.toNat_ofNat _ _).trans (Nat.mod_eq_of_lt hlt)).symm
  have hleft : it.relocation_index.toNat + (g.tail.length + n + 1) =
      it.relocation_count.toNat := by
    rw [← hit, Nat.add_right_comm]
    exact h.left
  have hdelta (hd : g.by_offset_delta) :
      g.head.r_offset - prev.r_offset = it.group_r_offset_delta := by
    rw [← hit]
    exact (if_pos hd).symm
  have hchain : (g.head :: g.tail).IsChain (g.Fits it.group_r_offset_delta) :=
    hg.fits.imp fun _ _ hfits =>
      ⟨fun hd => (hfits.offset hd).trans (hdelta hd), hfits.info, hfits.addend⟩
  obtain ⟨it', hyields, hbetween, hsame⟩ := yields_tail hw rest
    (within_after (g.encodeRels g.head g.tail ++ rest) hready.flags hgroup hleft)
    hchain hready.rela
  have hrela : it.is_use_rela = self.is_use_rela := by
    rw [← hit]
    rfl
  have hcount : it.relocation_count = self.relocation_count := by
    rw [← hit]
    rfl
  refine ⟨it', .cons hfirst ?_, hbetween, hsame.1.trans hrela, hsame.2.trans hcount⟩
  rw [← hrela]
  exact hyields

theorem yields_groups (hw : 4 ≤ w) {gs : List (Group w)} {prev : Rela w}
    (hgs : LegalGroups self.is_use_rela prev gs)
    (h : Between prev (encodeGroups prev gs ++ rest) (relsOf gs).length self) :
    ∃ it, Yields self ((relsOf gs).map (·.common self.is_use_rela)) it ∧
      it.relocation_index = it.relocation_count := by
  induction gs generalizing self prev with
  | nil => exact ⟨self, .nil self, BitVec.eq_of_toNat_eq h.left⟩
  | cons g gs ih =>
    rw [relsOf, List.flatMap_cons, List.length_append, encodeGroups, List.append_assoc] at h
    obtain ⟨it, hyields, hbetween, hrela, -⟩ := yields_group hw hgs.1 h
    obtain ⟨it', hyields', hend⟩ := ih (hrela ▸ hgs.2) hbetween
    refine ⟨it', ?_, hend⟩
    rw [relsOf, List.flatMap_cons, List.map_append]
    exact hyields.append (hrela ▸ hyields')

theorem entries_at_end (h : self.relocation_index = self.relocation_count) (rounds : Nat) :
    entries rounds self = [] := by
  cases rounds with
  | zero => rfl
  | succ rounds =>
    rw [entries, xh_elf_packed_reloc_iterator_next, if_pos (by rw [h]; exact BitVec.le_refl _)]

theorem between_init (is_use_rela : Bool) {base : BitVec w} {gs : List (Group w)}
    (hlen : (relsOf gs).length < 2 ^ w) (rest : List UInt8) :
    ∃ it, xh_elf_packed_reloc_iterator_init w (encodeTable base gs ++ rest) is_use_rela = (it, 0) ∧
      Between ⟨base, 0, 0⟩ (encodeGroups ⟨base, 0, 0⟩ gs ++ rest) (relsOf gs).length it ∧
      it.is_use_rela = is_use_rela := by
  unfold xh_elf_packed_reloc_iterator_init encodeTable
  simp only [List.append_assoc]
  rw [read_word _ rfl]
  simp only
  rw [read_word _ rfl]
  refine ⟨_, rfl, ⟨rfl, rfl, rfl, rfl, ?_⟩, rfl⟩
  exact (Nat.zero_add _).trans ((BitVec.toNat_ofNat _ _).trans (Nat.mod_eq_of_lt hlen)).symm

/-- The iterator gives back the relocations of a table, whatever bytes follow it. -/
theorem entries_encodeTable (hw : 4 ≤ w) {is_use_rela : Bool} {base : BitVec w}
    {gs : List (Group w)} (hgs : LegalGroups is_use_rela ⟨base, 0, 0⟩ gs)
    (hlen : (relsOf gs).length < 2 ^ w) (rest : List UInt8) {rounds : Nat}
    (hrounds : (relsOf gs).length ≤ rounds) :
    entries rounds (xh_elf_packed_reloc_iterator_init w (encodeTable base gs ++ rest)
        is_use_rela).1 = (relsOf gs).map (·.common is_use_rela) := by
  obtain ⟨it, hinit, hbetween, rfl⟩ := between_init is_use_rela hlen rest
  obtain ⟨it', hyields, hend⟩ := yields_groups hw hgs hbetween
  obtain ⟨extra, rfl⟩ := Nat.exists_eq_add_of_le hrounds
  have hentries := hyields.entries extra
  rw [List.length_map] at hentries
  rw [hinit, hentries, entries_at_end hend, List.append_nil]

-- a group of two with a common distance and `r_info`, and one of one entry sixteen bytes back
example : (entries 3 (xh_elf_packed_reloc_iterator_init 64
    [3, 0x80, 0x20, 2, 3, 8, 0x81, 0x88, 0x80, 0x80, 0xd0, 0, 1, 0, 0x70, 2] true).1) =
    [.rela 0x1008 0x500000401 0, .rela 0x1010 0x500000401 0, .rela 0x1000 2 0] := by
  decide +kernel

end Decode

section Hook

variable (abi : Abi) (u : Util) (self : XhElf) (new_func : Addr) (old_func : Option Addr)
  (symidx : Nat)

/-- However a table is packed, hooking through the iterator is hooking its relocations in order. -/
theorem hookAndroid_encodeTable (hw : 4 ≤ w) {is_use_rela : Bool} {base : BitVec w}
    {gs : List (Group w)} (hgs : LegalGroups is_use_rela ⟨base, 0, 0⟩ gs)
    (hlen : (relsOf gs).length < 2 ^ w) (rest : List UInt8) {rounds : Nat}
    (hrounds : (relsOf gs).length ≤ rounds) (m : Mem) :
    hookAndroid abi u self new_func old_func symidx rounds
        (xh_elf_packed_reloc_iterator_init w (encodeTable base gs ++ rest) is_use_rela).1 m =
      hookDyn u self new_func old_func symidx
        ((relsOf gs).map fun e => abi.reloc e.r_offset e.r_info) m := by
  have hcommon (e : Rela w) :
      abi.common (e.common is_use_rela) = abi.reloc e.r_offset e.r_info := by
    unfold Rela.common
    cases is_use_rela <;> rfl
  rw [hookAndroid_eq, entries_encodeTable hw hgs hlen rest hrounds, List.map_map]
  congr 1
  exact List.map_congr_left fun e _ => hcommon e

end Hook

/-- Two slots of symbol 5 that share their distance and `r_info`, and two pointers with addends. -/
def packed_groups : List (Group 64) :=
  [{ by_info := true, by_offset_delta := true, by_addend := false, has_addend := false
     head := ⟨0x1008, 0x500000401, 0⟩, tail := [⟨0x1010, 0x500000401, 0⟩] },
   { by_info := false, by_offset_delta := false, by_addend := false, has_addend := true
     head := ⟨0x2000, 0x600000101, 3⟩, tail := [⟨0x1800, 0x500000101, 1⟩] }]

theorem legal_packed_groups : LegalGroups true ⟨0x1000, 0, 0⟩ packed_groups := by
  refine ⟨⟨?_, ?_, ?_⟩, ⟨?_, ?_, ?_⟩, trivial⟩
  · refine .cons_cons ⟨?_, ?_, ?_⟩ (.singleton _) <;> decide
  · decide
  · decide
  · refine .cons_cons ⟨?_, ?_, ?_⟩ (.singleton _) <;> decide
  · decide
  · decide

theorem hookAndroid_packed_groups :
    hookAndroid Abi.aarch64 ⟨64, fun _ => .ok 3, fun _ _ => 0⟩
        ⟨"lib", 0x10000, 0x10000, ⟨fun _ => "", .elf [] []⟩, [], [], []⟩ 0xcafe none 5 4
        (xh_elf_packed_reloc_iterator_init 64 (encodeTable 0x1000 packed_groups ++ [0, 0])
          true).1 (fun _ => 0) =
      hookDyn ⟨64, fun _ => .ok 3, fun _ _ => 0⟩
        ⟨"lib", 0x10000, 0x10000, ⟨fun _ => "", .elf [] []⟩, [], [], []⟩ 0xcafe none 5
        ((relsOf packed_groups).map fun e => Abi.aarch64.reloc e.r_offset e.r_info) (fun _ => 0) :=
  hookAndroid_encodeTable _ _ _ _ _ _ (by decide) legal_packed_groups (by decide) _ (by decide) _

end ElfHook.XHook

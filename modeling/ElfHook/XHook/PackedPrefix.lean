import ElfHook.XHook.Packed

/-!
# xHook: packed relocation tables cut short

* `next_extend`: what the iterator reads does not depend on bytes it has not reached.
* `entries_prefix`: cut short anywhere, a table yields the first of its relocations, and none if it is
  cut short in its header.
-/

namespace ElfHook.XHook

open Lib

variable {w : Nat}

section Truncated

variable {self self' : PackedRelocIterator w} (more : List UInt8)

/-- The same iterator over a buffer with `more` behind it. -/
def PackedRelocIterator.extend (self : PackedRelocIterator w) (more : List UInt8) :
    PackedRelocIterator w :=
  { self with decoder := self.decoder ++ more }

theorem read_extend {set : PackedRelocIterator w → BitVec w → PackedRelocIterator w}
    (hset : ∀ it v, set (it.extend more) v = (set it v).extend more)
    (h : self.read set = some self') : (self.extend more).read set = some (self'.extend more) := by
  obtain ⟨⟨val, cur⟩, hval, hset'⟩ := Option.bind_eq_some_iff.1 h
  cases hset'
  have hnext : xh_elf_sleb128_decoder_next (self.extend more).decoder = some (val, cur ++ more) :=
    sleb128Loop_append hval more
  unfold PackedRelocIterator.read
  rw [hnext]
  exact congrArg some (hset { self with decoder := cur } val)

theorem readIf_extend {set : PackedRelocIterator w → BitVec w → PackedRelocIterator w} {c : Bool}
    (hset : ∀ it v, set (it.extend more) v = (set it v).extend more)
    (h : self.readIf c set = some self') :
    (self.extend more).readIf c set = some (self'.extend more) := by
  cases c with
  | true => exact read_extend more hset h
  | false =>
    cases h
    rfl

theorem readGroupAddend_extend (h : readGroupAddend self = some self') :
    readGroupAddend (self.extend more) = some (self'.extend more) := by
  have hflag (f : Nat) : (self.extend more).flag f = self.flag f := rfl
  have hrela : (self.extend more).is_use_rela = self.is_use_rela := rfl
  unfold readGroupAddend at h ⊢
  rw [hflag, hflag, hrela]
  split_ifs at h ⊢
  · exact read_extend more (fun _ _ => rfl) h
  · cases h
    rfl
  · cases h
    rfl

theorem read_group_fields_extend
    (h : xh_elf_packed_reloc_iterator_read_group_fields self = some self') :
    xh_elf_packed_reloc_iterator_read_group_fields (self.extend more) =
      some (self'.extend more) := by
  obtain ⟨it₁, h₁, h⟩ := Option.bind_eq_some_iff.1 h
  obtain ⟨it₂, h₂, h⟩ := Option.bind_eq_some_iff.1 h
  obtain ⟨it₃, h₃, h⟩ := Option.bind_eq_some_iff.1 h
  obtain ⟨it₄, h₄, h⟩ := Option.bind_eq_some_iff.1 h
  obtain ⟨it₅, h₅, h⟩ := Option.bind_eq_some_iff.1 h
  cases h
  exact Option.bind_eq_some_iff.2 ⟨_, read_extend more (fun _ _ => rfl) h₁,
    Option.bind_eq_some_iff.2 ⟨_, read_extend more (fun _ _ => rfl) h₂,
    Option.bind_eq_some_iff.2 ⟨_, readIf_extend more (fun _ _ => rfl) h₃,
    Option.bind_eq_some_iff.2 ⟨_, readIf_extend more (fun _ _ => rfl) h₄,
    Option.bind_eq_some_iff.2 ⟨_, readGroupAddend_extend more h₅, rfl⟩⟩⟩⟩⟩

theorem readOffset_extend (h : readOffset self = some self') :
    readOffset (self.extend more) = some (self'.extend more) := by
  have hflag (f : Nat) : (self.extend more).flag f = self.flag f := rfl
  unfold readOffset at h ⊢
  rw [hflag]
  split_ifs at h ⊢
  · cases h
    rfl
  · exact read_extend more (fun _ _ => rfl) h

theorem readReloc_extend {rel : RelCommon w} (h : readReloc self = some (rel, self')) :
    readReloc (self.extend more) = some (rel, self'.extend more) := by
  obtain ⟨it₁, h₁, h⟩ := Option.bind_eq_some_iff.1 h
  obtain ⟨it₂, h₂, h⟩ := Option.bind_eq_some_iff.1 h
  obtain ⟨it₃, h₃, h⟩ := Option.bind_eq_some_iff.1 h
  cases h
  exact Option.bind_eq_some_iff.2 ⟨_, readOffset_extend more h₁,
    Option.bind_eq_some_iff.2 ⟨_, readIf_extend more (fun _ _ => rfl) h₂,
    Option.bind_eq_some_iff.2 ⟨_, readIf_extend more (fun _ _ => rfl) h₃, rfl⟩⟩⟩

theorem next_extend {rel : RelCommon w}
    (h : xh_elf_packed_reloc_iterator_next self = some (rel, self')) :
    xh_elf_packed_reloc_iterator_next (self.extend more) = some (rel, self'.extend more) := by
  unfold xh_elf_packed_reloc_iterator_next at h ⊢
  change (if self.relocation_count ≤ self.relocation_index then none
    else if self.relocation_group_index = self.group_size then _ else _) = _
  split_ifs at h ⊢
  · obtain ⟨it, hread, hreloc⟩ := Option.bind_eq_some_iff.1 h
    exact Option.bind_eq_some_iff.2 ⟨_, read_group_fields_extend more hread,
      readReloc_extend more hreloc⟩
  · exact readReloc_extend more h

theorem entries_extend (rounds : Nat) (self : PackedRelocIterator w) :
    entries rounds self <+: entries rounds (self.extend more) := by
  induction rounds generalizing self with
  | zero => exact List.prefix_rfl
  | succ rounds ih =>
    rw [entries]
    cases hnext : xh_elf_packed_reloc_iterator_next self with
    | none => exact List.nil_prefix
    | some next =>
      obtain ⟨rel, it⟩ := next
      rw [entries, next_extend more hnext]
      exact List.prefix_cons_inj rel |>.2 (ih it)

theorem read_at_end {set : PackedRelocIterator w → BitVec w → PackedRelocIterator w}
    (h : self.decoder = []) : self.read set = none := by
  unfold PackedRelocIterator.read xh_elf_sleb128_decoder_next
  rw [h]
  rfl

/-- A header that ends too early leaves nothing to iterate over. -/
theorem entries_of_empty (it : PackedRelocIterator w) (hdec : it.decoder = [])
    (hgroup : it.relocation_group_index = it.group_size) (rounds : Nat) :
    entries rounds it = [] := by
  cases rounds with
  | zero => rfl
  | succ rounds =>
    have hread : xh_elf_packed_reloc_iterator_read_group_fields it = none :=
      Option.bind_eq_none_iff.2 fun it' hit => by rw [read_at_end hdec] at hit; cases hit
    rw [entries, xh_elf_packed_reloc_iterator_next]
    split_ifs
    · rfl
    · rw [hread]
      rfl

/-- The last byte of a number has no continuation bit. -/
def endsNumber (byte : UInt8) : Bool := byte &&& 128 == 0

/-- Each number read is one last byte fewer. -/
theorem countP_endsNumber {bs cur : List UInt8} {value v : BitVec w} {shift : Nat}
    (h : sleb128Loop value shift bs = some (v, cur)) :
    bs.countP endsNumber = cur.countP endsNumber + 1 := by
  induction bs generalizing value shift with
  | nil => cases h
  | cons byte bs ih =>
    rw [sleb128Loop] at h
    split_ifs at h with hmore hsign
    · rw [List.countP_cons_of_neg (by simpa [endsNumber] using hmore)]
      exact ih h
    · cases h
      rw [List.countP_cons_of_pos (by simpa [endsNumber] using hmore)]
    · cases h
      rw [List.countP_cons_of_pos (by simpa [endsNumber] using hmore)]

theorem read_countP {set : PackedRelocIterator w → BitVec w → PackedRelocIterator w}
    (hset : ∀ it v, (set it v).decoder = it.decoder) (h : self.read set = some self') :
    self.decoder.countP endsNumber = self'.decoder.countP endsNumber + 1 := by
  obtain ⟨⟨val, cur⟩, hval, hset'⟩ := Option.bind_eq_some_iff.1 h
  cases hset'
  rw [hset]
  exact countP_endsNumber hval

/-- A header of fewer than two numbers leaves nothing to iterate over. -/
theorem entries_of_halfHeader {rel : List UInt8} (is_use_rela : Bool) (rounds : Nat)
    (hshort : rel.countP endsNumber < 2) :
    entries rounds (xh_elf_packed_reloc_iterator_init w rel is_use_rela).1 = [] := by
  unfold xh_elf_packed_reloc_iterator_init
  simp only
  split
  · exact entries_of_empty _ rfl rfl rounds
  · next it hcount =>
    have hleft : rel.countP endsNumber = it.decoder.countP endsNumber + 1 := by
      refine read_countP ?_ hcount
      exact fun _ _ => rfl
    split
    · obtain ⟨⟨count, cur⟩, -, hit⟩ := Option.bind_eq_some_iff.1 hcount
      cases hit
      exact entries_of_empty _ rfl rfl rounds
    · next it' hoffset =>
      have hleft' : it.decoder.countP endsNumber = it'.decoder.countP endsNumber + 1 := by
        refine read_countP ?_ hoffset
        exact fun _ _ => rfl
      omega

/-- Cut short anywhere, a table yields the first of its relocations and no others; cut short in its
header, none. -/
theorem entries_prefix (rel : List UInt8) (is_use_rela : Bool) (rounds : Nat) :
    entries rounds (xh_elf_packed_reloc_iterator_init w rel is_use_rela).1 <+:
        entries rounds (xh_elf_packed_reloc_iterator_init w (rel ++ more) is_use_rela).1 ∧
      (rel.countP endsNumber < 2 →
        entries rounds (xh_elf_packed_reloc_iterator_init w rel is_use_rela).1 = []) := by
  refine ⟨?_, entries_of_halfHeader is_use_rela rounds⟩
  unfold xh_elf_packed_reloc_iterator_init
  simp only
  generalize hit : (PackedRelocIterator.mk rel 0 0 0 0 0 0 0 0 0 is_use_rela :
    PackedRelocIterator w) = it
  have hmore : (PackedRelocIterator.mk (rel ++ more) 0 0 0 0 0 0 0 0 0 is_use_rela :
      PackedRelocIterator w) = it.extend more := by
    rw [← hit]
    rfl
  have hgroup : it.relocation_group_index = it.group_size := by
    rw [← hit]
  rw [hmore]
  cases hcount : it.read fun self val => { self with relocation_count := val } with
  | none =>
    simp only
    rw [entries_of_empty _ rfl rfl]
    exact List.nil_prefix
  | some it₁ =>
    obtain ⟨⟨count, cur⟩, -, hit₁⟩ := Option.bind_eq_some_iff.1 hcount
    have hgroup₁ : it₁.relocation_group_index = it₁.group_size := by
      cases hit₁
      exact hgroup
    rw [read_extend more (fun _ _ => rfl) hcount]
    simp only
    cases hoffset : it₁.read fun self val => { self with r_offset := val } with
    | none =>
      have hempty : entries rounds { it₁ with decoder := [] } = [] :=
        entries_of_empty { it₁ with decoder := [] } rfl hgroup₁ rounds
      simp only
      rw [hempty]
      exact List.nil_prefix
    | some it₂ =>
      rw [read_extend more (fun _ _ => rfl) hoffset]
      exact entries_extend more rounds it₂

/-- The count is there, the offset of the first group is not whole. -/
theorem entries_prefix_halfHeader :
    entries 9 (xh_elf_packed_reloc_iterator_init 32 [0x03, 0x80] true).1 = [] := by
  have hprefix := entries_prefix (w := 32) [] [0x03, 0x80] true 9
  exact hprefix.2 (by decide)

end Truncated

end ElfHook.XHook

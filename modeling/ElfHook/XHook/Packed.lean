import Mathlib.Data.Nat.Bitwise
import ElfHook.Lib.Sleb128
import ElfHook.XHook.Elf

/-!
# xHook: packed relocation tables

The iterator of `xh_elf.c` over an `.rel(a).android` table, byte by byte, for a `size_t` of `w`
bits.
`Group` and `encodeTable` say what such a table is: relocations in groups, each group leaving out of
its entries what they have in common.

* `decoder_next_word`: the decoder gives back an encoded word.
* `hookAndroid_eq`: the third loop of `xh_elf_hook` is the loop over the relocations decoded.
-/

namespace ElfHook.XHook

open Lib

variable {w : Nat}

/-! ### The decoder -/

/-- A shift by `w` or more, undefined in C, gives zero here. -/
def sleb128Loop (value : BitVec w) (shift : Nat) : List UInt8 → Option (BitVec w × List UInt8)
  | [] => none
  | byte :: cur =>
    let value := value ||| BitVec.ofNat w (byte &&& 127).toNat <<< shift
    let shift := shift + 7
    if byte &&& 128 ≠ 0 then sleb128Loop value shift cur
    else if shift < w ∧ byte &&& 64 ≠ 0 then some (value ||| -(1#w <<< shift), cur)
    else some (value, cur)

/-- The value and the bytes left; it fails only at the end of the buffer. -/
def xh_elf_sleb128_decoder_next (cur : List UInt8) : Option (BitVec w × List UInt8) :=
  sleb128Loop 0 0 cur

theorem byte_and_127 (b : UInt8) : (b &&& 127).toNat = b.toNat % 128 := by
  rw [UInt8.toNat_and]
  exact Nat.and_two_pow_sub_one_eq_mod b.toNat 7

theorem byte_and_two_pow (b : UInt8) (k : Nat) (c : UInt8) (hc : c.toNat = 2 ^ k) :
    b &&& c ≠ 0 ↔ b.toNat / 2 ^ k % 2 = 1 := by
  have hzero : b &&& c = 0 ↔ (b &&& c).toNat = 0 := by
    rw [← UInt8.toNat_inj, UInt8.toNat_zero]
  rw [ne_eq, hzero, UInt8.toNat_and, hc, Nat.and_two_pow, Nat.testBit_eq_decide_div_mod_eq]
  by_cases h : b.toNat / 2 ^ k % 2 = 1
  · simp [h]
  · simp [h]

theorem byte_and_128 (b : UInt8) : b &&& 128 ≠ 0 ↔ 128 ≤ b.toNat := by
  have hlt := b.toNat_lt
  rw [byte_and_two_pow b 7 128 rfl]
  omega

theorem byte_and_64 (b : UInt8) (h : b.toNat < 128) : b &&& 64 ≠ 0 ↔ 64 ≤ b.toNat := by
  rw [byte_and_two_pow b 6 64 rfl]
  omega

/-- A digit put above `value` leaves the sum below the next digit. -/
theorem toNat_or_digit (value : BitVec w) (shift d : Nat) (hvalue : value.toNat < 2 ^ shift)
    (hd : d < 128) : (value ||| BitVec.ofNat w d <<< shift).toNat < 2 ^ (shift + 7) := by
  rw [BitVec.toNat_or]
  apply Nat.or_lt_two_pow
  · exact hvalue.trans_le (Nat.pow_le_pow_right (by decide) (by omega))
  · rw [BitVec.toNat_shiftLeft, BitVec.toNat_ofNat, Nat.shiftLeft_eq]
    calc d % 2 ^ w * 2 ^ shift % 2 ^ w ≤ d % 2 ^ w * 2 ^ shift := Nat.mod_le _ _
      _ ≤ d * 2 ^ shift := Nat.mul_le_mul_right _ (Nat.mod_le _ _)
      _ < 2 ^ 7 * 2 ^ shift := Nat.mul_lt_mul_of_pos_right hd (Nat.two_pow_pos _)
      _ = 2 ^ (shift + 7) := by rw [Nat.pow_add, Nat.mul_comm]

/-- The sign of a digit that reaches bit `w` does not show. -/
theorem ofInt_pow_of_le {shift : Nat} (h : w ≤ shift) : BitVec.ofInt w (2 ^ shift) = 0#w := by
  have hcast : (2 : Int) ^ shift = ((2 ^ shift : Nat) : Int) := by push_cast; rfl
  rw [hcast, BitVec.ofInt_natCast]
  apply BitVec.eq_of_toNat_eq
  rw [BitVec.toNat_ofNat, BitVec.toNat_ofNat, Nat.zero_mod]
  exact Nat.mod_eq_zero_of_dvd (Nat.pow_dvd_pow 2 h)

/-- From a value below `2 ^ shift`, the loop adds what the bytes encode, shifted. -/
theorem sleb128Loop_of_encodes {bs : List UInt8} {v : Int} (h : Sleb128.Encodes bs v)
    (rest : List UInt8) (value : BitVec w) (shift : Nat) (hvalue : value.toNat < 2 ^ shift) :
    sleb128Loop value shift (bs ++ rest) = some (value + BitVec.ofInt w (v * 2 ^ shift), rest) := by
  induction h generalizing value shift with
  | last b hb =>
    have hnext := toNat_or_digit value shift _ hvalue (Nat.mod_lt b.toNat (by decide : 0 < 128))
    rw [List.singleton_append, sleb128Loop]
    simp only [byte_and_127]
    rw [if_neg (by rw [byte_and_128]; omega)]
    simp only [byte_and_64 b hb, Nat.mod_eq_of_lt hb] at hnext ⊢
    rw [Sleb128.or_shiftLeft hvalue] at hnext ⊢
    by_cases hsign : b.toNat < 64
    · rw [if_neg (by omega), if_pos hsign]
    · rw [if_neg hsign]
      have hsplit : ((b.toNat : Int) - 128) * 2 ^ shift =
          b.toNat * 2 ^ shift + - 2 ^ (shift + 7) := by
        rw [pow_add]
        ring
      rw [hsplit, BitVec.ofInt_add, ← BitVec.add_assoc]
      by_cases hfull : shift + 7 < w
      · rw [if_pos ⟨hfull, by omega⟩, Sleb128.or_neg_shiftLeft hnext]
      · rw [if_neg (fun h => hfull h.1), BitVec.ofInt_neg, ofInt_pow_of_le (by omega)]
        simp
  | more b hb hbs ih =>
    rw [List.cons_append, sleb128Loop]
    simp only [byte_and_127]
    have hnext := toNat_or_digit value shift _ hvalue (Nat.mod_lt b.toNat (by decide : 0 < 128))
    rw [if_pos ((byte_and_128 b).2 hb), ih _ _ hnext, Sleb128.or_shiftLeft hvalue, BitVec.add_assoc,
      ← BitVec.ofInt_add]
    congr 4
    push_cast
    rw [pow_add]
    ring

/-- The encoding of a word as the signed number it stands for. -/
def word (x : BitVec w) : List UInt8 := Sleb128.encode x.toInt

theorem decoder_next_word (x : BitVec w) (rest : List UInt8) :
    xh_elf_sleb128_decoder_next (word x ++ rest) = some (x, rest) := by
  have h := sleb128Loop_of_encodes (Sleb128.encodes_encode x.toInt) rest (0 : BitVec w) 0 (by simp)
  rw [xh_elf_sleb128_decoder_next, word, h]
  simp

/-- More bytes behind the buffer change nothing where the decoder does not fail. -/
theorem sleb128Loop_append {bs cur : List UInt8} {value v : BitVec w} {shift : Nat}
    (h : sleb128Loop value shift bs = some (v, cur)) (more : List UInt8) :
    sleb128Loop value shift (bs ++ more) = some (v, cur ++ more) := by
  induction bs generalizing value shift with
  | nil => simp [sleb128Loop] at h
  | cons b bs ih =>
    rw [sleb128Loop] at h
    rw [List.cons_append, sleb128Loop]
    split_ifs at h ⊢ with hmore hsign
    · exact ih h
    · cases h
      rfl
    · cases h
      rfl

/-! ### The iterator -/

def RELOCATION_GROUPED_BY_INFO_FLAG : Nat := 1
def RELOCATION_GROUPED_BY_OFFSET_DELTA_FLAG : Nat := 2
def RELOCATION_GROUPED_BY_ADDEND_FLAG : Nat := 4
def RELOCATION_GROUP_HAS_ADDEND_FLAG : Nat := 8

/-- What the iterator hands out: an `ElfW(Rela)` or an `ElfW(Rel)`. -/
inductive RelCommon (w : Nat) where
  | rela (r_offset r_info r_addend : BitVec w)
  | rel (r_offset r_info : BitVec w)
deriving DecidableEq

structure PackedRelocIterator (w : Nat) where
  decoder : List UInt8
  relocation_count : BitVec w
  group_size : BitVec w
  group_flags : BitVec w
  group_r_offset_delta : BitVec w
  relocation_index : BitVec w
  relocation_group_index : BitVec w
  r_offset : BitVec w
  r_info : BitVec w
  r_addend : BitVec w
  is_use_rela : Bool

namespace PackedRelocIterator

variable (self : PackedRelocIterator w)

def flag (f : Nat) : Bool := self.group_flags &&& BitVec.ofNat w f ≠ 0

/-- Decodes one number and stores it with `set`. -/
def read (set : PackedRelocIterator w → BitVec w → PackedRelocIterator w) :
    Option (PackedRelocIterator w) := do
  let (val, cur) ← xh_elf_sleb128_decoder_next self.decoder
  some (set { self with decoder := cur } val)

def readIf (c : Bool) (set : PackedRelocIterator w → BitVec w → PackedRelocIterator w) :
    Option (PackedRelocIterator w) :=
  if c then self.read set else some self

end PackedRelocIterator

/-- Returns the error code too, which `xh_elf_hook` does not look at. -/
def xh_elf_packed_reloc_iterator_init (w : Nat) (rel : List UInt8) (is_use_rela : Bool) :
    PackedRelocIterator w × Int :=
  let self : PackedRelocIterator w :=
    { decoder := rel, relocation_count := 0, group_size := 0, group_flags := 0
      group_r_offset_delta := 0, relocation_index := 0, relocation_group_index := 0
      r_offset := 0, r_info := 0, r_addend := 0, is_use_rela }
  match self.read fun self val => { self with relocation_count := val } with
  | none => ({ self with decoder := [] }, XH_ERRNO_FORMAT)
  | some self =>
    match self.read fun self val => { self with r_offset := val } with
    | none => ({ self with decoder := [] }, XH_ERRNO_FORMAT)
    | some self => (self, 0)

def readGroupAddend (self : PackedRelocIterator w) : Option (PackedRelocIterator w) :=
  if self.flag RELOCATION_GROUP_HAS_ADDEND_FLAG ∧ self.flag RELOCATION_GROUPED_BY_ADDEND_FLAG then
    -- an addend in a table of `ElfW(Rel)` is a format error
    if self.is_use_rela then self.read fun self val => { self with r_addend := self.r_addend + val }
    else none
  else if ¬ self.flag RELOCATION_GROUP_HAS_ADDEND_FLAG then some { self with r_addend := 0 }
  else some self

def xh_elf_packed_reloc_iterator_read_group_fields (self : PackedRelocIterator w) :
    Option (PackedRelocIterator w) := do
  let self ← self.read fun self val => { self with group_size := val }
  let self ← self.read fun self val => { self with group_flags := val }
  let self ← self.readIf (self.flag RELOCATION_GROUPED_BY_OFFSET_DELTA_FLAG) fun self val =>
    { self with group_r_offset_delta := val }
  let self ← self.readIf (self.flag RELOCATION_GROUPED_BY_INFO_FLAG) fun self val =>
    { self with r_info := val }
  let self ← readGroupAddend self
  some { self with relocation_group_index := 0 }

def readOffset (self : PackedRelocIterator w) : Option (PackedRelocIterator w) :=
  if self.flag RELOCATION_GROUPED_BY_OFFSET_DELTA_FLAG then
    some { self with r_offset := self.r_offset + self.group_r_offset_delta }
  else self.read fun self val => { self with r_offset := self.r_offset + val }

/-- The fields of one relocation, after the group's own. -/
def readReloc (self : PackedRelocIterator w) : Option (RelCommon w × PackedRelocIterator w) := do
  let self ← readOffset self
  let self ← self.readIf (! self.flag RELOCATION_GROUPED_BY_INFO_FLAG) fun self val =>
    { self with r_info := val }
  let self ← self.readIf (self.is_use_rela && self.flag RELOCATION_GROUP_HAS_ADDEND_FLAG &&
      ! self.flag RELOCATION_GROUPED_BY_ADDEND_FLAG) fun self val =>
    { self with r_addend := self.r_addend + val }
  let self := { self with
    relocation_index := self.relocation_index + 1
    relocation_group_index := self.relocation_group_index + 1 }
  some (if self.is_use_rela then .rela self.r_offset self.r_info self.r_addend
    else .rel self.r_offset self.r_info, self)

/-- `none` is the null pointer that ends the caller's loop. -/
def xh_elf_packed_reloc_iterator_next (self : PackedRelocIterator w) :
    Option (RelCommon w × PackedRelocIterator w) :=
  if self.relocation_count ≤ self.relocation_index then none
  else if self.relocation_group_index = self.group_size then do
    let self ← xh_elf_packed_reloc_iterator_read_group_fields self
    readReloc self
  else readReloc self

/-- The relocations that a loop over the iterator is given, in `rounds` rounds at most. -/
def entries : Nat → PackedRelocIterator w → List (RelCommon w)
  | 0, _ => []
  | rounds + 1, self =>
    match xh_elf_packed_reloc_iterator_next self with
    | none => []
    | some (rel, self) => rel :: entries rounds self

/-! ### Well-formed tables -/

structure Rela (w : Nat) where
  r_offset : BitVec w
  r_info : BitVec w
  r_addend : BitVec w

def Rela.common (is_use_rela : Bool) (e : Rela w) : RelCommon w :=
  if is_use_rela then .rela e.r_offset e.r_info e.r_addend else .rel e.r_offset e.r_info

/-- Relocations packed together, and what is left out of each. -/
structure Group (w : Nat) where
  by_info : Bool
  by_offset_delta : Bool
  by_addend : Bool
  has_addend : Bool
  head : Rela w
  tail : List (Rela w)

namespace Group

def rels (g : Group w) : List (Rela w) := g.head :: g.tail

def flags (g : Group w) : Nat :=
  g.by_info.toNat * RELOCATION_GROUPED_BY_INFO_FLAG +
    g.by_offset_delta.toNat * RELOCATION_GROUPED_BY_OFFSET_DELTA_FLAG +
    g.by_addend.toNat * RELOCATION_GROUPED_BY_ADDEND_FLAG +
    g.has_addend.toNat * RELOCATION_GROUP_HAS_ADDEND_FLAG

/-- What the flags leave out of an entry is given by the group or by the entry before. -/
structure Fits (g : Group w) (delta : BitVec w) (e e' : Rela w) : Prop where
  offset : g.by_offset_delta → e'.r_offset - e.r_offset = delta
  info : g.by_info → e'.r_info = e.r_info
  addend : ¬ (g.has_addend ∧ ¬ g.by_addend) → e'.r_addend = e.r_addend

/-- A group whose first entry follows `prev`. -/
structure Legal (is_use_rela : Bool) (prev : Rela w) (g : Group w) : Prop where
  fits : g.rels.IsChain (g.Fits (g.head.r_offset - prev.r_offset))
  no_addend : g.has_addend = false → g.head.r_addend = 0
  rela : g.has_addend → is_use_rela

/-- The entries of a group, each after the one before it. -/
def encodeRels (g : Group w) (prev : Rela w) : List (Rela w) → List UInt8
  | [] => []
  | e :: es =>
    (if g.by_offset_delta then [] else word (e.r_offset - prev.r_offset)) ++
      (if g.by_info then [] else word e.r_info) ++
      (if g.has_addend ∧ ¬ g.by_addend then word (e.r_addend - prev.r_addend) else []) ++
      encodeRels g e es

def encode (g : Group w) (prev : Rela w) : List UInt8 :=
  word (BitVec.ofNat w g.rels.length) ++ word (BitVec.ofNat w g.flags) ++
    (if g.by_offset_delta then word (g.head.r_offset - prev.r_offset) else []) ++
    (if g.by_info then word g.head.r_info else []) ++
    (if g.has_addend ∧ g.by_addend then word (g.head.r_addend - prev.r_addend) else []) ++
    g.encodeRels prev g.rels

def last (g : Group w) : Rela w := g.rels.getLast (List.cons_ne_nil _ _)

end Group

def encodeGroups (prev : Rela w) : List (Group w) → List UInt8
  | [] => []
  | g :: gs => g.encode prev ++ encodeGroups g.last gs

def LegalGroups (is_use_rela : Bool) (prev : Rela w) : List (Group w) → Prop
  | [] => True
  | g :: gs => g.Legal is_use_rela prev ∧ LegalGroups is_use_rela g.last gs

def relsOf (gs : List (Group w)) : List (Rela w) := gs.flatMap Group.rels

/-- A whole table after its four magic bytes: the number of relocations, the first offset, the
groups. -/
def encodeTable (base : BitVec w) (gs : List (Group w)) : List UInt8 :=
  word (BitVec.ofNat w (relsOf gs).length) ++ word base ++ encodeGroups ⟨base, 0, 0⟩ gs

/-! ### Hooking -/

/-- The relocation types of an architecture, and where `XH_ELF_R_SYM` splits `r_info`. -/
structure Abi where
  sym_shift : Nat
  jump_slot : Nat
  glob_dat : Nat
  abs : Nat

def Abi.arm : Abi := ⟨8, 22, 21, 2⟩
def Abi.aarch64 : Abi := ⟨32, 1026, 1025, 257⟩
def Abi.i386 : Abi := ⟨8, 7, 6, 1⟩
def Abi.x86_64 : Abi := ⟨32, 7, 6, 1⟩

namespace Abi

variable (abi : Abi)

def r_type (info : BitVec w) : RelType :=
  let t := info.toNat % 2 ^ abi.sym_shift
  if t = abi.jump_slot then .jumpSlot
  else if t = abi.glob_dat then .globDat
  else if t = abi.abs then .abs
  else .other t

def reloc (r_offset r_info : BitVec w) : Reloc :=
  ⟨r_offset.toNat, r_info.toNat >>> abi.sym_shift, abi.r_type r_info⟩

/-- The fields that `xh_elf_find_and_replace_func` reads. -/
def common : RelCommon w → Reloc
  | .rela r_offset r_info _ => abi.reloc r_offset r_info
  | .rel r_offset r_info => abi.reloc r_offset r_info

end Abi

section Hook

variable (abi : Abi) (u : Util) (self : XhElf) (new_func : Addr) (old_func : Option Addr)
  (symidx : Nat)

/-- The loop over `.rel(a).android`. Each round counts `relocation_index` up to the number of
relocations, so that many rounds are enough. -/
def hookAndroid : Nat → PackedRelocIterator w → Mem → Mem × Int
  | 0, _, m => (m, 0)
  | rounds + 1, packed_iter, m =>
    match xh_elf_packed_reloc_iterator_next packed_iter with
    | none => (m, 0)
    | some (rel_common, packed_iter) =>
      let r := xh_elf_find_and_replace_func u self false new_func old_func symidx m
        (abi.common rel_common)
      if r.2.1 ≠ 0 then (r.1, r.2.1) else hookAndroid rounds packed_iter r.1

theorem hookAndroid_eq (rounds : Nat) (packed_iter : PackedRelocIterator w) (m : Mem) :
    hookAndroid abi u self new_func old_func symidx rounds packed_iter m =
      hookDyn u self new_func old_func symidx ((entries rounds packed_iter).map abi.common) m := by
  induction rounds generalizing packed_iter m with
  | zero => rfl
  | succ rounds ih =>
    rw [hookAndroid, entries]
    cases xh_elf_packed_reloc_iterator_next packed_iter with
    | none => rfl
    | some next =>
      rw [List.map_cons, hookDyn]
      simp only [ih]

end Hook

end ElfHook.XHook

import Mathlib.Data.BitVec
import Mathlib.Tactic.Ring

/-!
# Signed LEB128

A number as bytes of seven bits each, lowest first; every byte but the last has its high bit set,
and bit 6 of the last one is the sign.

* `encodes_encode`: the shortest bytes of a number encode it.
* `or_shiftLeft`, `or_neg_shiftLeft`: a digit, or the sign, put above the bits read so far.
-/

namespace ElfHook.Lib.Sleb128

/-- `bs` is an encoding of `v`, not necessarily the shortest. -/
inductive Encodes : List UInt8 → Int → Prop
  | last (b : UInt8) (h : b.toNat < 128) :
      Encodes [b] (if b.toNat < 64 then b.toNat else b.toNat - 128)
  | more (b : UInt8) (h : 128 ≤ b.toNat) {bs : List UInt8} {v : Int} (hbs : Encodes bs v) :
      Encodes (b :: bs) (b.toNat % 128 + 128 * v)

/-- The shortest encoding. -/
def encode (v : Int) : List UInt8 :=
  if -64 ≤ v ∧ v < 64 then [UInt8.ofNat (v % 128).toNat]
  else UInt8.ofNat ((v % 128).toNat + 128) :: encode (v / 128)
termination_by v.natAbs
decreasing_by omega

theorem encodes_encode (v : Int) : Encodes (encode v) v := by
  induction hn : v.natAbs using Nat.strongRecOn generalizing v with
  | ind n ih =>
    have hdigit : 0 ≤ v % 128 ∧ v % 128 < 128 := by omega
    rw [encode]
    split_ifs with hsmall
    · have hb : (UInt8.ofNat (v % 128).toNat).toNat = (v % 128).toNat := by
        rw [UInt8.toNat_ofNat', Nat.mod_eq_of_lt (by omega)]
      convert Encodes.last (UInt8.ofNat (v % 128).toNat) (by omega) using 1
      rw [hb]
      split_ifs <;> omega
    · have hb : (UInt8.ofNat ((v % 128).toNat + 128)).toNat = (v % 128).toNat + 128 := by
        rw [UInt8.toNat_ofNat', Nat.mod_eq_of_lt (by omega)]
      have hrest := ih (v / 128).natAbs (by omega) (v / 128) rfl
      convert Encodes.more _ (hb ▸ Nat.le_add_left _ _) hrest using 1
      rw [hb]
      omega

/-! ### Putting digits together -/

variable {w : Nat} {x : BitVec w} {s : Nat}

theorem ofNat_shiftLeft (d : Nat) : BitVec.ofNat w d <<< s = BitVec.ofInt w (d * 2 ^ s) := by
  have hcast : (d * 2 ^ s : Int) = ((d * 2 ^ s : Nat) : Int) := by push_cast; rfl
  rw [hcast, BitVec.ofInt_natCast]
  apply BitVec.eq_of_toNat_eq
  simp [BitVec.toNat_shiftLeft, Nat.shiftLeft_eq]

/-- Bits put above the ones of `x` are added to it. -/
theorem or_shiftLeft_eq_add (h : x.toNat < 2 ^ s) (y : BitVec w) : x ||| y <<< s = x + y <<< s := by
  rw [BitVec.add_eq_or_of_and_eq_zero]
  apply BitVec.eq_of_getLsbD_eq
  intro i hi
  rw [BitVec.getLsbD_and, BitVec.getLsbD_shiftLeft, BitVec.getLsbD_zero]
  by_cases hs : i < s
  · simp [hs]
  · have hx : x.getLsbD i = false :=
      Nat.testBit_lt_two_pow (h.trans_le (Nat.pow_le_pow_right (by decide) (Nat.not_lt.1 hs)))
    rw [hx, Bool.false_and]

/-- A digit read next is added above the bits read so far. -/
theorem or_shiftLeft (h : x.toNat < 2 ^ s) (d : Nat) :
    x ||| BitVec.ofNat w d <<< s = x + BitVec.ofInt w (d * 2 ^ s) := by
  rw [or_shiftLeft_eq_add h, ofNat_shiftLeft]

/-- The sign fills the bits above. -/
theorem or_neg_shiftLeft (h : x.toNat < 2 ^ s) :
    x ||| -(1#w <<< s) = x + BitVec.ofInt w (-2 ^ s) := by
  have hone : -(1#w <<< s) = (-1#w) <<< s := by
    rw [BitVec.shiftLeft_eq_mul_twoPow, BitVec.shiftLeft_eq_mul_twoPow, BitVec.neg_mul]
  have hpow : 1#w <<< s = BitVec.ofInt w (2 ^ s) := by
    simpa using ofNat_shiftLeft (w := w) (s := s) 1
  rw [hone, or_shiftLeft_eq_add h, ← hone, BitVec.ofInt_neg, hpow]

end ElfHook.Lib.Sleb128

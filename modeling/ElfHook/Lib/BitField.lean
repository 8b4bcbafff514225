import Mathlib.Data.BitVec
import Mathlib.Tactic.Linarith

/-!
# Fields of instruction words

A field of a 32-bit word is its bits `[lo, lo + n)`. `putField` writes one with a mask, as an
encoder does.

* `extract_putField`, `putField_and`: the field read back, and the tests it does not disturb.
* `toInt_extract_ofInt`: a signed number that fits a field is read back from it.
* `sext_field`: the two shifts that sign-extend a field and scale it by four.
-/

namespace ElfHook.Lib

abbrev Word := BitVec 32

/-- The ones of the field of `n` bits from bit `lo`. -/
def fieldMask (lo n : Nat) : Word := (BitVec.allOnes n).setWidth 32 <<< lo

/-- `w` with the field replaced by the low bits of `v`. -/
def putField (lo n : Nat) (v w : Word) : Word :=
  (v <<< lo &&& fieldMask lo n) ||| (w &&& ~~~ fieldMask lo n)

variable {lo n : Nat} {v w k m c : Word}

theorem getLsbD_fieldMask (i : Nat) :
    (fieldMask lo n).getLsbD i = (decide (i < 32) && decide (lo ≤ i) && decide (i < lo + n)) := by
  unfold fieldMask
  rw [BitVec.getLsbD_shiftLeft, BitVec.getLsbD_setWidth, BitVec.getLsbD_allOnes]
  grind

theorem extract_putField (h : lo + n ≤ 32) :
    (putField lo n v w).extractLsb' lo n = v.extractLsb' 0 n := by
  apply BitVec.eq_of_getLsbD_eq
  intro i hi
  simp only [putField, BitVec.getLsbD_extractLsb', BitVec.getLsbD_or, BitVec.getLsbD_and,
    getLsbD_fieldMask, BitVec.getLsbD_not, BitVec.getLsbD_shiftLeft]
  grind

theorem extract_putField_disjoint {lo' n' : Nat} (h : lo' + n' ≤ lo ∨ lo + n ≤ lo') :
    (putField lo n v w).extractLsb' lo' n' = w.extractLsb' lo' n' := by
  apply BitVec.eq_of_getLsbD_eq
  intro i hi
  simp only [putField, BitVec.getLsbD_extractLsb', BitVec.getLsbD_or, BitVec.getLsbD_and,
    getLsbD_fieldMask, BitVec.getLsbD_not, BitVec.getLsbD_shiftLeft]
  grind

theorem putField_and (hk : fieldMask lo n &&& k = 0#32) : putField lo n v w &&& k = w &&& k := by
  apply BitVec.eq_of_getLsbD_eq
  intro i hi
  have hbit : (fieldMask lo n &&& k).getLsbD i = false := by
    rw [hk]
    exact BitVec.getLsbD_zero
  rw [BitVec.getLsbD_and] at hbit
  simp only [putField, BitVec.getLsbD_or, BitVec.getLsbD_and, BitVec.getLsbD_not]
  grind

/-- A test under a mask decides every test under a part of the mask. -/
theorem and_of_and (h : w &&& m = c) (hk : m &&& k = k) : w &&& k = c &&& k := by
  rw [← h, BitVec.and_assoc, hk]

theorem toInt_extract_ofInt (hn : 0 < n) (hn32 : n ≤ 32) {a : Int} (hmin : -2 ^ (n - 1) ≤ a)
    (hmax : a < 2 ^ (n - 1)) : ((BitVec.ofInt 32 a).extractLsb' 0 n).toInt = a := by
  have hdvd : ((2 : Int) ^ n) ∣ ((2 ^ 32 : Nat) : Int) := by
    push_cast
    exact pow_dvd_pow 2 hn32
  have hmod : (((a % ((2 ^ 32 : Nat) : Int)).toNat % 2 ^ n : Nat) : Int)
      = a % ((2 ^ n : Nat) : Int) := by
    rw [Int.natCast_emod, Int.toNat_of_nonneg (Int.emod_nonneg _ (by norm_num)), Int.natCast_pow]
    exact Int.emod_emod_of_dvd _ hdvd
  have hpow : 2 ^ n = 2 * 2 ^ (n - 1) := by
    rw [← Nat.pow_succ', Nat.succ_eq_add_one, Nat.sub_add_cancel hn]
  rw [BitVec.toInt_eq_toNat_bmod, BitVec.extractLsb'_toNat, BitVec.toNat_ofInt,
    Nat.shiftRight_zero, hmod, Int.emod_bmod]
  apply Int.bmod_eq_of_le_mul_two <;> (rw [hpow]; push_cast; linarith)

/-- The shifts `(int32_t)(w << k) >> (k + lo - 2) & ~3` read the signed field, times four. -/
theorem sext_field (lo : Nat) {n k : Nat} (w : Word) (hn : 0 < n) (hk : k + n + lo = 32) (hlo : 2 ≤ k + lo) :
    (w <<< k).sshiftRight (k + lo - 2) &&& ~~~ 3#32
      = (w.extractLsb' lo n).signExtend 32 <<< 2 := by
  apply BitVec.eq_of_getLsbD_eq
  intro i hi
  have h3 : (3#32).getLsbD i = decide (i < 2) := by
    revert i
    decide
  simp only [BitVec.getLsbD_and, BitVec.getLsbD_not, h3, BitVec.getLsbD_shiftLeft,
    BitVec.getLsbD_sshiftRight, BitVec.getLsbD_signExtend, BitVec.getLsbD_extractLsb',
    BitVec.msb_eq_getLsbD_last]
  grind

theorem toInt_signExtend_shiftLeft (hn30 : n ≤ 30) (f : BitVec n) :
    (f.signExtend 32 <<< 2).toInt = 4 * f.toInt := by
  have hmin := BitVec.le_toInt f
  have hmax := BitVec.toInt_lt (x := f)
  have hpow : (2 : Int) ^ (n - 1) ≤ 2 ^ 29 := pow_le_pow_right₀ (by norm_num) (by omega)
  rw [BitVec.shiftLeft_eq_mul_twoPow, BitVec.toInt_mul, BitVec.toInt_signExtend_of_le (by omega)]
  have h4 : (BitVec.twoPow 32 2).toInt = 4 := by decide
  rw [h4, mul_comm]
  apply Int.bmod_eq_of_le_mul_two <;> norm_num at hpow ⊢ <;> linarith

theorem toNat_signExtend_shiftLeft (hn30 : n ≤ 30) {f : BitVec n} (hf : 0 ≤ f.toInt) :
    ((f.signExtend 32 <<< 2).toNat : Int) = 4 * f.toInt := by
  have hint := toInt_signExtend_shiftLeft hn30 f
  have hmsb : 2 * (f.signExtend 32 <<< 2).toNat < 2 ^ 32 := by
    rw [← BitVec.toInt_pos_iff, hint]
    linarith
  rw [← hint, BitVec.toInt_eq_toNat_of_lt hmsb]

end ElfHook.Lib

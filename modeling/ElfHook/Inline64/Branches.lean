import ElfHook.Inline64.Blocks

/-!
# Relocated branches

* `direct_place`: a branch that keeps its form gets the offset to where its target went, whether the
  target stays, was moved before, or is moved later.
* `round_branch`: `B` and `BL`; out of reach they become an indirect jump or call.
* `round_cond`: `B.cond`, `CBZ`, `CBNZ`, `TBZ` and `TBNZ`, for offsets that are not negative:
  `fix_cond_comp_test_branch` does not extend the sign.
-/

namespace ElfHook.Inline64

open Lib Lib.A64 Fixer

variable {R : Type*} {S : Sem R} {mem code : Int → Word} {loc : Nat → Int} {base outp : Int}
  {count k : Nat} {f : Fixer} {r : Regs R}

/-! ## Branches that keep their form -/

/-- A branch to `tgt` with its offset in the field at `lo`, entered in the `fmap` of a target that is
still to come. -/
def direct (f : Fixer) (k : Nat) (tgt : Int) (lo n : Nat) (ins : Word) : Fixer :=
  let f := f.reset k
  if f.ctx.is_in_fixing_range tgt then
    let ref_idx := f.ctx.get_ref_ins_index tgt
    if ref_idx ≤ k then
      f.emit [putField lo n (BitVec.ofInt 32 (((f.ctx.dat ref_idx).ins - f.outp) >>> (2 : Nat))) ins]
    else (f.insert_fix_map ref_idx lo (fieldMask lo n)).emit [putField lo n 0#32 ins]
  else f.emit [putField lo n (BitVec.ofInt 32 ((tgt - f.outp) >>> (2 : Nat))) ins]

theorem putField_or {lo n : Nat} {v w : Word} :
    putField lo n 0#32 w ||| (v <<< lo &&& fieldMask lo n) = putField lo n v w := by
  simp [putField, BitVec.or_comm]

theorem fixBits_eq {a b : Int} {lo n : Nat} (hmin : -2 ^ 31 ≤ b - a) (hmax : b - a < 2 ^ 31) :
    fixBits b ⟨a, lo, fieldMask lo n⟩
      = BitVec.ofInt 32 ((b - a) >>> (2 : Nat)) <<< lo &&& fieldMask lo n := by
  rw [fixBits, BitVec.sshiftRight_eq, BitVec.toInt_ofInt_eq_self (by norm_num) hmin hmax]

/-- Wherever its target goes, the finished branch has the offset to it. -/
theorem direct_place (mem : Int → Word) (hwf : Wf base outp count k f) (hk : k < A64_MAX_REFERENCES)
    (tgt : Int) (lo n : Nat) (ins : Word) :
    ∃ pend w, (direct f k tgt lo n ins).advance.process_fix_map k = f.place k 0 pend [w] ∧
      (∀ p ∈ pend, k < p.1 ∧ p.1 < count) ∧ ∀ code loc, Finished mem code loc base outp count →
        Completes code loc (k + 1) (f.placed k 0 pend [w]) → loc k = f.outp →
        code (loc k)
          = putField lo n (BitVec.ofInt 32 ((dest base count loc tgt - loc k) >>> (2 : Nat))) ins := by
  have hmoved : (f.reset k).ctx.is_in_fixing_range tgt ↔ Moved base count tgt := hwf.moved tgt
  have hidx : (f.reset k).ctx.get_ref_ins_index tgt = ((tgt - base) / 4).toNat := by
    rw [← hwf.basep]
    rfl
  have houtp : (f.reset k).outp = f.outp := rfl
  unfold direct
  simp only [hmoved, hidx, houtp]
  by_cases htgt : Moved base count tgt
  · rw [if_pos htgt]
    by_cases href : ((tgt - base) / 4).toNat ≤ k
    · rw [if_pos href]
      refine ⟨none, _, place_of_emit _, by simp, fun code loc hfin hcomp hloc => ?_⟩
      have hins : ((f.reset k).ctx.dat ((tgt - base) / 4).toNat).ins
          = loc ((tgt - base) / 4).toNat := by
        rw [← hcomp.ins _ (by omega)]
        simp [Fixer.placed]
      have hcode := hcomp.at_block hwf hk (i := 0) rfl
      simp only [Nat.cast_zero, mul_zero, add_zero, ← hloc] at hcode
      rw [hcode, hins, dest, if_pos htgt]
    · rw [if_neg href]
      refine ⟨_, _, place_of_insert _ _ _ _, ?_, fun code loc hfin hcomp hloc => ?_⟩
      · intro p hp
        cases hp
        unfold Moved at htgt
        simp only
        omega
      · have hlt : ((tgt - base) / 4).toNat < count := by
          unfold Moved at htgt
          omega
        have hl := hfin.locs _ hlt
        have hl' := hfin.locs k (by omega)
        rw [hloc, hcomp.pending hwf hk, fixBits_eq (by omega) (by omega), putField_or, dest,
          if_pos htgt]
  · rw [if_neg htgt]
    refine ⟨none, _, place_of_emit _, by simp, fun code loc hfin hcomp hloc => ?_⟩
    have hcode := hcomp.at_block hwf hk (i := 0) rfl
    simp only [Nat.cast_zero, mul_zero, add_zero, ← hloc] at hcode
    rw [hcode, dest, if_neg htgt]

/-- A jump to `a` that the trampoline makes to `dest a`. -/
theorem follows_jump {a next : Int} (h4 : 4 ∣ a - base)
    (h : Reaches S code ⟨loc k, r⟩ ⟨dest base count loc a, r⟩) :
    Follows S code loc base count next k r ⟨a, r⟩ := by
  by_cases ha : Moved base count a
  · rw [dest, if_pos ha] at h
    have hrange := ha
    unfold Moved at hrange
    exact .inside _ (by omega) (by simp only; omega) h
  · rw [dest, if_neg ha] at h
    exact .leave r ha h Regs.AgreeBut.rfl

/-- An offset that a near or a moved target has fits a field of `n` bits. -/
theorem dest_offset (hfin : Finished mem code loc base outp count) (hk : k < count) {tgt : Int}
    {n : Nat} (hn : 8 ≤ n) (hn32 : n ≤ 32) (h4 : 4 ∣ tgt - base)
    (hnear : Moved base count tgt ∨ ((tgt - loc k) >>> (2 : Nat)).natAbs < 2 ^ (n - 1) - 1) :
    loc k + (4 : Int) * ((BitVec.ofInt 32 ((dest base count loc tgt - loc k) >>> (2 : Nat))).extractLsb' 0 n).toInt
      = dest base count loc tgt := by
  have hlk := hfin.locs k hk
  have hlk4 := hfin.loc4 k hk
  have hal := hfin.aligned
  have hpow : (2 : Int) ^ 7 ≤ 2 ^ (n - 1) := pow_le_pow_right₀ (by norm_num) (by omega)
  by_cases hm : Moved base count tgt
  · have hlt : ((tgt - base) / 4).toNat < count := by
      unfold Moved at hm
      omega
    have hl := hfin.locs _ hlt
    have hl4 := hfin.loc4 _ hlt
    have hshift : ∀ d : Int, -200 < d → d < 200 → (-50 : Int) ≤ d >>> (2 : Nat) ∧ d >>> (2 : Nat) < (50 : Int) := by
      intro d hd hd'
      rw [Int.shiftRight_eq_div_pow]
      omega
    rw [dest, if_pos hm]
    have hb := hshift (loc ((tgt - base) / 4).toNat - loc k) (by omega) (by omega)
    exact offset_field (by omega) hn32 (by omega) (by linarith [hb.1]) (by linarith [hb.2])
  · have hnear := hnear.resolve_left hm
    have hcast : (((2 : Nat) ^ (n - 1) : Nat) : Int) = 2 ^ (n - 1) := by push_cast; rfl
    rw [dest, if_neg hm]
    exact offset_field (by omega) hn32 (by omega) (by omega) (by omega)

theorem follows_b (hfin : Finished mem code loc base outp count) (hk : k < count) {ins : Word}
    (hb : ins &&& 0xfc000000#32 = 0x14000000#32) {p next : Int} (h4 : 4 ∣ p - base)
    (hnear : Moved base count (p + 4 * imm26 ins) ∨
      ((p + 4 * imm26 ins - loc k) >>> (2 : Nat)).natAbs < 2 ^ 25 - 1)
    (hcode : code (loc k) = putField 0 26
      (BitVec.ofInt 32 ((dest base count loc (p + 4 * imm26 ins) - loc k) >>> (2 : Nat))) ins) :
    Follows S code loc base count next k r ⟨p + 4 * imm26 ins, r⟩ := by
  refine follows_jump (by omega) (Reaches.one ?_)
  simp only [step, hcode, decode_b hb, Cpu.mk.injEq, and_true]
  exact dest_offset hfin hk (by norm_num) (by norm_num) (by omega) hnear

theorem follows_bl (hfin : Finished mem code loc base outp count) (hk : k < count) {ins : Word}
    (hb : ins &&& 0xfc000000#32 = 0x94000000#32) {p : Int} (h4 : 4 ∣ p - base)
    (hp : p = base + 4 * k) (hout : ¬ Moved base count (p + 4 * imm26 ins))
    (hnear : ((p + 4 * imm26 ins - loc k) >>> (2 : Nat)).natAbs < 2 ^ 25 - 1)
    (hcode : code (loc k) = putField 0 26
      (BitVec.ofInt 32 ((dest base count loc (p + 4 * imm26 ins) - loc k) >>> (2 : Nat))) ins) :
    Follows S code loc base count (loc k + 4) k r
      ⟨p + 4 * imm26 ins, r.set 30#5 (BitVec.ofInt 64 (p + 4))⟩ := by
  refine .call (r.set 30#5 (BitVec.ofInt 64 (loc k + 4))) hout (Reaches.one ?_) ?_ ?_ ?_
  · have hoff := dest_offset hfin hk (n := 26) (by norm_num) (by norm_num) (by omega) (.inr hnear)
    simp only [step, hcode, decode_bl hb, hoff]
    rw [dest, if_neg hout]
  · refine ⟨rfl, fun n hn => ?_⟩
    simp only [List.mem_cons, List.not_mem_nil, or_false, not_or] at hn
    simp [Regs.set, hn.2]
  · rw [set_x30, hp, mul_add, mul_one, add_assoc]
  · exact set_x30 _

/-! ## `fix_branch_imm` -/

theorem branch_imm (ins : Word) : ((ins <<< 6).sshiftRight 4).toInt = 4 * imm26 ins := by
  have hmask : (ins <<< 6).sshiftRight 4 &&& ~~~ 3#32 = (ins <<< 6).sshiftRight 4 := by
    apply BitVec.eq_of_getLsbD_eq
    intro i hi
    have h3 : (3#32).getLsbD i = decide (i < 2) := by
      revert i
      decide
    simp only [BitVec.getLsbD_and, BitVec.getLsbD_not, h3, BitVec.getLsbD_sshiftRight,
      BitVec.getLsbD_shiftLeft]
    grind
  rw [← hmask, sext_field 0 (n := 26) (k := 6) _ (by decide) (by decide) (by decide),
    toInt_signExtend_shiftLeft (by decide), imm26]

theorem imm26_bounds (ins : Word) : -2 ^ 25 ≤ imm26 ins ∧ imm26 ins < 2 ^ 25 :=
  ⟨BitVec.le_toInt _, BitVec.toInt_lt⟩

theorem branch_word {ins opc v : Word} (h : ins &&& 0xfc000000#32 = opc) :
    opc ||| (v &&& ~~~ 0xfc000000#32) = putField 0 26 v ins := by
  rw [← h, putField, BitVec.shiftLeft_zero, show fieldMask 0 26 = ~~~ 0xfc000000#32 by decide,
    BitVec.not_not, BitVec.or_comm]

theorem follows_far {a next : Int} (hsmall : -2 ^ 63 ≤ a ∧ a < 2 ^ 63)
    (hout : ¬ Moved base count a) (h0 : code (loc k) = 0x58000051#32)
    (h1 : code (loc k + 4) = 0xd61f0220#32)
    (h2 : code (loc k + 8) = (BitVec.ofInt 64 a).extractLsb' 0 32)
    (h3 : code (loc k + 12) = (BitVec.ofInt 64 a).extractLsb' 32 32) :
    Follows S code loc base count next k r ⟨a, r⟩ :=
  .leave _ hout (reaches_far hsmall.1 hsmall.2 h0 h1 h2 h3) agreeBut_set17

/-- `LDR X17, #12; ADR X30, #16; BR X17` and an address call there. -/
theorem follows_far_call {a p : Int} (hsmall : -2 ^ 63 ≤ a ∧ a < 2 ^ 63) (hp : p = base + 4 * k)
    (hout : ¬ Moved base count a) (h0 : code (loc k) = 0x58000071#32)
    (h1 : code (loc k + 4) = 0x1000009e#32) (h2 : code (loc k + 8) = 0xd61f0220#32)
    (h3 : code (loc k + 12) = (BitVec.ofInt 64 a).extractLsb' 0 32)
    (h4 : code (loc k + 16) = (BitVec.ofInt 64 a).extractLsb' 32 32) :
    Follows S code loc base count (loc k + 20) k r
      ⟨a, r.set 30#5 (BitVec.ofInt 64 (p + 4))⟩ := by
  have hldr : decode 0x58000071#32 = .ldr .x 17#5 12 := by decide
  have hadr : decode 0x1000009e#32 = .adr 30#5 16 := by decide
  have hbr : decode 0xd61f0220#32 = .br 17#5 := by decide
  have hval : code (loc k + 12 + 4 * (1 : Nat)) ++ code (loc k + 12 + 4 * (0 : Nat))
      = BitVec.ofInt 64 a := by
    rw [show loc k + 12 + 4 * ((1 : Nat) : Int) = loc k + 16 by omega,
      show loc k + 12 + 4 * ((0 : Nat) : Int) = loc k + 12 by omega, h3, h4]
    exact append_halves _
  have h17 : (17#5 : BitVec 5) ≠ 31#5 := by decide
  have h1730 : (17#5 : BitVec 5) ≠ 30#5 := by decide
  refine .call ((r.set 17#5 (BitVec.ofInt 64 a)).set 30#5 (BitVec.ofInt 64 (loc k + 20))) hout
    ?_ ?_ ?_ (set_x30 _)
  · refine Reaches.head (t := ⟨loc k + 4, r.set 17#5 (BitVec.ofInt 64 a)⟩) ?_
      (Reaches.head (t := ⟨loc k + 8,
        (r.set 17#5 (BitVec.ofInt 64 a)).set 30#5 (BitVec.ofInt 64 (loc k + 20))⟩) ?_
      (Reaches.one ?_))
    · simp only [step, h0, hldr, load, hval]
    · simp only [step, h1, hadr, Cpu.mk.injEq]
      exact ⟨by omega, by rw [show loc k + 4 + 16 = loc k + 20 by omega]⟩
    · have hget : ((r.set 17#5 (BitVec.ofInt 64 a)).set 30#5 (BitVec.ofInt 64 (loc k + 20))).get 17#5
          = BitVec.ofInt 64 a := by
        simp [Regs.get, Regs.set, h17, show (30#5 : BitVec 5) ≠ 31#5 by decide, h1730]
      simp only [step, h2, hbr, hget, Cpu.mk.injEq, and_true]
      exact BitVec.toInt_ofInt_eq_self (by norm_num) hsmall.1 hsmall.2
  · refine ⟨by simp only [Regs.set]; split <;> rfl, fun n hn => ?_⟩
    simp only [List.mem_cons, List.not_mem_nil, or_false, not_or] at hn
    simp [Regs.set, hn.1, hn.2]
  · rw [set_x30, hp, mul_add, mul_one, add_assoc]

/-- `LDR X17, #8; BR X17` and the address. -/
def far_jump (a : Int) : List Word := [0x58000051#32, 0xd61f0220#32] ++ words64 a

def far_call (a : Int) : List Word := [0x58000071#32, 0x1000009e#32, 0xd61f0220#32] ++ words64 a

theorem fix_branch_imm_eq (hwf : Wf base outp count k f) {ins : Word} (hins : mem f.inp = ins)
    {tgt : Int} (htgt : f.inp + 4 * imm26 ins = tgt)
    (hop : ins &&& 0xfc000000#32 = 0x14000000#32 ∨ ins &&& 0xfc000000#32 = 0x94000000#32) :
    fix_branch_imm mem f = some (
      if ¬ Moved base count tgt ∧ 2 ^ 25 - 1 ≤ ((tgt - f.outp) >>> (2 : Nat)).natAbs then
        if ins &&& 0xfc000000#32 = 0x14000000#32 then
          f.place k (if (f.outp + 8) % 8 ≠ 0 then 1 else 0) none (far_jump tgt)
        else f.place k (if (f.outp + 8) % 8 = 0 then 1 else 0) none (far_call tgt)
      else (direct f k tgt 0 26 ins).advance.process_fix_map k) := by
  have hmoved : (f.reset k).ctx.is_in_fixing_range tgt ↔ Moved base count tgt := hwf.moved tgt
  have hrmask : (0x03ffffff#32 >>> 1).toNat = 2 ^ 25 - 1 := by decide
  have houtp : (f.reset k).outp = f.outp := rfl
  unfold fix_branch_imm direct far_jump far_call
  simp only [hins, hwf.index, branch_imm, if_pos hop, hrmask, branch_word rfl, houtp,
    Option.some.injEq]
  rw [show ((f.reset k).inp + 4 * imm26 ins) = tgt from htgt,
    show 0x03ffffff#32 = fieldMask 0 26 by decide]
  simp only [hmoved, ← place_of_align]
  split
  · split <;> rfl
  · rfl

theorem round_branch (hwf : Wf base outp count k f) (hk : k < count)
    (hcount : count ≤ A64_MAX_INSTRUCTIONS)
    (hop : mem f.inp &&& 0xfc000000#32 = 0x14000000#32 ∨
      mem f.inp &&& 0xfc000000#32 = 0x94000000#32)
    (hcall : mem f.inp &&& 0xfc000000#32 = 0x94000000#32 →
      ¬ Moved base count (f.inp + 4 * imm26 (mem f.inp))) :
    ∃ f' n pend block, fix_branch_imm mem f = some f' ∧
      Round S mem base outp count k f f' n pend block := by
  have hk10 : k < A64_MAX_REFERENCES := by
    unfold A64_MAX_INSTRUCTIONS at hcount
    unfold A64_MAX_REFERENCES A64_MAX_INSTRUCTIONS
    omega
  have h4 : 4 ∣ f.inp - base := by
    rw [hwf.inp]
    omega
  have hbounds := imm26_bounds (mem f.inp)
  rw [fix_branch_imm_eq hwf rfl rfl hop]
  by_cases hnear : Moved base count (f.inp + 4 * imm26 (mem f.inp)) ∨
      ((f.inp + 4 * imm26 (mem f.inp) - f.outp) >>> (2 : Nat)).natAbs < 2 ^ 25 - 1
  swap
  · have hfar := not_or.1 hnear
    rw [if_pos ⟨hfar.1, Nat.le_of_not_lt hfar.2⟩]
    by_cases hb : mem f.inp &&& 0xfc000000#32 = 0x14000000#32
    · rw [if_pos hb]
      refine ⟨_, _, none, _, rfl, rfl, by simp, by simp, ?_, fun code loc hfin hcomp hloc r _ => ?_⟩
      · split <;> simp [far_jump, words64]
      · have hint := hfin.int64 hk (d := 4 * imm26 (mem f.inp)) (by omega)
        rw [← hwf.inp] at hint
        have hcode : ∀ (i : Nat) (w : Word), (far_jump (f.inp + 4 * imm26 (mem f.inp)))[i]? = some w →
            code (loc k + 4 * i) = w := fun i w hw => hloc ▸ hcomp.at_block hwf hk10 hw
        have hstep : step S mem ⟨f.inp, r⟩ = ⟨f.inp + 4 * imm26 (mem f.inp), r⟩ := by
          simp only [step, decode_of_b hb]
        rw [hstep]
        refine follows_far hint hfar.1 ?_ (hcode 1 _ rfl) (hcode 2 _ rfl) (hcode 3 _ rfl)
        simpa using hcode 0 _ rfl
    · rw [if_neg hb]
      have hbl := hop.resolve_left hb
      refine ⟨_, _, none, _, rfl, rfl, by simp, by simp, ?_, fun code loc hfin hcomp hloc r _ => ?_⟩
      · split <;> simp [far_call, words64]
      · have hint := hfin.int64 hk (d := 4 * imm26 (mem f.inp)) (by omega)
        rw [← hwf.inp] at hint
        have hcode : ∀ (i : Nat) (w : Word), (far_call (f.inp + 4 * imm26 (mem f.inp)))[i]? = some w →
            code (loc k + 4 * i) = w := fun i w hw => hloc ▸ hcomp.at_block hwf hk10 hw
        have hstep : step S mem ⟨f.inp, r⟩ = ⟨f.inp + 4 * imm26 (mem f.inp),
            r.set 30#5 (BitVec.ofInt 64 (f.inp + 4))⟩ := by
          simp only [step, decode_of_bl hbl]
        rw [hstep]
        refine follows_far_call hint hwf.inp hfar.1 ?_ (hcode 1 _ rfl) (hcode 2 _ rfl)
          (hcode 3 _ rfl) (hcode 4 _ rfl)
        simpa using hcode 0 _ rfl
  · rw [if_neg (fun h => hnear.elim h.1 (Nat.not_lt_of_le h.2))]
    obtain ⟨pend, w, heq, hpend, hword⟩ := direct_place mem hwf hk10
      (f.inp + 4 * imm26 (mem f.inp)) 0 26 (mem f.inp)
    refine ⟨_, 0, pend, [w], rfl, heq, hpend, by simp, by simp, fun code loc hfin hcomp hloc r _ => ?_⟩
    have hloc : loc k = f.outp := by simpa using hloc
    have hcode := hword code loc hfin hcomp hloc
    rw [← hloc] at hnear
    by_cases hb : mem f.inp &&& 0xfc000000#32 = 0x14000000#32
    · have hstep : step S mem ⟨f.inp, r⟩ = ⟨f.inp + 4 * imm26 (mem f.inp), r⟩ := by
        simp only [step, decode_of_b hb]
      rw [hstep]
      exact follows_b hfin hk hb h4 hnear hcode
    · have hbl := hop.resolve_left hb
      have hstep : step S mem ⟨f.inp, r⟩ = ⟨f.inp + 4 * imm26 (mem f.inp),
          r.set 30#5 (BitVec.ofInt 64 (f.inp + 4))⟩ := by
        simp only [step, decode_of_bl hbl]
      rw [hstep]
      exact follows_bl hfin hk hbl h4 hwf.inp (hcall hbl) (hnear.resolve_left (hcall hbl)) hcode

/-! ## `fix_cond_comp_test_branch` -/

/-- A conditional branch with an offset of `n` bits, `lmask` the rest of it. -/
structure CondForm (ins lmask : Word) (n : Nat) : Prop where
  size : n = 19 ∨ n = 14
  mask : ~~~ lmask = fieldMask 5 n
  decode_put : ∀ v, decode (putField 5 n v ins)
    = .cond (ins &&& lmask) (4 * (v.extractLsb' 0 n).toInt)
  decode_eq : decode ins = .cond (ins &&& lmask) (4 * (ins.extractLsb' 5 n).toInt)

theorem cond_lmask_of_cond19 {ins : Word} (h : IsCond19 ins) :
    cond_lmask ins = some 0xff00001f#32 := by
  unfold cond_lmask
  unfold IsCond19 at h
  grind

theorem cond_lmask_of_cond14 {ins : Word} (h : IsCond14 ins) :
    cond_lmask ins = some 0xfff8001f#32 := by
  have hn := h.not_cond19
  unfold IsCond19 at hn
  unfold IsCond14 at h
  unfold cond_lmask
  grind

theorem cond_form {ins : Word} (h : IsCond19 ins ∨ IsCond14 ins) :
    ∃ lmask n, cond_lmask ins = some lmask ∧ CondForm ins lmask n := by
  rcases h with h | h
  · exact ⟨_, 19, cond_lmask_of_cond19 h, .inl rfl, by decide, fun v => decode_cond19 h,
      decode_of_cond19 h⟩
  · exact ⟨_, 14, cond_lmask_of_cond14 h, .inr rfl, by decide, fun v => decode_cond14 h,
      decode_of_cond14 h⟩

/-- The field shifted down to a multiple of four, without its sign. -/
theorem field_offset {n : Nat} (hn : n + 5 ≤ 32) (ins : Word) :
    ((ins &&& fieldMask 5 n) >>> 3).toNat = 4 * (ins.extractLsb' 5 n).toNat := by
  have heq : (ins &&& fieldMask 5 n) >>> 3 = (ins.extractLsb' 5 n).setWidth 32 <<< 2 := by
    apply BitVec.eq_of_getLsbD_eq
    intro i hi
    simp only [BitVec.getLsbD_ushiftRight, BitVec.getLsbD_and, getLsbD_fieldMask,
      BitVec.getLsbD_shiftLeft, BitVec.getLsbD_setWidth, BitVec.getLsbD_extractLsb']
    grind
  have hlt := (ins.extractLsb' 5 n).isLt
  have hpow : 2 ^ n ≤ 2 ^ 27 := Nat.pow_le_pow_right (by norm_num) (by omega)
  rw [heq, BitVec.toNat_shiftLeft, BitVec.toNat_setWidth, Nat.mod_eq_of_lt (by omega),
    Nat.shiftLeft_eq, Nat.mod_eq_of_lt (by omega), mul_comm]

theorem toNat_of_toInt_nonneg {n : Nat} {x : BitVec n} (h : 0 ≤ x.toInt) : (x.toNat : Int) = x.toInt := by
  rw [BitVec.toInt_eq_toNat_of_lt (BitVec.toInt_pos_iff.1 h)]

/-- `B.cond #8; B #20` around a jump, and the address. -/
def far_cond (n : Nat) (ins : Word) (a : Int) : List Word :=
  [putField 5 n 2#32 ins, 0x14000005#32, 0x58000051#32, 0xd61f0220#32] ++ words64 a

theorem fix_cond_eq (hwf : Wf base outp count k f) {ins lmask : Word} {n : Nat}
    (hins : mem f.inp = ins) (hlmask : cond_lmask ins = some lmask) (hform : CondForm ins lmask n)
    (hoff : 0 ≤ (ins.extractLsb' 5 n).toInt) {tgt : Int}
    (htgt : f.inp + 4 * (ins.extractLsb' 5 n).toInt = tgt) :
    fix_cond_comp_test_branch mem f = some (
      if ¬ Moved base count tgt ∧ 2 ^ (n - 1) - 1 ≤ ((tgt - f.outp) >>> (2 : Nat)).natAbs then
        f.place k (if (f.outp + 16) % 8 ≠ 0 then 1 else 0) none (far_cond n ins tgt)
      else (direct f k tgt 5 n ins).advance.process_fix_map k) := by
  have hmoved : (f.reset k).ctx.is_in_fixing_range tgt ↔ Moved base count tgt := hwf.moved tgt
  have houtp : (f.reset k).outp = f.outp := rfl
  have hword : ∀ v : Word, (v <<< 5 &&& ~~~ lmask) ||| (ins &&& lmask) = putField 5 n v ins := by
    intro v
    rw [putField, ← hform.mask, BitVec.not_not]
  have hmax : (fieldMask 5 n >>> (5 + 1)).toNat = 2 ^ (n - 1) - 1 := by
    rcases hform.size with rfl | rfl <;> decide
  have himm : ((f.reset k).inp + ((ins &&& ~~~ lmask) >>> (5 - 2)).toNat : Int) = tgt := by
    have hn : n + 5 ≤ 32 := by rcases hform.size with rfl | rfl <;> decide
    rw [← htgt, ← toNat_of_toInt_nonneg hoff, hform.mask, field_offset hn]
    push_cast
    rfl
  unfold fix_cond_comp_test_branch direct far_cond
  simp only [hins, hwf.index, hlmask, Option.map_some, himm, hword, houtp, Option.some.injEq]
  rw [hform.mask, hmax]
  simp only [hmoved, ← place_of_align]
  split <;> rfl

theorem reaches_b5 (h : code (loc k + 4) = 0x14000005#32) :
    Reaches S code ⟨loc k + 4, r⟩ ⟨loc k + 24, r⟩ := by
  have hb : decode 0x14000005#32 = .b 20 := by decide
  refine Reaches.one ?_
  simp only [step, h, hb, Cpu.mk.injEq, and_true]
  omega

theorem round_cond (hwf : Wf base outp count k f) (hk : k < count)
    (hcount : count ≤ A64_MAX_INSTRUCTIONS) {lmask : Word} {n : Nat}
    (hlmask : cond_lmask (mem f.inp) = some lmask) (hform : CondForm (mem f.inp) lmask n)
    (hoff : 0 ≤ ((mem f.inp).extractLsb' 5 n).toInt) :
    ∃ f' m pend block, fix_cond_comp_test_branch mem f = some f' ∧
      Round S mem base outp count k f f' m pend block := by
  have hk10 : k < A64_MAX_REFERENCES := by
    unfold A64_MAX_INSTRUCTIONS at hcount
    unfold A64_MAX_REFERENCES A64_MAX_INSTRUCTIONS
    omega
  have hn : 8 ≤ n ∧ n ≤ 30 := by rcases hform.size with rfl | rfl <;> decide
  obtain ⟨off, hoffeq⟩ : ∃ off, ((mem f.inp).extractLsb' 5 n).toInt = off := ⟨_, rfl⟩
  obtain ⟨tgt, htgt⟩ : ∃ tgt, f.inp + 4 * off = tgt := ⟨_, rfl⟩
  have h4 : 4 ∣ tgt - base := by
    rw [← htgt, hwf.inp]
    omega
  -- the condition decides alike at both places
  have hstep : ∀ r : Regs R, step S mem ⟨f.inp, r⟩
      = ⟨if S.holds (mem f.inp &&& lmask) r then tgt else f.inp + 4, r⟩ := by
    intro r
    simp only [step, hform.decode_eq, hoffeq]
    split <;> simp [← htgt]
  rw [fix_cond_eq hwf rfl hlmask hform hoff (hoffeq ▸ htgt)]
  by_cases hnear : Moved base count tgt ∨ ((tgt - f.outp) >>> (2 : Nat)).natAbs < 2 ^ (n - 1) - 1
  swap
  · have hfar := not_or.1 hnear
    rw [if_pos ⟨hfar.1, Nat.le_of_not_lt hfar.2⟩]
    refine ⟨_, _, none, _, rfl, rfl, by simp, by simp, ?_, fun code loc hfin hcomp hloc r _ => ?_⟩
    · split <;> simp [far_cond, words64]
    · have hcode : ∀ (i : Nat) (w : Word), (far_cond n (mem f.inp) tgt)[i]? = some w →
          code (loc k + 4 * i) = w := fun i w hw => hloc ▸ hcomp.at_block hwf hk10 hw
      have hc0 : code (loc k) = putField 5 n 2#32 (mem f.inp) := by simpa using hcode 0 _ rfl
      have hdec : decode (code (loc k)) = .cond (mem f.inp &&& lmask) 8 := by
        rw [hc0, hform.decode_put]
        rcases hform.size with rfl | rfl <;> rfl
      have hint := hfin.int64 hk (d := 4 * off) (by
        have := BitVec.le_toInt ((mem f.inp).extractLsb' 5 n)
        have := BitVec.toInt_lt (x := (mem f.inp).extractLsb' 5 n)
        rcases hform.size with rfl | rfl <;> omega)
      rw [← hwf.inp, htgt] at hint
      rw [hstep]
      by_cases hh : S.holds (mem f.inp &&& lmask) r
      · rw [if_pos hh]
        have hjump : Reaches S code ⟨loc k + 8, r⟩ ⟨tgt, _⟩ :=
          reaches_far hint.1 hint.2 (hcode 2 _ rfl) ?_ ?_ ?_
        · refine .leave _ hfar.1 (Reaches.head (t := ⟨loc k + 8, r⟩) ?_ hjump) agreeBut_set17
          simp only [step, hdec, if_pos hh]
        · rw [show loc k + 8 + 4 = loc k + 4 * ((3 : Nat) : Int) by omega]
          exact hcode 3 _ rfl
        · rw [show loc k + 8 + 8 = loc k + 4 * ((4 : Nat) : Int) by omega]
          exact hcode 4 _ rfl
        · rw [show loc k + 8 + 12 = loc k + 4 * ((5 : Nat) : Int) by omega]
          exact hcode 5 _ rfl
      · rw [if_neg hh]
        refine .next (by simp only [hwf.inp]; omega)
          (Reaches.head (t := ⟨loc k + 4, r⟩) ?_ (reaches_b5 (hcode 1 _ rfl)))
        simp only [step, hdec, if_neg hh]
  · rw [if_neg (fun h => hnear.elim h.1 (Nat.not_lt_of_le h.2))]
    obtain ⟨pend, w, heq, hpend, hword⟩ := direct_place mem hwf hk10 tgt 5 n
      (mem f.inp)
    refine ⟨_, 0, pend, [w], rfl, heq, hpend, by simp, by simp, fun code loc hfin hcomp hloc r _ => ?_⟩
    have hloc : loc k = f.outp := by simpa using hloc
    have hdec := hform.decode_put (BitVec.ofInt 32 ((dest base count loc tgt - loc k) >>> (2 : Nat)))
    rw [← hword code loc hfin hcomp hloc] at hdec
    rw [← hloc] at hnear
    rw [hstep]
    by_cases hh : S.holds (mem f.inp &&& lmask) r
    · rw [if_pos hh]
      refine follows_jump h4 (Reaches.one ?_)
      simp only [step, hdec, if_pos hh, Cpu.mk.injEq, and_true]
      exact dest_offset hfin hk hn.1 (by omega) h4 hnear
    · rw [if_neg hh]
      refine .next (by simp only [hwf.inp]; omega) (Reaches.one ?_)
      simp only [step, hdec, if_neg hh]
      rfl

end ElfHook.Inline64

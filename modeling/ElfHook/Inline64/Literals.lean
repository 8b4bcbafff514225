import ElfHook.Inline64.Blocks

/-!
# Relocated literal loads and address computations

* `round_loadlit`: a literal that moves or is out of reach is copied to the trampoline, behind a jump
  over it.
* `round_adr`, `round_adrp`: an address is loaded from the trampoline, or computed anew by `ADR`.

Offsets are taken without their sign (`& ~3u` makes them unsigned), so these are the offsets that are
not negative.
-/

namespace ElfHook.Inline64

open Lib Lib.A64 Fixer

variable {R : Type*} {S : Sem R} {mem code : Int → Word} {loc : Nat → Int} {base outp : Int}
  {count k : Nat} {f : Fixer} {r : Regs R}

/-! ## `fix_loadlit` -/

def litMask : Lit → Word
  | .w | .x => 0xbf000000#32
  | .sw => 0xff000000#32
  | .s | .d | .q => 0x3f000000#32

/-- The words a literal takes in the trampoline: `LDRSW` copies two. -/
def litWords : Lit → Nat
  | .w | .s => 1
  | .x | .sw | .d => 2
  | .q => 4

theorem loadlit_mask_eq {ins : Word} {lk : Lit} (h : litKind ins = some lk) :
    loadlit_mask ins = some (litMask lk, 4 * litWords lk - 1) := by
  have htop := litKind_eq_some.1 h
  have hsub : ∀ m : Word, 0xff000000#32 &&& m = m → ins &&& m = lk.op &&& m :=
    fun m hm => and_of_and htop hm
  unfold loadlit_mask
  rw [hsub 0x40000000#32 (by decide), hsub 0xbf000000#32 (by decide), hsub 0x80000000#32 (by decide),
    hsub 0x3f000000#32 (by decide), htop]
  cases lk <;> decide

theorem load_congr {lit lit' : Nat → Word} {t : BitVec 5} (lk : Lit)
    (h : ∀ i < lk.words, lit i = lit' i) : load S t lit r lk = load S t lit' r lk := by
  cases lk <;> simp [load, Lit.words] at h ⊢ <;> grind

/-- The loop pads up to the first address that stops it. -/
theorem nopWhile_eq (fuel : Nat) {p : Int → Bool} {m : Nat} (hm : m < fuel) (hp : p (f.outp + 4 * m) = false) :
    ∃ i ≤ m, nopWhile p fuel f = f.emit (List.replicate i A64_NOP) := by
  induction fuel generalizing f m with
  | zero => omega
  | succ fuel ih =>
    unfold nopWhile
    by_cases hf : p f.outp = true
    · rw [if_pos hf]
      cases m with
      | zero =>
        simp [hf] at hp
      | succ m =>
        have houtp : (f.emit [A64_NOP]).outp = f.outp + 4 := by
          simp [Fixer.outp, Fixer.emit]
          omega
        obtain ⟨i, hi, heq⟩ := ih (f := f.emit [A64_NOP]) (m := m) (by omega)
          (by rw [houtp, ← hp]; congr 1; push_cast; omega)
        refine ⟨i + 1, by omega, ?_⟩
        rw [heq]
        simp [Fixer.emit, List.replicate_succ]
    · exact ⟨0, by omega, by simp [hf]⟩

theorem getLsbD_litMask (lk : Lit) {i : Nat} (hi : i < 32) : (~~~ litMask lk).getLsbD i =
    (decide (i < 24) || match lk with
      | .w | .x => decide (i = 30)
      | .sw => false
      | .s | .d | .q => decide (30 ≤ i)) := by
  revert i
  cases lk <;> decide

theorem getLsbD_of_x {ins : Word} (h : litKind ins = some .x) : ins.getLsbD 30 = true := by
  have hbit : ins &&& 0x40000000#32 = 0x40000000#32 :=
    and_of_and (litKind_eq_some.1 h) (by decide)
  have := congrArg (fun w : Word => w.getLsbD 30) hbit
  simpa [BitVec.getLsbD_and] using this

/-- Words whose offset does not reach into the operation code, or does so without effect. -/
theorem lit_word {ins : Word} {lk : Lit} (h : litKind ins = some lk) {d : Int}
    (hd : lk = .x ∨ lk = .sw ∨ (0 ≤ d ∧ d < 2 ^ 18)) :
    (BitVec.ofInt 32 d <<< 5 &&& ~~~ litMask lk) ||| (ins &&& 0xff00001f#32)
      = putField 5 19 (BitVec.ofInt 32 d) ins := by
  have hlow : ∀ i < 32, (0xff00001f#32).getLsbD i = !(decide (5 ≤ i) && decide (i < 24)) := by decide
  have hhigh : 0 ≤ d ∧ d < 2 ^ 18 → ∀ i, 18 ≤ i → (BitVec.ofInt 32 d).getLsbD i = false := by
    intro hd i hi
    have hnat : (BitVec.ofInt 32 d).toNat = d.toNat := by
      rw [BitVec.toNat_ofInt, Int.emod_eq_of_lt hd.1 (by norm_num; omega)]
    have hlt : d.toNat < 2 ^ i :=
      lt_of_lt_of_le (by omega) (Nat.pow_le_pow_right (by norm_num) hi)
    rw [← BitVec.testBit_toNat, hnat]
    exact Nat.testBit_lt_two_pow hlt
  apply BitVec.eq_of_getLsbD_eq
  intro i hi
  simp only [putField, BitVec.getLsbD_or, BitVec.getLsbD_and, getLsbD_litMask lk hi, hlow i hi,
    getLsbD_fieldMask, BitVec.getLsbD_not, BitVec.getLsbD_shiftLeft]
  rcases hd with rfl | rfl | hd
  · have hx := getLsbD_of_x h
    grind
  · grind
  · have hh := hhigh hd (i - 5)
    cases lk <;> grind

/-- A literal in the trampoline: the load, a jump over the literal, and the copy of it. -/
def copied_lit (mem : Int → Word) (lk : Lit) (ins : Word) (a : Int) : List Word :=
  [putField 5 19 2#32 ins, 0x14000001#32 + BitVec.ofNat 32 (litWords lk)]
    ++ (List.range (litWords lk)).map fun i : Nat => mem (a + 4 * i)

theorem lit_address {ins : Word} (hoff : 0 ≤ imm19 ins) :
    (((ins <<< 8).sshiftRight 11 &&& ~~~ 3#32).toNat : Int) = 4 * imm19 ins := by
  have hsext := sext_field 5 (n := 19) (k := 8) ins (by decide) (by decide) (by decide)
  rw [show 8 + 5 - 2 = 11 from rfl] at hsext
  rw [hsext]
  exact toNat_signExtend_shiftLeft (by decide) hoff

theorem not_prfm {ins : Word} {lk : Lit} (h : litKind ins = some lk) :
    ¬ ins &&& 0xff000000#32 = 0xd8000000#32 := by
  rw [litKind_eq_some.1 h]
  cases lk <;> decide

theorem lit_word_copied {ins : Word} {lk : Lit} (h : litKind ins = some lk) :
    ((8#32 >>> 2) <<< 5 &&& ~~~ litMask lk) ||| (ins &&& 0xff00001f#32) = putField 5 19 2#32 ins := by
  have hd := lit_word h (d := 2) (.inr (.inr (by omega)))
  exact hd

theorem fix_loadlit_copied (hwf : Wf base outp count k f) (houtp : 4 ∣ outp) {ins : Word}
    (hins : mem f.inp = ins) {lk : Lit} (hlit : litKind ins = some lk) (hoff : 0 ≤ imm19 ins)
    {tgt : Int} (htgt : f.inp + 4 * imm19 ins = tgt)
    (hfar : Moved base count tgt ∨
      2 ^ 18 - 1 ≤ ((tgt - f.outp) >>> (2 : Nat)).natAbs + (litWords lk - 1)) :
    ∃ n ≤ litWords lk - 1, fix_loadlit mem f
      = some (f.place k n none (copied_lit mem lk ins tgt)) := by
  have hmoved : (f.reset k).ctx.is_in_fixing_range tgt ↔ Moved base count tgt := hwf.moved tgt
  have houtp : (f.reset k).outp = f.outp := rfl
  have hmax : (~~~ 0xff00001f#32 >>> (5 + 1)).toNat = 2 ^ 18 - 1 := by decide
  have hpad : (4 * litWords lk - 4) / 4 = litWords lk - 1 := by cases lk <;> rfl
  have hal : 4 * litWords lk - 1 + 1 = 4 * litWords lk := by cases lk <;> rfl
  have hns : 4 * litWords lk / 4 = litWords lk := by omega
  have h4 : 4 ∣ f.outp := by
    rw [Fixer.outp, hwf.outp_base]
    omega
  obtain ⟨m, hm, hmod⟩ : ∃ m, m ≤ litWords lk - 1 ∧
      (f.outp + 4 * m + 8) % (4 * litWords lk : Nat) = 0 := by
    refine ⟨((-(f.outp / 4) - 2) % litWords lk).toNat, ?_⟩
    cases lk <;> simp only [litWords] <;> omega
  obtain ⟨i, hi, hnops⟩ := nopWhile_eq 4 (f := f.reset k) (m := m)
    (p := fun outp => (outp + 8) % (4 * litWords lk : Nat) ≠ 0)
    (by cases lk <;> simp only [litWords] at hm <;> omega)
    (by simpa [houtp] using hmod)
  refine ⟨i, by omega, ?_⟩
  unfold fix_loadlit copied_lit
  simp only [hins, hwf.index, if_neg (not_prfm hlit), loadlit_mask_eq hlit, Option.map_some,
    lit_address hoff, hmax, hal, hns, houtp]
  rw [show ((f.reset k).inp + 4 * imm19 ins) = tgt from htgt]
  simp only [hmoved, hpad, if_pos hfar, lit_word_copied hlit]
  rw [← place_of_pad, ← hnops]

theorem fix_loadlit_near (hwf : Wf base outp count k f) (houtp : 4 ∣ outp) (hbase : 4 ∣ base)
    {ins : Word} (hins : mem f.inp = ins) {lk : Lit} (hlit : litKind ins = some lk)
    (hoff : 0 ≤ imm19 ins) {tgt : Int} (htgt : f.inp + 4 * imm19 ins = tgt)
    (hnear : ¬ (Moved base count tgt ∨
      2 ^ 18 - 1 ≤ ((tgt - f.outp) >>> (2 : Nat)).natAbs + (litWords lk - 1))) :
    ∃ n : Nat, n ≤ litWords lk - 1 ∧ fix_loadlit mem f = some (f.place k n none
      [(BitVec.ofInt 32 ((tgt - (f.outp + 4 * n)) >>> (2 : Nat)) <<< 5 &&& ~~~ litMask lk)
        ||| (ins &&& 0xff00001f#32)]) := by
  have hmoved : (f.reset k).ctx.is_in_fixing_range tgt ↔ Moved base count tgt := hwf.moved tgt
  have hreset : (f.reset k).outp = f.outp := rfl
  have hmax : (~~~ 0xff00001f#32 >>> (5 + 1)).toNat = 2 ^ 18 - 1 := by decide
  have hpad : (4 * litWords lk - 4) / 4 = litWords lk - 1 := by cases lk <;> rfl
  have hal : 4 * litWords lk - 1 + 1 = 4 * litWords lk := by cases lk <;> rfl
  have hal' : (4 * litWords lk - 1) >>> (2 : Nat) + 1 = litWords lk := by cases lk <;> rfl
  have h4 : 4 ∣ tgt - f.outp := by
    rw [Fixer.outp, hwf.outp_base, ← htgt, hwf.inp]
    omega
  obtain ⟨m, hm, hmod⟩ : ∃ m, m ≤ litWords lk - 1 ∧
      ((tgt - (f.outp + 4 * m)) >>> (2 : Nat)) % (litWords lk : Nat) = 0 := by
    refine ⟨(((tgt - f.outp) / 4) % litWords lk).toNat, ?_⟩
    rw [Int.shiftRight_eq_div_pow]
    cases lk <;> simp only [litWords] <;> omega
  obtain ⟨i, hi, hnops⟩ := nopWhile_eq 4 (f := f.reset k) (m := m)
    (p := fun outp => ((tgt - outp) >>> (2 : Nat)) % (litWords lk : Nat) ≠ 0)
    (by cases lk <;> simp only [litWords] at hm <;> omega)
    (by simpa [hreset] using hmod)
  have hend : (((f.reset k).emit (List.replicate i A64_NOP)).reset k).outp = f.outp + 4 * i := by
    rw [Fixer.emit_reset]
    exact outp_reset
  refine ⟨i, by omega, ?_⟩
  unfold fix_loadlit
  simp only [hins, hwf.index, if_neg (not_prfm hlit), loadlit_mask_eq hlit, Option.map_some,
    lit_address hoff, hmax, hal, hal', hreset]
  rw [show ((f.reset k).inp + 4 * imm19 ins) = tgt from htgt]
  simp only [hmoved, hpad, if_neg hnear, hnops, hend]
  rw [← place_of_pad]

/-- Where a literal may lie: not in the trampoline, and where the offset field of its kind is
mishandled for negative offsets, not within reach below it. -/
def litClear (lk : Lit) (outp tgt : Int) : Prop :=
  outp + 200 ≤ tgt ∨ tgt + 2 ^ 20 ≤ outp ∨ ((lk = .x ∨ lk = .sw) ∧ tgt + 8 ≤ outp)

theorem step_ldr {lk : Lit} {t : BitVec 5} {off a : Int} (h : decode (mem a) = .ldr lk t off) :
    step S mem ⟨a, r⟩ = ⟨a + 4, load S t (fun i => mem (a + off + 4 * i)) r lk⟩ := by
  simp only [step, h]

theorem round_loadlit (hwf : Wf base outp count k f) (hk : k < count)
    (hcount : count ≤ A64_MAX_INSTRUCTIONS) (houtp : 4 ∣ outp) (hbase : 4 ∣ base) {lk : Lit}
    (hlit : litKind (mem f.inp) = some lk) (hoff : 0 ≤ imm19 (mem f.inp))
    (hclear : litClear lk outp (f.inp + 4 * imm19 (mem f.inp))) :
    ∃ f' n pend block, fix_loadlit mem f = some f' ∧
      Round S mem base outp count k f f' n pend block := by
  have hk10 : k < A64_MAX_REFERENCES := by
    unfold A64_MAX_INSTRUCTIONS at hcount
    unfold A64_MAX_REFERENCES A64_MAX_INSTRUCTIONS
    omega
  obtain ⟨tgt, htgt⟩ : ∃ tgt, f.inp + 4 * imm19 (mem f.inp) = tgt := ⟨_, rfl⟩
  rw [htgt] at hclear
  have hwords : lk.words ≤ litWords lk ∧ litWords lk ≤ 4 ∧ 1 ≤ litWords lk := by
    cases lk <;> decide
  have hstep : ∀ r : Regs R, step S mem ⟨f.inp, r⟩
      = ⟨f.inp + 4, load S (reg (mem f.inp) 0) (fun i => mem (tgt + 4 * i)) r lk⟩ := by
    intro r
    rw [step_ldr (decode_of_lit hlit), htgt]
  have hpc : f.inp + 4 = base + 4 * ((k : Int) + 1) := by
    rw [hwf.inp]
    omega
  by_cases hfar : Moved base count tgt ∨
      2 ^ 18 - 1 ≤ ((tgt - f.outp) >>> (2 : Nat)).natAbs + (litWords lk - 1)
  · obtain ⟨n, hn, heq⟩ := fix_loadlit_copied hwf houtp rfl hlit hoff htgt hfar
    refine ⟨_, n, none, _, heq, rfl, by simp, by simp, ?_, fun code loc hfin hcomp hloc r _ => ?_⟩
    · simp only [copied_lit, List.length_append, List.length_cons, List.length_nil, List.length_map,
        List.length_range]
      omega
    · have hcode : ∀ (i : Nat) (w : Word), (copied_lit mem lk (mem f.inp) tgt)[i]? = some w →
          code (loc k + 4 * i) = w := fun i w hw => hloc ▸ hcomp.at_block hwf hk10 hw
      have hload : decode (code (loc k)) = .ldr lk (reg (mem f.inp) 0) 8 := by
        have hc0 := hcode 0 _ rfl
        rw [Nat.cast_zero, mul_zero, add_zero] at hc0
        rw [hc0, decode_ldr hlit]
        rfl
      have hdata : ∀ i < litWords lk, code (loc k + 8 + 4 * i) = mem (tgt + 4 * i) := by
        intro i hi
        rw [show loc k + 8 + 4 * (i : Int) = loc k + 4 * ((i + 2 : Nat) : Int) by push_cast; omega]
        refine hcode _ _ ?_
        simp [copied_lit, hi]
      rw [hstep]
      refine .next hpc (Reaches.head (step_ldr hload) (Reaches.one ?_))
      have hjump : decode (code (loc k + 4)) = .b (4 * (litWords lk + 1)) := by
        rw [show loc k + 4 = loc k + 4 * ((1 : Nat) : Int) by omega, hcode 1 _ rfl]
        cases lk <;> decide
      simp only [step, hjump, Cpu.mk.injEq]
      refine ⟨?_, load_congr lk fun i hi => hdata i (by omega)⟩
      simp only [copied_lit, List.length_append, List.length_cons, List.length_nil, List.length_map,
        List.length_range]
      push_cast
      omega
  · obtain ⟨n, hn, heq⟩ := fix_loadlit_near hwf houtp hbase rfl hlit hoff htgt hfar
    refine ⟨_, n, none, _, heq, rfl, by simp, by simp, by simp; omega,
      fun code loc hfin hcomp hloc r _ => ?_⟩
    obtain ⟨hout, hnear⟩ := not_or.1 hfar
    have hnat : ((tgt - loc k) >>> (2 : Nat)).natAbs < 2 ^ 18 - 1 := by
      rw [Int.shiftRight_eq_div_pow] at hnear ⊢
      omega
    have h4 : 4 ∣ tgt - loc k := by
      have := hfin.loc4 k hk
      have := hfin.aligned
      rw [← htgt, hwf.inp]
      omega
    have hbelow : ¬ tgt + 2 ^ 20 ≤ outp := by
      intro hb
      have hge : outp ≤ f.outp := by
        rw [Fixer.outp, hwf.outp_base]
        omega
      rw [Int.shiftRight_eq_div_pow] at hnear
      omega
    have hlocs := hfin.locs k hk
    have hd : lk = .x ∨ lk = .sw ∨
        ((0 : Int) ≤ (tgt - loc k) >>> (2 : Nat) ∧ (tgt - loc k) >>> (2 : Nat) < (2 : Int) ^ 18) := by
      rcases hclear with h | h | ⟨h | h, -⟩
      · refine .inr (.inr ?_)
        rw [Int.shiftRight_eq_div_pow] at hnat ⊢
        omega
      · exact absurd h hbelow
      · exact .inl h
      · exact .inr (.inl h)
    have hdec : decode (code (loc k)) = .ldr lk (reg (mem f.inp) 0)
        ((4 : Int) * ((BitVec.ofInt 32 ((tgt - loc k) >>> (2 : Nat))).extractLsb' 0 19).toInt) := by
      have hc0 := hcomp.at_block hwf hk10 (i := 0) rfl
      rw [Nat.cast_zero, mul_zero, add_zero, ← hloc] at hc0
      rw [hc0, lit_word hlit hd, decode_ldr hlit]
    have hback := offset_field (n := 19) (by decide) (by decide) h4 (by norm_num; omega)
      (by norm_num; omega)
    rw [hstep]
    refine .next hpc (Reaches.one ?_)
    rw [step_ldr hdec, hback]
    simp only [Cpu.mk.injEq, List.length_cons, List.length_nil, Nat.cast_one, zero_add, mul_one,
      true_and]
    refine load_congr lk fun i hi => ?_
    have hdec' := decode_of_lit hlit
    rw [hwf.inp] at hdec'
    have hframe := hfin.frame k hk lk _ _ hdec'
    rw [← hwf.inp, htgt] at hframe
    exact hframe hout i hi

/-! ## `fix_pcreladdr` -/

theorem pcrel_imm {ins : Word} (hoff : 0 ≤ imm21 ins) :
    ((((ins <<< 8).sshiftRight 11 &&& ~~~ 3#32) ||| (ins <<< 1) >>> 30).toNat : Int)
      = imm21 ins := by
  have hlo : (ins <<< 1) >>> 30 = (ins.extractLsb' 29 2).setWidth 32 := by
    apply BitVec.eq_of_getLsbD_eq
    intro i hi
    simp only [BitVec.getLsbD_ushiftRight, BitVec.getLsbD_shiftLeft, BitVec.getLsbD_setWidth,
      BitVec.getLsbD_extractLsb']
    grind
  have hlt := (ins.extractLsb' 29 2).isLt
  have h19 : 0 ≤ imm19 ins := by
    unfold imm21 at hoff
    omega
  have hmax : imm19 ins < 2 ^ 18 := BitVec.toInt_lt (x := ins.extractLsb' 5 19)
  have hhi := lit_address h19
  have hlo' : ((ins <<< 1) >>> 30).toNat = (ins.extractLsb' 29 2).toNat := by
    rw [hlo, BitVec.toNat_setWidth, Nat.mod_eq_of_lt (by omega)]
  have hdisj : ((ins <<< 8).sshiftRight 11 &&& ~~~ 3#32) &&& (ins <<< 1) >>> 30 = 0#32 := by
    apply BitVec.eq_of_getLsbD_eq
    intro i hi
    have h3 : (3#32).getLsbD i = decide (i < 2) := by
      revert i
      decide
    rw [hlo]
    simp only [BitVec.getLsbD_and, BitVec.getLsbD_not, h3, BitVec.getLsbD_setWidth,
      BitVec.getLsbD_extractLsb', BitVec.getLsbD_zero]
    grind
  rw [← BitVec.add_eq_or_of_and_eq_zero _ _ hdisj, BitVec.toNat_add, Nat.mod_eq_of_lt (by omega),
    Nat.cast_add, hhi, hlo', imm21]

theorem ldr_address_word (ins : Word) :
    decode (0x58000000#32 ||| ((8#32 >>> 2) <<< 5 &&& ~~~ 0x9f000000#32) ||| (ins &&& 0x0000001f#32))
      = .ldr .x (reg ins 0) 8 := by
  have hword : 0x58000000#32 ||| ((8#32 >>> 2) <<< 5 &&& ~~~ 0x9f000000#32) ||| (ins &&& 0x0000001f#32)
      = putField 0 5 ins 0x58000040#32 := by
    rw [putField, BitVec.shiftLeft_zero, show fieldMask 0 5 = 0x0000001f#32 by decide, BitVec.or_comm]
    rfl
  have hkind : litKind (putField 0 5 ins 0x58000040#32) = some .x := by
    rw [litKind_eq_some, putField_and (by decide)]
    decide
  rw [hword, decode_of_lit hkind, imm19, extract_putField_disjoint (by decide), reg,
    extract_putField (by decide)]
  rfl

/-- `LDR Xd, #8; B #12` over an address. -/
theorem reaches_address {a b : Int} {d : BitVec 5} (h0 : decode (code a) = .ldr .x d 8)
    (h1 : code (a + 4) = 0x14000003#32) (h2 : code (a + 8) = (BitVec.ofInt 64 b).extractLsb' 0 32)
    (h3 : code (a + 12) = (BitVec.ofInt 64 b).extractLsb' 32 32) :
    Reaches S code ⟨a, r⟩ ⟨a + 16, r.set d (BitVec.ofInt 64 b)⟩ := by
  have hb : decode 0x14000003#32 = .b 12 := by decide
  have hval : code (a + 8 + 4 * (1 : Nat)) ++ code (a + 8 + 4 * (0 : Nat)) = BitVec.ofInt 64 b := by
    rw [show a + 8 + 4 * ((1 : Nat) : Int) = a + 12 by omega,
      show a + 8 + 4 * ((0 : Nat) : Int) = a + 8 by omega, h2, h3]
    exact append_halves _
  refine Reaches.head (t := ⟨a + 4, r.set d (BitVec.ofInt 64 b)⟩) ?_ (Reaches.one ?_)
  · rw [step_ldr h0]
    simp only [load, hval]
  · simp only [step, h1, hb, Cpu.mk.injEq, and_true]
    omega

theorem adr_word {ins : Word} {q : Int} :
    (BitVec.ofInt 32 (4 * q) <<< (5 - 2) &&& 0x00ffffff#32) ||| (ins &&& 0xff00001f#32)
      = putField 5 19 (BitVec.ofInt 32 q) ins := by
  have hshift : BitVec.ofInt 32 (4 * q) <<< (5 - 2) = BitVec.ofInt 32 q <<< 5 := by
    rw [BitVec.shiftLeft_eq_mul_twoPow, BitVec.shiftLeft_eq_mul_twoPow, BitVec.ofInt_mul,
      BitVec.mul_comm (BitVec.ofInt 32 4), BitVec.mul_assoc]
    rfl
  have hmask : BitVec.ofInt 32 q <<< 5 &&& 0x00ffffff#32 = BitVec.ofInt 32 q <<< 5 &&& fieldMask 5 19 := by
    apply BitVec.eq_of_getLsbD_eq
    intro i hi
    have h24 : (0x00ffffff#32).getLsbD i = decide (i < 24) := by
      revert i
      decide
    simp only [BitVec.getLsbD_and, BitVec.getLsbD_shiftLeft, h24, getLsbD_fieldMask]
    grind
  rw [hshift, hmask, putField, show ~~~ fieldMask 5 19 = 0xff00001f#32 by decide]

theorem process_advance : (f.process_fix_map k).advance = f.advance.process_fix_map k := rfl

theorem imm21_bounds (ins : Word) : -2 ^ 20 ≤ imm21 ins ∧ imm21 ins < 2 ^ 20 := by
  have hmin : -2 ^ 18 ≤ imm19 ins := BitVec.le_toInt (ins.extractLsb' 5 19)
  have hmax : imm19 ins < 2 ^ 18 := BitVec.toInt_lt (x := ins.extractLsb' 5 19)
  have hlt := (ins.extractLsb' 29 2).isLt
  unfold imm21
  omega

/-- `ADR` of an address outside. -/
theorem fix_adr_eq (hwf : Wf base outp count k f) {ins : Word} (hins : mem f.inp = ins)
    (hop : ins &&& 0x9f000000#32 = 0x10000000#32) (hoff : 0 ≤ imm21 ins) {tgt : Int}
    (htgt : f.inp + imm21 ins = tgt) (hout : ¬ Moved base count tgt) :
    fix_pcreladdr mem f = some (
      if 2 ^ 20 - 1 ≤ (tgt - f.outp).natAbs then
        f.place k (if (f.outp + 8) % 8 ≠ 0 then 1 else 0) none (ldr_address ins tgt)
      else f.place k 0 none
        [(BitVec.ofInt 32 (tgt - f.outp) <<< (5 - 2) &&& 0x00ffffff#32) ||| (ins &&& 0xff00001f#32)]) := by
  have hmoved : (f.reset k).ctx.is_in_fixing_range tgt ↔ Moved base count tgt := hwf.moved tgt
  have houtp : (f.reset k).outp = f.outp := rfl
  have hmax : (0x001fffff#32 >>> 1).toNat = 2 ^ 20 - 1 := by decide
  unfold fix_pcreladdr
  simp only [hins, hwf.index, if_pos hop, pcrel_imm hoff, hmax, houtp, Option.some.injEq]
  rw [show (f.reset k).inp + imm21 ins = tgt from htgt, process_advance]
  simp only [hmoved, hout, not_false_eq_true, true_and, ← place_of_align, ← place_of_emit]
  split <;> rfl

/-- `ADRP` of a page outside. -/
theorem fix_adrp_eq (hwf : Wf base outp count k f) {ins : Word} (hins : mem f.inp = ins)
    (hop : ins &&& 0x9f000000#32 = 0x90000000#32) (hoff : 0 ≤ imm21 ins) {tgt : Int}
    (htgt : page f.inp + 4096 * imm21 ins = tgt) (hout : ¬ Moved base count tgt) :
    fix_pcreladdr mem f
      = some (f.place k (if (f.outp + 8) % 8 ≠ 0 then 1 else 0) none (ldr_address ins tgt)) := by
  have hmoved : (f.reset k).ctx.is_in_fixing_range tgt ↔ Moved base count tgt := hwf.moved tgt
  have houtp : (f.reset k).outp = f.outp := rfl
  have hbounds := imm21_bounds ins
  have himm : ((((((ins <<< 8).sshiftRight 11 &&& ~~~ 3#32) ||| (ins <<< 1) >>> 30) <<< 12).toNat : Nat)
      : Int) = 4096 * imm21 ins := by
    have hnat := pcrel_imm hoff
    rw [BitVec.toNat_shiftLeft, Nat.shiftLeft_eq, Nat.mod_eq_of_lt (by omega), Nat.cast_mul, hnat]
    omega
  have hadr : ¬ ins &&& 0x9f000000#32 = 0x10000000#32 := test_ne hop (by decide)
  unfold fix_pcreladdr
  simp only [hins, hwf.index, if_neg hadr, if_pos hop, himm, houtp, Option.some.injEq]
  rw [show page (f.reset k).inp + 4096 * imm21 ins = tgt from htgt, process_advance]
  simp only [hmoved, if_neg hout, ← place_of_align]

/-- Where the target of an `ADR` may lie: with low address bits, only out of reach of `ADR`. -/
def adrClear (outp tgt : Int) : Prop :=
  4 ∣ tgt ∨ tgt + 2 ^ 20 ≤ outp ∨ outp + 200 + 2 ^ 20 ≤ tgt

/-- A block that loads an address does what sets the register to it. -/
theorem follows_address {tgt : Int} {d : BitVec 5} {ins : Word} (hd : d = reg ins 0)
    (hcode : ∀ (i : Nat) (w : Word), (ldr_address ins tgt)[i]? = some w → code (loc k + 4 * i) = w)
    {p : Int} (hp : p = base + 4 * k) :
    Follows S code loc base count (loc k + 4 * (ldr_address ins tgt).length) k r
      ⟨p + 4, r.set d (BitVec.ofInt 64 tgt)⟩ := by
  have h0 : decode (code (loc k)) = .ldr .x d 8 := by
    have hc0 := hcode 0 _ rfl
    rw [Nat.cast_zero, mul_zero, add_zero] at hc0
    rw [hc0, ldr_address_word, hd]
  refine .next (by simp only [hp]; omega) ?_
  exact reaches_address h0 (hcode 1 _ rfl) (hcode 2 _ rfl) (hcode 3 _ rfl)

theorem round_adr (hwf : Wf base outp count k f) (hk : k < count)
    (hcount : count ≤ A64_MAX_INSTRUCTIONS) (houtp : 4 ∣ outp) (hbase : 4 ∣ base)
    (hop : mem f.inp &&& 0x9f000000#32 = 0x10000000#32) (hoff : 0 ≤ imm21 (mem f.inp))
    (hout : ¬ Moved base count (f.inp + imm21 (mem f.inp)))
    (hclear : adrClear outp (f.inp + imm21 (mem f.inp))) :
    ∃ f' n pend block, fix_pcreladdr mem f = some f' ∧
      Round S mem base outp count k f f' n pend block := by
  have hk10 : k < A64_MAX_REFERENCES := by
    unfold A64_MAX_INSTRUCTIONS at hcount
    unfold A64_MAX_REFERENCES A64_MAX_INSTRUCTIONS
    omega
  obtain ⟨tgt, htgt⟩ : ∃ tgt, f.inp + imm21 (mem f.inp) = tgt := ⟨_, rfl⟩
  rw [htgt] at hout hclear
  have hstep : ∀ r : Regs R, step S mem ⟨f.inp, r⟩
      = ⟨f.inp + 4, r.set (reg (mem f.inp) 0) (BitVec.ofInt 64 tgt)⟩ := by
    intro r
    simp only [step, decode_of_adr hop, htgt]
  rw [fix_adr_eq hwf rfl hop hoff htgt hout]
  by_cases hfar : 2 ^ 20 - 1 ≤ (tgt - f.outp).natAbs
  · rw [if_pos hfar]
    refine ⟨_, _, none, _, rfl, rfl, by simp, by simp, ?_, fun code loc hfin hcomp hloc r _ => ?_⟩
    · split <;> simp [ldr_address, words64]
    · rw [hstep]
      exact follows_address rfl (fun i w hw => hloc ▸ hcomp.at_block hwf hk10 hw) hwf.inp
  · rw [if_neg hfar]
    refine ⟨_, _, none, _, rfl, rfl, by simp, by simp, by simp, fun code loc hfin hcomp hloc r _ => ?_⟩
    have hlocs := hfin.locs k hk
    have hloc : loc k = f.outp := by simpa using hloc
    have h4 : 4 ∣ tgt := by
      rcases hclear with h | h | h <;> omega
    obtain ⟨q, hq⟩ : ∃ q, tgt - f.outp = 4 * q := by
      refine ⟨(tgt - f.outp) / 4, ?_⟩
      rw [Fixer.outp, hwf.outp_base]
      omega
    have hlow : ((mem f.inp).extractLsb' 29 2).toNat = 0 := by
      have hlt := ((mem f.inp).extractLsb' 29 2).isLt
      have hinp := hwf.inp
      unfold imm21 at htgt
      omega
    have hdec : decode (code (loc k)) = .adr (reg (mem f.inp) 0) (4 * q) := by
      have hc0 := hcomp.at_block hwf hk10 (i := 0) rfl
      simp only [Nat.cast_zero, mul_zero, add_zero, hq] at hc0
      have hmin : -2 ^ (19 - 1) ≤ q := by norm_num; omega
      have hmax : q < 2 ^ (19 - 1) := by norm_num; omega
      rw [hloc, hc0, adr_word, decode_adr hop, hlow,
        toInt_extract_ofInt (by decide) (by decide) hmin hmax, Nat.cast_zero, add_zero]
    rw [hstep]
    refine .next (by simp only [hwf.inp]; omega) (Reaches.one ?_)
    have hval : loc k + 4 * q = tgt := by omega
    simp only [step, hdec, hval]
    rfl

theorem round_adrp (hwf : Wf base outp count k f) (hk : k < count)
    (hcount : count ≤ A64_MAX_INSTRUCTIONS) (hop : mem f.inp &&& 0x9f000000#32 = 0x90000000#32)
    (hoff : 0 ≤ imm21 (mem f.inp))
    (hout : ¬ Moved base count (page f.inp + 4096 * imm21 (mem f.inp))) :
    ∃ f' n pend block, fix_pcreladdr mem f = some f' ∧
      Round S mem base outp count k f f' n pend block := by
  have hk10 : k < A64_MAX_REFERENCES := by
    unfold A64_MAX_INSTRUCTIONS at hcount
    unfold A64_MAX_REFERENCES A64_MAX_INSTRUCTIONS
    omega
  rw [fix_adrp_eq hwf rfl hop hoff rfl hout]
  refine ⟨_, _, none, _, rfl, rfl, by simp, by simp, ?_, fun code loc hfin hcomp hloc r _ => ?_⟩
  · split <;> simp [ldr_address, words64]
  · have hstep : step S mem ⟨f.inp, r⟩ = ⟨f.inp + 4, r.set (reg (mem f.inp) 0)
        (BitVec.ofInt 64 (page f.inp + 4096 * imm21 (mem f.inp)))⟩ := by
      simp only [step, decode_of_adrp hop]
    rw [hstep]
    exact follows_address rfl (fun i w hw => hloc ▸ hcomp.at_block hwf hk10 hw) hwf.inp

end ElfHook.Inline64

import ElfHook.Inline64.Branches
import ElfHook.Inline64.Size

/-!
# The trampoline does what the displaced code did

* `round_one`: one round of `fix_instructions`, for every instruction it relocates faithfully.
-/

namespace ElfHook.Inline64

open Lib Lib.A64 Fixer

variable {R : Type*} {S : Sem R} {mem code : Int → Word} {loc : Nat → Int} {base outp : Int}
  {count k : Nat} {f : Fixer} {r : Regs R}

/-- The instructions at `p` whose relocation keeps their meaning: no call back into the moved code,
no negative offset where the sign is dropped, no address of moved code taken, and no `BLR`, which
would leave an address of the trampoline in `X30`. -/
def Relocatable (base outp : Int) (count : Nat) (p : Int) : Instr → Prop
  | .b _ | .prfm | .br _ | .nop | .plain _ => True
  | .bl off => ¬ Moved base count (p + off)
  | .cond _ off => 0 ≤ off
  | .ldr lk _ off => 0 ≤ off ∧ litClear lk outp (p + off)
  | .adr _ off => 0 ≤ off ∧ ¬ Moved base count (p + off) ∧ adrClear outp (p + off)
  | .adrp _ off => 0 ≤ off ∧ ¬ Moved base count (page p + off)
  | .blr _ | .unallocated => False

/-! ## Instructions that a fixer passes on -/

theorem fix_branch_imm_none {ins : Word} (hins : mem f.inp = ins)
    (hb : ¬ ins &&& 0xfc000000#32 = 0x14000000#32) (hbl : ¬ ins &&& 0xfc000000#32 = 0x94000000#32) :
    fix_branch_imm mem f = none := by
  unfold fix_branch_imm
  simp only [hins, hb, hbl, or_self, if_false]

theorem fix_cond_none {ins : Word} (hins : mem f.inp = ins) (h19 : ¬ IsCond19 ins)
    (h14 : ¬ IsCond14 ins) : fix_cond_comp_test_branch mem f = none := by
  have hnone : cond_lmask ins = none := by
    unfold IsCond19 at h19
    unfold IsCond14 at h14
    unfold cond_lmask
    grind
  unfold fix_cond_comp_test_branch
  simp only [hins, hnone, Option.map_none]

/-- The tests for literal loads look at the top byte only. -/
theorem top_byte (ins : Word) : ∃ t : BitVec 8, ins &&& 0xff000000#32 = t ++ 0#24 := by
  refine ⟨ins.extractLsb' 24 8, ?_⟩
  apply BitVec.eq_of_getLsbD_eq
  intro i hi
  have hff : (0xff000000#32).getLsbD i = decide (24 ≤ i) := by
    revert i
    decide
  rw [BitVec.getLsbD_and, hff, BitVec.getLsbD_append, BitVec.getLsbD_extractLsb']
  grind

theorem loadlit_mask_top (ins : Word) : loadlit_mask (ins &&& 0xff000000#32) = loadlit_mask ins := by
  have hsub : ∀ m : Word, 0xff000000#32 &&& m = m → ins &&& 0xff000000#32 &&& m = ins &&& m := by
    intro m hm
    rw [BitVec.and_assoc, hm]
  unfold loadlit_mask
  rw [hsub 0x40000000#32 (by decide), hsub 0xbf000000#32 (by decide), hsub 0x80000000#32 (by decide),
    hsub 0x3f000000#32 (by decide), hsub 0xff000000#32 (by decide)]

theorem loadlit_mask_none {ins : Word} (hlit : litKind ins = none)
    (hprfm : ¬ ins &&& 0xff000000#32 = 0xd8000000#32)
    (hun : ¬ ins &&& 0xff000000#32 = 0xdc000000#32) : loadlit_mask ins = none := by
  obtain ⟨t, ht⟩ := top_byte ins
  have hall : ∀ t : BitVec 8, litKind (t ++ 0#24) = none → t ++ 0#24 ≠ 0xd8000000#32 →
      t ++ 0#24 ≠ 0xdc000000#32 → loadlit_mask (t ++ 0#24) = none := by
    decide +kernel
  have hkind : litKind (t ++ 0#24) = litKind ins := by
    unfold litKind
    rw [← ht, BitVec.and_assoc, BitVec.and_self]
  rw [ht] at hprfm hun
  rw [← loadlit_mask_top, ht]
  exact hall t (hkind.trans hlit) hprfm hun

theorem fix_loadlit_none {ins : Word} (hins : mem f.inp = ins) (hlit : litKind ins = none)
    (hprfm : ¬ ins &&& 0xff000000#32 = 0xd8000000#32)
    (hun : ¬ ins &&& 0xff000000#32 = 0xdc000000#32) : fix_loadlit mem f = none := by
  unfold fix_loadlit
  simp only [hins, hprfm, if_false, loadlit_mask_none hlit hprfm hun, Option.map_none]

theorem fix_pcreladdr_none {ins : Word} (hins : mem f.inp = ins)
    (hadr : ¬ ins &&& 0x9f000000#32 = 0x10000000#32)
    (hadrp : ¬ ins &&& 0x9f000000#32 = 0x90000000#32) : fix_pcreladdr mem f = none := by
  unfold fix_pcreladdr
  simp only [hins, hadr, hadrp, if_false]

/-! ## One round -/

theorem fix_one_of_branch {f' : Fixer} (h : fix_branch_imm mem f = some f') : fix_one mem f = f' := by
  simp [fix_one, h]

theorem fix_one_of_cond {f' : Fixer} (h0 : fix_branch_imm mem f = none)
    (h : fix_cond_comp_test_branch mem f = some f') : fix_one mem f = f' := by
  simp [fix_one, h0, h]

theorem fix_one_of_loadlit {f' : Fixer} (h0 : fix_branch_imm mem f = none)
    (h1 : fix_cond_comp_test_branch mem f = none) (h : fix_loadlit mem f = some f') :
    fix_one mem f = f' := by
  simp [fix_one, h0, h1, h]

theorem fix_one_of_pcreladdr {f' : Fixer} (h0 : fix_branch_imm mem f = none)
    (h1 : fix_cond_comp_test_branch mem f = none) (h2 : fix_loadlit mem f = none)
    (h : fix_pcreladdr mem f = some f') : fix_one mem f = f' := by
  simp [fix_one, h0, h1, h2, h]

/-- Completing earlier words and storing a further one commute. -/
theorem process_emit (hwf : Wf base outp count k f) (w : Word) :
    ((((f.reset k).process_fix_map k).emit [w]).advance) = f.place k 0 none [w] := by
  have hpatch : ∀ es : List FixInfo, (∀ e ∈ es, ∃ x : Nat, e.bp = outp + 4 * x ∧ x < f.out.length) →
      ∀ out : List Word, out.length = f.out.length →
        es.foldl (f.patch f.outp) (out ++ [w]) = es.foldl (f.patch f.outp) out ++ [w] := by
    intro es
    induction es with
    | nil => exact fun _ _ _ => rfl
    | cons e es ih =>
      intro hes out hlen
      obtain ⟨x, hx, hlt⟩ := hes e (by simp)
      have hidx : ((e.bp - f.outp_base) / 4).toNat = x := by
        rw [hx, hwf.outp_base]
        omega
      have hmod : f.patch f.outp (out ++ [w]) e = f.patch f.outp out e ++ [w] := by
        unfold Fixer.patch
        rw [hidx]
        apply List.ext_getElem?
        intro i
        simp only [List.getElem?_modify, List.getElem?_append, List.length_modify]
        by_cases hi : i < out.length
        · rw [if_pos hi, if_pos hi]
        · have hne : x ≠ i := by omega
          simp [hi, hne]
      rw [List.foldl_cons, List.foldl_cons, hmod]
      exact ih (fun e he => hes e (by simp [he])) _ (by simp [Fixer.patch, hlen])
  have hrow : ((f.reset k).ctx.dat k) = ⟨f.outp, (f.ctx.dat k).fmap⟩ := by
    simp [Fixer.reset, Context.reset_current_ins]
  have hout := hpatch (f.ctx.dat k).fmap (hwf.below k) f.out rfl
  simp only [Fixer.place, Fixer.placed, List.replicate_zero, Fixer.emit_nil]
  unfold Fixer.process_fix_map
  simp only [hrow, Fixer.advance, Fixer.emit, Fixer.mk.injEq, and_true, true_and]
  exact hout.symm

theorem lt_references (hk : k < count) (hcount : count ≤ A64_MAX_INSTRUCTIONS) :
    k < A64_MAX_REFERENCES := by
  unfold A64_MAX_INSTRUCTIONS at hcount
  unfold A64_MAX_REFERENCES A64_MAX_INSTRUCTIONS
  omega

/-- `PRFM` takes no word of the trampoline. -/
theorem round_prfm (hwf : Wf base outp count k f)
    (hop : mem f.inp &&& 0xff000000#32 = 0xd8000000#32) :
    ∃ f' n pend block, fix_loadlit mem f = some f' ∧
      Round S mem base outp count k f f' n pend block := by
  have heq : fix_loadlit mem f = some (f.place k 0 none []) := by
    unfold fix_loadlit
    simp only [hwf.index, if_pos hop, Fixer.place, Fixer.placed, List.replicate_zero, Fixer.emit_nil]
  refine ⟨_, 0, none, [], heq, rfl, by simp, by simp, by simp, fun code loc hfin hcomp hloc r _ => ?_⟩
  have hstep : step S mem ⟨f.inp, r⟩ = ⟨f.inp + 4, r⟩ := by
    simp only [step, decode_of_prfm hop]
  rw [hstep]
  refine .next (by simp only [hwf.inp]; omega) ⟨0, ?_⟩
  simp

/-- An instruction that no fixer takes is copied. -/
theorem round_copied (hwf : Wf base outp count k f) (hk : k < count)
    (hcount : count ≤ A64_MAX_INSTRUCTIONS) (hfix : fix_one mem f = f.place k 0 none [mem f.inp])
    (hkind : (∃ m, decode (mem f.inp) = .br m) ∨ decode (mem f.inp) = .nop ∨
      decode (mem f.inp) = .plain (mem f.inp)) :
    Round S mem base outp count k f (fix_one mem f) 0 none [mem f.inp] := by
  refine ⟨hfix, by simp, by simp, by simp, fun code loc hfin hcomp hloc r hbr => ?_⟩
  have hcode : code (loc k) = mem f.inp := by
    have hc0 := hcomp.at_block hwf (lt_references hk hcount) (i := 0) rfl
    rwa [← hloc, Nat.cast_zero, mul_zero, add_zero] at hc0
  have hnext : f.inp + 4 = base + 4 * ((k : Int) + 1) := by
    rw [hwf.inp]
    omega
  rcases hkind with ⟨m, hm⟩ | hnop | hplain
  · have hstep : ∀ (mem' : Int → Word) (a : Int), decode (mem' a) = .br m →
        step S mem' ⟨a, r⟩ = ⟨(r.get m).toInt, r⟩ := fun mem' a h => by simp only [step, h]
    rw [hstep mem f.inp hm]
    refine .leave r (hbr m hm) (Reaches.one ?_) Regs.AgreeBut.rfl
    exact hstep code (loc k) (hcode ▸ hm)
  · have hstep : ∀ (mem' : Int → Word) (a : Int), decode (mem' a) = .nop →
        step S mem' ⟨a, r⟩ = ⟨a + 4, r⟩ := fun mem' a h => by simp only [step, h]
    rw [hstep mem f.inp hnop]
    exact .next hnext (Reaches.one (hstep code (loc k) (hcode ▸ hnop)))
  · have hstep : ∀ (mem' : Int → Word) (a : Int), decode (mem' a) = .plain (mem f.inp) →
        step S mem' ⟨a, r⟩ = ⟨a + 4, S.exec (mem f.inp) r⟩ := fun mem' a h => by simp only [step, h]
    rw [hstep mem f.inp hplain]
    exact .next hnext (Reaches.one (hstep code (loc k) (hcode ▸ hplain)))

theorem round_one (hwf : Wf base outp count k f) (hk : k < count)
    (hcount : count ≤ A64_MAX_INSTRUCTIONS) (houtp : 4 ∣ outp) (hbase : 4 ∣ base)
    (h : Relocatable base outp count f.inp (decode (mem f.inp))) :
    ∃ n pend block, Round S mem base outp count k f (fix_one mem f) n pend block := by
  by_cases hb : mem f.inp &&& 0xfc000000#32 = 0x14000000#32
  · obtain ⟨f', n, pend, block, heq, hround⟩ := round_branch (S := S) hwf hk hcount (.inl hb)
      (fun hbl => absurd (hb.symm.trans hbl) (by decide))
    exact ⟨n, pend, block, fix_one_of_branch heq ▸ hround⟩
  by_cases hbl : mem f.inp &&& 0xfc000000#32 = 0x94000000#32
  · rw [decode_of_bl hbl] at h
    obtain ⟨f', n, pend, block, heq, hround⟩ := round_branch (S := S) hwf hk hcount (.inr hbl)
      (fun _ => h)
    exact ⟨n, pend, block, fix_one_of_branch heq ▸ hround⟩
  have hno_b := fix_branch_imm_none (f := f) (rfl : mem f.inp = _) hb hbl
  by_cases hc : IsCond19 (mem f.inp) ∨ IsCond14 (mem f.inp)
  · obtain ⟨lmask, n, hlmask, hform⟩ := cond_form hc
    rw [hform.decode_eq] at h
    have hoff : 0 ≤ ((mem f.inp).extractLsb' 5 n).toInt := by
      have h' : 0 ≤ 4 * ((mem f.inp).extractLsb' 5 n).toInt := h
      omega
    obtain ⟨f', n, pend, block, heq, hround⟩ := round_cond (S := S) hwf hk hcount hlmask hform hoff
    exact ⟨n, pend, block, fix_one_of_cond hno_b heq ▸ hround⟩
  obtain ⟨h19, h14⟩ := not_or.1 hc
  have hno_c := fix_cond_none (f := f) (rfl : mem f.inp = _) h19 h14
  rcases hlit : litKind (mem f.inp) with _ | lk
  swap
  · rw [decode_of_lit hlit] at h
    obtain ⟨hoff, hclear⟩ := h
    obtain ⟨f', n, pend, block, heq, hround⟩ := round_loadlit (S := S) hwf hk hcount houtp hbase hlit
      (by omega) hclear
    exact ⟨n, pend, block, fix_one_of_loadlit hno_b hno_c heq ▸ hround⟩
  by_cases hprfm : mem f.inp &&& 0xff000000#32 = 0xd8000000#32
  · obtain ⟨f', n, pend, block, heq, hround⟩ := round_prfm (S := S) hwf hprfm
    exact ⟨n, pend, block, fix_one_of_loadlit hno_b hno_c heq ▸ hround⟩
  by_cases hun : mem f.inp &&& 0xff000000#32 = 0xdc000000#32
  · have hdec : decode (mem f.inp) = .unallocated := by
      rw [decode, if_neg hb, if_neg hbl, if_neg h19, if_neg h14, hlit]
      simp only
      rw [if_neg hprfm, if_pos hun]
    rw [hdec] at h
    exact h.elim
  have hdec := decode_of_rest ⟨hb, hbl, h19, h14⟩ hlit hprfm hun
  have hno_l := fix_loadlit_none (f := f) (rfl : mem f.inp = _) hlit hprfm hun
  by_cases hadr : mem f.inp &&& 0x9f000000#32 = 0x10000000#32
  · rw [decode_of_adr hadr] at h
    obtain ⟨hoff, hout, hclear⟩ := h
    obtain ⟨f', n, pend, block, heq, hround⟩ := round_adr (S := S) hwf hk hcount houtp hbase hadr hoff
      hout hclear
    exact ⟨n, pend, block, fix_one_of_pcreladdr hno_b hno_c hno_l heq ▸ hround⟩
  by_cases hadrp : mem f.inp &&& 0x9f000000#32 = 0x90000000#32
  · rw [decode_of_adrp hadrp] at h
    obtain ⟨hoff, hout⟩ := h
    obtain ⟨f', n, pend, block, heq, hround⟩ := round_adrp (S := S) hwf hk hcount hadrp (by omega) hout
    exact ⟨n, pend, block, fix_one_of_pcreladdr hno_b hno_c hno_l heq ▸ hround⟩
  have hfix : fix_one mem f = f.place k 0 none [mem f.inp] := by
    rw [← process_emit hwf]
    simp [fix_one, hno_b, hno_c, hno_l, fix_pcreladdr_none rfl hadr hadrp, hwf.index]
  refine ⟨0, none, _, round_copied hwf hk hcount hfix ?_⟩
  rw [decodeRest, if_neg hadr, if_neg hadrp] at hdec
  rw [hdec] at h ⊢
  split_ifs at h ⊢ with h1 h2 h3 h4
  · exact .inl ⟨_, rfl⟩
  · exact .inl ⟨_, rfl⟩
  · exact h.elim
  · exact .inr (.inl rfl)
  · exact .inr (.inr rfl)

/-! ## All rounds -/

/-- The state after `k` rounds. -/
def rounds (mem : Int → Word) (base : Int) (count : Nat) (outp : Int) (k : Nat) : Fixer :=
  (fix_one mem)^[k] (fix_start base count outp)

/-- Where the trampoline takes over for instruction `k`, and behind the last, jumps back. -/
def entry (mem : Int → Word) (base : Int) (count : Nat) (outp : Int) (k : Nat) : Int :=
  (rounds mem base count outp k).outp

theorem rounds_succ : rounds mem base count outp (k + 1) = fix_one mem (rounds mem base count outp k) :=
  Function.iterate_succ_apply' ..

/-- What the relocation needs: room and alignment, addresses in user space, and instructions that it
relocates faithfully. -/
structure Displaced (mem : Int → Word) (base : Int) (count : Nat) (outp : Int) : Prop where
  few : count ≤ A64_MAX_INSTRUCTIONS
  base4 : 4 ∣ base
  outp4 : 4 ∣ outp
  small : -2 ^ 62 ≤ base ∧ base < 2 ^ 62 ∧ -2 ^ 62 ≤ outp ∧ outp < 2 ^ 62
  relocatable : ∀ k < count, Relocatable base outp count (base + 4 * k) (decode (mem (base + 4 * k)))

/-- `code` has the trampoline at `outp`, and the literals of the displaced code in their places. -/
structure Installed (mem code : Int → Word) (base : Int) (count : Nat) (outp : Int) : Prop where
  words : ∀ (i : Nat) (w : Word), (fix_instructions mem base count outp)[i]? = some w →
    code (outp + 4 * i) = w
  frame : LitFrame mem code base count

theorem round_rounds (S : Sem R) (hd : Displaced mem base count outp)
    (hwf : Wf base outp count k (rounds mem base count outp k)) (hk : k < count) :
    ∃ n pend block, Round S mem base outp count k (rounds mem base count outp k)
      (rounds mem base count outp (k + 1)) n pend block := by
  have hrel := hd.relocatable k hk
  rw [← hwf.inp] at hrel
  rw [rounds_succ]
  exact round_one hwf hk hd.few hd.outp4 hd.base4 hrel

theorem wf_rounds (hd : Displaced mem base count outp) (hk : k ≤ count) :
    Wf base outp count k (rounds mem base count outp k) := by
  induction k with
  | zero => exact Wf.start
  | succ k ih =>
    have hwf := ih (by omega)
    obtain ⟨n, pend, block, hround⟩ := round_rounds
      (⟨fun _ _ => true, fun _ _ r => r, fun _ r => r⟩ : Sem Unit) hd hwf (by omega)
    rw [hround.eq]
    exact hwf.place hround.ahead hround.word

/-- Where the finished trampoline has instruction `k`, behind its padding. -/
def locOf (mem : Int → Word) (base : Int) (count : Nat) (outp : Int) (k : Nat) : Int :=
  ((rounds mem base count outp count).ctx.dat k).ins

theorem callback_out (f : Fixer) : ∃ ws, (fix_callback f).out = f.out ++ ws := by
  unfold fix_callback
  simp only
  split_ifs <;> simp [Fixer.emit]

theorem completes_rounds (hd : Displaced mem base count outp) (hi : Installed mem code base count outp)
    (hk : k ≤ count) :
    Completes code (locOf mem base count outp) k (rounds mem base count outp k) := by
  induction hd' : count - k generalizing k with
  | zero =>
    obtain rfl : k = count := by omega
    have hwf := wf_rounds hd le_rfl
    obtain ⟨ws, hws⟩ := callback_out (rounds mem base k outp k)
    refine ⟨fun j _ => rfl, fun x w hw b => ?_⟩
    have hlt : x < (rounds mem base k outp k).out.length := (List.getElem?_eq_some_iff.1 hw).1
    have hcode : code (outp + 4 * x) = w := by
      refine hi.words x w ?_
      rw [fix_instructions, show (fix_one mem)^[k] (fix_start base k outp) = rounds mem base k outp k
        from rfl, hws, List.getElem?_append_left hlt, hw]
    rw [hwf.outp_base, hcode]
    have hnone : ∀ r, ((rounds mem base k outp k).ctx.dat r).fmap = [] := fun r => hwf.ahead r (by omega)
    simp [hnone]
  | succ d ih =>
    obtain ⟨n, pend, block, hround⟩ := round_rounds
      (⟨fun _ _ => true, fun _ _ r => r, fun _ r => r⟩ : Sem Unit) hd (wf_rounds hd hk) (by omega)
    have hnext := ih (k := k + 1) (by omega) (by omega)
    rw [hround.eq] at hnext
    have hplaced := hnext.of_place (wf_rounds hd hk) fun p hp => by have := hround.ahead p hp; omega
    exact (hplaced.mono (Nat.le_succ k)).of_placed

theorem length_rounds (hd : Displaced mem base count outp) (k : Nat) :
    (rounds mem base count outp k).outp_base = outp ∧
      (rounds mem base count outp k).out.length ≤ 9 * k := by
  have h := grows_rounds mem (f := fix_start base count outp) hd.outp4 k
  have hstart : (fix_start base count outp).out.length = 0 := rfl
  exact ⟨h.1, by have := h.2; unfold rounds; omega⟩

/-- Instruction `k` in the finished trampoline. -/
structure Block (S : Sem R) (mem code : Int → Word) (base : Int) (count : Nat) (outp : Int) (k : Nat)
    (loc : Nat → Int) : Prop where
  range : outp ≤ loc k ∧ loc k ≤ outp + 36 * (k + 1) ∧ 4 ∣ loc k - outp
  enter : ∀ r : Regs R, Reaches S code ⟨entry mem base count outp k, r⟩ ⟨loc k, r⟩
  follows : Finished mem code loc base outp count → ∀ r : Regs R,
    (∀ m, decode (mem (base + 4 * k)) = .br m → ¬ Moved base count (r.get m).toInt) →
    Follows S code loc base count (entry mem base count outp (k + 1)) k r
      (step S mem ⟨base + 4 * k, r⟩)

theorem block_rounds (S : Sem R) (hd : Displaced mem base count outp)
    (hi : Installed mem code base count outp) (hk : k < count) :
    Block S mem code base count outp k (locOf mem base count outp) := by
  have hwf := wf_rounds hd hk.le
  have hk10 := lt_references hk hd.few
  obtain ⟨n, pend, block, hround⟩ := round_rounds S hd hwf hk
  have hnext := completes_rounds hd hi hk
  have hlen := length_rounds hd k
  have hsize := hround.size
  rw [hround.eq] at hnext
  have hplaced := hnext.of_place hwf fun p hp => by have := hround.ahead p hp; omega
  have hloc : locOf mem base count outp k = (rounds mem base count outp k).outp + 4 * n := by
    rw [← hplaced.ins k (by omega), placed_ins]
  have hentry : entry mem base count outp (k + 1)
      = locOf mem base count outp k + 4 * block.length := by
    rw [entry, hround.eq, Fixer.outp, length_place, hloc, Fixer.outp]
    have hbase : ((rounds mem base count outp k).place k n pend block).outp_base
        = (rounds mem base count outp k).outp_base := by cases pend <;> rfl
    rw [hbase]
    push_cast
    omega
  refine ⟨?_, fun r => ?_, fun hfin r hbr => ?_⟩
  · rw [hloc, Fixer.outp, hlen.1]
    omega
  · rw [entry, hloc]
    exact reaches_nops fun i hi => hplaced.nops hwf hk10 hi
  · rw [hentry]
    have hinp := hwf.inp
    rw [← hinp] at hbr ⊢
    exact hround.follows code _ hfin hplaced hloc r hbr

theorem finished_rounds (hd : Displaced mem base count outp)
    (hi : Installed mem code base count outp) :
    Finished mem code (locOf mem base count outp) base outp count := by
  have hblock := fun j (hj : j < count) => (block_rounds
    (⟨fun _ _ => true, fun _ _ r => r, fun _ r => r⟩ : Sem Unit) hd hi hj).range
  have hfew := hd.few
  unfold A64_MAX_INSTRUCTIONS at hfew
  refine ⟨hd.few, ?_, hd.outp4, hd.small, fun j hj => (hblock j hj).2.2, fun j hj => ?_, hi.frame⟩
  · exact (Int.dvd_sub hd.outp4 hd.base4)
  · have := hblock j hj
    omega

/-! ## Runs -/

/-- The words of the jump back. -/
theorem callback_word (hi : Installed mem code base count outp) {ws : List Word}
    (hws : (fix_callback (rounds mem base count outp count)).out
      = (rounds mem base count outp count).out ++ ws)
    (hbase : (rounds mem base count outp count).outp_base = outp) {i : Nat} {w : Word}
    (hw : ws[i]? = some w) : code (entry mem base count outp count + 4 * i) = w := by
  rw [entry, Fixer.outp, hbase]
  have haddr : outp + 4 * ((rounds mem base count outp count).out.length : Int) + 4 * i
      = outp + 4 * (((rounds mem base count outp count).out.length + i : Nat) : Int) := by
    push_cast
    omega
  rw [haddr]
  refine hi.words _ w ?_
  rw [fix_instructions, show (fix_one mem)^[count] (fix_start base count outp)
    = rounds mem base count outp count from rfl, hws, List.getElem?_append_right (by omega),
    Nat.add_sub_cancel_left, hw]

/-- Behind the displaced instructions, the trampoline jumps back. -/
theorem reaches_callback (S : Sem R) (hd : Displaced mem base count outp)
    (hi : Installed mem code base count outp) (r : Regs R) :
    ∃ r', Reaches S code ⟨entry mem base count outp count, r⟩ ⟨base + 4 * count, r'⟩ ∧
      Regs.AgreeBut [17#5] r r' := by
  have hwf := wf_rounds hd (le_refl count)
  have hword : ∀ ws, (fix_callback (rounds mem base count outp count)).out
      = (rounds mem base count outp count).out ++ ws → ∀ (i : Nat) (w : Word), ws[i]? = some w →
        code (entry mem base count outp count + 4 * i) = w :=
    fun ws hws i w hw => callback_word hi hws hwf.outp_base hw
  have hmask : (0x03ffffff#32 >>> 1).toNat = 2 ^ 25 - 1 := by decide
  obtain ⟨hb1, hb2, -, -⟩ := hd.small
  have hfew := hd.few
  unfold A64_MAX_INSTRUCTIONS at hfew
  have hentry : entry mem base count outp count = (rounds mem base count outp count).outp := rfl
  unfold fix_callback at hword
  simp only [hwf.inp, hmask] at hword
  by_cases hfar : 2 ^ 25 - 1 ≤
      ((base + 4 * (count : Int) - (rounds mem base count outp count).outp) >>> (2 : Nat)).natAbs
  · simp only [if_pos hfar] at hword
    have hjump : ∀ a, (∀ (i : Nat) (w : Word), (far_jump (base + 4 * count))[i]? = some w →
        code (a + 4 * i) = w) →
        Reaches S code ⟨a, r⟩ ⟨base + 4 * count, r.set 17#5 (BitVec.ofInt 64 (base + 4 * count))⟩ := by
      intro a ha
      refine reaches_far (by omega) (by omega) ?_ (ha 1 _ rfl) (ha 2 _ rfl) (ha 3 _ rfl)
      simpa using ha 0 _ rfl
    by_cases hal : ((rounds mem base count outp count).outp + 8) % 8 ≠ 0
    · simp only [if_pos hal, Fixer.emit, List.append_assoc] at hword
      refine ⟨_, (reaches_nops (n := 1) fun i hi => ?_).trans (hjump _ fun i w hw => ?_),
        agreeBut_set17⟩
      · obtain rfl : i = 0 := by omega
        exact hword _ rfl 0 _ rfl
      · have hnext := hword _ rfl (i + 1) w hw
        rw [← hnext]
        congr 1
        push_cast
        omega
    · simp only [if_neg hal, Fixer.emit] at hword
      exact ⟨_, hjump _ fun i w hw => hword _ rfl i w hw, agreeBut_set17⟩
  · simp only [if_neg hfar, Fixer.emit] at hword
    refine ⟨r, Reaches.one ?_, Regs.AgreeBut.rfl⟩
    have hcode : code (entry mem base count outp count) = putField 0 26 (BitVec.ofInt 32
        ((base + 4 * (count : Int) - (rounds mem base count outp count).outp) >>> (2 : Nat))) 0x14000000#32 := by
      have h0 := hword _ rfl 0 _ rfl
      rw [Nat.cast_zero, mul_zero, add_zero] at h0
      rw [h0, ← branch_word (show 0x14000000#32 &&& 0xfc000000#32 = 0x14000000#32 by decide)]
      rfl
    have h4 : 4 ∣ base + 4 * (count : Int) - (rounds mem base count outp count).outp := by
      have := hd.base4
      have := hd.outp4
      rw [Fixer.outp, hwf.outp_base]
      omega
    have hoff := offset_field (n := 26) (by decide) (by decide) h4 (by norm_num; omega)
      (by norm_num; omega)
    simp only [step, hcode, decode_b (w := 0x14000000#32) (by decide), Cpu.mk.injEq, and_true]
    exact hoff

/-- The original code, from the first state, leaves the displaced instructions in the second.
Indirect jumps have to leave them. -/
inductive Leaves (S : Sem R) (mem : Int → Word) (base : Int) (count : Nat) : Cpu R → Cpu R → Prop
  | done {s : Cpu R} (h : ¬ Moved base count s.pc) : Leaves S mem base count s s
  | step {s s' : Cpu R} (h : Moved base count s.pc)
      (hbr : ∀ m, decode (mem s.pc) = .br m → ¬ Moved base count (s.regs.get m).toInt)
      (hrest : Leaves S mem base count (step S mem s) s') : Leaves S mem base count s s'

/-- The trampoline leaves as the original code does: `X17` is free, and the return address of a call
may be the address where the trampoline takes over for the instruction to return to. -/
def Exit (mem : Int → Word) (base : Int) (count : Nat) (outp : Int) (s t : Cpu R) : Prop :=
  t.pc = s.pc ∧ (Regs.AgreeBut [17#5] s.regs t.regs ∨ (Regs.AgreeBut [17#5, 30#5] s.regs t.regs ∧
    ∃ k ≤ count, s.regs.x 30#5 = BitVec.ofInt 64 (base + 4 * k) ∧
      t.regs.x 30#5 = BitVec.ofInt 64 (entry mem base count outp k)))

theorem Leaves.eq_of_outside {s s' : Cpu R} (hl : Leaves S mem base count s s')
    (h : ¬ Moved base count s.pc) : s' = s := by
  cases hl with
  | done _ => rfl
  | step hin _ _ => exact absurd hin h

theorem follows_exit (hd : Displaced mem base count outp) (hi : Installed mem code base count outp)
    {s s' : Cpu R} (hl : Leaves S mem base count s s') :
    ∀ k < count, s.pc = base + 4 * k →
      ∃ t, Reaches S code ⟨locOf mem base count outp k, s.regs⟩ t ∧ Exit mem base count outp s' t := by
  have hfin := finished_rounds hd hi
  induction hl with
  | done h =>
    intro k hk hpc
    refine absurd ?_ h
    unfold Moved
    omega
  | @step s s' h hbr hrest ih =>
    intro k hk hpc
    have hblock := block_rounds S hd hi hk
    have hs : (⟨base + 4 * (k : Int), s.regs⟩ : Cpu R) = s := by rw [← hpc]
    have hfollows := hblock.follows hfin s.regs (by rwa [← hpc])
    rw [hs] at hfollows
    cases hfollows with
    | inside j hj hpc' hreach =>
      obtain ⟨t, ht, hexit⟩ := ih j hj hpc'
      exact ⟨t, hreach.trans ht, hexit⟩
    | next hpc' hreach =>
      by_cases hlast : k + 1 < count
      · have henter := (block_rounds S hd hi hlast).enter (step S mem s).regs
        obtain ⟨t, ht, hexit⟩ := ih (k + 1) hlast (by rw [hpc']; push_cast; rfl)
        exact ⟨t, hreach.trans (henter.trans ht), hexit⟩
      · obtain rfl : k + 1 = count := by omega
        obtain ⟨r', hback, hagree⟩ := reaches_callback S hd hi (step S mem s).regs
        have hs' := hrest.eq_of_outside (by rw [hpc']; unfold Moved; omega)
        refine ⟨_, hreach.trans hback, ?_, .inl (hs' ▸ hagree)⟩
        rw [hs', hpc']
        push_cast
        rfl
    | leave r' hout hreach hagree =>
      have hs' := hrest.eq_of_outside hout
      exact ⟨_, hreach, by rw [hs'], .inl (hs' ▸ hagree)⟩
    | call r' hout hreach hagree hret hret' =>
      have hs' := hrest.eq_of_outside hout
      refine ⟨_, hreach, by rw [hs'], .inr ⟨hs' ▸ hagree, k + 1, hk, ?_, hret'⟩⟩
      rw [hs', hret]
      push_cast
      rfl

/-- Where the original code, from any of the displaced instructions, leaves them, the trampoline
leaves in the same state. -/
theorem trampoline_simulates (S : Sem R) (hd : Displaced mem base count outp)
    (hi : Installed mem code base count outp) (hk : k ≤ count) {s s' : Cpu R}
    (hpc : s.pc = base + 4 * k) (hl : Leaves S mem base count s s') :
    ∃ t, Reaches S code ⟨entry mem base count outp k, s.regs⟩ t ∧ Exit mem base count outp s' t := by
  by_cases hlast : k < count
  · obtain ⟨t, ht, hexit⟩ := follows_exit hd hi hl k hlast hpc
    exact ⟨t, ((block_rounds S hd hi hlast).enter s.regs).trans ht, hexit⟩
  · obtain rfl : k = count := by omega
    obtain ⟨r', hback, hagree⟩ := reaches_callback S hd hi s.regs
    have hs' := hl.eq_of_outside (by rw [hpc]; unfold Moved; omega)
    exact ⟨_, hback, by rw [hs', hpc], .inl (hs' ▸ hagree)⟩

end ElfHook.Inline64

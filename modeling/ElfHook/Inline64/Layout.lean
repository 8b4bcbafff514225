import ElfHook.Inline64.Relocate

/-!
# What a finished trampoline holds

A state of the relocation loop leaves open the words in its `fmap`s. `Completes code loc n f` says
that `code` is what the words of `f` become once every instruction `r` is known to be at `loc r`.
Later states only complete earlier ones, so the finished trampoline completes every state of the
loop, and each instruction can be looked at where it was relocated.

* `place`: what every round of the loop does, for some padding, pending word and block.
* `completes_place`: a completion of the next state completes this one, and holds the block.
* `Wf.place`: the pending words lie below `outp`, only targets ahead have any, and the entries of a
  `fmap` never run out.
-/

namespace ElfHook.Inline64

open Lib Lib.A64 Fixer

namespace Fixer

/-- Instruction `k` becomes `n` words of padding and a block, the first word of which may wait for
instruction `ref`. -/
def placed (f : Fixer) (k n : Nat) (pend : Option (Nat × Nat × Word)) (block : List Word) : Fixer :=
  let f := (f.emit (List.replicate n A64_NOP)).reset k
  (match pend with
    | none => f
    | some (ref, ls, ad) => f.insert_fix_map ref ls ad).emit block

/-- The words waiting for instruction `k` are completed once it is placed. -/
def place (f : Fixer) (k n : Nat) (pend : Option (Nat × Nat × Word)) (block : List Word) : Fixer :=
  ((f.placed k n pend block).process_fix_map k).advance

@[simp] theorem ctx_emit (f : Fixer) (ws : List Word) : (f.emit ws).ctx = f.ctx := rfl

end Fixer

structure Wf (base outp : Int) (count k : Nat) (f : Fixer) : Prop where
  inp : f.inp = base + 4 * k
  outp_base : f.outp_base = outp
  basep : f.ctx.basep = base
  endp : f.ctx.endp = base + 4 * count
  below : ∀ r, ∀ e ∈ (f.ctx.dat r).fmap, ∃ x : Nat, e.bp = outp + 4 * x ∧ x < f.out.length
  few : ∀ r, (f.ctx.dat r).fmap.length ≤ k
  ahead : ∀ r, r < k ∨ count ≤ r → (f.ctx.dat r).fmap = []

structure Completes (code : Int → Word) (loc : Nat → Int) (n : Nat) (f : Fixer) : Prop where
  ins : ∀ j < n, (f.ctx.dat j).ins = loc j
  bits : ∀ (x : Nat) (w : Word), f.out[x]? = some w → ∀ b, (code (f.outp_base + 4 * x)).getLsbD b = true ↔
    w.getLsbD b = true ∨ ∃ r, ∃ e ∈ (f.ctx.dat r).fmap,
      e.bp = f.outp_base + 4 * x ∧ (fixBits (loc r) e).getLsbD b = true

variable {code : Int → Word} {loc : Nat → Int} {n k count : Nat} {f : Fixer} {base outp : Int}

/-! ## Patches -/

theorem length_foldl_patch (ins : Int) (es : List FixInfo) (out : List Word) :
    (es.foldl (f.patch ins) out).length = out.length := by
  induction es generalizing out with
  | nil => rfl
  | cons e es ih =>
    rw [List.foldl_cons, ih]
    exact List.length_modify ..

/-- The bits of a word after the patches: its own and those of the entries for it. -/
theorem getLsbD_foldl_patch (ins : Int) {es : List FixInfo} {out : List Word} {x : Nat} {w : Word}
    (hes : ∀ e ∈ es, ∃ y : Nat, e.bp = f.outp_base + 4 * y) (hw : out[x]? = some w) :
    ∃ w', (es.foldl (f.patch ins) out)[x]? = some w' ∧ ∀ b, w'.getLsbD b = true ↔
      w.getLsbD b = true ∨ ∃ e ∈ es, e.bp = f.outp_base + 4 * x ∧
        (fixBits ins e).getLsbD b = true := by
  induction es generalizing out w with
  | nil => exact ⟨w, hw, by simp⟩
  | cons e es ih =>
    obtain ⟨y, hy⟩ := hes e (by simp)
    have hidx : ((e.bp - f.outp_base) / 4).toNat = y := by
      rw [hy]
      omega
    have hmod : (f.patch ins out e)[x]? = some (if y = x then w ||| fixBits ins e else w) := by
      unfold patch
      rw [hidx, List.getElem?_modify, hw]
      by_cases hyx : y = x <;> simp [hyx]
    obtain ⟨w', hw', hbits⟩ := ih (fun e he => hes e (by simp [he])) hmod
    refine ⟨w', hw', fun b => ?_⟩
    rw [hbits]
    by_cases hyx : y = x
    · subst hyx
      simp [hy, or_assoc]
    · have hne : e.bp ≠ f.outp_base + 4 * x := by
        rw [hy]
        omega
      simp [hyx, hne]

/-! ## Completions of later states -/

theorem completes_advance (h : Completes code loc n f.advance) : Completes code loc n f :=
  ⟨h.ins, h.bits⟩

theorem completes_emit {ws : List Word} (h : Completes code loc n (f.emit ws)) :
    Completes code loc n f := by
  refine ⟨h.ins, fun x w hw => h.bits x w ?_⟩
  have hlt : x < f.out.length := (List.getElem?_eq_some_iff.1 hw).1
  exact (List.getElem?_append_left hlt).trans hw

theorem completes_process (hwf : ∀ e ∈ (f.ctx.dat k).fmap, ∃ x : Nat, e.bp = f.outp_base + 4 * x)
    (hk : (f.ctx.dat k).ins = loc k) (h : Completes code loc n (f.process_fix_map k)) :
    Completes code loc n f := by
  refine ⟨fun j hj => ?_, fun x w hw b => ?_⟩
  · rw [← h.ins j hj]
    by_cases hjk : j = k <;> simp [process_fix_map, hjk]
  · obtain ⟨w', hw', hbits⟩ := getLsbD_foldl_patch (f.ctx.dat k).ins hwf hw
    have hcode := h.bits x w' hw' b
    rw [show (f.process_fix_map k).outp_base = f.outp_base from rfl] at hcode
    rw [hcode, hbits b, or_assoc]
    refine or_congr_right ?_
    constructor
    · rintro (⟨e, he, hbp, hb⟩ | ⟨r, e, he, hbp, hb⟩)
      · exact ⟨k, e, he, hbp, hk ▸ hb⟩
      · by_cases hr : r = k
        · subst hr
          simp [process_fix_map] at he
        · simp only [process_fix_map, ne_eq, hr, not_false_eq_true, Function.update_of_ne] at he
          exact ⟨r, e, he, hbp, hb⟩
    · rintro ⟨r, e, he, hbp, hb⟩
      by_cases hr : r = k
      · subst hr
        exact .inl ⟨e, he, hbp, hk ▸ hb⟩
      · refine .inr ⟨r, e, ?_, hbp, hb⟩
        simpa [process_fix_map, hr] using he

theorem completes_reset (hk : n ≤ k) (h : Completes code loc n (f.reset k)) :
    Completes code loc n f := by
  refine ⟨fun j hj => ?_, fun x w hw b => ?_⟩
  · rw [← h.ins j hj]
    have hjk : j ≠ k := by omega
    simp [reset, Context.reset_current_ins, hjk]
  · rw [← show (f.reset k).outp_base = f.outp_base from rfl, h.bits x w hw b]
    refine or_congr_right (exists_congr fun r => ?_)
    by_cases hr : r = k
    · subst hr
      simp [reset, Context.reset_current_ins]
    · simp [reset, Context.reset_current_ins, hr]

theorem mem_insert_fix_map (ref ls : Nat) (ad : Word) (r : Nat) (e : FixInfo) :
    e ∈ ((f.insert_fix_map ref ls ad).ctx.dat r).fmap ↔ e ∈ (f.ctx.dat r).fmap ∨
      (r = ref ∧ (f.ctx.dat r).fmap.length < A64_MAX_REFERENCES ∧ e = ⟨f.outp, ls, ad⟩) := by
  unfold Fixer.insert_fix_map Context.insert_fix_map
  by_cases hlt : (f.ctx.dat ref).fmap.length < A64_MAX_REFERENCES
  · by_cases hr : r = ref
    · subst hr
      simp [hlt]
    · simp [hlt, hr]
  · simp only [if_neg hlt]
    grind

/-- An entry for `outp` concerns none of the words below. -/
theorem completes_insert {ref ls : Nat} {ad : Word} (h : Completes code loc n (f.insert_fix_map ref ls ad)) :
    Completes code loc n f := by
  refine ⟨fun j hj => ?_, fun x w hw b => ?_⟩
  · rw [← h.ins j hj]
    unfold Fixer.insert_fix_map Context.insert_fix_map
    by_cases hj' : j = ref <;> split <;> simp [hj']
  · have hlt : x < f.out.length := (List.getElem?_eq_some_iff.1 hw).1
    have hout : f.outp ≠ f.outp_base + 4 * x := by
      unfold outp
      omega
    rw [show f.outp_base = (f.insert_fix_map ref ls ad).outp_base from rfl, h.bits x w hw b]
    refine or_congr_right (exists_congr fun r => ?_)
    constructor
    · rintro ⟨e, he, hbp, hb⟩
      rcases (mem_insert_fix_map ref ls ad r e).1 he with he | ⟨_, _, rfl⟩
      · exact ⟨e, he, hbp, hb⟩
      · exact absurd hbp hout
    · rintro ⟨e, he, hbp, hb⟩
      exact ⟨e, (mem_insert_fix_map ref ls ad r e).2 (.inl he), hbp, hb⟩

theorem Completes.mono {m : Nat} (hm : m ≤ n) (h : Completes code loc n f) :
    Completes code loc m f :=
  ⟨fun j hj => h.ins j (by omega), h.bits⟩

/-! ## One round -/

variable {pend : Option (Nat × Nat × Word)} {block : List Word}

theorem placed_out : (f.placed k n pend block).out = f.out ++ List.replicate n A64_NOP ++ block := by
  cases pend <;> rfl

theorem outp_reset : ((f.emit (List.replicate n A64_NOP)).reset k).outp = f.outp + 4 * n := by
  simp [outp, reset, emit]
  omega

theorem mem_placed (r : Nat) (e : FixInfo) :
    e ∈ ((f.placed k n pend block).ctx.dat r).fmap ↔ e ∈ (f.ctx.dat r).fmap ∨
      ∃ p ∈ pend, r = p.1 ∧ (f.ctx.dat r).fmap.length < A64_MAX_REFERENCES ∧
        e = ⟨f.outp + 4 * n, p.2.1, p.2.2⟩ := by
  have hreset : ∀ r, (((f.emit (List.replicate n A64_NOP)).reset k).ctx.dat r).fmap
      = (f.ctx.dat r).fmap := by
    intro r
    by_cases hr : r = k
    · subst hr
      simp [reset, Context.reset_current_ins, emit]
    · simp [reset, Context.reset_current_ins, emit, hr]
  rcases pend with _ | ⟨ref, ls, ad⟩
  · simp [Fixer.placed, emit, ← hreset r]
  · have hmem := mem_insert_fix_map (f := (f.emit (List.replicate n A64_NOP)).reset k) ref ls
      ad r e
    rw [hreset, outp_reset] at hmem
    simpa [Fixer.placed] using hmem

theorem placed_ins : ((f.placed k n pend block).ctx.dat k).ins = f.outp + 4 * n := by
  have hreset : (((f.emit (List.replicate n A64_NOP)).reset k).ctx.dat k).ins = f.outp + 4 * n := by
    simp [reset, Context.reset_current_ins, outp, emit]
    omega
  rcases pend with _ | ⟨ref, ls, ad⟩
  · exact hreset
  · rw [← hreset]
    unfold Fixer.placed
    simp only [ctx_emit, Fixer.insert_fix_map, Context.insert_fix_map]
    by_cases hk : k = ref
    · subst hk
      split <;> simp
    · split <;> simp [hk]

theorem placed_range : (f.placed k n pend block).ctx.basep = f.ctx.basep ∧
    (f.placed k n pend block).ctx.endp = f.ctx.endp := by
  rcases pend with _ | ⟨ref, ls, ad⟩
  · exact ⟨rfl, rfl⟩
  · unfold Fixer.placed
    simp only [ctx_emit, Fixer.insert_fix_map, Context.insert_fix_map]
    split <;> exact ⟨rfl, rfl⟩

theorem length_placed_le (r : Nat) :
    ((f.placed k n pend block).ctx.dat r).fmap.length ≤ (f.ctx.dat r).fmap.length + 1 := by
  have hreset : (((f.emit (List.replicate n A64_NOP)).reset k).ctx.dat r).fmap.length
      = (f.ctx.dat r).fmap.length := by
    by_cases hr : r = k
    · subst hr
      simp [reset, Context.reset_current_ins]
    · simp [reset, Context.reset_current_ins, hr]
  rw [← hreset]
  rcases pend with _ | ⟨ref, ls, ad⟩
  · exact Nat.le_succ _
  · unfold Fixer.placed
    simp only [ctx_emit, Fixer.insert_fix_map, Context.insert_fix_map]
    by_cases hr : r = ref
    · subst hr
      split <;> simp
    · split <;> simp [hr]

/-- A completion of the next state completes this one. -/
theorem Completes.of_placed (h : Completes code loc k (f.placed k n pend block)) :
    Completes code loc k f := by
  have hins := completes_emit h
  have hreset : Completes code loc k ((f.emit (List.replicate n A64_NOP)).reset k) := by
    rcases pend with _ | ⟨ref, ls, ad⟩
    · exact hins
    · exact completes_insert hins
  exact completes_emit (completes_reset le_rfl hreset)

theorem Wf.aligned (hwf : Wf base outp count k f) {r : Nat} {e : FixInfo}
    (he : e ∈ (f.ctx.dat r).fmap) : ∃ x : Nat, e.bp = f.outp_base + 4 * x := by
  obtain ⟨x, hx, -⟩ := hwf.below r e he
  exact ⟨x, by rw [hx, hwf.outp_base]⟩

theorem Completes.of_place (hwf : Wf base outp count k f) (hpend : ∀ p ∈ pend, p.1 ≠ k)
    (h : Completes code loc (k + 1) (f.place k n pend block)) :
    Completes code loc (k + 1) (f.placed k n pend block) := by
  have hloc : f.outp + 4 * n = loc k := by
    rw [← h.ins k (by omega)]
    simp [Fixer.place, process_fix_map, advance, placed_ins]
  refine completes_process ?_ (placed_ins.trans hloc) (completes_advance h)
  intro e he
  rcases (mem_placed k e).1 he with he | ⟨p, hp, hk, -⟩
  · obtain ⟨x, hx⟩ := hwf.aligned he
    refine ⟨x, hx.trans ?_⟩
    cases pend <;> rfl
  · exact absurd hk.symm (hpend p hp)

/-- The bits of the words of a round: their own, and those of the entry for the first word of the
block. -/
theorem Completes.bits_placed (hwf : Wf base outp count k f) (hk : k < A64_MAX_REFERENCES)
    {m i : Nat} {w : Word} (h : Completes code loc m (f.placed k n pend block))
    (hw : (List.replicate n A64_NOP ++ block)[i]? = some w) (b : Nat) :
    (code (f.outp + 4 * i)).getLsbD b = true ↔ w.getLsbD b = true ∨ ∃ p ∈ pend, i = n ∧
      (fixBits (loc p.1) ⟨f.outp + 4 * n, p.2.1, p.2.2⟩).getLsbD b = true := by
  have hbase : (f.placed k n pend block).outp_base = f.outp_base := by cases pend <;> rfl
  have hw' : (f.placed k n pend block).out[f.out.length + i]? = some w := by
    rw [placed_out, List.append_assoc, List.getElem?_append_right (by omega), Nat.add_sub_cancel_left,
      hw]
  have haddr : f.outp_base + 4 * ((f.out.length + i : Nat) : Int) = f.outp + 4 * i := by
    unfold Fixer.outp
    push_cast
    omega
  have hcode := h.bits _ w hw' b
  rw [hbase, haddr] at hcode
  rw [hcode]
  refine or_congr_right ?_
  constructor
  · rintro ⟨r, e, he, hbp, hb⟩
    rcases (mem_placed r e).1 he with he | ⟨p, hp, rfl, -, rfl⟩
    · obtain ⟨x, hx, hlt⟩ := hwf.below r e he
      rw [hbp, ← hwf.outp_base, Fixer.outp] at hx
      omega
    · exact ⟨p, hp, by simp only at hbp; omega, hb⟩
  · rintro ⟨p, hp, rfl, hb⟩
    refine ⟨p.1, _, (mem_placed _ _).2 (.inr ⟨p, hp, rfl, ?_, rfl⟩), rfl, hb⟩
    exact (hwf.few _).trans_lt hk

theorem Completes.nops (hwf : Wf base outp count k f) (hk : k < A64_MAX_REFERENCES) {m : Nat}
    (h : Completes code loc m (f.placed k n pend block)) {i : Nat} (hi : i < n) :
    code (f.outp + 4 * i) = A64_NOP := by
  have hw : (List.replicate n A64_NOP ++ block)[i]? = some A64_NOP := by
    rw [List.getElem?_append_left (by simpa using hi)]
    simp [hi]
  apply BitVec.eq_of_getLsbD_eq
  intro b hb
  have hbits := h.bits_placed hwf hk hw b
  have hne : i ≠ n := by omega
  simp only [hne, false_and, and_false, exists_false, or_false] at hbits
  exact Bool.eq_iff_iff.2 hbits

theorem Completes.at_block (hwf : Wf base outp count k f) (hk : k < A64_MAX_REFERENCES) {m : Nat}
    (h : Completes code loc m (f.placed k n none block)) {i : Nat} {w : Word}
    (hw : block[i]? = some w) : code (f.outp + 4 * n + 4 * i) = w := by
  have hw' : (List.replicate n A64_NOP ++ block)[n + i]? = some w := by
    rw [List.getElem?_append_right (by simp)]
    simpa using hw
  apply BitVec.eq_of_getLsbD_eq
  intro b hb
  have hbits := h.bits_placed hwf hk hw' b
  simp only [Option.mem_def, reduceCtorEq, false_and, exists_false, or_false] at hbits
  rw [show f.outp + 4 * ((n + i : Nat) : Int) = f.outp + 4 * n + 4 * i by push_cast; omega] at hbits
  exact Bool.eq_iff_iff.2 hbits

theorem Completes.pending (hwf : Wf base outp count k f) (hk : k < A64_MAX_REFERENCES) {m : Nat}
    {ref ls : Nat} {ad w : Word} (h : Completes code loc m (f.placed k 0 (some (ref, ls, ad)) [w])) :
    code f.outp = w ||| fixBits (loc ref) ⟨f.outp, ls, ad⟩ := by
  apply BitVec.eq_of_getLsbD_eq
  intro b hb
  have hbits := h.bits_placed hwf hk (i := 0) (w := w) rfl b
  simp only [Option.mem_def, Option.some.injEq, exists_eq_left', true_and, Nat.cast_zero, mul_zero,
    add_zero] at hbits
  rw [Bool.eq_iff_iff, hbits, BitVec.getLsbD_or, Bool.or_eq_true]

/-! ## The invariant of the loop -/

theorem Wf.start : Wf base outp count 0 (fix_start base count outp) := by
  refine ⟨?_, rfl, rfl, rfl, ?_, ?_, ?_⟩ <;> simp [fix_start]

theorem length_place : (f.place k n pend block).out.length = f.out.length + n + block.length := by
  simp [Fixer.place, advance, process_fix_map, length_foldl_patch, placed_out, Nat.add_assoc]

theorem Wf.place (hwf : Wf base outp count k f) (hpend : ∀ p ∈ pend, k < p.1 ∧ p.1 < count)
    (hblock : pend.isSome → 0 < block.length) :
    Wf base outp count (k + 1) (f.place k n pend block) := by
  have hrow : ∀ r, ((f.place k n pend block).ctx.dat r).fmap
      = if r = k then [] else ((f.placed k n pend block).ctx.dat r).fmap := by
    intro r
    by_cases hr : r = k <;> simp [Fixer.place, advance, process_fix_map, hr]
  have hbelow : ∀ r, ∀ e ∈ ((f.placed k n pend block).ctx.dat r).fmap,
      ∃ x : Nat, e.bp = outp + 4 * x ∧ x < f.out.length + n + block.length := by
    intro r e he
    rcases (mem_placed r e).1 he with he | ⟨p, hp, -, -, rfl⟩
    · obtain ⟨x, hx, hlt⟩ := hwf.below r e he
      exact ⟨x, hx, by omega⟩
    · have hpos := hblock (Option.isSome_of_mem hp)
      refine ⟨f.out.length + n, ?_, by omega⟩
      simp only [Fixer.outp, hwf.outp_base]
      push_cast
      omega
  refine ⟨?_, ?_, ?_, ?_, ?_, ?_, ?_⟩
  · have hinp : (f.place k n pend block).inp = f.inp + 4 := by cases pend <;> rfl
    rw [hinp, hwf.inp]
    push_cast
    omega
  · rw [← hwf.outp_base]
    cases pend <;> rfl
  · exact (placed_range (f := f)).1.trans hwf.basep
  · exact (placed_range (f := f)).2.trans hwf.endp
  · intro r e he
    rw [hrow] at he
    split at he
    · simp at he
    · rw [length_place]
      exact hbelow r e he
  · intro r
    rw [hrow]
    split
    · simp
    · exact (length_placed_le r).trans (Nat.succ_le_succ (hwf.few r))
  · intro r hr
    rw [hrow]
    split
    · rfl
    · apply List.eq_nil_iff_forall_not_mem.2
      intro e he
      rcases (mem_placed r e).1 he with he | ⟨p, hp, rfl, -⟩
      · rw [hwf.ahead r (by omega)] at he
        simp at he
      · have := hpend p hp
        omega

end ElfHook.Inline64

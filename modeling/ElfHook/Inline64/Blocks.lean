import ElfHook.Inline64.Layout

/-!
# Relocated instructions, one by one

Each `fix_` function turns instruction `k` into a block of the trampoline, and the finished block
does from `loc k` what the instruction does from its own address.
-/

namespace ElfHook.Inline64

open Lib Lib.A64 Fixer

variable {R : Type*} {S : Sem R} {mem code : Int → Word} {loc : Nat → Int} {base outp : Int}
  {count k : Nat} {f : Fixer} {r : Regs R}

/-- The addresses of the instructions that move. -/
def Moved (base : Int) (count : Nat) (a : Int) : Prop := base ≤ a ∧ a < base + 4 * count

instance (a : Int) : Decidable (Moved base count a) := by unfold Moved; infer_instance

/-- Where a jump to `a` has to lead. -/
def dest (base : Int) (count : Nat) (loc : Nat → Int) (a : Int) : Int :=
  if Moved base count a then loc ((a - base) / 4).toNat else a

/-- The trampoline, at `loc k` with registers `r`, does what led the original code to `s`. A block
that ends below goes on at `next`. On leaving, `X17` is free; a call leaves with the address `next`
for the return. -/
inductive Follows (S : Sem R) (code : Int → Word) (loc : Nat → Int) (base : Int) (count : Nat)
    (next : Int) (k : Nat) (r : Regs R) (s : Cpu R) : Prop
  | inside (j : Nat) (hj : j < count) (hpc : s.pc = base + 4 * j)
      (h : Reaches S code ⟨loc k, r⟩ ⟨loc j, s.regs⟩)
  | next (hpc : s.pc = base + 4 * (k + 1)) (h : Reaches S code ⟨loc k, r⟩ ⟨next, s.regs⟩)
  | leave (r' : Regs R) (hpc : ¬ Moved base count s.pc)
      (h : Reaches S code ⟨loc k, r⟩ ⟨s.pc, r'⟩) (hr : Regs.AgreeBut [17#5] s.regs r')
  | call (r' : Regs R) (hpc : ¬ Moved base count s.pc)
      (h : Reaches S code ⟨loc k, r⟩ ⟨s.pc, r'⟩) (hr : Regs.AgreeBut [17#5, 30#5] s.regs r')
      (hret : s.regs.x 30#5 = BitVec.ofInt 64 (base + 4 * (k + 1)))
      (hret' : r'.x 30#5 = BitVec.ofInt 64 next)

/-- The literals that stay where they are have the same words in `code`. -/
def LitFrame (mem code : Int → Word) (base : Int) (count : Nat) : Prop :=
  ∀ k < count, ∀ lk t off, decode (mem (base + 4 * k)) = .ldr lk t off →
    ¬ Moved base count (base + 4 * k + off) → ∀ i < lk.words,
      code (base + 4 * k + off + 4 * i) = mem (base + 4 * k + off + 4 * i)

/-- What a block may rely on: the positions of all instructions, and the literals left in place. -/
structure Finished (mem code : Int → Word) (loc : Nat → Int) (base outp : Int) (count : Nat) :
    Prop where
  few : count ≤ A64_MAX_INSTRUCTIONS
  aligned : 4 ∣ outp - base
  outp4 : 4 ∣ outp
  small : -2 ^ 62 ≤ base ∧ base < 2 ^ 62 ∧ -2 ^ 62 ≤ outp ∧ outp < 2 ^ 62
  loc4 : ∀ j < count, 4 ∣ loc j - outp
  locs : ∀ j < count, outp ≤ loc j ∧ loc j < outp + 200
  frame : LitFrame mem code base count

/-- A target within `2^33` bytes is an `int64_t`. -/
theorem Finished.int64 (hfin : Finished mem code loc base outp count) (hk : k < count) {d : Int}
    (hd : -2 ^ 33 ≤ d ∧ d < 2 ^ 33) :
    -2 ^ 63 ≤ base + 4 * k + d ∧ base + 4 * k + d < 2 ^ 63 := by
  obtain ⟨h1, h2, -, -⟩ := hfin.small
  have hfew := hfin.few
  unfold A64_MAX_INSTRUCTIONS at hfew
  omega

theorem Regs.AgreeBut.rfl {ds : List (BitVec 5)} : Regs.AgreeBut ds r r := ⟨Eq.refl _, fun _ _ => Eq.refl _⟩

theorem agreeBut_set17 {v : BitVec 64} : Regs.AgreeBut [17#5] r (r.set 17#5 v) := by
  refine ⟨rfl, fun n hn => ?_⟩
  simp only [List.mem_singleton] at hn
  simp [Regs.set, hn]

theorem append_halves (x : BitVec 64) : x.extractLsb' 32 32 ++ x.extractLsb' 0 32 = x := by
  apply BitVec.eq_of_getLsbD_eq
  intro i hi
  rw [BitVec.getLsbD_append]
  grind

theorem set_x30 (v : BitVec 64) : (r.set 30#5 v).x 30#5 = v := by
  simp [Regs.set, show (30#5 : BitVec 5) ≠ 31#5 by decide]

/-- `LDR X17, #8; BR X17` and an address jump there. -/
theorem reaches_far {a b : Int} (hb : -2 ^ 63 ≤ b) (hb' : b < 2 ^ 63)
    (h0 : code a = 0x58000051#32) (h1 : code (a + 4) = 0xd61f0220#32)
    (h2 : code (a + 8) = (BitVec.ofInt 64 b).extractLsb' 0 32)
    (h3 : code (a + 12) = (BitVec.ofInt 64 b).extractLsb' 32 32) :
    Reaches S code ⟨a, r⟩ ⟨b, r.set 17#5 (BitVec.ofInt 64 b)⟩ := by
  have hldr : decode 0x58000051#32 = .ldr .x 17#5 8 := by decide
  have hbr : decode 0xd61f0220#32 = .br 17#5 := by decide
  have hval : code (a + 8 + 4 * (1 : Nat)) ++ code (a + 8 + 4 * (0 : Nat)) = BitVec.ofInt 64 b := by
    rw [show a + 8 + 4 * ((1 : Nat) : Int) = a + 12 by omega,
      show a + 8 + 4 * ((0 : Nat) : Int) = a + 8 by omega, h2, h3]
    exact append_halves _
  refine Reaches.head (t := ⟨a + 4, r.set 17#5 (BitVec.ofInt 64 b)⟩) ?_ (Reaches.one ?_)
  · simp only [step, h0, hldr, load, hval]
  · have hget : (r.set 17#5 (BitVec.ofInt 64 b)).get 17#5 = BitVec.ofInt 64 b := by
      simp [Regs.get, Regs.set]
    simp only [step, h1, hbr, hget, Cpu.mk.injEq, and_true]
    exact BitVec.toInt_ofInt_eq_self (by norm_num) hb hb'

/-! ## Rounds -/

@[simp] theorem Fixer.emit_nil : f.emit [] = f := by
  simp [Fixer.emit]

theorem Fixer.emit_reset (ws : List Word) : ((f.reset k).emit ws).reset k = (f.emit ws).reset k := by
  simp [Fixer.emit, Fixer.reset, Context.reset_current_ins, Fixer.outp]

theorem place_of_emit (ws : List Word) :
    ((f.reset k).emit ws).advance.process_fix_map k = f.place k 0 none ws := by
  simp [Fixer.place, Fixer.placed]
  rfl

theorem place_of_pad (n : Nat) (ws : List Word) :
    ((((f.reset k).emit (List.replicate n A64_NOP)).reset k).emit ws).advance.process_fix_map k
      = f.place k n none ws := by
  rw [Fixer.emit_reset]
  rfl

theorem place_of_align (c : Prop) [Decidable c] (ws : List Word) :
    ((if c then ((f.reset k).emit [A64_NOP]).reset k else f.reset k).emit ws).advance.process_fix_map k
      = f.place k (if c then 1 else 0) none ws := by
  split
  · exact place_of_pad 1 ws
  · exact place_of_emit ws

theorem place_of_insert (ref ls : Nat) (ad : Word) (ws : List Word) :
    (((f.reset k).insert_fix_map ref ls ad).emit ws).advance.process_fix_map k
      = f.place k 0 (some (ref, ls, ad)) ws := by
  simp [Fixer.place, Fixer.placed]
  rfl

theorem Wf.index (hwf : Wf base outp count k f) : f.ctx.get_ref_ins_index f.inp = k := by
  rw [Context.get_ref_ins_index, hwf.inp, hwf.basep]
  omega

theorem Wf.moved (hwf : Wf base outp count k f) (a : Int) :
    f.ctx.is_in_fixing_range a ↔ Moved base count a := by
  rw [Context.is_in_fixing_range, hwf.basep, hwf.endp, Moved]

/-- What is to be shown of a round that turns `f` into `f'`. -/
structure Round (S : Sem R) (mem : Int → Word) (base outp : Int) (count k : Nat) (f f' : Fixer)
    (n : Nat) (pend : Option (Nat × Nat × Word)) (block : List Word) : Prop where
  eq : f' = f.place k n pend block
  ahead : ∀ p ∈ pend, k < p.1 ∧ p.1 < count
  word : pend.isSome → 0 < block.length
  size : n + block.length ≤ 9
  follows : ∀ code loc, Finished mem code loc base outp count →
    Completes code loc (k + 1) (f.placed k n pend block) → loc k = f.outp + 4 * n → ∀ r : Regs R,
    (∀ m, decode (mem f.inp) = .br m → ¬ Moved base count (r.get m).toInt) →
    Follows S code loc base count (loc k + 4 * block.length) k r (step S mem ⟨f.inp, r⟩)

end ElfHook.Inline64

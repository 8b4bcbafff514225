import ElfHook.Lib.BitField
import Mathlib.Logic.Function.Iterate

/-!
# A64 instructions that depend on their address

The branches, literal loads and address computations of the A64 instruction set, decoded from
words, over a machine whose code and literals do not change. What the other instructions do
(`Sem.exec`), which conditions hold (`Sem.holds`) and what a vector register keeps (`Sem.vload`)
are parameters: none of them sees the program counter.

* `decode_b`, `decode_bl`, `decode_cond19`, `decode_cond14`, `decode_ldr`, `decode_adr`: what a word
  decodes to once its offset field has been replaced.
* `Reaches`: some number of steps lead from one state to another; `reaches_nops` runs padding.
-/

namespace ElfHook.Lib.A64

/-- The literal loads: to `W`, `X` (also `LDRSW`), and to `S`, `D`, `Q`. -/
inductive Lit
  | w | x | sw | s | d | q
  deriving DecidableEq, Repr

/-- The number of words a literal load reads. -/
def Lit.words : Lit → Nat
  | .w | .sw | .s => 1
  | .x | .d => 2
  | .q => 4

/-- Offsets are in bytes. `cond c off` is a conditional, compare-and-branch or test-and-branch
instruction, `c` its word without the offset. -/
inductive Instr
  | b (off : Int)
  | bl (off : Int)
  | cond (c : Word) (off : Int)
  | ldr (k : Lit) (t : BitVec 5) (off : Int)
  | prfm
  | adr (d : BitVec 5) (off : Int)
  | adrp (d : BitVec 5) (off : Int)
  | br (n : BitVec 5)
  | blr (n : BitVec 5)
  | nop
  | unallocated
  | plain (w : Word)
  deriving DecidableEq, Repr

def imm26 (w : Word) : Int := (w.extractLsb' 0 26).toInt
def imm19 (w : Word) : Int := (w.extractLsb' 5 19).toInt
def imm14 (w : Word) : Int := (w.extractLsb' 5 14).toInt

/-- The offset of `ADR`: `immhi` is `imm19`, `immlo` the two bits from bit 29. -/
def imm21 (w : Word) : Int := 4 * imm19 w + (w.extractLsb' 29 2).toNat

def reg (w : Word) (lo : Nat) : BitVec 5 := w.extractLsb' lo 5

/-- `B.cond`, `CBZ` and `CBNZ`. -/
def IsCond19 (w : Word) : Prop :=
  w &&& 0xff000010#32 = 0x54000000#32 ∨ w &&& 0x7f000000#32 = 0x34000000#32 ∨
    w &&& 0x7f000000#32 = 0x35000000#32

/-- `TBZ` and `TBNZ`. -/
def IsCond14 (w : Word) : Prop :=
  w &&& 0x7f000000#32 = 0x36000000#32 ∨ w &&& 0x7f000000#32 = 0x37000000#32

instance (w : Word) : Decidable (IsCond19 w) := by unfold IsCond19; infer_instance
instance (w : Word) : Decidable (IsCond14 w) := by unfold IsCond14; infer_instance

def Lit.op : Lit → Word
  | .w => 0x18000000#32
  | .x => 0x58000000#32
  | .sw => 0x98000000#32
  | .s => 0x1c000000#32
  | .d => 0x5c000000#32
  | .q => 0x9c000000#32

def litKind (w : Word) : Option Lit :=
  [Lit.w, .x, .sw, .s, .d, .q].find? fun k => w &&& 0xff000000#32 = k.op

/-- The words that are neither a branch by immediate nor a literal load. -/
def decodeRest (w : Word) : Instr :=
  if w &&& 0x9f000000#32 = 0x10000000#32 then .adr (reg w 0) (imm21 w)
  else if w &&& 0x9f000000#32 = 0x90000000#32 then .adrp (reg w 0) (4096 * imm21 w)
  else if w &&& 0xfffffc1f#32 = 0xd61f0000#32 then .br (reg w 5)
  else if w &&& 0xfffffc1f#32 = 0xd65f0000#32 then .br (reg w 5)
  else if w &&& 0xfffffc1f#32 = 0xd63f0000#32 then .blr (reg w 5)
  else if w = 0xd503201f#32 then .nop
  else .plain w

def decode (w : Word) : Instr :=
  if w &&& 0xfc000000#32 = 0x14000000#32 then .b (4 * imm26 w)
  else if w &&& 0xfc000000#32 = 0x94000000#32 then .bl (4 * imm26 w)
  else if IsCond19 w then .cond (w &&& 0xff00001f#32) (4 * imm19 w)
  else if IsCond14 w then .cond (w &&& 0xfff8001f#32) (4 * imm14 w)
  else match litKind w with
    | some k => .ldr k (reg w 0) (4 * imm19 w)
    | none =>
      if w &&& 0xff000000#32 = 0xd8000000#32 then .prfm
      else if w &&& 0xff000000#32 = 0xdc000000#32 then .unallocated
      else decodeRest w

/-! ## The machine -/

variable {R : Type*}

/-- The general registers (the register number 31 reads as zero), and the rest of the state:
stack pointer, flags, vector registers, data memory. -/
structure Regs (R : Type*) where
  x : BitVec 5 → BitVec 64
  rest : R

structure Cpu (R : Type*) where
  pc : Int
  regs : Regs R

/-- What the machine is left to say about the state it does not look into. -/
structure Sem (R : Type*) where
  holds : Word → Regs R → Bool
  vload : BitVec 5 → List Word → R → R
  exec : Word → Regs R → Regs R

def Regs.get (r : Regs R) (n : BitVec 5) : BitVec 64 := if n = 31#5 then 0 else r.x n

def Regs.set (r : Regs R) (d : BitVec 5) (v : BitVec 64) : Regs R :=
  if d = 31#5 then r else { r with x := Function.update r.x d v }

/-- A literal load, given the words at the literal. -/
def load (S : Sem R) (t : BitVec 5) (lit : Nat → Word) (r : Regs R) : Lit → Regs R
  | .w => r.set t ((lit 0).setWidth 64)
  | .x => r.set t (lit 1 ++ lit 0)
  | .sw => r.set t ((lit 0).signExtend 64)
  | .s => { r with rest := S.vload t [lit 0] r.rest }
  | .d => { r with rest := S.vload t [lit 0, lit 1] r.rest }
  | .q => { r with rest := S.vload t [lit 0, lit 1, lit 2, lit 3] r.rest }

def page (a : Int) : Int := a - a % 4096

/-- One instruction, with code and literals in `mem`, a word for each address divisible by four. -/
def step (S : Sem R) (mem : Int → Word) (s : Cpu R) : Cpu R :=
  match decode (mem s.pc) with
  | .b off => { s with pc := s.pc + off }
  | .bl off => ⟨s.pc + off, s.regs.set 30#5 (BitVec.ofInt 64 (s.pc + 4))⟩
  | .cond c off => { s with pc := s.pc + if S.holds c s.regs then off else 4 }
  | .ldr k t off => ⟨s.pc + 4, load S t (fun i => mem (s.pc + off + 4 * i)) s.regs k⟩
  | .prfm | .nop => { s with pc := s.pc + 4 }
  | .adr d off => ⟨s.pc + 4, s.regs.set d (BitVec.ofInt 64 (s.pc + off))⟩
  | .adrp d off => ⟨s.pc + 4, s.regs.set d (BitVec.ofInt 64 (page s.pc + off))⟩
  | .br n => { s with pc := (s.regs.get n).toInt }
  | .blr n => ⟨(s.regs.get n).toInt, s.regs.set 30#5 (BitVec.ofInt 64 (s.pc + 4))⟩
  | .unallocated => s
  | .plain w => ⟨s.pc + 4, S.exec w s.regs⟩

/-- `s` is at `t` after some number of steps. -/
def Reaches (S : Sem R) (mem : Int → Word) (s t : Cpu R) : Prop := ∃ m, (step S mem)^[m] s = t

/-- The registers agree, the numbers in `ds` aside. -/
def Regs.AgreeBut (ds : List (BitVec 5)) (r r' : Regs R) : Prop :=
  r.rest = r'.rest ∧ ∀ n, n ∉ ds → r.x n = r'.x n

/-! ## What a word decodes to -/

variable {w : Word} {k : Lit}

/-- Two tests on one word agree where their masks overlap. -/
theorem tests_agree {m m' c c' : Word} (h : w &&& m = c) (h' : w &&& m' = c') :
    c &&& m' = c' &&& m := by
  rw [← h, ← h', BitVec.and_assoc, BitVec.and_assoc, BitVec.and_comm m]

theorem test_ne {m m' c c' : Word} (h : w &&& m = c) (hne : c &&& m' ≠ c' &&& m) :
    ¬ w &&& m' = c' :=
  fun h' => hne (tests_agree h h')

theorem litKind_eq_some : litKind w = some k ↔ w &&& 0xff000000#32 = k.op := by
  constructor
  · intro h
    simpa using List.find?_some h
  · intro h
    unfold litKind
    rw [h]
    cases k <;> decide

theorem decode_of_b (h : w &&& 0xfc000000#32 = 0x14000000#32) : decode w = .b (4 * imm26 w) := by
  rw [decode, if_pos h]

theorem decode_of_bl (h : w &&& 0xfc000000#32 = 0x94000000#32) :
    decode w = .bl (4 * imm26 w) := by
  rw [decode, if_neg (test_ne h (by decide)), if_pos h]

theorem IsCond19.not_b (h : IsCond19 w) :
    ¬ w &&& 0xfc000000#32 = 0x14000000#32 ∧ ¬ w &&& 0xfc000000#32 = 0x94000000#32 := by
  rcases h with h | h | h <;> exact ⟨test_ne h (by decide), test_ne h (by decide)⟩

theorem IsCond14.not_b (h : IsCond14 w) :
    ¬ w &&& 0xfc000000#32 = 0x14000000#32 ∧ ¬ w &&& 0xfc000000#32 = 0x94000000#32 := by
  rcases h with h | h <;> exact ⟨test_ne h (by decide), test_ne h (by decide)⟩

theorem IsCond14.not_cond19 (h : IsCond14 w) : ¬ IsCond19 w := by
  rintro (h' | h' | h') <;> rcases h with h | h <;>
    exact absurd (tests_agree h h') (by decide)

theorem decode_of_cond19 (h : IsCond19 w) :
    decode w = .cond (w &&& 0xff00001f#32) (4 * imm19 w) := by
  rw [decode, if_neg h.not_b.1, if_neg h.not_b.2, if_pos h]

theorem decode_of_cond14 (h : IsCond14 w) :
    decode w = .cond (w &&& 0xfff8001f#32) (4 * imm14 w) := by
  rw [decode, if_neg h.not_b.1, if_neg h.not_b.2, if_neg h.not_cond19, if_pos h]

/-- The bits 28 to 26 of every branch are `101`. -/
theorem not_branch (h : ¬ w &&& 0x1c000000#32 = 0x14000000#32) :
    (¬ w &&& 0xfc000000#32 = 0x14000000#32) ∧ (¬ w &&& 0xfc000000#32 = 0x94000000#32) ∧
      ¬ IsCond19 w ∧ ¬ IsCond14 w := by
  refine ⟨fun h' => h ?_, fun h' => h ?_, ?_, ?_⟩
  · exact and_of_and h' (by decide)
  · exact and_of_and h' (by decide)
  · rintro (h' | h' | h')
    · exact h (and_of_and h' (by decide))
    · exact h (and_of_and h' (by decide))
    · exact h (and_of_and h' (by decide))
  · rintro (h' | h')
    · exact h (and_of_and h' (by decide))
    · exact h (and_of_and h' (by decide))

theorem Lit.not_branch (h : litKind w = some k) : ¬ w &&& 0x1c000000#32 = 0x14000000#32 := by
  have htop := litKind_eq_some.1 h
  cases k <;> exact test_ne htop (by decide)

theorem decode_of_lit (h : litKind w = some k) : decode w = .ldr k (reg w 0) (4 * imm19 w) := by
  obtain ⟨hb, hbl, h19, h14⟩ := A64.not_branch (Lit.not_branch h)
  rw [decode, if_neg hb, if_neg hbl, if_neg h19, if_neg h14, h]

/-- A top byte other than theirs excludes the literal loads. -/
theorem litKind_eq_none {c : Word} (h : w &&& 0xff000000#32 = c) (hc : ∀ k, c ≠ Lit.op k) :
    litKind w = none := by
  rcases hk : litKind w with _ | k
  · rfl
  · exact absurd (h.symm.trans (litKind_eq_some.1 hk)) (hc k)

theorem decode_of_prfm (h : w &&& 0xff000000#32 = 0xd8000000#32) : decode w = .prfm := by
  obtain ⟨hb, hbl, h19, h14⟩ := not_branch (test_ne h (by decide))
  rw [decode, if_neg hb, if_neg hbl, if_neg h19, if_neg h14,
    litKind_eq_none h (by rintro ⟨⟩ <;> decide)]
  exact if_pos h

theorem decode_of_rest (h : (¬ w &&& 0xfc000000#32 = 0x14000000#32) ∧
      (¬ w &&& 0xfc000000#32 = 0x94000000#32) ∧ ¬ IsCond19 w ∧ ¬ IsCond14 w)
    (hlit : litKind w = none) (hprfm : ¬ w &&& 0xff000000#32 = 0xd8000000#32)
    (hun : ¬ w &&& 0xff000000#32 = 0xdc000000#32) : decode w = decodeRest w := by
  rw [decode, if_neg h.1, if_neg h.2.1, if_neg h.2.2.1, if_neg h.2.2.2, hlit]
  simp only
  rw [if_neg hprfm, if_neg hun]

theorem decode_of_pcrel {op : Word} (hop : op &&& 0x1f000000#32 = 0x10000000#32)
    (h : w &&& 0x9f000000#32 = op) : decode w = decodeRest w := by
  have h5 : w &&& 0x1f000000#32 = 0x10000000#32 := (and_of_and h (by decide)).trans hop
  have hlit : litKind w = none := by
    rcases hk : litKind w with _ | k
    · rfl
    · have htop := litKind_eq_some.1 hk
      cases k <;> exact absurd (tests_agree h5 htop) (by decide)
  exact decode_of_rest (not_branch (test_ne h5 (by decide))) hlit
    (test_ne h5 (by decide)) (test_ne h5 (by decide))

theorem decode_of_adr (h : w &&& 0x9f000000#32 = 0x10000000#32) :
    decode w = .adr (reg w 0) (imm21 w) := by
  rw [decode_of_pcrel (by decide) h, decodeRest, if_pos h]

theorem decode_of_adrp (h : w &&& 0x9f000000#32 = 0x90000000#32) :
    decode w = .adrp (reg w 0) (4096 * imm21 w) := by
  rw [decode_of_pcrel (by decide) h, decodeRest, if_neg (test_ne h (by decide)), if_pos h]

/-! ## Replacing the offset -/

variable {v : Word}

theorem decode_b (h : w &&& 0xfc000000#32 = 0x14000000#32) :
    decode (putField 0 26 v w) = .b (4 * (v.extractLsb' 0 26).toInt) := by
  rw [decode_of_b ((putField_and (by decide)).trans h), imm26, extract_putField (by decide)]

theorem decode_bl (h : w &&& 0xfc000000#32 = 0x94000000#32) :
    decode (putField 0 26 v w) = .bl (4 * (v.extractLsb' 0 26).toInt) := by
  rw [decode_of_bl ((putField_and (by decide)).trans h), imm26, extract_putField (by decide)]

theorem decode_cond19 (h : IsCond19 w) :
    decode (putField 5 19 v w) = .cond (w &&& 0xff00001f#32) (4 * (v.extractLsb' 0 19).toInt) := by
  have h' : IsCond19 (putField 5 19 v w) := by
    unfold IsCond19
    rwa [putField_and (by decide), putField_and (by decide)]
  rw [decode_of_cond19 h', putField_and (by decide), imm19, extract_putField (by decide)]

theorem decode_cond14 (h : IsCond14 w) :
    decode (putField 5 14 v w) = .cond (w &&& 0xfff8001f#32) (4 * (v.extractLsb' 0 14).toInt) := by
  have h' : IsCond14 (putField 5 14 v w) := by
    unfold IsCond14
    rwa [putField_and (by decide)]
  rw [decode_of_cond14 h', putField_and (by decide), imm14, extract_putField (by decide)]

theorem decode_ldr (h : litKind w = some k) :
    decode (putField 5 19 v w) = .ldr k (reg w 0) (4 * (v.extractLsb' 0 19).toInt) := by
  have h' : litKind (putField 5 19 v w) = some k := by
    rw [litKind_eq_some, putField_and (by decide)]
    exact litKind_eq_some.1 h
  rw [decode_of_lit h', imm19, extract_putField (by decide), reg,
    extract_putField_disjoint (by decide), reg]

theorem decode_adr (h : w &&& 0x9f000000#32 = 0x10000000#32) :
    decode (putField 5 19 v w)
      = .adr (reg w 0) (4 * (v.extractLsb' 0 19).toInt + (w.extractLsb' 29 2).toNat) := by
  rw [decode_of_adr ((putField_and (by decide)).trans h), imm21, imm19,
    extract_putField (by decide), reg, extract_putField_disjoint (by decide),
    extract_putField_disjoint (by decide), reg]

/-- An offset in words, written to a field it fits, leads from `a` to `b`. -/
theorem offset_field {n : Nat} (hn : 0 < n) (hn32 : n ≤ 32) {a b : Int} (hd : 4 ∣ b - a)
    (hmin : -(2 : Int) ^ (n - 1) ≤ (b - a) >>> (2 : Nat)) (hmax : (b - a) >>> (2 : Nat) < (2 : Int) ^ (n - 1)) :
    a + (4 : Int) * ((BitVec.ofInt 32 ((b - a) >>> (2 : Nat))).extractLsb' 0 n).toInt = b := by
  rw [toInt_extract_ofInt hn hn32 hmin hmax, Int.shiftRight_eq_div_pow]
  omega

/-! ## Steps -/

variable {R : Type*} {S : Sem R} {mem : Int → Word} {s t u : Cpu R}

theorem Reaches.refl : Reaches S mem s s := ⟨0, rfl⟩

theorem Reaches.trans (hst : Reaches S mem s t) (htu : Reaches S mem t u) : Reaches S mem s u := by
  obtain ⟨m, rfl⟩ := hst
  obtain ⟨n, rfl⟩ := htu
  exact ⟨n + m, Function.iterate_add_apply _ _ _ _⟩

theorem Reaches.one (h : step S mem s = t) : Reaches S mem s t := ⟨1, h⟩

theorem Reaches.head (h : step S mem s = t) (htu : Reaches S mem t u) : Reaches S mem s u :=
  (Reaches.one h).trans htu

/-- Padding is run through. -/
theorem reaches_nops {n : Nat} {a : Int} {r : Regs R}
    (h : ∀ i : Nat, i < n → mem (a + 4 * i) = 0xd503201f#32) :
    Reaches S mem ⟨a, r⟩ ⟨a + 4 * n, r⟩ := by
  induction n with
  | zero => exact ⟨0, by simp⟩
  | succ n ih =>
    refine (ih fun i hi => h i (by omega)).trans (Reaches.one ?_)
    have hnop : decode 0xd503201f#32 = .nop := by decide
    simp only [step, h n (by omega), hnop, Cpu.mk.injEq, and_true]
    push_cast
    omega

end ElfHook.Lib.A64

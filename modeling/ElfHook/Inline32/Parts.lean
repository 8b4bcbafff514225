import ElfHook.Inline32.Relocate

/-!
# A relocation as a sequence of parts

Both loops of `relocate.c` take some units of the function at a time, note a boundary, and write a
part of the trampoline.

* `armLoop_eq`, `thumbLoop_eq`: the loops, as one fold over their parts.
* `length_relocateInstruction`: a trampoline fits its page.
-/

namespace ElfHook.Inline32

open Lib INSTRUCTION_TYPE

/-- Units of the function, and what is written for them. -/
abbrev Part (U : Type) := Nat × List U

def Relocated.take {U : Type} (sz : Nat) (s : Relocated U) (p : Part U) : Relocated U :=
  (s.mark sz).emit p.1 p.2

def armParts (mem : Mem) : Word → List Word → List (Part Word)
  | _, [] => []
  | pc, instruction :: rest =>
    (1, relocateOneInArm mem pc instruction) :: armParts mem (pc + 4#32) rest

/-- A 32-bit instruction that does not end in the halfwords takes nothing. -/
def thumbParts (mem : Mem) : Word → List Half → List (Part Half)
  | _, [] => []
  | pc, high :: rest =>
    if isThumb32 high then
      match rest with
      | [] => [(0, [])]
      | low :: rest =>
        (2, relocateInstructionInThumb32 mem pc high low) :: thumbParts mem (pc + 4#32) rest
    else (1, relocateInstructionInThumb16 mem pc high) :: thumbParts mem (pc + 2#32) rest

/-- The boundaries of the parts, from `pos` units of the function and `len` of the trampoline on. -/
def offsets {U : Type} (sz : Nat) : Nat → Nat → List (Part U) → List (Nat × Nat)
  | _, _, [] => []
  | pos, len, p :: parts => (pos * sz, len * sz) :: offsets sz (pos + p.1) (len + p.2.length) parts

section Fold

variable {U : Type} {sz : Nat} {parts : List (Part U)} {s : Relocated U}

theorem foldl_take (sz : Nat) (parts : List (Part U)) (s : Relocated U) :
    parts.foldl (Relocated.take sz) s =
      ⟨s.orig_pos + (parts.map Prod.fst).sum, s.trampoline ++ parts.flatMap Prod.snd,
        s.boundaries ++ offsets sz s.orig_pos s.trampoline.length parts⟩ := by
  induction parts generalizing s with
  | nil => simp [offsets]
  | cons p parts ih =>
    rw [List.foldl_cons, ih]
    simp [Relocated.take, Relocated.emit, Relocated.mark, offsets, Nat.add_assoc]

theorem armLoop_eq (mem : Mem) (pc : Word) (ws : List Word) (s : Relocated Word) :
    armLoop mem pc ws s = (armParts mem pc ws).foldl (Relocated.take 4) s := by
  induction ws generalizing pc s with
  | nil => rfl
  | cons w ws ih =>
    rw [armLoop, ih]
    rfl

theorem thumbLoop_eq (mem : Mem) (pc : Word) (hs : List Half) (s : Relocated Half) :
    thumbLoop mem pc hs s = (thumbParts mem pc hs).foldl (Relocated.take 2) s := by
  fun_induction thumbParts mem pc hs generalizing s with
  | case1 => rfl
  | case2 pc high hwide =>
    unfold thumbLoop
    rw [if_pos hwide]
    simp [Relocated.take, Relocated.emit]
  | case3 pc high hwide low rest ih =>
    unfold thumbLoop
    rw [if_pos hwide]
    exact ih _
  | case4 pc high rest hwide ih =>
    unfold thumbLoop
    rw [if_neg hwide]
    exact ih _

end Fold

/-! ### Sizes -/

theorem length_relocateOneInArm (mem : Mem) (pc w : Word) :
    0 < (relocateOneInArm mem pc w).length ∧ (relocateOneInArm mem pc w).length ≤ 6 := by
  unfold relocateOneInArm
  simp only
  split <;> simp [armLoad]

theorem length_thumb16 (mem : Mem) (pc : Word) (h : Half) :
    0 < (relocateInstructionInThumb16 mem pc h).length ∧
      (relocateInstructionInThumb16 mem pc h).length ≤ 8 := by
  unfold relocateInstructionInThumb16
  simp only
  split <;> simp [thumbJump]

theorem length_thumb32 (mem : Mem) (pc : Word) (high low : Half) :
    0 < (relocateInstructionInThumb32 mem pc high low).length ∧
      (relocateInstructionInThumb32 mem pc high low).length ≤ 14 := by
  unfold relocateInstructionInThumb32
  simp only
  split <;> simp [thumbJump, thumbLoad, thumbTable]

theorem length_armParts (mem : Mem) (pc : Word) (ws : List Word) :
    ((armParts mem pc ws).flatMap Prod.snd).length ≤ 6 * ws.length := by
  induction ws generalizing pc with
  | nil => exact Nat.zero_le _
  | cons w ws ih =>
    rw [armParts, List.flatMap_cons, List.length_append, List.length_cons]
    have hone := (length_relocateOneInArm mem pc w).2
    have hrest := ih (pc + 4#32)
    simp only
    omega

theorem length_thumbParts (mem : Mem) (pc : Word) (hs : List Half) :
    ((thumbParts mem pc hs).flatMap Prod.snd).length ≤ 8 * hs.length := by
  fun_induction thumbParts mem pc hs with
  | case1 => exact Nat.zero_le _
  | case2 => exact Nat.zero_le _
  | case3 pc high hwide low rest ih =>
    have hone := (length_thumb32 mem pc high low).2
    simp only [List.flatMap_cons, List.length_append, List.length_cons] at ih ⊢
    omega
  | case4 pc high rest hwide ih =>
    have hone := (length_thumb16 mem pc high).2
    simp only [List.flatMap_cons, List.length_append, List.length_cons] at ih ⊢
    omega

theorem length_pairs {n : Nat} (xs : List (BitVec n)) : (pairs xs).length = xs.length / 2 := by
  fun_induction pairs xs with
  | case1 lo hi rest ih =>
    rw [List.length_cons, ih, List.length_cons, List.length_cons]
    omega
  | case2 xs hshort =>
    rcases xs with _ | ⟨lo, _ | ⟨hi, rest⟩⟩
    · simp
    · simp
    · exact absurd rfl (hshort lo hi rest)

theorem length_halves (bs : List Byte) : (halves bs).length = bs.length / 2 := length_pairs bs

theorem length_words (bs : List Byte) : (words bs).length = bs.length / 2 / 2 := by
  rw [words, length_pairs, length_halves]

theorem length_flatMap_wordHalves (ws : List Word) : (ws.flatMap wordHalves).length = 2 * ws.length := by
  rw [List.length_flatMap]
  simp [wordHalves, Nat.mul_comm]

/-- A relocation, by its parts. -/
theorem relocateInstruction_thumb (mem : Mem) {target_addr : Word} (h : target_addr &&& 1#32 = 1#32)
    (bs : List Byte) :
    relocateInstruction mem target_addr bs =
      let parts := thumbParts mem (target_addr - 1#32 + 4#32) (halves bs)
      (parts.flatMap Prod.snd ++ thumbJump (target_addr - 1#32 +
          BitVec.ofNat 32 ((parts.map Prod.fst).sum * 2) + 1#32), offsets 2 0 0 parts) := by
  rw [relocateInstruction, if_pos h, relocateInstructionInThumb, thumbLoop_eq, foldl_take]
  simp

theorem relocateInstruction_arm (mem : Mem) {target_addr : Word} (h : ¬ target_addr &&& 1#32 = 1#32)
    (bs : List Byte) :
    relocateInstruction mem target_addr bs =
      let ws := words bs
      let parts := armParts mem (target_addr + 8#32) ws
      ((parts.flatMap Prod.snd ++ [0xE51FF004#32, target_addr + BitVec.ofNat 32 (ws.length * 4)]).flatMap
        wordHalves, offsets 4 0 0 parts) := by
  rw [relocateInstruction, if_neg h, relocateInstructionInArm, armLoop_eq, foldl_take]
  simp

/-- The trampoline of at most twelve bytes fits its page. -/
theorem length_relocateInstruction (mem : Mem) (target_addr : Word) {bs : List Byte}
    (hbs : bs.length ≤ 12) :
    ((relocateInstruction mem target_addr bs).1.flatMap halfBytes).length ≤ 4096 := by
  rw [length_flatMap_halfBytes]
  by_cases hthumb : target_addr &&& 1#32 = 1#32
  · rw [relocateInstruction_thumb mem hthumb]
    have hparts := length_thumbParts mem (target_addr - 1#32 + 4#32) (halves bs)
    rw [length_halves] at hparts
    simp only [List.length_append, thumbJump, List.length_cons, List.length_nil]
    omega
  · rw [relocateInstruction_arm mem hthumb]
    have hparts := length_armParts mem (target_addr + 8#32) (words bs)
    rw [length_words] at hparts
    simp only [length_flatMap_wordHalves, List.length_append, List.length_cons, List.length_nil]
    omega

end ElfHook.Inline32

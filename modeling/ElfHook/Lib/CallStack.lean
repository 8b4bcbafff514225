import Mathlib.Logic.Function.Basic
import ElfHook.Lib.Run

/-!
# Frame records on a stack

Calls that push a frame record, the caller's frame pointer and the return address, onto a stack
that grows down, and a signal handler that runs on a stack of its own. Memory is a record for each
address; functions may write it wherever no record of a call under way is. The stack pointer is
16-byte aligned, and so is every record; code that puts its records elsewhere is not covered.

* `intact_run`: in every run the records in memory link the calls under way, the innermost first,
  each below the next on its stack.
-/

namespace ElfHook.Lib.CallStack

structure Record where
  fp : Nat
  lr : Nat
deriving DecidableEq

structure Area where
  low : Nat
  high : Nat

/-- A call under way: the address of its record, where it returns to, and the caller's stack
pointer. -/
structure Frame where
  addr : Nat
  lr : Nat
  top : Nat
deriving DecidableEq

/-- `handler` are the calls on the signal stack, the last one the record that the kernel wrote, and
`interrupted` the stack pointer of the thread where the signal came. -/
structure Machine where
  cell : Nat → Record
  fp : Nat
  sp : Nat
  calls : List Frame
  handler : List Frame
  interrupted : Nat

inductive Event
  /-- A call that takes `size` bytes of stack and puts its record `offset` bytes above the end, both
  multiples of 16. -/
  | call (lr size offset : Nat)
  | ret
  | store (addr : Nat) (r : Record)
  /-- A signal: the kernel records the frame pointer and the link register on the signal stack. -/
  | signal (addr lr : Nat)
  | sigreturn

variable (thread altstack : Area)

def Machine.area (m : Machine) : Area := if m.handler = [] then thread else altstack

/-- The stack as it is when the thread begins, with `0` for the frame pointer of no call. -/
def start (cell : Nat → Record) : Machine := ⟨cell, 0, thread.high, [], [], thread.high⟩

def Machine.push (m : Machine) (f : Frame) : Machine :=
  if m.handler = [] then { m with calls := f :: m.calls } else { m with handler := f :: m.handler }

def step (m : Machine) : Event → Option Machine
  | .call lr size offset =>
    if size % 16 = 0 ∧ offset % 16 = 0 ∧ offset + 16 ≤ size ∧
        (m.area thread altstack).low + size ≤ m.sp then
      let addr := m.sp - size + offset
      some { m.push ⟨addr, lr, m.sp⟩ with
        cell := Function.update m.cell addr ⟨m.fp, lr⟩, fp := addr, sp := m.sp - size }
    else none
  | .ret =>
    match m.handler, m.calls with
    | [], f :: calls => some { m with fp := (m.cell m.fp).fp, sp := f.top, calls := calls }
    | f :: g :: handler, _ =>
      some { m with fp := (m.cell m.fp).fp, sp := f.top, handler := g :: handler }
    | _, _ => none
  | .store addr r =>
    if ∀ f ∈ m.handler ++ m.calls, f.addr ≠ addr then
      some { m with cell := Function.update m.cell addr r }
    else none
  | .signal addr lr =>
    if m.handler = [] ∧ addr % 16 = 0 ∧ altstack.low ≤ addr ∧ addr + 16 ≤ altstack.high then
      some { m with
        cell := Function.update m.cell addr ⟨m.fp, lr⟩, fp := addr, sp := addr
        handler := [⟨addr, lr, addr + 16⟩], interrupted := m.sp }
    else none
  | .sigreturn =>
    match m.handler with
    | [_] => some { m with fp := (m.cell m.fp).fp, sp := m.interrupted, handler := [] }
    | _ => none

/-! ### Records that link the calls -/

/-- From `fp` on, the records in memory are those of the calls. -/
def Linked (cell : Nat → Record) : List Frame → Nat → Prop
  | [], fp => fp = 0
  | f :: fs, fp => fp = f.addr ∧ (cell fp).lr = f.lr ∧ Linked cell fs (cell fp).fp

/-- The frames stand above `sp` on the stack, each below the next. -/
def Placed (area : Area) : List Frame → Nat → Prop
  | [], sp => area.low ≤ sp ∧ sp ≤ area.high ∧ sp % 16 = 0
  | f :: fs, sp => area.low ≤ sp ∧ sp ≤ f.addr ∧ f.addr % 16 = 0 ∧ sp % 16 = 0 ∧
    f.addr + 16 ≤ f.top ∧ Placed area fs f.top

structure Intact (m : Machine) : Prop where
  linked : Linked m.cell (m.handler ++ m.calls) m.fp
  calls : Placed thread m.calls (if m.handler = [] then m.sp else m.interrupted)
  handler : m.handler ≠ [] → Placed altstack m.handler m.sp

variable {thread altstack} {area : Area} {cell : Nat → Record} {fs : List Frame} {fp sp : Nat}
  {m m' : Machine} {e : Event}

theorem bounds_of_placed (h : Placed area fs sp) :
    area.low ≤ sp ∧ sp ≤ area.high ∧ sp % 16 = 0 := by
  induction fs generalizing sp with
  | nil => exact h
  | cons f fs ih =>
    obtain ⟨hlow, haddr, -, halign, htop, hrest⟩ := h
    have hhigh := (ih hrest).2.1
    exact ⟨hlow, by omega, halign⟩

theorem addr_of_placed (h : Placed area fs sp) {f : Frame} (hf : f ∈ fs) :
    sp ≤ f.addr ∧ f.addr + 16 ≤ area.high := by
  induction fs generalizing sp with
  | nil => cases hf
  | cons g fs ih =>
    obtain ⟨-, haddr, -, -, htop, hrest⟩ := h
    rcases List.mem_cons.1 hf with rfl | hf
    · have hhigh := (bounds_of_placed hrest).2.1
      exact ⟨haddr, by omega⟩
    · have hf := ih hrest hf
      exact ⟨by omega, hf.2⟩

theorem linked_update {addr : Nat} {r : Record} (hfree : ∀ f ∈ fs, f.addr ≠ addr)
    (h : Linked cell fs fp) : Linked (Function.update cell addr r) fs fp := by
  induction fs generalizing fp with
  | nil => exact h
  | cons f fs ih =>
    obtain ⟨rfl, hlr, hrest⟩ := h
    have hcell : Function.update cell addr r f.addr = cell f.addr :=
      Function.update_of_ne (hfree f List.mem_cons_self) _ _
    refine ⟨rfl, by rw [hcell, hlr], ?_⟩
    rw [hcell]
    exact ih (fun g hg => hfree g (List.mem_cons_of_mem _ hg)) hrest

theorem linked_push {addr lr top : Nat} (hfree : ∀ f ∈ fs, f.addr ≠ addr) (h : Linked cell fs fp) :
    Linked (Function.update cell addr ⟨fp, lr⟩) (⟨addr, lr, top⟩ :: fs) addr := by
  refine ⟨rfl, by rw [Function.update_self], ?_⟩
  rw [Function.update_self]
  exact linked_update hfree h

theorem linked_tail {f : Frame} (h : Linked cell (f :: fs) fp) : Linked cell fs (cell fp).fp :=
  h.2.2

theorem intact_start (hhigh : thread.high % 16 = 0) (hlow : thread.low ≤ thread.high)
    (cell : Nat → Record) : Intact thread altstack (start thread cell) :=
  ⟨rfl, ⟨hlow, Nat.le_refl _, hhigh⟩, fun h => absurd rfl h⟩

/-! ### What a step keeps -/

theorem ne_of_placed {addr : Nat} (h : Placed area fs sp) (hlt : addr < sp) :
    ∀ f ∈ fs, f.addr ≠ addr := by
  intro f hf heq
  have hle := (addr_of_placed h hf).1
  omega

theorem ne_of_outside {addr : Nat} (h : Placed area fs sp)
    (hout : addr + 16 ≤ area.low ∨ area.high ≤ addr) : ∀ f ∈ fs, f.addr ≠ addr := by
  intro f hf heq
  have hlow := (bounds_of_placed h).1
  have hbounds := addr_of_placed h hf
  omega

theorem placed_push {size offset lr : Nat} (h : Placed area fs sp) (hsize : size % 16 = 0)
    (hoffset : offset % 16 = 0) (hfits : offset + 16 ≤ size) (hroom : area.low + size ≤ sp) :
    Placed area (⟨sp - size + offset, lr, sp⟩ :: fs) (sp - size) := by
  have halign := (bounds_of_placed h).2.2
  refine ⟨by omega, ?_, ?_, by omega, ?_, h⟩
  · show sp - size ≤ sp - size + offset
    omega
  · show (sp - size + offset) % 16 = 0
    omega
  · show sp - size + offset + 16 ≤ sp
    omega

section Step

variable (hdisjoint : thread.high ≤ altstack.low ∨ altstack.high ≤ thread.low)

include hdisjoint

theorem intact_call {lr size offset : Nat} (h : Intact thread altstack m)
    (hstep : step thread altstack m (.call lr size offset) = some m') :
    Intact thread altstack m' := by
  obtain ⟨⟨hsize, hoffset, hfits, hroom⟩, rfl⟩ := by simpa [step] using hstep
  obtain ⟨hlinked, hcalls, hhandler⟩ := h
  unfold Machine.area at hroom
  by_cases hon : m.handler = []
  · rw [if_pos hon] at hroom hcalls
    rw [hon] at hlinked
    have hfree : ∀ f ∈ m.calls, f.addr ≠ m.sp - size + offset := ne_of_placed hcalls (by omega)
    refine ⟨?_, ?_, ?_⟩
    · simpa [Machine.push, hon] using linked_push hfree hlinked
    · simpa [Machine.push, hon] using placed_push hcalls hsize hoffset hfits hroom
    · simp [Machine.push, hon]
  · rw [if_neg hon] at hroom hcalls
    have hplaced := hhandler hon
    have hbounds := bounds_of_placed hplaced
    have hfree : ∀ f ∈ m.handler ++ m.calls, f.addr ≠ m.sp - size + offset := by
      intro f hf
      rcases List.mem_append.1 hf with hf | hf
      · exact ne_of_placed hplaced (by omega) f hf
      · exact ne_of_outside hcalls (by omega) f hf
    refine ⟨?_, ?_, fun _ => ?_⟩
    · simpa [Machine.push, hon] using linked_push hfree hlinked
    · simpa [Machine.push, hon] using hcalls
    · simpa [Machine.push, hon] using placed_push hplaced hsize hoffset hfits hroom

theorem intact_signal {addr lr : Nat} (h : Intact thread altstack m)
    (hstep : step thread altstack m (.signal addr lr) = some m') : Intact thread altstack m' := by
  obtain ⟨⟨hon, halign, hlow, hhigh⟩, rfl⟩ := by simpa [step] using hstep
  obtain ⟨hlinked, hcalls, -⟩ := h
  rw [if_pos hon] at hcalls
  rw [hon] at hlinked
  have hfree : ∀ f ∈ m.calls, f.addr ≠ addr := ne_of_outside hcalls (by omega)
  have hend : altstack.low ≤ addr + 16 ∧ addr + 16 ≤ altstack.high ∧ (addr + 16) % 16 = 0 :=
    ⟨by omega, hhigh, by omega⟩
  refine ⟨linked_push hfree hlinked, hcalls, fun _ => ?_⟩
  exact ⟨hlow, Nat.le_refl _, halign, halign, Nat.le_refl _, hend⟩

omit hdisjoint

theorem intact_ret (h : Intact thread altstack m)
    (hstep : step thread altstack m .ret = some m') : Intact thread altstack m' := by
  obtain ⟨hlinked, hcalls, hhandler⟩ := h
  unfold step at hstep
  cases hon : m.handler with
  | nil =>
    cases hframes : m.calls with
    | nil => simp [hon, hframes] at hstep
    | cons f calls =>
      simp only [hon, hframes] at hstep hlinked hcalls
      cases hstep
      exact ⟨linked_tail hlinked, hcalls.2.2.2.2.2, fun h => absurd rfl h⟩
  | cons f handler =>
    cases handler with
    | nil => simp [hon] at hstep
    | cons g handler =>
      simp only [hon] at hstep hlinked hcalls hhandler
      cases hstep
      have hplaced := hhandler (List.cons_ne_nil _ _)
      exact ⟨linked_tail hlinked, hcalls, fun _ => hplaced.2.2.2.2.2⟩

theorem intact_sigreturn (h : Intact thread altstack m)
    (hstep : step thread altstack m .sigreturn = some m') : Intact thread altstack m' := by
  obtain ⟨hlinked, hcalls, -⟩ := h
  unfold step at hstep
  match hon : m.handler with
  | [f] =>
    simp only [hon] at hstep hlinked hcalls
    cases hstep
    exact ⟨linked_tail hlinked, hcalls, fun h => absurd rfl h⟩
  | [] => simp [hon] at hstep
  | _ :: _ :: _ => simp [hon] at hstep

theorem intact_store {addr : Nat} {r : Record} (h : Intact thread altstack m)
    (hstep : step thread altstack m (.store addr r) = some m') : Intact thread altstack m' := by
  simp only [step] at hstep
  split_ifs at hstep with hfree
  cases hstep
  exact ⟨linked_update hfree h.linked, h.calls, h.handler⟩

include hdisjoint

theorem intact_step (h : Intact thread altstack m) (hstep : step thread altstack m e = some m') :
    Intact thread altstack m' := by
  cases e with
  | call lr size offset => exact intact_call hdisjoint h hstep
  | ret => exact intact_ret h hstep
  | store addr r => exact intact_store h hstep
  | signal addr lr => exact intact_signal hdisjoint h hstep
  | sigreturn => exact intact_sigreturn h hstep

theorem intact_run {es : List Event} (h : Intact thread altstack m)
    (hrun : run (step thread altstack) m es = some m') : Intact thread altstack m' :=
  run_invariant' (fun _ _ _ hm hstep => intact_step hdisjoint hm hstep) h hrun

end Step

end ElfHook.Lib.CallStack

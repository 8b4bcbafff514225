import Mathlib.Data.List.Chain
import ElfHook.Lib.CallStack

/-!
# Unwinding by frame pointers

`xu_fp_unwind` of `xu_fp_arm64.c`, without the search for system calls that the configuration
leaves out. A `Process` is what it finds: the record at each address, and the areas of the stacks.

* `unwind_safe`: after the first, each record read is aligned, on the stack and above the one
  before, whatever the memory holds.
* `unwind_calls`: the frames are the call sites of the calls under way, the innermost first.
* `unwind_context`: those of the interrupted calls, for a signal handler that passes its context.
-/

namespace ElfHook.Xunwind

open Lib.CallStack

/-- `signal` is the alternate stack when the thread runs on it, `frame_address` the frame pointer of
`xu_fp_unwind` itself. -/
structure Process where
  record : Nat → Record
  sigreturn_addr : Nat
  signal : Option Area
  thread : Area
  frame_address : Nat

/-- The signal context, where the caller passes one. -/
structure Context where
  pc : Nat
  fp : Nat

/-- The values of `uintptr_t`. -/
def UINTPTR_SIZE : Nat := 0x10000000000000000

/-- Clears the bits of the pointer authentication. -/
def clearPac (addr : Nat) : Nat := addr &&& 0x7FFFFFFFFF

def xu_fp_append_frame (frames_cap : Nat) (frames : List Nat) (addr : Nat) : List Nat × Bool :=
  if frames.length ≥ frames_cap then (frames, false)
  else (frames ++ [clearPac addr], decide (frames.length + 1 < frames_cap))

variable (p : Process) (frames_cap : Nat)

def Process.xu_fp_is_sigreturn (addr : Nat) : Bool := p.sigreturn_addr = addr

def Process.leavesSignal (on_signal : Bool) (prev_fp : Nat) : Bool :=
  match p.signal with
  | some area => on_signal && decide (prev_fp < area.low ∨ area.high ≤ prev_fp)
  | none => false

def Process.stack (on_signal : Bool) : Area :=
  if on_signal then p.signal.getD p.thread else p.thread

/-- What a record stands for: the call before the return address, or the return from a signal. -/
def Process.site (on_signal : Bool) (lr : Nat) : Nat :=
  if on_signal ∧ p.xu_fp_is_sigreturn lr then lr else if lr < 4 then 0 else lr - 4

/-- One round of the loop: the frames, and where it goes on. -/
def walkRound (cur_fp : Nat) (on_signal : Bool) (frames : List Nat) :
    List Nat × Option (Nat × Bool) :=
  let record := p.record cur_fp
  let appended := xu_fp_append_frame frames_cap frames (p.site on_signal record.lr)
  if ¬ appended.2 then (appended.1, none)
  else if record.fp % 16 ≠ 0 then (appended.1, none)
  else
    let leaves := p.leavesSignal on_signal record.fp
    if ¬ leaves ∧ record.fp < (cur_fp + 16) % UINTPTR_SIZE then (appended.1, none)
    else
      -- from the signal stack to the thread's, at most once
      let on_signal := on_signal && ! leaves
      if record.fp < (p.stack on_signal).low ∨ (p.stack on_signal).high ≤ record.fp then
        (appended.1, none)
      else (appended.1, some (record.fp, on_signal))

/-- The loop, for at most so many rounds. -/
def walk : Nat → Nat → Bool → List Nat → List Nat
  | 0, _, _, frames => frames
  | rounds + 1, cur_fp, on_signal, frames =>
    match walkRound p frames_cap cur_fp on_signal frames with
    | (frames, none) => frames
    | (frames, some (prev_fp, on_signal)) => walk rounds prev_fp on_signal frames

/-- The first frame pointer, and the frames so far: the program counter of the context. -/
def beginWalk : Option Context → Nat × (List Nat × Bool)
  | none => (p.frame_address, ([], true))
  | some mc => (mc.fp, xu_fp_append_frame frames_cap [] mc.pc)

/-- Each round stores a frame, so that there are no more than `frames_cap`. -/
def xu_fp_unwind (context : Option Context) : List Nat :=
  if frames_cap = 0 then []
  else
    let begun := beginWalk p frames_cap context
    if ¬ begun.2.2 then begun.2.1
    else walk p frames_cap frames_cap begun.1 p.signal.isSome begun.2.1

/-- The records that the loop reads, and on which stack it then is. -/
def reads : Nat → Nat → Bool → List Nat → List (Nat × Bool)
  | 0, _, _, _ => []
  | rounds + 1, cur_fp, on_signal, frames =>
    (cur_fp, on_signal) ::
      match walkRound p frames_cap cur_fp on_signal frames with
      | (_, none) => []
      | (frames, some (prev_fp, on_signal)) => reads rounds prev_fp on_signal frames

def unwindReads (context : Option Context) : List (Nat × Bool) :=
  if frames_cap = 0 then []
  else
    let begun := beginWalk p frames_cap context
    if ¬ begun.2.2 then []
    else reads p frames_cap frames_cap begun.1 p.signal.isSome begun.2.1

variable {p frames_cap} {cur_fp prev_fp rounds n : Nat} {on_signal on_signal' : Bool}
  {frames frames' : List Nat}

/-! ### Rounds -/

theorem append_frame_fst (addr : Nat) (h : frames.length < frames_cap) :
    (xu_fp_append_frame frames_cap frames addr).1 = frames ++ [clearPac addr] := by
  rw [xu_fp_append_frame, if_neg (Nat.not_le.2 h)]

theorem append_frame_snd (addr : Nat) :
    (xu_fp_append_frame frames_cap frames addr).2 = decide (frames.length + 1 < frames_cap) := by
  unfold xu_fp_append_frame
  split_ifs with hfull
  · simp
    omega
  · rfl

/-- The frames after a round. -/
theorem walkRound_fst :
    (walkRound p frames_cap cur_fp on_signal frames).1 =
      (xu_fp_append_frame frames_cap frames (p.site on_signal (p.record cur_fp).lr)).1 := by
  unfold walkRound
  dsimp only
  split_ifs <;> rfl

/-- Where a round goes on, if it does. -/
theorem walkRound_snd :
    (walkRound p frames_cap cur_fp on_signal frames).2 = some (prev_fp, on_signal') ↔
      frames.length + 1 < frames_cap ∧ prev_fp = (p.record cur_fp).fp ∧ prev_fp % 16 = 0 ∧
        on_signal' = (on_signal && ! p.leavesSignal on_signal prev_fp) ∧
        (p.leavesSignal on_signal prev_fp = true ∨ (cur_fp + 16) % UINTPTR_SIZE ≤ prev_fp) ∧
        (p.stack on_signal').low ≤ prev_fp ∧ prev_fp < (p.stack on_signal').high := by
  unfold walkRound
  simp only [append_frame_snd]
  constructor
  · intro h
    split_ifs at h with hroom halign hback hout
    obtain ⟨rfl, rfl⟩ : (p.record cur_fp).fp = prev_fp ∧ _ = on_signal' := by
      simpa using h
    refine ⟨by simpa using hroom, rfl, by simpa using halign, rfl, ?_, ?_⟩
    · rcases not_and_or.1 hback with hleaves | hle
      · exact .inl (not_not.1 hleaves)
      · exact .inr (Nat.not_lt.1 hle)
    · exact ⟨Nat.not_lt.1 fun h => hout (.inl h), Nat.not_le.1 fun h => hout (.inr h)⟩
  · rintro ⟨hroom, rfl, halign, rfl, hback, hlow, hhigh⟩
    rw [if_neg (by simpa using hroom), if_neg (by simpa using halign), if_neg, if_neg]
    · exact fun hout => hout.elim (Nat.not_lt.2 hlow) (Nat.not_le.2 hhigh)
    · exact fun h => hback.elim h.1 (Nat.not_le.2 h.2)

/-- A round that goes on has stored a frame, and there is room for another. -/
theorem walk_succ (rounds : Nat) (h : frames.length < frames_cap) :
    walk p frames_cap (rounds + 1) cur_fp on_signal frames =
      let frames' := frames ++ [clearPac (p.site on_signal (p.record cur_fp).lr)]
      match (walkRound p frames_cap cur_fp on_signal frames).2 with
      | none => frames'
      | some (prev_fp, on_signal) => walk p frames_cap rounds prev_fp on_signal frames' := by
  have hfst : (walkRound p frames_cap cur_fp on_signal frames).1 =
      frames ++ [clearPac (p.site on_signal (p.record cur_fp).lr)] :=
    walkRound_fst.trans (append_frame_fst _ h)
  rw [walk]
  cases hround : walkRound p frames_cap cur_fp on_signal frames with
  | mk frames' next =>
    rw [hround] at hfst
    dsimp only at hfst ⊢
    rw [hfst]
    cases next <;> rfl

/-! ### What the loop reads -/

theorem walk_full (h : frames_cap ≤ frames.length) :
    walk p frames_cap rounds cur_fp on_signal frames = frames := by
  cases rounds with
  | zero => rfl
  | succ rounds => simp [walk, walkRound, xu_fp_append_frame, h]

/-- More rounds change nothing: the loop ends by itself. -/
theorem walk_of_le (h : frames_cap ≤ frames.length + rounds) (hle : rounds ≤ n) :
    walk p frames_cap n cur_fp on_signal frames =
      walk p frames_cap rounds cur_fp on_signal frames := by
  induction rounds generalizing n cur_fp on_signal frames with
  | zero => exact walk_full h
  | succ rounds ih =>
    obtain ⟨n, rfl⟩ : ∃ k, n = k + 1 := ⟨n - 1, by omega⟩
    rcases Nat.lt_or_ge frames.length frames_cap with hroom | hfull
    swap
    · rw [walk_full hfull, walk_full hfull]
    rw [walk_succ n hroom, walk_succ rounds hroom]
    dsimp only
    cases hnext : (walkRound p frames_cap cur_fp on_signal frames).2 with
    | none => rfl
    | some next =>
      obtain ⟨prev_fp, on_signal'⟩ := next
      apply ih
      · rw [List.length_append, List.length_singleton]
        omega
      · omega

/-- The frames are addresses, and there are no more than asked for. -/
theorem walk_frames (hle : frames.length ≤ frames_cap) (hpac : ∀ a ∈ frames, a ≤ 0x7FFFFFFFFF) :
    (walk p frames_cap rounds cur_fp on_signal frames).length ≤ frames_cap ∧
      ∀ a ∈ walk p frames_cap rounds cur_fp on_signal frames, a ≤ 0x7FFFFFFFFF := by
  induction rounds generalizing cur_fp on_signal frames with
  | zero => exact ⟨hle, hpac⟩
  | succ rounds ih =>
    have hround : (walkRound p frames_cap cur_fp on_signal frames).1.length ≤ frames_cap ∧
        ∀ a ∈ (walkRound p frames_cap cur_fp on_signal frames).1, a ≤ 0x7FFFFFFFFF := by
      rw [walkRound_fst, xu_fp_append_frame]
      split_ifs with hfull
      · exact ⟨hle, hpac⟩
      · refine ⟨?_, fun a ha => ?_⟩
        · rw [List.length_append, List.length_singleton]
          omega
        · rcases List.mem_append.1 ha with ha | ha
          · exact hpac a ha
          · rw [List.mem_singleton.1 ha]
            exact Nat.and_le_right
    rw [walk]
    cases hnext : walkRound p frames_cap cur_fp on_signal frames with
    | mk frames' next =>
      rw [hnext] at hround
      cases next with
      | none => exact hround
      | some next => exact ih hround.1 hround.2

/-- The record read after another: aligned, on the stack, and above that one, unless the loop has
gone over from the signal stack to the thread's. -/
def Follows (p : Process) (a b : Nat × Bool) : Prop :=
  b.1 % 16 = 0 ∧ (p.stack b.2).low ≤ b.1 ∧ b.1 < (p.stack b.2).high ∧
    (a.2 = b.2 ∧ a.1 + 16 ≤ b.1 ∨ a.2 = true ∧ b.2 = false)

theorem follows_of_round (hsize : cur_fp + 16 < UINTPTR_SIZE)
    (h : (walkRound p frames_cap cur_fp on_signal frames).2 = some (prev_fp, on_signal')) :
    Follows p (cur_fp, on_signal) (prev_fp, on_signal') := by
  obtain ⟨-, -, halign, hon, hback, hlow, hhigh⟩ := walkRound_snd.1 h
  refine ⟨halign, hlow, hhigh, ?_⟩
  cases hleaves : p.leavesSignal on_signal prev_fp with
  | true =>
    rw [hleaves] at hon
    have hsignal : on_signal = true := by
      unfold Process.leavesSignal at hleaves
      cases hs : p.signal with
      | none => simp [hs] at hleaves
      | some area =>
        simp only [hs, Bool.and_eq_true] at hleaves
        exact hleaves.1
    exact .inr ⟨hsignal, by simpa using hon⟩
  | false =>
    rw [hleaves] at hon hback
    have hup := hback.resolve_left Bool.false_ne_true
    rw [Nat.mod_eq_of_lt hsize] at hup
    exact .inl ⟨by simpa using hon.symm, hup⟩

theorem head?_reads :
    ∀ r ∈ (reads p frames_cap rounds cur_fp on_signal frames).head?, r = (cur_fp, on_signal) := by
  cases rounds with
  | zero => simp [reads]
  | succ rounds =>
    intro r hr
    exact (Option.some.inj hr).symm

theorem length_reads :
    (reads p frames_cap rounds cur_fp on_signal frames).length ≤ rounds := by
  induction rounds generalizing cur_fp on_signal frames with
  | zero => exact Nat.le_refl 0
  | succ rounds ih =>
    rw [reads, List.length_cons]
    apply Nat.succ_le_succ
    split
    · exact Nat.zero_le _
    · exact ih

/-- Stacks end below the end of the address space. -/
structure Process.InSpace (p : Process) : Prop where
  thread : p.thread.high + 16 ≤ UINTPTR_SIZE
  signal : ∀ area ∈ p.signal, area.high + 16 ≤ UINTPTR_SIZE

theorem Process.InSpace.stack (h : p.InSpace) (on_signal : Bool) :
    (p.stack on_signal).high + 16 ≤ UINTPTR_SIZE := by
  unfold Process.stack
  split_ifs
  · cases hs : p.signal with
    | none => exact h.thread
    | some area => exact h.signal area hs
  · exact h.thread

theorem chain_reads (h : p.InSpace) (hsize : cur_fp + 16 < UINTPTR_SIZE) :
    (reads p frames_cap rounds cur_fp on_signal frames).IsChain (Follows p) := by
  induction rounds generalizing cur_fp on_signal frames with
  | zero => exact .nil
  | succ rounds ih =>
    rw [reads]
    cases hround : walkRound p frames_cap cur_fp on_signal frames with
    | mk frames' next =>
      cases next with
      | none => exact .singleton _
      | some next =>
        obtain ⟨prev_fp, on_signal'⟩ := next
        have hsnd : (walkRound p frames_cap cur_fp on_signal frames).2 =
            some (prev_fp, on_signal') := by rw [hround]
        have hfollows := follows_of_round hsize hsnd
        have hspace := h.stack on_signal'
        have hlt : prev_fp < (p.stack on_signal').high := hfollows.2.2.1
        refine List.isChain_cons.2 ⟨fun r hr => ?_, ih (by omega)⟩
        rw [head?_reads r hr]
        exact hfollows

/-- Whatever the memory holds, `xu_fp_unwind` stores at most as many frames as there is room for,
each an address, and reads at most so many records: after the first, at the frame pointer it is
given, each of them follows the one before. Its loop ends by itself. -/
theorem unwind_safe (p : Process) (frames_cap : Nat) (context : Option Context) (h : p.InSpace)
    (hbegin : (beginWalk p frames_cap context).1 + 16 < UINTPTR_SIZE) :
    (xu_fp_unwind p frames_cap context).length ≤ frames_cap ∧
      (∀ a ∈ xu_fp_unwind p frames_cap context, a ≤ 0x7FFFFFFFFF) ∧
      (unwindReads p frames_cap context).length ≤ frames_cap ∧
      (unwindReads p frames_cap context).IsChain (Follows p) ∧
      ∀ rounds ≥ frames_cap, let begun := beginWalk p frames_cap context
        walk p frames_cap rounds begun.1 p.signal.isSome begun.2.1 =
          walk p frames_cap frames_cap begun.1 p.signal.isSome begun.2.1 := by
  have hbegun : (beginWalk p frames_cap context).2.1.length ≤ frames_cap ∧
      ∀ a ∈ (beginWalk p frames_cap context).2.1, a ≤ 0x7FFFFFFFFF := by
    cases context with
    | none => exact ⟨Nat.zero_le _, fun a ha => by cases ha⟩
    | some mc =>
      simp only [beginWalk, xu_fp_append_frame]
      split_ifs with hfull
      · exact ⟨Nat.zero_le _, fun a ha => by cases ha⟩
      · refine ⟨Nat.not_le.1 hfull, fun a ha => ?_⟩
        rw [List.nil_append, List.mem_singleton] at ha
        rw [ha]
        exact Nat.and_le_right
  simp only [← and_assoc]
  refine ⟨?_, fun rounds hrounds => walk_of_le (Nat.le_add_left _ _) hrounds⟩
  simp only [and_assoc]
  unfold xu_fp_unwind unwindReads
  dsimp only
  split_ifs with hcap hroom
  · exact ⟨Nat.zero_le _, fun a ha => (List.not_mem_nil ha).elim, Nat.zero_le _, .nil⟩
  · exact ⟨(walk_frames hbegun.1 hbegun.2).1, (walk_frames hbegun.1 hbegun.2).2, length_reads,
      chain_reads h hbegin⟩
  · exact ⟨hbegun.1, hbegun.2, Nat.zero_le _, .nil⟩

/-- Records that link upwards for ever, on a small stack. -/
def upwards : Process where
  record a := ⟨a + 0x20, 0x4000⟩
  sigreturn_addr := 0x5000
  signal := none
  thread := ⟨0x10000, 0x10080⟩
  frame_address := 0x10000

theorem unwind_safe_upwards : (xu_fp_unwind upwards 8 none).length ≤ 8 ∧
    (∀ a ∈ xu_fp_unwind upwards 8 none, a ≤ 0x7FFFFFFFFF) ∧
    (unwindReads upwards 8 none).length ≤ 8 ∧
    (unwindReads upwards 8 none).IsChain (Follows upwards) ∧
    ∀ rounds ≥ 8, let begun := beginWalk upwards 8 none
      walk upwards 8 rounds begun.1 upwards.signal.isSome begun.2.1 =
        walk upwards 8 8 begun.1 upwards.signal.isSome begun.2.1 :=
  unwind_safe upwards 8 none ⟨by decide, fun area h => by cases h⟩ (by decide)

/-! ### Calls under way -/

section Calls

variable {fs gs : List Frame} {area : Area} {fp sp sp' : Nat}

def siteOf (p : Process) (on_signal : Bool) (f : Frame) : Nat := clearPac (p.site on_signal f.lr)

theorem take_cons_of_lt {x : Nat} {l : List Nat} (h : n < frames_cap) :
    (x :: l).take (frames_cap - n) = x :: l.take (frames_cap - (n + 1)) := by
  obtain ⟨k, hk⟩ : ∃ k, frames_cap - n = k + 1 := ⟨frames_cap - n - 1, by omega⟩
  have hk' : frames_cap - (n + 1) = k := by omega
  rw [hk, hk', List.take_succ_cons]

/-- A round that stores the last frame there is room for, or finds no record after its own. -/
theorem walk_last {x : Nat} {l : List Nat} (h : frames.length < frames_cap)
    (hsite : clearPac (p.site on_signal (p.record cur_fp).lr) = x)
    (hrest : l.take (frames_cap - (frames.length + 1)) = [])
    (hnext : (walkRound p frames_cap cur_fp on_signal frames).2 = none) :
    walk p frames_cap (rounds + 1) cur_fp on_signal frames =
      frames ++ (x :: l).take (frames_cap - frames.length) := by
  rw [walk_succ rounds h, hnext, take_cons_of_lt h, hrest, hsite]

theorem walk_more {x : Nat} {l : List Nat} (h : frames.length < frames_cap)
    (hsite : clearPac (p.site on_signal (p.record cur_fp).lr) = x)
    (hnext : (walkRound p frames_cap cur_fp on_signal frames).2 = some (prev_fp, on_signal'))
    (hwalk : walk p frames_cap rounds prev_fp on_signal' (frames ++ [x]) =
      frames ++ [x] ++ l.take (frames_cap - (frames ++ [x]).length)) :
    walk p frames_cap (rounds + 1) cur_fp on_signal frames =
      frames ++ (x :: l).take (frames_cap - frames.length) := by
  rw [walk_succ rounds h, hnext, hsite, take_cons_of_lt h]
  dsimp only
  rw [hwalk, List.length_append, List.length_singleton, List.append_assoc, List.singleton_append]

theorem walkRound_full (h : ¬ frames.length + 1 < frames_cap) :
    (walkRound p frames_cap cur_fp on_signal frames).2 = none := by
  cases hnext : (walkRound p frames_cap cur_fp on_signal frames).2 with
  | none => rfl
  | some next => exact absurd (walkRound_snd.1 hnext).1 h

theorem walkRound_zero (hzero : (p.record cur_fp).fp = 0)
    (hlow : ∀ on_signal, 0 < (p.stack on_signal).low) :
    (walkRound p frames_cap cur_fp on_signal frames).2 = none := by
  cases hnext : (walkRound p frames_cap cur_fp on_signal frames).2 with
  | none => rfl
  | some next =>
    obtain ⟨-, hprev, -, -, -, hle, -⟩ := walkRound_snd.1 hnext
    have hpos := hlow next.2
    omega

/-- On the thread's stack. -/
theorem walk_calls (hlinked : Linked p.record fs fp) (hplaced : Placed p.thread fs sp)
    (hne : fs ≠ []) (hlow : ∀ on_signal, 0 < (p.stack on_signal).low)
    (hhigh : p.thread.high < UINTPTR_SIZE) (hroom : frames.length < frames_cap)
    (hrounds : frames_cap ≤ frames.length + rounds) :
    walk p frames_cap rounds fp false frames =
      frames ++ (fs.map (siteOf p false)).take (frames_cap - frames.length) := by
  induction fs generalizing fp sp frames rounds with
  | nil => exact absurd rfl hne
  | cons f fs ih =>
    obtain ⟨rounds, rfl⟩ : ∃ k, rounds = k + 1 := ⟨rounds - 1, by omega⟩
    obtain ⟨rfl, hlr, hrest⟩ := hlinked
    obtain ⟨-, haddr, halign, -, htop, habove⟩ := hplaced
    have hsite : clearPac (p.site false (p.record f.addr).lr) = siteOf p false f := by
      rw [hlr, siteOf]
    rw [List.map_cons]
    cases fs with
    | nil => exact walk_last hroom hsite List.take_nil (walkRound_zero hrest hlow)
    | cons g fs =>
      by_cases hmore : frames.length + 1 < frames_cap
      · have hg := addr_of_placed habove List.mem_cons_self
        have hbounds := bounds_of_placed habove
        have hprev : (p.record f.addr).fp = g.addr := hrest.1
        have hmod : (f.addr + 16) % UINTPTR_SIZE = f.addr + 16 := Nat.mod_eq_of_lt (by omega)
        have hnext : (walkRound p frames_cap f.addr false frames).2 =
            some ((p.record f.addr).fp, false) := by
          refine walkRound_snd.2 ⟨hmore, rfl, ?_, ?_, .inr ?_, ?_, ?_⟩
          · rw [hprev]
            exact habove.2.2.1
          · rw [Bool.false_and]
          · rw [hmod, hprev]
            omega
          · rw [hprev]
            exact Nat.le_trans hbounds.1 hg.1
          · rw [hprev]
            exact Nat.lt_of_lt_of_le (Nat.lt_add_of_pos_right (by decide)) hg.2
        refine walk_more hroom hsite hnext ?_
        apply ih hrest habove (List.cons_ne_nil _ _)
        · rwa [List.length_append, List.length_singleton]
        · rw [List.length_append, List.length_singleton]
          omega
      · refine walk_last hroom hsite ?_ (walkRound_full hmore)
        rw [Nat.sub_eq_zero_of_le (Nat.not_lt.1 hmore), List.take_zero]

/-- From the signal stack over to a record on the thread's. -/
theorem walkRound_over {g : Frame} (hsignal : p.signal = some area)
    (hdisjoint : p.thread.high ≤ area.low ∨ area.high ≤ p.thread.low)
    (hmore : frames.length + 1 < frames_cap) (hcalls : Placed p.thread (g :: gs) sp')
    (hprev : (p.record cur_fp).fp = g.addr) :
    (walkRound p frames_cap cur_fp true frames).2 = some ((p.record cur_fp).fp, false) := by
  have hg := addr_of_placed hcalls List.mem_cons_self
  have hthread := bounds_of_placed hcalls
  have hleaves : p.leavesSignal true (p.record cur_fp).fp = true := by
    rw [hprev]
    unfold Process.leavesSignal
    rw [hsignal]
    simp only [Bool.true_and, decide_eq_true_eq]
    omega
  refine walkRound_snd.2 ⟨hmore, rfl, ?_, ?_, .inl hleaves, ?_, ?_⟩
  · rw [hprev]
    exact hcalls.2.2.1
  · rw [hleaves]
    rfl
  · rw [hprev]
    exact Nat.le_trans hthread.1 hg.1
  · rw [hprev]
    exact Nat.lt_of_lt_of_le (Nat.lt_add_of_pos_right (by decide)) hg.2

/-- From the context that a signal came in: the first record is on the thread's stack already. -/
theorem walk_interrupted {g : Frame} (hsignal : p.signal = some area)
    (hdisjoint : p.thread.high ≤ area.low ∨ area.high ≤ p.thread.low)
    (hlinked : Linked p.record (g :: gs) fp) (hcalls : Placed p.thread (g :: gs) sp')
    (hlr : g.lr ≠ p.sigreturn_addr) (hlow : ∀ on_signal, 0 < (p.stack on_signal).low)
    (hspace : p.InSpace) (hroom : frames.length < frames_cap)
    (hrounds : frames_cap ≤ frames.length + rounds) :
    walk p frames_cap rounds fp true frames =
      frames ++ ((g :: gs).map (siteOf p false)).take (frames_cap - frames.length) := by
  obtain ⟨rounds, rfl⟩ : ∃ k, rounds = k + 1 := ⟨rounds - 1, by omega⟩
  obtain ⟨rfl, hrecord, hrest⟩ := hlinked
  have habove := hcalls.2.2.2.2.2
  have hspaceThread := hspace.thread
  have hsite : clearPac (p.site true (p.record g.addr).lr) = siteOf p false g := by
    have hnot : p.xu_fp_is_sigreturn g.lr = false := by
      simpa [Process.xu_fp_is_sigreturn] using hlr.symm
    rw [hrecord, siteOf, Process.site, Process.site, hnot]
    simp
  rw [List.map_cons]
  by_cases hmore : frames.length + 1 < frames_cap
  · cases gs with
    | nil => exact walk_last hroom hsite List.take_nil (walkRound_zero hrest hlow)
    | cons g' gs =>
      have hnext := walkRound_over hsignal hdisjoint hmore habove hrest.1
      refine walk_more hroom hsite hnext ?_
      apply walk_calls hrest habove (List.cons_ne_nil _ _) hlow (by omega)
      · rwa [List.length_append, List.length_singleton]
      · rw [List.length_append, List.length_singleton]
        omega
  · refine walk_last hroom hsite ?_ (walkRound_full hmore)
    rw [Nat.sub_eq_zero_of_le (Nat.not_lt.1 hmore), List.take_zero]

/-- From the signal stack down to the interrupted calls. -/
theorem walk_handler (hsignal : p.signal = some area)
    (hdisjoint : p.thread.high ≤ area.low ∨ area.high ≤ p.thread.low)
    (hlinked : Linked p.record (fs ++ gs) fp) (hplaced : Placed area fs sp)
    (hcalls : Placed p.thread gs sp') (hne : fs ≠ [])
    (hlow : ∀ on_signal, 0 < (p.stack on_signal).low) (hspace : p.InSpace)
    (hroom : frames.length < frames_cap) (hrounds : frames_cap ≤ frames.length + rounds) :
    walk p frames_cap rounds fp true frames =
      frames ++ (fs.map (siteOf p true) ++ gs.map (siteOf p false)).take
        (frames_cap - frames.length) := by
  have hstack : p.stack true = area := by
    rw [Process.stack, if_pos rfl, hsignal, Option.getD_some]
  have hspaceSignal := hspace.signal area hsignal
  have hspaceThread := hspace.thread
  induction fs generalizing fp sp frames rounds with
  | nil => exact absurd rfl hne
  | cons f fs ih =>
    obtain ⟨rounds, rfl⟩ : ∃ k, rounds = k + 1 := ⟨rounds - 1, by omega⟩
    obtain ⟨rfl, hlr, hrest⟩ := hlinked
    obtain ⟨-, haddr, halign, -, htop, habove⟩ := hplaced
    have hbounds := bounds_of_placed habove
    have hsite : clearPac (p.site true (p.record f.addr).lr) = siteOf p true f := by
      rw [hlr, siteOf]
    rw [List.map_cons, List.cons_append]
    by_cases hmore : frames.length + 1 < frames_cap
    · cases fs with
      | nil =>
        cases gs with
        | nil => exact walk_last hroom hsite List.take_nil (walkRound_zero hrest hlow)
        | cons g gs =>
          -- the record that the kernel wrote
          have hnext := walkRound_over hsignal hdisjoint hmore hcalls hrest.1
          refine walk_more hroom hsite hnext ?_
          rw [List.map_nil, List.nil_append]
          apply walk_calls hrest hcalls (List.cons_ne_nil _ _) hlow (by omega)
          · rwa [List.length_append, List.length_singleton]
          · rw [List.length_append, List.length_singleton]
            omega
      | cons g fs =>
        have hg := addr_of_placed habove List.mem_cons_self
        have hprev : (p.record f.addr).fp = g.addr := hrest.1
        have hstays : p.leavesSignal true (p.record f.addr).fp = false := by
          rw [hprev]
          unfold Process.leavesSignal
          rw [hsignal]
          simp only [Bool.true_and, decide_eq_false_iff_not]
          omega
        have hmod : (f.addr + 16) % UINTPTR_SIZE = f.addr + 16 := Nat.mod_eq_of_lt (by omega)
        have hnext : (walkRound p frames_cap f.addr true frames).2 =
            some ((p.record f.addr).fp, true) := by
          refine walkRound_snd.2 ⟨hmore, rfl, ?_, ?_, .inr ?_, ?_, ?_⟩
          · rw [hprev]
            exact habove.2.2.1
          · rw [hstays]
            rfl
          · rw [hmod, hprev]
            omega
          · rw [hstack, hprev]
            exact Nat.le_trans hbounds.1 hg.1
          · rw [hstack, hprev]
            exact Nat.lt_of_lt_of_le (Nat.lt_add_of_pos_right (by decide)) hg.2
        refine walk_more hroom hsite hnext ?_
        apply ih hrest habove (List.cons_ne_nil _ _)
        · rwa [List.length_append, List.length_singleton]
        · rw [List.length_append, List.length_singleton]
          omega
    · refine walk_last hroom hsite ?_ (walkRound_full hmore)
      rw [Nat.sub_eq_zero_of_le (Nat.not_lt.1 hmore), List.take_zero]

end Calls

/-- Where the calls of the machine leave the stacks: `xu_fp_unwind` is the innermost of them. -/
def Process.of (thread altstack : Area) (sigreturn_addr : Nat) (m : Machine) : Process where
  record := m.cell
  sigreturn_addr := sigreturn_addr
  signal := if m.handler = [] then none else some altstack
  thread := thread
  frame_address := m.fp

/-- The stacks are two areas of the address space. -/
structure Stacks (thread altstack : Area) : Prop where
  ordered : thread.low ≤ thread.high
  aligned : thread.high % 16 = 0
  disjoint : thread.high ≤ altstack.low ∨ altstack.high ≤ thread.low
  low : 0 < thread.low ∧ 0 < altstack.low
  high : thread.high + 16 ≤ UINTPTR_SIZE ∧ altstack.high + 16 ≤ UINTPTR_SIZE

section Machine

variable {thread altstack : Area} (hstacks : Stacks thread altstack) {cell : Nat → Record}
  {es : List Event} {m : Machine} (sigreturn_addr : Nat)

include hstacks

theorem Stacks.low_of_machine (m : Machine) (on_signal : Bool) :
    0 < ((Process.of thread altstack sigreturn_addr m).stack on_signal).low := by
  unfold Process.stack
  split_ifs
  · by_cases hon : m.handler = []
    · simpa [Process.of, hon] using hstacks.low.1
    · simpa [Process.of, hon] using hstacks.low.2
  · exact hstacks.low.1

theorem Stacks.inSpace (m : Machine) :
    (Process.of thread altstack sigreturn_addr m).InSpace := by
  refine ⟨hstacks.high.1, fun area harea => ?_⟩
  by_cases hon : m.handler = []
  · simp [Process.of, hon] at harea
  · obtain rfl : altstack = area := by simpa [Process.of, hon] using harea
    exact hstacks.high.2

/-- In every run of calls with aligned records, returns, writes, signals and returns from them,
`xu_fp_unwind` finds the call sites of the calls under way, the innermost first, as far as there is
room. -/
theorem unwind_calls (hrun : Lib.run (step thread altstack) (start thread cell) es = some m)
    (hcalls : m.handler ++ m.calls ≠ []) (frames_cap : Nat) :
    let p := Process.of thread altstack sigreturn_addr m
    xu_fp_unwind p frames_cap none =
      (m.handler.map (siteOf p true) ++ m.calls.map (siteOf p false)).take frames_cap := by
  have hintact := intact_run hstacks.disjoint
    (intact_start hstacks.aligned hstacks.ordered cell) hrun
  intro p
  have hlow := hstacks.low_of_machine sigreturn_addr m
  have hspace := hstacks.inSpace sigreturn_addr m
  have hfp : p.frame_address = m.fp := rfl
  unfold xu_fp_unwind
  by_cases hcap : frames_cap = 0
  · rw [if_pos hcap, hcap, List.take_zero]
  have hroom : ([] : List Nat).length < frames_cap := Nat.pos_of_ne_zero hcap
  have hrounds : frames_cap ≤ ([] : List Nat).length + frames_cap := Nat.le_add_left _ _
  rw [if_neg hcap]
  by_cases hon : m.handler = []
  · have hplaced := hintact.calls
    rw [if_pos hon] at hplaced
    have hlinked := hintact.linked
    rw [hon, List.nil_append] at hlinked hcalls
    have hsignal : p.signal.isSome = false := by simp [p, Process.of, hon]
    have hwalk := walk_calls (p := p) hlinked hplaced hcalls hlow
      (Nat.lt_of_lt_of_le (Nat.lt_add_of_pos_right (by decide)) hstacks.high.1) hroom hrounds
    simpa [beginWalk, hfp, hsignal, hon] using hwalk
  · have hsignal : p.signal = some altstack := by simp [p, Process.of, hon]
    have hwalk := walk_handler (p := p) hsignal hstacks.disjoint hintact.linked
      (hintact.handler hon) hintact.calls hon hlow hspace hroom hrounds
    simpa [beginWalk, hfp, hsignal] using hwalk

omit hstacks

/-- Two calls, a signal in the second one, and its handler, which calls another function. -/
def interruptedRun : List Event :=
  [.call 0x4010 0x40 0, .call 0x4020 0x20 0x10, .signal 0x33000 0x4030, .call 0x5000 0x30 0,
    .call 0x4040 0x20 0]

theorem stacks_demo : Stacks ⟨0x10000, 0x20000⟩ ⟨0x30000, 0x34000⟩ :=
  ⟨by decide, by decide, .inl (by decide), by decide, by decide⟩

theorem interruptedRun_eq :
    ∃ m, Lib.run (step ⟨0x10000, 0x20000⟩ ⟨0x30000, 0x34000⟩)
        (start ⟨0x10000, 0x20000⟩ fun _ => ⟨0, 0⟩) interruptedRun = some m ∧
      m.handler = [⟨0x32fb0, 0x4040, 0x32fd0⟩, ⟨0x32fd0, 0x5000, 0x33000⟩] ++
        [⟨0x33000, 0x4030, 0x33010⟩] ∧
      m.calls = [⟨0x1ffb0, 0x4020, 0x1ffc0⟩, ⟨0x1ffc0, 0x4010, 0x20000⟩] :=
  ⟨_, rfl, rfl, rfl⟩

theorem unwind_calls_interrupted :
    ∃ m, Lib.run (step ⟨0x10000, 0x20000⟩ ⟨0x30000, 0x34000⟩)
        (start ⟨0x10000, 0x20000⟩ fun _ => ⟨0, 0⟩) interruptedRun = some m ∧
      xu_fp_unwind (Process.of ⟨0x10000, 0x20000⟩ ⟨0x30000, 0x34000⟩ 0x5000 m) 16 none =
        [0x403c, 0x5000, 0x402c, 0x401c, 0x400c] := by
  obtain ⟨m, hrun, hhandler, hcalls⟩ := interruptedRun_eq
  have hne : m.handler ++ m.calls ≠ [] := by
    rw [hhandler]
    exact List.cons_ne_nil _ _
  refine ⟨m, hrun, (unwind_calls stacks_demo 0x5000 hrun hne 16).trans ?_⟩
  rw [hhandler, hcalls]
  simp [siteOf, Process.site, Process.xu_fp_is_sigreturn, Process.of, clearPac]

/-- The frame pointer in the signal's context is the one that the kernel recorded. -/
theorem linked_interrupted {fs gs : List Frame} {k : Frame} {fp : Nat}
    (h : Linked cell (fs ++ k :: gs) fp) : Linked cell gs (cell k.addr).fp := by
  induction fs generalizing fp with
  | nil =>
    obtain ⟨rfl, -, hrest⟩ := h
    exact hrest
  | cons f fs ih => exact ih h.2.2

/-- From a signal handler, given the context that the signal came in: the program counter there, and
the call sites of the interrupted calls. -/
theorem unwind_context (hstacks : Stacks thread altstack)
    (hrun : Lib.run (step thread altstack) (start thread cell) es = some m)
    {handler : List Frame} {k g : Frame} {gs : List Frame} (hhandler : m.handler = handler ++ [k])
    (hcalls : m.calls = g :: gs) (hlr : g.lr ≠ sigreturn_addr) (pc frames_cap : Nat) :
    let p := Process.of thread altstack sigreturn_addr m
    xu_fp_unwind p frames_cap (some ⟨pc, (m.cell k.addr).fp⟩) =
      (clearPac pc :: m.calls.map (siteOf p false)).take frames_cap := by
  have hintact := intact_run hstacks.disjoint
    (intact_start hstacks.aligned hstacks.ordered cell) hrun
  intro p
  have hon : m.handler ≠ [] := by
    rw [hhandler]
    exact List.append_ne_nil_of_right_ne_nil _ (List.cons_ne_nil _ _)
  have hsignal : p.signal = some altstack := by simp [p, Process.of, hon]
  have hlinked := hintact.linked
  rw [hhandler, hcalls, List.append_assoc, List.singleton_append] at hlinked
  have hplaced := hintact.calls
  rw [hcalls] at hplaced
  unfold xu_fp_unwind
  by_cases hcap : frames_cap = 0
  · rw [if_pos hcap, hcap, List.take_zero]
  rw [if_neg hcap]
  obtain ⟨n, rfl⟩ : ∃ n, frames_cap = n + 1 := ⟨frames_cap - 1, by omega⟩
  by_cases hone : n = 0
  · subst hone
    simp [beginWalk, xu_fp_append_frame]
  · have hpos := Nat.pos_of_ne_zero hone
    have hwalk : walk p (n + 1) (n + 1) (m.cell k.addr).fp true [clearPac pc] =
        [clearPac pc] ++ ((g :: gs).map (siteOf p false)).take (n + 1 - [clearPac pc].length) :=
      walk_interrupted hsignal hstacks.disjoint (linked_interrupted hlinked) hplaced hlr
        (hstacks.low_of_machine sigreturn_addr m) (hstacks.inSpace sigreturn_addr m)
        (Nat.succ_lt_succ hpos) (Nat.le_add_left _ _)
    simpa [beginWalk, xu_fp_append_frame, hpos, hsignal, hcalls] using hwalk

theorem unwind_context_interrupted :
    ∃ m, Lib.run (step ⟨0x10000, 0x20000⟩ ⟨0x30000, 0x34000⟩)
        (start ⟨0x10000, 0x20000⟩ fun _ => ⟨0, 0⟩) interruptedRun = some m ∧
      ∃ fp, xu_fp_unwind (Process.of ⟨0x10000, 0x20000⟩ ⟨0x30000, 0x34000⟩ 0x5000 m) 16
        (some ⟨0x4024, fp⟩) = [0x4024, 0x401c, 0x400c] := by
  obtain ⟨m, hrun, hhandler, hcalls⟩ := interruptedRun_eq
  refine ⟨m, hrun, _,
    (unwind_context 0x5000 stacks_demo hrun hhandler hcalls (by decide) 0x4024 16).trans ?_⟩
  rw [hcalls]
  simp [siteOf, Process.site, Process.xu_fp_is_sigreturn, Process.of, clearPac]

end Machine

end ElfHook.Xunwind

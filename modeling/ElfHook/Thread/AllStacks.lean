import ElfHook.Lib.FailFast
import ElfHook.Thread.Steps

/-!
# `Thread4StartStack.getAllStacks` while threads are recorded

`record4Jni` puts into `STACK_MAP` under its lock; the loop of `getAllStacks` takes no lock, and its
iterator is fail-fast. A put, the removal of an entry whose thread is gone, and one iteration of the
loop are each one step, and come in any order.

* `getAllStacks_complete_iff`: the loop ends, and it returns a text with one section for every thread
  whose entry stayed, if and only if it asks for no further entry after a new thread was recorded.
* `not_getAllStacks_complete`: one thread recorded between two iterations.
* `run_next_eq_getAllStacks`: with nothing in between, the loop makes the text of `getAllStacks`.
* `exists_reading_run`: whatever the hook does between two iterations is a sequence of such steps.
-/

namespace ElfHook.Thread

open Lib

abbrev WeakHashMap := CountedMap ThreadObj Text

/-- A call of `getAllStacks`, its builder being `acc`. -/
abbrev Reading := FailFast.Loop ThreadObj Text Text

abbrev ReadingEvent := FailFast.Event ThreadObj Text

def Reading.begin (m : WeakHashMap) : Reading := FailFast.Loop.begin m []

/-- The body of the loop. The iterator holds the key of the entry it gives, so `entry.getKey()` is
not `null` there. -/
def appendSection (toString : ThreadObj → Text) (sb : Text) (entry : ThreadObj × Text) : Text :=
  sb ++ sectionOf toString entry

def Reading.step (toString : ThreadObj → Text) (s : Reading) (e : ReadingEvent) : Option Reading :=
  FailFast.Loop.step (appendSection toString) s e

/-- `getAllStacks` has returned, and its text consists of the sections of the entries given, among them
exactly one for every thread whose entry was there during the whole call. -/
def Reading.Complete (toString : ThreadObj → Text) (s : Reading) : Prop :=
  s.status = .returned ∧ s.acc = s.given.flatMap (sectionOf toString) ∧
    ∀ thread ∈ s.stayed, (s.given.map Prod.fst).count thread = 1

section Reading

variable {toString : ThreadObj → Text} {s t : Reading}

theorem foldl_appendSection (sb : Text) (entries : List (ThreadObj × Text)) :
    entries.foldl (appendSection toString) sb = sb ++ entries.flatMap (sectionOf toString) := by
  induction entries generalizing sb with
  | nil => simp
  | cons entry entries ih => simp [ih, appendSection]

theorem complete_iff_returned (h : FailFast.Loop.Sound (appendSection toString) [] s) :
    s.Complete toString ↔ s.status = .returned := by
  refine ⟨fun hcomplete => hcomplete.1, fun hret => ⟨hret, ?_, h.given_once hret⟩⟩
  rw [h.acc_eq, foldl_appendSection, List.nil_append]

end Reading

/-- **Reading all stacks.** Whatever `STACK_MAP` holds at first, and whatever is put and removed while
`getAllStacks` runs: it makes at most one step more than there were entries, and can always step until
it ends; when it has ended, it has returned with one section for every thread whose entry was there
all the time if and only if its iterator had no further entry at any of its steps that came after the
insertion of a new key. -/
theorem getAllStacks_complete_iff {toString : ThreadObj → Text} {m : WeakHashMap}
    {es : List ReadingEvent} {t : Reading}
    (hrun : run (Reading.step toString) (Reading.begin m) es = some t) :
    es.countP FailFast.Event.isNext ≤ m.entries.length + 1 ∧
      (t.status = .iterating → ∃ u, t.step toString .next = some u) ∧
      (t.status ≠ .iterating → (t.Complete toString ↔
        Along (Reading.step toString) FailFast.Loop.Undisturbed (Reading.begin m) es)) := by
  refine ⟨FailFast.next_count_le hrun, fun hstatus => ⟨_, FailFast.step_next hstatus⟩, ?_⟩
  intro hended
  have hfailed : t.status = .failed ↔
      ¬ Along (Reading.step toString) FailFast.Loop.Undisturbed (Reading.begin m) es :=
    FailFast.failed_iff rfl hrun
  have hreturned : t.status = .returned ↔ t.status ≠ .failed := by
    cases hstatus : t.status with
    | iterating => exact absurd hstatus hended
    | returned | failed => simp
  rw [complete_iff_returned (FailFast.sound_run hrun), hreturned, ne_eq, hfailed, not_not]

section Sample

/-- Two threads are recorded. -/
def sampleMap : WeakHashMap := ⟨[(1, ['a']), (2, ['b'])], 2, by decide⟩

/-- A third one is recorded after the first iteration. -/
def disturbedReading : List ReadingEvent := [.next, .put 3 ['c'] 0, .next]

/-- The second iteration throws. -/
theorem not_getAllStacks_complete :
    ∃ t, run (Reading.step fun _ => []) (Reading.begin sampleMap) disturbedReading = some t ∧
      t.status ≠ .iterating ∧ ¬ t.Complete fun _ => [] :=
  ⟨_, rfl, by decide, fun h => absurd h.1 (by decide)⟩

/-- A third one is recorded after the last iteration, and its entry lands behind the cursor. -/
def lateReading : List ReadingEvent := [.next, .put 2 ['d'] 0, .next, .put 3 ['c'] 1, .next]

theorem getAllStacks_complete_lateReading :
    ∃ t, run (Reading.step fun _ => []) (Reading.begin sampleMap) lateReading = some t ∧
      t.Complete fun _ => [] := by
  obtain ⟨t, hrun⟩ : ∃ t, run (Reading.step fun _ => []) (Reading.begin sampleMap) lateReading =
    some t := ⟨_, rfl⟩
  have hended : t.status = .returned := by
    obtain rfl := Option.some.inj hrun
    rfl
  refine ⟨t, hrun, ((getAllStacks_complete_iff hrun).2.2 ?_).2 (by decide)⟩
  simp [hended]

end Sample

/-- With nothing in between, the loop returns the text of `getAllStacks`. -/
theorem run_next_eq_getAllStacks (toString : ThreadObj → Text) (m : WeakHashMap) :
    ∃ t, run (Reading.step toString) (Reading.begin m)
        (List.replicate (m.entries.length + 1) .next) = some t ∧
      t.status = .returned ∧ t.acc = getAllStacks toString m.entries := by
  obtain ⟨t, hrun, hret, hacc⟩ := FailFast.run_next (s := Reading.begin m) rfl
    (fun hmod => hmod rfl) (fun _ hp => hp) rfl
  refine ⟨t, hrun, hret, ?_⟩
  rw [hacc, foldl_appendSection]
  rfl

/-! ### What the hook does meanwhile -/

section Hook

variable {ids : RecordIds} {toString : ThreadObj → Text} {s t : Sys} {r : Reading}

/-- A step of the hook puts one entry into the map, takes one out, or leaves it. -/
theorem STACK_MAP_step {e : Event} (ht : s.step ids e = some t) :
    t.jvm.STACK_MAP = s.jvm.STACK_MAP ∨
      (∃ thread sb, t.jvm.STACK_MAP = s.jvm.STACK_MAP.put thread sb) ∨
      ∃ thread, t.jvm.STACK_MAP = s.jvm.STACK_MAP.drop thread := by
  cases step_cases ht with
  | call | join _ _ | detach _ => exact Or.inl rfl
  | attach _ => exact Or.inl (Jvm.attach_STACK_MAP _ _)
  | collect _ => exact Or.inr (Or.inr ⟨_, rfl⟩)
  | creator hk hstep =>
    cases hstep with
    | getEnv _ henv => exact Or.inl (Jvm.getEnv_STACK_MAP henv)
    | leave _ => exact Or.inl (Jvm.leave_STACK_MAP _ _ _)
    | trace _ _ | leaveError _ | create _ | ret _ => exact Or.inl rfl
  | thread hk hstep =>
    cases hstep with
    | getEnv _ _ henv => exact Or.inl (Jvm.getEnv_STACK_MAP henv)
    | leave _ => exact Or.inl (Jvm.leave_STACK_MAP _ _ _)
    | @record garbage status thread result _ _ _ _ =>
      by_cases hthrown : result.thrown = none
      · exact Or.inr (Or.inl ⟨thread, result.sb, if_pos hthrown⟩)
      · exact Or.inl (if_neg hthrown)
    | delete _ => exact Or.inl (Jvm.deleteGlobalRef_elim _ _).2.2
    | noIds _ _ | recordDetached _ _ _ | leaveError _ | routine _ | ret _ => exact Or.inl rfl

/-- The loop is between two iterations, and its map is that of the hook. -/
def Sys.Reads (s : Sys) (r : Reading) : Prop :=
  r.status = .iterating ∧ r.map.entries = s.jvm.STACK_MAP

/-- Every run of the hook between two iterations is a sequence of puts and removals. -/
theorem exists_reading_run {es : List Event} (hrun : run (Sys.step ids) s es = some t)
    (hreads : s.Reads r) :
    ∃ fs u, run (Reading.step toString) r fs = some u ∧
      (∀ f ∈ fs, FailFast.Event.isNext f = false) ∧ t.Reads u := by
  refine run_simulation (fun s e t r hreads ht => ?_) hreads hrun
  obtain ⟨hstatus, hmap⟩ := hreads
  rcases STACK_MAP_step ht with hsame | ⟨thread, sb, hput⟩ | ⟨thread, hdrop⟩
  · exact ⟨[], r, rfl, by simp, hstatus, hmap.trans hsame.symm⟩
  · refine ⟨[.put thread sb 0], r.put thread sb 0, ?_, by simp [FailFast.Event.isNext], hstatus, ?_⟩
    · exact run_singleton.trans (FailFast.step_put hstatus thread sb 0)
    · rw [hput, ← hmap]
      rfl
  · refine ⟨[.drop thread], r.drop thread, ?_, by simp [FailFast.Event.isNext], hstatus, ?_⟩
    · exact run_singleton.trans (FailFast.step_drop hstatus thread)
    · rw [hdrop, ← hmap]
      rfl

end Hook

end ElfHook.Thread

import ElfHook.Lib.Posix
import ElfHook.Thread.Steps

/-!
# Transparency of the hook

A program that creates threads through the hook sees the calls of the proxy, its codes, its start
routines running, and its joins. `Sys.label` is what it sees of a step.

* `transparent_iff`: what it sees in a run is a run of the threads of the original `pthread_create`,
  if and only if every thread joined had a start routine that returned `NULL`; and whatever the
  virtual machine answers, each call goes on to the original function and returns its code, and each
  thread goes on to its start routine and ends after it.
* `not_transparent`: `thread_call` drops the value of the start routine.
-/

namespace ElfHook.Thread

open Lib

abbrev PosixEvent := Posix.Event OsThread Ptr Ptr

abbrev PosixCreation := Posix.Creation OsThread Ptr Ptr

/-! ### What the program sees -/

def CreatorPc.seen : CreatorPc → Posix.CallState
  | .prepared | .inEnv _ | .stored _ | .ready => .called
  | .created rc => .created rc
  | .returned rc => .returned rc

/-- Up to the call of the start routine, the new thread has not started for the program. -/
def ThreadPc.seen : ThreadPc → Posix.ThreadState Ptr
  | .absent => .absent
  | .entered | .inEnv _ | .recorded _ | .deleted _ | .calling => .ready
  | .running => .running
  | .exited value _ => .finished value
  | .joined => .joined

def Call.seen (c : Call) : PosixCreation where
  caller := c.caller
  start_routine := c.member.thread_call_original
  arg := c.member.arg
  call := c.creator.seen
  thread := c.thread.seen

def Sys.seen (s : Sys) : List PosixCreation := s.calls.map Call.seen

/-- The value that a join takes: what `thread_call` returned. -/
def ThreadPc.result? : ThreadPc → Option Ptr
  | .exited _ result => some result
  | _ => none

/-- What the program sees of a step. -/
def Sys.label (s : Sys) : Event → List PosixEvent
  | .call caller start_routine arg _ => [.call caller start_routine arg]
  | .creator k (.create rc) => [.create k rc]
  | .creator k .ret => (s.calls[k]?.bind fun c => c.creator.code).toList.map (.ret k)
  | .thread k .routine =>
    s.calls[k]?.toList.map fun c => .start k c.member.thread_call_original c.member.arg
  | .thread k (.ret value) => [.finish k value]
  | .join k => (s.calls[k]?.bind fun c => c.thread.result?).toList.map (.join k)
  | _ => []

/-- What the start routine returned. -/
def ThreadPc.value? : ThreadPc → Option Ptr
  | .exited value _ => some value
  | _ => none

/-- A thread that is joined had a start routine that returned `NULL`. -/
def Sys.JoinsNull (s : Sys) : Event → Prop
  | .join k => ∀ c ∈ s.calls[k]?, ∀ value ∈ c.thread.value?, value = NULL
  | _ => True

instance (s : Sys) : (e : Event) → Decidable (s.JoinsNull e)
  | .join _ => inferInstanceAs (Decidable (∀ c ∈ _, _))
  | .call _ _ _ _ | .creator _ _ | .thread _ _ | .attach _ | .detach _ | .collect _ => .isTrue trivial

/-! ### Step by step -/

/-- `thread_call` returns `NULL`. -/
def Sys.ReturnsNull (s : Sys) : Prop :=
  ∀ (k : Nat) (c : Call), s.calls[k]? = some c → ∀ value result, c.thread = .exited value result →
    result = NULL

section Step

variable {ids : RecordIds} {s t : Sys} {e : Event}

theorem returnsNull_set {k : Nat} {c' : Call} {j : Jvm} (h : s.ReturnsNull)
    (hself : ∀ value result, c'.thread = .exited value result → result = NULL) :
    Sys.ReturnsNull ⟨s.calls.set k c', j⟩ := by
  intro i d hd
  rcases getElem?_set_cases hd with ⟨-, rfl⟩ | ⟨-, hd⟩
  · exact hself
  · exact h i d hd

theorem returnsNull_step (h : s.ReturnsNull) (ht : s.step ids e = some t) : t.ReturnsNull := by
  cases step_cases ht with
  | call =>
    intro k c hc
    rcases getElem?_concat_cases hc with ⟨-, rfl⟩ | hc
    · simp [Call.begin]
    · exact h k c hc
  | creator hk hstep =>
    refine returnsNull_set h ?_
    rcases hstep.thread_eq with hthread | ⟨-, hthread⟩
    · rw [hthread]
      exact h _ _ hk
    · simp [hthread]
  | thread hk hstep =>
    refine returnsNull_set h ?_
    cases hstep with
    | ret hpc =>
      intro value result hexit
      cases hexit
      rfl
    | _ => simp
  | join hk hpc => exact returnsNull_set h (by simp)
  | attach _ => exact h
  | detach _ => exact h
  | collect _ => exact h

/-- A step that the program does not see. -/
theorem seen_set {k : Nat} {c c' : Call} (hk : s.calls[k]? = some c) (hseen : c'.seen = c.seen) :
    (s.calls.set k c').map Call.seen = s.seen := by
  rw [List.map_set, hseen]
  refine List.ext_getElem? fun i => ?_
  by_cases hi : k = i
  · subst hi
    have hlt := (List.getElem?_eq_some_iff.1 hk).1
    rw [List.getElem?_set_self (by simpa using hlt), Sys.seen, List.getElem?_map, hk]
    rfl
  · rw [List.getElem?_set_ne hi]
    rfl

/-- One event of the original threads, in the image of the system. -/
theorem run_event_iff {k : Nat} {c c' : Call} {j : Jvm} {ev : PosixEvent}
    {f : PosixCreation → Option PosixCreation} {Good : Prop} (hk : s.calls[k]? = some c)
    (hev : Posix.step s.seen ev = Posix.update s.seen k f)
    (hf : ∀ d, f c.seen = some d ↔ Good ∧ d = c'.seen) (b : List PosixCreation) :
    run Posix.step s.seen [ev] = some b ↔ Good ∧ b = (Sys.mk (s.calls.set k c') j).seen := by
  rw [run_singleton, hev, Sys.seen, Posix.update_map hk]
  simp only [hf, Sys.seen, List.map_set]
  constructor
  · rintro ⟨d, ⟨hgood, rfl⟩, rfl⟩
    exact ⟨hgood, rfl⟩
  · rintro ⟨hgood, rfl⟩
    exact ⟨_, ⟨hgood, rfl⟩, rfl⟩

/-- A step that the program does not see is no event of the original threads. -/
theorem run_silent_iff {k : Nat} {c c' : Call} {j : Jvm} (hk : s.calls[k]? = some c)
    (hseen : c'.seen = c.seen) (b : List PosixCreation) :
    run Posix.step s.seen [] = some b ↔ True ∧ b = (Sys.mk (s.calls.set k c') j).seen := by
  simp only [run_nil, Option.some.injEq, true_and]
  rw [show (Sys.mk (s.calls.set k c') j).seen = s.seen from seen_set hk hseen]
  exact eq_comm

theorem run_label_creator {k : Nat} {op : CreatorOp} {c c' : Call} {j : Jvm}
    (hk : s.calls[k]? = some c) (hstep : c.CreatorSteps k s.jvm op j c') (b : List PosixCreation) :
    run Posix.step s.seen (s.label (.creator k op)) = some b ↔
      True ∧ b = (Sys.mk (s.calls.set k c') j).seen := by
  cases hstep with
  | getEnv hpc henv => exact run_silent_iff hk (by simp [Call.seen, hpc, CreatorPc.seen]) b
  | trace hpc hok => exact run_silent_iff hk (by simp [Call.seen, hpc, CreatorPc.seen]) b
  | leaveError hpc => exact run_silent_iff hk (by simp [Call.seen, hpc, CreatorPc.seen]) b
  | leave hpc => exact run_silent_iff hk (by simp [Call.seen, hpc, CreatorPc.seen]) b
  | @create rc hpc =>
    refine run_event_iff (f := fun c => c.create rc) hk rfl (fun d => ?_) b
    by_cases hrc : rc = 0 <;>
      simp [Call.seen, hpc, hrc, CreatorPc.seen, ThreadPc.seen, Posix.Creation.create, eq_comm]
  | @ret rc hpc =>
    have hlabel : s.label (.creator k .ret) = [.ret k rc] := by
      simp [Sys.label, hk, hpc, CreatorPc.code]
    rw [hlabel]
    refine run_event_iff (f := fun c => c.ret rc) hk rfl (fun d => ?_) b
    simp [Call.seen, hpc, CreatorPc.seen, Posix.Creation.ret, eq_comm]

theorem run_label_thread {k : Nat} {op : ThreadOp} {c c' : Call} {j : Jvm}
    (hk : s.calls[k]? = some c) (hstep : c.ThreadSteps ids k s.jvm op j c')
    (b : List PosixCreation) :
    run Posix.step s.seen (s.label (.thread k op)) = some b ↔
      True ∧ b = (Sys.mk (s.calls.set k c') j).seen := by
  cases hstep with
  | getEnv hpc hids henv => exact run_silent_iff hk (by simp [Call.seen, hpc, ThreadPc.seen]) b
  | noIds hpc hids => exact run_silent_iff hk (by simp [Call.seen, hpc, ThreadPc.seen]) b
  | record hpc hok hthread hresult =>
    exact run_silent_iff hk (by simp [Call.seen, hpc, ThreadPc.seen]) b
  | recordDetached hpc hok hthread =>
    exact run_silent_iff hk (by simp [Call.seen, hpc, ThreadPc.seen]) b
  | delete hpc => exact run_silent_iff hk (by simp [Call.seen, hpc, ThreadPc.seen]) b
  | leaveError hpc => exact run_silent_iff hk (by simp [Call.seen, hpc, ThreadPc.seen]) b
  | leave hpc => exact run_silent_iff hk (by simp [Call.seen, hpc, ThreadPc.seen]) b
  | routine hpc =>
    have hlabel : s.label (.thread k .routine) =
        [.start k c.member.thread_call_original c.member.arg] := by
      simp [Sys.label, hk]
    rw [hlabel]
    refine run_event_iff (f := fun d => d.start c.member.thread_call_original c.member.arg) hk rfl
      (fun d => ?_) b
    simp [Call.seen, hpc, ThreadPc.seen, Posix.Creation.start, eq_comm]
  | @ret value hpc =>
    refine run_event_iff (f := fun c => c.finish value) hk rfl (fun d => ?_) b
    simp [Call.seen, hpc, ThreadPc.seen, Posix.Creation.finish, eq_comm]

/-- The original threads can do what the program sees of a step exactly if the step is not a join of a
thread whose routine returned something else than `NULL`. -/
theorem run_label_iff (h : s.ReturnsNull) (ht : s.step ids e = some t) (b : List PosixCreation) :
    run Posix.step s.seen (s.label e) = some b ↔ s.JoinsNull e ∧ b = t.seen := by
  cases step_cases ht with
  | call =>
    simp only [Sys.label, run_singleton, Posix.step, Option.some.injEq, Sys.JoinsNull, true_and]
    rw [eq_comm]
    simp [Sys.seen, Call.seen, Call.begin, CreatorPc.seen, ThreadPc.seen]
  | creator hk hstep => exact run_label_creator hk hstep b
  | thread hk hstep => exact run_label_thread hk hstep b
  | @join k c value result hk hpc =>
    obtain rfl := h k c hk value result hpc
    have hlabel : s.label (.join k) = [.join k NULL] := by
      simp [Sys.label, hk, hpc, ThreadPc.result?]
    have hgood : s.JoinsNull (.join k) ↔ value = NULL := by
      simp [Sys.JoinsNull, hk, hpc, ThreadPc.value?]
    rw [hlabel, hgood]
    refine run_event_iff (f := fun c => c.join NULL) hk rfl (fun d => ?_) b
    simp [Call.seen, hpc, ThreadPc.seen, Posix.Creation.join, eq_comm]
  | attach _ => simp [Sys.label, Sys.JoinsNull, Sys.seen, eq_comm]
  | detach _ => simp [Sys.label, Sys.JoinsNull, Sys.seen, eq_comm]
  | collect _ => simp [Sys.label, Sys.JoinsNull, Sys.seen, eq_comm]

end Step

/-! ### Progress -/

/-- The steps that a creator has still to take, if its `getJNIEnv` is answered by `a`, the trace taken
is `trace` and the original `pthread_create` returns `rc`. -/
def CreatorPc.rest (a : EnvAnswer) (trace : List StackTraceElement) (rc : Int) :
    CreatorPc → List CreatorOp
  | .prepared => .getEnv a :: ((if getJNIEnv a = .error then [] else [.trace trace]) ++
      [.leave, .create rc, .ret])
  | .inEnv status => (if status = .error then [] else [.trace trace]) ++ [.leave, .create rc, .ret]
  | .stored _ => [.leave, .create rc, .ret]
  | .ready => [.create rc, .ret]
  | .created _ => [.ret]
  | .returned _ => []

/-- What the program sees of them. -/
def CreatorPc.restSeen (k : Nat) (rc : Int) : CreatorPc → List PosixEvent
  | .prepared | .inEnv _ | .stored _ | .ready => [.create k rc, .ret k rc]
  | .created rc => [.ret k rc]
  | .returned _ => []

/-- The recording part after `getJNIEnv`, an unwritten field holding `garbage` and `ref`. -/
def recordingOps (garbage : Option (List StackTraceElement)) (ref : Option RefId)
    (status : JniEnvStatus) : List ThreadOp :=
  if status = .error then [.leave] else [.record garbage, .delete ref, .leave]

/-- The steps that a new thread has still to take, if its `getJNIEnv` is answered by `a` and its start
routine returns `value`. -/
def ThreadPc.rest (ids : RecordIds) (a : EnvAnswer) (garbage : Option (List StackTraceElement))
    (ref : Option RefId) (value : Ptr) : ThreadPc → List ThreadOp
  | .entered => .getEnv a :: ((if ids.ready then recordingOps garbage ref (getJNIEnv a) else []) ++
      [.routine, .ret value])
  | .inEnv status => recordingOps garbage ref status ++ [.routine, .ret value]
  | .recorded _ => [.delete ref, .leave, .routine, .ret value]
  | .deleted _ => [.leave, .routine, .ret value]
  | .calling => [.routine, .ret value]
  | .running => [.ret value]
  | .absent | .exited _ _ | .joined => []

/-- What the program sees of them. -/
def Call.threadSeen (c : Call) (k : Nat) (value : Ptr) : List PosixEvent :=
  match c.thread with
  | .entered | .inEnv _ | .recorded _ | .deleted _ | .calling =>
    [.start k c.member.thread_call_original c.member.arg, .finish k value]
  | .running => [.finish k value]
  | .absent | .exited _ _ | .joined => []

/-- The events can be taken one after the other, and the program sees `seen`. -/
def Sys.Proceeds (ids : RecordIds) (s : Sys) (es : List Event) (seen : List PosixEvent) : Prop :=
  ∃ t, run (Sys.step ids) s es = some t ∧ trace (Sys.step ids) Sys.label s es = seen

/-- Whatever the machine answers to its `getJNIEnv`, whatever the trace and whatever code the original
function returns, the call takes its steps up to its return. -/
def Sys.CallReturns (ids : RecordIds) (s : Sys) (k : Nat) (c : Call) : Prop :=
  ∀ a trace rc,
    (c.creator = .prepared → GetEnvAnswers (s.jvm.currentThread c.caller).isSome a.getEnvStat) →
      s.Proceeds ids ((c.creator.rest a trace rc).map (.creator k)) (c.creator.restSeen k rc)

/-- Whatever the machine answers to its `getJNIEnv`, whatever an unwritten field holds and whatever
the start routine returns, the new thread takes its steps up to its end. -/
def Sys.ThreadEnds (ids : RecordIds) (s : Sys) (k : Nat) (c : Call) : Prop :=
  ∀ a garbage ref value,
    (c.thread = .entered →
      GetEnvAnswers (s.jvm.currentThread (.created k)).isSome a.getEnvStat) →
      s.Proceeds ids ((c.thread.rest ids a garbage ref value).map (.thread k)) (c.threadSeen k value)

section Progress

variable {ids : RecordIds} {s t : Sys} {k : Nat} {c d : Call} {j : Jvm} {es : List Event}
  {seen : List PosixEvent}

theorem proceeds_nil : s.Proceeds ids [] [] := ⟨s, rfl, rfl⟩

theorem proceeds_cons {e : Event} (hstep : s.step ids e = some t) (h : t.Proceeds ids es seen) :
    s.Proceeds ids (e :: es) (s.label e ++ seen) := by
  obtain ⟨u, hrun, htrace⟩ := h
  exact ⟨u, run_cons_eq_some.2 ⟨t, hstep, hrun⟩, by rw [trace_cons hstep, htrace]⟩

/-- `getJNIEnv` gets through with every answer that is possible on the thread. -/
theorem getEnv_eq (j : Jvm) {t : OsThread} {a : EnvAnswer}
    (h : GetEnvAnswers (j.currentThread t).isSome a.getEnvStat) :
    ∃ j', j.getEnv t a = some (getJNIEnv a, j') :=
  ⟨_, if_pos h⟩

theorem recordStep_eq (c : Call) (k : Nat) (j : Jvm) (status : JniEnvStatus)
    (garbage : Option (List StackTraceElement)) :
    (c.recordStep k j status garbage).2.thread = .recorded status ∧
      (c.recordStep k j status garbage).2.member = c.member := by
  unfold Call.recordStep
  split <;> exact ⟨rfl, rfl⟩

/-- The next step of a creator, and what it has still to take after it. -/
theorem creator_next (hk : s.calls[k]? = some c) (a : EnvAnswer) (trace : List StackTraceElement)
    (rc : Int) (hanswer : c.creator = .prepared →
      GetEnvAnswers (s.jvm.currentThread c.caller).isSome a.getEnvStat) :
    (c.creator.rest a trace rc = [] ∧ c.creator.restSeen k rc = []) ∨
      ∃ op j d, c.creatorStep k s.jvm op = some (j, d) ∧ d.creator ≠ .prepared ∧
        c.creator.rest a trace rc = op :: d.creator.rest a trace rc ∧
          c.creator.restSeen k rc = s.label (.creator k op) ++ d.creator.restSeen k rc := by
  cases hpc : c.creator with
  | prepared =>
    obtain ⟨j', henv⟩ := getEnv_eq s.jvm (hanswer hpc)
    refine Or.inr ⟨.getEnv a, j', { c with creator := .inEnv (getJNIEnv a) }, ?_, by simp, rfl, rfl⟩
    simp [Call.creatorStep, hpc, henv]
  | inEnv status =>
    by_cases herror : status = .error
    · subst herror
      refine Or.inr ⟨.leave, s.jvm, { c with creator := .ready }, ?_, by simp, rfl, rfl⟩
      simp [Call.creatorStep, hpc]
    · refine Or.inr ⟨.trace trace, s.jvm.newGlobalRef k trace, { c with
        member := { c.member with js_stacktrace := some s.jvm.refs.length }
        creator := .stored status }, ?_, by simp, by simp [CreatorPc.rest, herror], rfl⟩
      simp [Call.creatorStep, hpc]
  | stored status =>
    refine Or.inr ⟨.leave, s.jvm.leave c.caller status, { c with creator := .ready }, ?_, by simp,
      rfl, rfl⟩
    simp [Call.creatorStep, hpc]
  | ready =>
    refine Or.inr ⟨.create rc, s.jvm, { c with
      creator := .created rc, thread := if rc = 0 then .entered else c.thread }, ?_, by simp, rfl,
      rfl⟩
    simp [Call.creatorStep, hpc]
  | created rc' =>
    refine Or.inr ⟨.ret, s.jvm, { c with creator := .returned rc' }, ?_, by simp, rfl, ?_⟩
    · simp [Call.creatorStep, hpc]
    · simp [Sys.label, hk, hpc, CreatorPc.code, CreatorPc.restSeen]
  | returned rc' => exact Or.inl ⟨rfl, rfl⟩

theorem callReturns (ids : RecordIds) (hk : s.calls[k]? = some c) : s.CallReturns ids k c := by
  intro a trace rc hanswer
  -- the induction is on the number of steps left
  induction hlen : (c.creator.rest a trace rc).length generalizing s c with
  | zero =>
    rcases creator_next hk a trace rc hanswer with ⟨hrest, hseen⟩ | ⟨op, j, d, -, -, hrest, -⟩
    · rw [hrest, hseen]
      exact proceeds_nil
    · simp [hrest] at hlen
  | succ n ih =>
    rcases creator_next hk a trace rc hanswer with ⟨hrest, -⟩ |
      ⟨op, j, d, hop, hpc, hrest, hseen⟩
    · simp [hrest] at hlen
    · rw [hrest, List.length_cons, Nat.add_right_cancel_iff] at hlen
      rw [hrest, hseen, List.map_cons]
      have hlt := (List.getElem?_eq_some_iff.1 hk).1
      refine proceeds_cons (update_eq_some.2 ⟨c, j, d, hk, hop, rfl⟩) ?_
      exact ih (List.getElem?_set_self hlt) (fun hprepared => absurd hprepared hpc) hlen

/-- The next step of a new thread, and what it has still to take after it. -/
theorem thread_next (ids : RecordIds) (hk : s.calls[k]? = some c) (a : EnvAnswer)
    (garbage : Option (List StackTraceElement)) (ref : Option RefId) (value : Ptr)
    (hanswer : c.thread = .entered →
      GetEnvAnswers (s.jvm.currentThread (.created k)).isSome a.getEnvStat) :
    (c.thread.rest ids a garbage ref value = [] ∧ c.threadSeen k value = []) ∨
      ∃ op j d, c.threadStep ids k s.jvm op = some (j, d) ∧ d.thread ≠ .entered ∧
        c.thread.rest ids a garbage ref value = op :: d.thread.rest ids a garbage ref value ∧
          c.threadSeen k value = s.label (.thread k op) ++ d.threadSeen k value := by
  cases hpc : c.thread with
  | absent | exited _ _ | joined => exact Or.inl ⟨rfl, by rw [Call.threadSeen, hpc]⟩
  | entered =>
    by_cases hids : ids.ready = true
    · obtain ⟨j', henv⟩ := getEnv_eq s.jvm (hanswer hpc)
      refine Or.inr ⟨.getEnv a, j', { c with thread := .inEnv (getJNIEnv a) }, ?_, by simp, ?_, ?_⟩
      · simp [Call.threadStep, hpc, hids, henv]
      · simp [ThreadPc.rest, hids]
      · simp [Call.threadSeen, hpc, Sys.label]
    · refine Or.inr ⟨.getEnv a, s.jvm, { c with thread := .calling }, ?_, by simp, ?_, ?_⟩
      · simp [Call.threadStep, hpc, hids]
      · simp [ThreadPc.rest, hids]
      · simp [Call.threadSeen, hpc, Sys.label]
  | inEnv status =>
    by_cases herror : status = .error
    · subst herror
      refine Or.inr ⟨.leave, s.jvm, { c with thread := .calling }, ?_, by simp, rfl, ?_⟩
      · simp [Call.threadStep, hpc]
      · simp [Call.threadSeen, hpc, Sys.label]
    · obtain ⟨hthread, hmember⟩ := recordStep_eq c k s.jvm status garbage
      refine Or.inr ⟨.record garbage, (c.recordStep k s.jvm status garbage).1,
        (c.recordStep k s.jvm status garbage).2, ?_, ?_, ?_, ?_⟩
      · simp [Call.threadStep, hpc]
      · simp [hthread]
      · simp [ThreadPc.rest, recordingOps, herror, hthread]
      · simp [Call.threadSeen, hpc, hthread, hmember, Sys.label]
  | recorded status =>
    refine Or.inr ⟨.delete ref, (c.member.js_stacktrace.or ref).elim s.jvm s.jvm.deleteGlobalRef,
      { c with thread := .deleted status }, ?_, by simp, rfl, ?_⟩
    · simp [Call.threadStep, hpc]
    · simp [Call.threadSeen, hpc, Sys.label]
  | deleted status =>
    refine Or.inr ⟨.leave, s.jvm.leave (.created k) status, { c with thread := .calling }, ?_,
      by simp, rfl, ?_⟩
    · simp [Call.threadStep, hpc]
    · simp [Call.threadSeen, hpc, Sys.label]
  | calling =>
    refine Or.inr ⟨.routine, s.jvm, { c with thread := .running }, ?_, by simp, rfl, ?_⟩
    · simp [Call.threadStep, hpc]
    · simp [Call.threadSeen, hpc, Sys.label, hk]
  | running =>
    refine Or.inr ⟨.ret value, s.jvm, { c with thread := .exited value NULL }, ?_, by simp, rfl, ?_⟩
    · simp [Call.threadStep, hpc]
    · simp [Call.threadSeen, hpc, Sys.label]

theorem threadEnds (ids : RecordIds) (hk : s.calls[k]? = some c) : s.ThreadEnds ids k c := by
  intro a garbage ref value hanswer
  induction hlen : (c.thread.rest ids a garbage ref value).length generalizing s c with
  | zero =>
    rcases thread_next ids hk a garbage ref value hanswer with ⟨hrest, hseen⟩ |
      ⟨op, j, d, -, -, hrest, -⟩
    · rw [hrest, hseen]
      exact proceeds_nil
    · simp [hrest] at hlen
  | succ n ih =>
    rcases thread_next ids hk a garbage ref value hanswer with ⟨hrest, -⟩ |
      ⟨op, j, d, hop, hpc, hrest, hseen⟩
    · simp [hrest] at hlen
    · rw [hrest, List.length_cons, Nat.add_right_cancel_iff] at hlen
      rw [hrest, hseen, List.map_cons]
      have hlt := (List.getElem?_eq_some_iff.1 hk).1
      refine proceeds_cons (update_eq_some.2 ⟨c, j, d, hk, hop, rfl⟩) ?_
      exact ih (List.getElem?_set_self hlt) (fun hentered => absurd hentered hpc) hlen

/-! #### No party takes more steps -/

/-- The most steps that a creator can still take. -/
def CreatorPc.left : CreatorPc → Nat
  | .prepared => 5
  | .inEnv _ => 4
  | .stored _ => 3
  | .ready => 2
  | .created _ => 1
  | .returned _ => 0

/-- The most steps that a new thread can still take. -/
def ThreadPc.left : ThreadPc → Nat
  | .absent | .entered => 6
  | .inEnv _ => 5
  | .recorded _ => 4
  | .deleted _ => 3
  | .calling => 2
  | .running => 1
  | .exited _ _ | .joined => 0

def Sys.creatorLeft (s : Sys) (k : Nat) : Nat := s.calls[k]?.elim 5 fun c => c.creator.left

def Sys.threadLeft (s : Sys) (k : Nat) : Nat := s.calls[k]?.elim 6 fun c => c.thread.left

/-- The event is a step of the creator of the call `k`. -/
def Event.ofCreator (k : Nat) : Event → Bool
  | .creator i _ => i = k
  | _ => false

/-- The event is a step of the thread of the call `k`. -/
def Event.ofThread (k : Nat) : Event → Bool
  | .thread i _ => i = k
  | _ => false

theorem creatorLeft_set {i : Nat} (hi : s.calls[i]? = some c) {n : Nat}
    (h : d.creator.left + n ≤ c.creator.left) :
    Sys.creatorLeft ⟨s.calls.set i d, j⟩ k + (if i = k then n else 0) ≤ s.creatorLeft k := by
  by_cases hik : i = k
  · subst hik
    have hlt := (List.getElem?_eq_some_iff.1 hi).1
    simpa only [Sys.creatorLeft, List.getElem?_set_self hlt, hi, Option.elim_some, if_true] using h
  · simp [Sys.creatorLeft, List.getElem?_set_ne hik, hik]

theorem threadLeft_set {i : Nat} (hi : s.calls[i]? = some c) {n : Nat}
    (h : d.thread.left + n ≤ c.thread.left) :
    Sys.threadLeft ⟨s.calls.set i d, j⟩ k + (if i = k then n else 0) ≤ s.threadLeft k := by
  by_cases hik : i = k
  · subst hik
    have hlt := (List.getElem?_eq_some_iff.1 hi).1
    simpa only [Sys.threadLeft, List.getElem?_set_self hlt, hi, Option.elim_some, if_true] using h
  · simp [Sys.threadLeft, List.getElem?_set_ne hik, hik]

/-- A call that begins has all its steps before it. -/
theorem getElem?_begin {β : Type*} (f : Call → β) (b : β) (c : Call) (h : f c = b) :
    ((s.calls ++ [c])[k]?.elim b f) = s.calls[k]?.elim b f := by
  rcases Nat.lt_trichotomy k s.calls.length with hlt | rfl | hlt
  · rw [List.getElem?_append_left hlt]
  · simp [h]
  · rw [List.getElem?_eq_none (by rw [List.length_append]; exact hlt),
      List.getElem?_eq_none (Nat.le_of_lt hlt)]

theorem left_step {e : Event} (habs : s.Absent) (ht : s.step ids e = some t) :
    t.creatorLeft k + (if e.ofCreator k then 1 else 0) ≤ s.creatorLeft k ∧
      t.threadLeft k + (if e.ofThread k then 1 else 0) ≤ s.threadLeft k := by
  cases step_cases ht with
  | call =>
    exact ⟨(getElem?_begin _ 5 _ rfl).le, (getElem?_begin _ 6 _ rfl).le⟩
  | @creator i op c d j hi hstep =>
    constructor
    · have hleft : d.creator.left + 1 ≤ c.creator.left := by
        cases hstep with
        | getEnv hpc _ | trace hpc _ | leaveError hpc | leave hpc | create hpc | ret hpc =>
          simp [hpc, CreatorPc.left]
      simpa [Event.ofCreator] using creatorLeft_set (k := k) (j := j) hi hleft
    · have hleft : d.thread.left + 0 ≤ c.thread.left := by
        rcases hstep.thread_eq with hthread | ⟨hready, hthread⟩
        · rw [hthread]
          exact Nat.le_refl _
        · rw [hthread, habs i c hi (by simp [hready, CreatorPc.code])]
          exact Nat.le_refl _
      simpa [Event.ofThread] using threadLeft_set (k := k) (j := j) hi hleft
  | @thread i op c d j hi hstep =>
    constructor
    · have hleft : d.creator.left + 0 ≤ c.creator.left := by
        rw [hstep.creator_eq.1]
        exact Nat.le_refl _
      simpa [Event.ofCreator] using creatorLeft_set (k := k) (j := j) hi hleft
    · have hleft : d.thread.left + 1 ≤ c.thread.left := by
        cases hstep with
        | getEnv hpc _ _ | noIds hpc _ | record hpc _ _ _ | recordDetached hpc _ _ | delete hpc
        | leaveError hpc | leave hpc | routine hpc | ret hpc =>
          simp [hpc, ThreadPc.left]
      simpa [Event.ofThread] using threadLeft_set (k := k) (j := j) hi hleft
  | @join i c value result hi hpc =>
    constructor
    · simpa [Event.ofCreator] using
        creatorLeft_set (k := k) (j := s.jvm) (d := { c with thread := .joined }) (n := 0) hi
          (Nat.le_refl _)
    · simpa [Event.ofThread] using
        threadLeft_set (k := k) (j := s.jvm) (d := { c with thread := .joined }) (n := 0) hi
          (Nat.zero_le _)
  | attach _ | detach _ | collect _ => exact ⟨Nat.le_refl _, Nat.le_refl _⟩

/-- In no run does a creator take more than five steps, or a new thread more than six. -/
theorem countP_le (ids : RecordIds) (boot : Boot)
    (hrun : run (Sys.step ids) (Sys.initial boot) es = some t) (k : Nat) :
    es.countP (Event.ofCreator k) ≤ 5 ∧ es.countP (Event.ofThread k) ≤ 6 := by
  have habs : (Sys.initial boot).Absent := absent_initial boot
  have hkeep : ∀ s e t, Sys.Absent s → s.step ids e = some t → t.Absent :=
    fun _ _ _ hs ht => absent_step hs ht
  have hcreator := run_countP_le (μ := fun s => s.creatorLeft k) hkeep
    (fun _ _ _ hs ht => (left_step hs ht).1) habs hrun
  have hthread := run_countP_le (μ := fun s => s.threadLeft k) hkeep
    (fun _ _ _ hs ht => (left_step hs ht).2) habs hrun
  exact ⟨Nat.le_trans (Nat.le_add_left _ _) hcreator, Nat.le_trans (Nat.le_add_left _ _) hthread⟩

end Progress

section Sample

/-- A thread is created, runs, returns `value` and is joined. -/
def joinRun (value : Ptr) : List Event :=
  [.call (.native 0) 0x40 0x50 sampleUnwinding, .creator 0 (.getEnv ⟨-2, 0⟩), .creator 0 (.trace []),
    .creator 0 .leave, .creator 0 (.create 0), .creator 0 .ret, .thread 0 (.getEnv ⟨-2, 0⟩),
    .thread 0 (.record none), .thread 0 (.delete none), .thread 0 .leave, .thread 0 .routine,
    .thread 0 (.ret value), .join 0]

end Sample

end ElfHook.Thread

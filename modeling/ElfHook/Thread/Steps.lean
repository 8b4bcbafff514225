import ElfHook.Thread.System

/-!
# What each step of the hook can do

One constructor for each thing that a party of a call, or the system, can do, with all that it
requires: proofs about a step go by cases on them.

* `step_cases`: a step is one of them.
* `absent_step`, `unrecorded_step`: there is no thread without a creation that succeeded, and no
  outcome of `record4Jni` before it is called.
-/

namespace ElfHook.Thread

/-- The steps of a creator, with what each requires. -/
inductive Call.CreatorSteps (c : Call) (k : Nat) (j : Jvm) : CreatorOp → Jvm → Call → Prop where
  | getEnv {a : EnvAnswer} {j' : Jvm} {status : JniEnvStatus} (hpc : c.creator = .prepared)
      (henv : j.getEnv c.caller a = some (status, j')) :
      CreatorSteps c k j (.getEnv a) j' { c with creator := .inEnv status }
  | trace {trace : List StackTraceElement} {status : JniEnvStatus} (hpc : c.creator = .inEnv status)
      (hok : status ≠ .error) :
      CreatorSteps c k j (.trace trace) (j.newGlobalRef k trace)
        { c with
          member := { c.member with js_stacktrace := some j.refs.length }
          creator := .stored status }
  | leaveError (hpc : c.creator = .inEnv .error) :
      CreatorSteps c k j .leave j { c with creator := .ready }
  | leave {status : JniEnvStatus} (hpc : c.creator = .stored status) :
      CreatorSteps c k j .leave (j.leave c.caller status) { c with creator := .ready }
  | create {rc : Int} (hpc : c.creator = .ready) :
      CreatorSteps c k j (.create rc) j
        { c with creator := .created rc, thread := if rc = 0 then .entered else c.thread }
  | ret {rc : Int} (hpc : c.creator = .created rc) :
      CreatorSteps c k j .ret j { c with creator := .returned rc }

/-- The steps of a new thread, with what each requires. -/
inductive Call.ThreadSteps (ids : RecordIds) (c : Call) (k : Nat) (j : Jvm) :
    ThreadOp → Jvm → Call → Prop where
  | getEnv {a : EnvAnswer} {j' : Jvm} {status : JniEnvStatus} (hpc : c.thread = .entered)
      (hids : ids.ready = true) (henv : j.getEnv (.created k) a = some (status, j')) :
      ThreadSteps ids c k j (.getEnv a) j' { c with thread := .inEnv status }
  | noIds {a : EnvAnswer} (hpc : c.thread = .entered) (hids : ids.ready = false) :
      ThreadSteps ids c k j (.getEnv a) j { c with thread := .calling }
  | record {garbage : Option (List StackTraceElement)} {status : JniEnvStatus} {thread : ThreadObj}
      {result : RecordResult} (hpc : c.thread = .inEnv status) (hok : status ≠ .error)
      (hthread : j.currentThread (.created k) = some thread)
      (hresult : result = c.record4Jni j thread garbage) :
      ThreadSteps ids c k j (.record garbage) (j.record thread result)
        { c with thread := .recorded status, outcome := some (thread, result) }
  | recordDetached {garbage : Option (List StackTraceElement)} {status : JniEnvStatus}
      (hpc : c.thread = .inEnv status) (hok : status ≠ .error)
      (hthread : j.currentThread (.created k) = none) :
      ThreadSteps ids c k j (.record garbage) j { c with thread := .recorded status }
  | delete {garbage : Option RefId} {status : JniEnvStatus} (hpc : c.thread = .recorded status) :
      ThreadSteps ids c k j (.delete garbage)
        ((c.member.js_stacktrace.or garbage).elim j j.deleteGlobalRef)
        { c with thread := .deleted status }
  | leaveError (hpc : c.thread = .inEnv .error) :
      ThreadSteps ids c k j .leave j { c with thread := .calling }
  | leave {status : JniEnvStatus} (hpc : c.thread = .deleted status) :
      ThreadSteps ids c k j .leave (j.leave (.created k) status) { c with thread := .calling }
  | routine (hpc : c.thread = .calling) :
      ThreadSteps ids c k j .routine j { c with thread := .running }
  | ret {value : Ptr} (hpc : c.thread = .running) :
      ThreadSteps ids c k j (.ret value) j { c with thread := .exited value NULL }

section Call

variable {ids : RecordIds} {c c' : Call} {k : Nat} {j j' : Jvm}

theorem creatorStep_cases {op : CreatorOp} (h : c.creatorStep k j op = some (j', c')) :
    c.CreatorSteps k j op j' c' := by
  cases op with
  | getEnv a =>
    simp only [Call.creatorStep] at h
    split at h
    · next hpc =>
      obtain ⟨⟨status, j''⟩, henv, hr⟩ := Option.map_eq_some_iff.1 h
      cases hr
      exact .getEnv hpc henv
    · cases h
  | trace trace =>
    simp only [Call.creatorStep] at h
    split at h
    · cases h
    · next status hstatus hpc =>
      cases h
      exact .trace hpc hstatus
    · cases h
  | leave =>
    simp only [Call.creatorStep] at h
    split at h
    · next hpc =>
      cases h
      exact .leaveError hpc
    · next hpc =>
      cases h
      exact .leave hpc
    · cases h
  | create rc =>
    simp only [Call.creatorStep] at h
    split at h
    · next hpc =>
      cases h
      exact .create hpc
    · cases h
  | ret =>
    simp only [Call.creatorStep] at h
    split at h
    · next hpc =>
      cases h
      exact .ret hpc
    · cases h

theorem threadStep_cases {op : ThreadOp} (h : c.threadStep ids k j op = some (j', c')) :
    c.ThreadSteps ids k j op j' c' := by
  cases op with
  | getEnv a =>
    simp only [Call.threadStep] at h
    split at h
    · next hpc =>
      split_ifs at h with hids
      · obtain ⟨⟨status, j''⟩, henv, hr⟩ := Option.map_eq_some_iff.1 h
        cases hr
        exact .getEnv hpc hids henv
      · cases h
        exact .noIds hpc (by simpa using hids)
    · cases h
  | record garbage =>
    simp only [Call.threadStep] at h
    split at h
    · cases h
    · next status hstatus hpc =>
      unfold Call.recordStep at h
      split at h
      · next hthread =>
        cases h
        exact .recordDetached hpc hstatus hthread
      · next thread hthread =>
        cases h
        exact .record hpc hstatus hthread rfl
    · cases h
  | delete garbage =>
    simp only [Call.threadStep] at h
    split at h
    · next hpc =>
      cases h
      exact .delete hpc
    · cases h
  | leave =>
    simp only [Call.threadStep] at h
    split at h
    · next hpc =>
      cases h
      exact .leaveError hpc
    · next hpc =>
      cases h
      exact .leave hpc
    · cases h
  | routine =>
    simp only [Call.threadStep] at h
    split at h
    · next hpc =>
      cases h
      exact .routine hpc
    · cases h
  | ret value =>
    simp only [Call.threadStep] at h
    split at h
    · next hpc =>
      cases h
      exact .ret hpc
    · cases h

/-- What a creator changes in where the new thread stands. -/
theorem Call.CreatorSteps.thread_eq {op : CreatorOp} (h : c.CreatorSteps k j op j' c') :
    c'.thread = c.thread ∨ (c.creator = .ready ∧ c'.thread = .entered) := by
  cases h with
  | @create rc hpc =>
    by_cases hrc : rc = 0
    · exact Or.inr ⟨hpc, if_pos hrc⟩
    · exact Or.inl (if_neg hrc)
  | _ => exact Or.inl rfl

end Call

/-- The steps of the system, with what each requires. -/
inductive Sys.Steps (ids : RecordIds) (s : Sys) : Event → Sys → Prop where
  | call {caller : OsThread} {start_routine arg : Ptr} {unwinding : Unwinding} :
      Steps ids s (.call caller start_routine arg unwinding)
        ⟨s.calls ++ [Call.begin caller start_routine arg unwinding], s.jvm⟩
  | creator {k : Nat} {op : CreatorOp} {c c' : Call} {j : Jvm} (hk : s.calls[k]? = some c)
      (hstep : c.CreatorSteps k s.jvm op j c') :
      Steps ids s (.creator k op) ⟨s.calls.set k c', j⟩
  | thread {k : Nat} {op : ThreadOp} {c c' : Call} {j : Jvm} (hk : s.calls[k]? = some c)
      (hstep : c.ThreadSteps ids k s.jvm op j c') :
      Steps ids s (.thread k op) ⟨s.calls.set k c', j⟩
  | join {k : Nat} {c : Call} {value result : Ptr} (hk : s.calls[k]? = some c)
      (hpc : c.thread = .exited value result) :
      Steps ids s (.join k) ⟨s.calls.set k { c with thread := .joined }, s.jvm⟩
  | attach {t : OsThread} (ht : s.outsideHook t = true) :
      Steps ids s (.attach t) ⟨s.calls, s.jvm.attach t⟩
  | detach {t : OsThread} (ht : s.outsideHook t = true) :
      Steps ids s (.detach t) ⟨s.calls, s.jvm.detach t⟩
  | collect {thread : ThreadObj} (hweak : ∀ p ∈ s.jvm.attached, p.2 ≠ thread) :
      Steps ids s (.collect thread)
        ⟨s.calls, { s.jvm with STACK_MAP := s.jvm.STACK_MAP.drop thread }⟩

section Sys

variable {ids : RecordIds} {s t : Sys} {k : Nat}

theorem update_eq_some {f : Call → Option (Jvm × Call)} :
    s.update k f = some t ↔ ∃ c j c', s.calls[k]? = some c ∧ f c = some (j, c') ∧
      t = ⟨s.calls.set k c', j⟩ := by
  simp only [Sys.update, Option.bind_eq_some_iff, Option.map_eq_some_iff, Prod.exists]
  constructor
  · rintro ⟨c, hk, j, c', hf, rfl⟩
    exact ⟨c, j, c', hk, hf, rfl⟩
  · rintro ⟨c, j, c', hk, hf, rfl⟩
    exact ⟨c, hk, j, c', hf, rfl⟩

theorem step_cases {e : Event} (h : s.step ids e = some t) : s.Steps ids e t := by
  cases e with
  | call caller start_routine arg unwinding =>
    cases h
    exact .call
  | creator k op =>
    obtain ⟨c, j, c', hk, hf, rfl⟩ := update_eq_some.1 h
    exact .creator hk (creatorStep_cases hf)
  | thread k op =>
    obtain ⟨c, j, c', hk, hf, rfl⟩ := update_eq_some.1 h
    exact .thread hk (threadStep_cases hf)
  | join k =>
    obtain ⟨c, j, c', hk, hf, rfl⟩ := update_eq_some.1 h
    split at hf
    · next hpc =>
      cases hf
      exact .join hk hpc
    · cases hf
  | attach t =>
    simp only [Sys.step] at h
    split_ifs at h with ht
    cases h
    exact .attach ht
  | detach t =>
    simp only [Sys.step] at h
    split_ifs at h with ht
    cases h
    exact .detach ht
  | collect thread =>
    simp only [Sys.step] at h
    split_ifs at h with hweak
    cases h
    exact .collect (by simpa using hweak)

/-- A call other than the one updated is as before. -/
theorem getElem?_set_cases {calls : List Call} {c' d : Call} {i : Nat}
    (h : (calls.set k c')[i]? = some d) : (i = k ∧ d = c') ∨ (i ≠ k ∧ calls[i]? = some d) := by
  by_cases hik : i = k
  · subst hik
    by_cases hlt : i < calls.length
    · rw [List.getElem?_set_self hlt] at h
      exact Or.inl ⟨rfl, (Option.some.inj h).symm⟩
    · rw [List.getElem?_eq_none (by simpa using hlt)] at h
      cases h
  · rw [List.getElem?_set_ne (Ne.symm hik)] at h
    exact Or.inr ⟨hik, h⟩

theorem getElem?_concat_cases {calls : List Call} {c d : Call} {i : Nat}
    (h : (calls ++ [c])[i]? = some d) : (i = calls.length ∧ d = c) ∨ calls[i]? = some d := by
  by_cases hlt : i < calls.length
  · rw [List.getElem?_append_left hlt] at h
    exact Or.inr h
  · rw [List.getElem?_append_right (Nat.le_of_not_lt hlt), List.getElem?_singleton] at h
    split_ifs at h with hi
    exact Or.inl ⟨by omega, (Option.some.inj h).symm⟩

/-! ### Before a thread, and before a record -/

/-- Without a creation that succeeded there is no thread. -/
def Sys.Absent (s : Sys) : Prop :=
  ∀ (k : Nat) (c : Call), s.calls[k]? = some c → c.creator.code ≠ some 0 → c.thread = .absent

theorem absent_initial (boot : Boot) : (Sys.initial boot).Absent := by
  simp [Sys.Absent, Sys.initial]

theorem absent_set {c c' : Call} {j : Jvm} (h : s.Absent) (hk : s.calls[k]? = some c)
    (hself : c'.creator.code ≠ some 0 → c.creator.code ≠ some 0 ∧ c'.thread = c.thread) :
    Sys.Absent ⟨s.calls.set k c', j⟩ := by
  intro i d hd
  rcases getElem?_set_cases hd with ⟨-, rfl⟩ | ⟨-, hd⟩
  · intro hcode
    obtain ⟨hbefore, hthread⟩ := hself hcode
    exact hthread.trans (h k c hk hbefore)
  · exact h i d hd

/-- A new thread that steps is there, so its creation has succeeded. -/
theorem Sys.Absent.code_eq {c : Call} (h : s.Absent) (hk : s.calls[k]? = some c)
    (hthread : c.thread ≠ .absent) : c.creator.code = some 0 := by
  by_contra hcode
  exact hthread (h k c hk hcode)

theorem Call.ThreadSteps.creator_eq {c c' : Call} {j j' : Jvm} {op : ThreadOp}
    (h : c.ThreadSteps ids k j op j' c') : c'.creator = c.creator ∧ c.thread ≠ .absent := by
  cases h <;> exact ⟨rfl, by simp_all⟩

theorem absent_step {e : Event} (h : s.Absent) (ht : s.step ids e = some t) : t.Absent := by
  cases step_cases ht with
  | call =>
    intro k c hc
    rcases getElem?_concat_cases hc with ⟨-, rfl⟩ | hc
    · exact fun _ => rfl
    · exact h k c hc
  | creator hk hstep =>
    refine absent_set h hk fun hcode => ?_
    cases hstep with
    | create hpc => simp_all [CreatorPc.code]
    | ret hpc => exact ⟨by simpa [hpc, CreatorPc.code] using hcode, rfl⟩
    | getEnv hpc _ | trace hpc _ | leaveError hpc | leave hpc =>
      exact ⟨by simp [hpc, CreatorPc.code], rfl⟩
  | thread hk hstep =>
    refine absent_set h hk fun hcode => ?_
    obtain ⟨hcreator, hthread⟩ := hstep.creator_eq
    exact absurd (h.code_eq hk hthread) (hcreator ▸ hcode)
  | join hk hpc =>
    refine absent_set h hk fun hcode => ?_
    exact absurd (h.code_eq hk (by simp [hpc])) hcode
  | attach _ => exact h
  | detach _ => exact h
  | collect _ => exact h

/-- The thread has not come to `record4Jni`. -/
def ThreadPc.beforeRecord : ThreadPc → Bool
  | .absent | .entered | .inEnv _ => true
  | _ => false

/-- There is no outcome of `record4Jni` before it is called. -/
def Sys.Unrecorded (s : Sys) : Prop :=
  ∀ (k : Nat) (c : Call), s.calls[k]? = some c → c.thread.beforeRecord = true → c.outcome = none

theorem unrecorded_initial (boot : Boot) : (Sys.initial boot).Unrecorded := by
  simp [Sys.Unrecorded, Sys.initial]

theorem unrecorded_set {c' : Call} {j : Jvm} (h : s.Unrecorded)
    (hself : c'.thread.beforeRecord = true → c'.outcome = none) :
    Sys.Unrecorded ⟨s.calls.set k c', j⟩ := by
  intro i d hd
  rcases getElem?_set_cases hd with ⟨-, rfl⟩ | ⟨-, hd⟩
  · exact hself
  · exact h i d hd

theorem Call.CreatorSteps.outcome_eq {c c' : Call} {j j' : Jvm} {op : CreatorOp}
    (h : c.CreatorSteps k j op j' c') : c'.outcome = c.outcome := by
  cases h <;> rfl

/-- A creator that steps before its creation has recorded nothing. -/
theorem Sys.Unrecorded.of_code {c : Call} (h : s.Unrecorded) (habs : s.Absent)
    (hk : s.calls[k]? = some c) (hcode : c.creator.code = none) : c.outcome = none := by
  have habsent := habs k c hk (by simp [hcode])
  exact h k c hk (by rw [habsent]; rfl)

theorem unrecorded_step {e : Event} (h : s.Unrecorded) (habs : s.Absent)
    (ht : s.step ids e = some t) : t.Unrecorded := by
  cases step_cases ht with
  | call =>
    intro k c hc
    rcases getElem?_concat_cases hc with ⟨-, rfl⟩ | hc
    · exact fun _ => rfl
    · exact h k c hc
  | @creator k op c c' j hk hstep =>
    refine unrecorded_set h fun hbefore => ?_
    rw [hstep.outcome_eq]
    rcases hstep.thread_eq with hthread | ⟨hready, -⟩
    · exact h k c hk (hthread ▸ hbefore)
    · exact h.of_code habs hk (by rw [hready]; rfl)
  | @thread k op c c' j hk hstep =>
    refine unrecorded_set h fun hbefore => ?_
    cases hstep with
    | getEnv hpc _ _ =>
      have hnone : c.outcome = none := h k c hk (by rw [hpc]; rfl)
      exact hnone
    | _ => exact absurd hbefore Bool.false_ne_true
  | join hk hpc => exact unrecorded_set h fun hbefore => absurd hbefore Bool.false_ne_true
  | attach _ => exact h
  | detach _ => exact h
  | collect _ => exact h

end Sys

end ElfHook.Thread

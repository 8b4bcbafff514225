import ElfHook.Thread.Steps

/-!
# A capture that fails

The native stack goes from the unwinder through the record to the new thread, and there through JNI
into `record4Jni`. `NULL` becomes a null `String`, whose `replaceAll` throws; nothing in `thread_call`
clears the exception.

* `no_exception_iff`: in every run, a thread that was recorded with its creator's trace has no
  exception pending, if and only if the unwinder had something to print and got a buffer for it.
* `not_no_exception`: a capture whose initialisation failed.
-/

namespace ElfHook.Thread

open Lib

/-- A Java exception is pending on the new thread. -/
def Call.pending (c : Call) : Bool := c.outcome.any fun p => p.2.thrown.isSome

/-- The record of each call keeps what the unwinder gave, its reference is in the table, and the
outcome of `record4Jni` with it depends on the native stack alone. -/
structure Call.Captures (j : Jvm) (c : Call) : Prop where
  native_stack : c.member.native_stack = xunwind_cfi_get c.unwinding TAG_bytes
  ref : ∀ r, c.member.js_stacktrace = some r → r < j.refs.length
  outcome : c.member.js_stacktrace.isSome = true → ∀ p ∈ c.outcome,
    (p.2.thrown = none ↔ c.member.native_stack.isSome = true)

def Sys.Captures (s : Sys) : Prop :=
  ∀ (k : Nat) (c : Call), s.calls[k]? = some c → c.Captures s.jvm

section Captures

variable {ids : RecordIds} {s t : Sys} {k : Nat} {c c' : Call} {j : Jvm}

theorem captures_initial (boot : Boot) : (Sys.initial boot).Captures := by
  simp [Sys.Captures, Sys.initial]

theorem captures_set (h : s.Captures) (hlen : s.jvm.refs.length ≤ j.refs.length)
    (hself : c'.Captures j) : Sys.Captures ⟨s.calls.set k c', j⟩ := by
  intro i d hd
  rcases getElem?_set_cases hd with ⟨-, rfl⟩ | ⟨-, hd⟩
  · exact hself
  · have hcap := h i d hd
    exact ⟨hcap.native_stack, fun r hr => Nat.lt_of_lt_of_le (hcap.ref r hr) hlen, hcap.outcome⟩

theorem captures_creator {op : CreatorOp} (h : s.Captures) (hunrec : s.Unrecorded)
    (habs : s.Absent) (hk : s.calls[k]? = some c) (hstep : c.CreatorSteps k s.jvm op j c') :
    Sys.Captures ⟨s.calls.set k c', j⟩ := by
  have hcap := h k c hk
  cases hstep with
  | getEnv hpc henv =>
    have hrefs := Jvm.getEnv_refs henv
    refine captures_set h (by rw [hrefs]) ⟨hcap.native_stack, ?_, hcap.outcome⟩
    rw [hrefs]
    exact hcap.ref
  | trace hpc hok =>
    have hnone := hunrec.of_code habs hk (by rw [hpc]; rfl)
    refine captures_set h (by simp [Jvm.newGlobalRef]) ⟨hcap.native_stack, ?_, ?_⟩
    · simp [Jvm.newGlobalRef]
    · simp [hnone]
  | leave hpc =>
    refine captures_set h (by simp) ⟨hcap.native_stack, ?_, hcap.outcome⟩
    simpa using hcap.ref
  | leaveError _ | create _ | ret _ =>
    exact captures_set h (Nat.le_refl _) ⟨hcap.native_stack, hcap.ref, hcap.outcome⟩

theorem captures_thread {op : ThreadOp} (h : s.Captures) (hk : s.calls[k]? = some c)
    (hstep : c.ThreadSteps ids k s.jvm op j c') : Sys.Captures ⟨s.calls.set k c', j⟩ := by
  have hcap := h k c hk
  cases hstep with
  | getEnv hpc hids henv =>
    have hrefs := Jvm.getEnv_refs henv
    refine captures_set h (by rw [hrefs]) ⟨hcap.native_stack, ?_, hcap.outcome⟩
    rw [hrefs]
    exact hcap.ref
  | @record garbage status thread result hpc hok hthread hresult =>
    refine captures_set h (Nat.le_refl _) ⟨hcap.native_stack, hcap.ref, ?_⟩
    intro hsome p hp
    obtain rfl := Option.some.inj hp
    obtain ⟨r, hr⟩ := Option.isSome_iff_exists.1 hsome
    -- the reference denotes a trace, so only the native stack can be null
    have htrace : (c.traceArg s.jvm garbage).isSome = true := by
      have hr : c.member.js_stacktrace = some r := hr
      simp only [Call.traceArg, hr, List.getElem?_eq_getElem (hcap.ref r hr), Option.map_some,
        Option.isSome_some]
    simp only [hresult, Call.record4Jni, record4Jni_thrown_eq_none, htrace, true_and,
      Option.isSome_map]
  | @delete garbage status hpc =>
    have hlen : ((c.member.js_stacktrace.or garbage).elim s.jvm s.jvm.deleteGlobalRef).refs.length =
        s.jvm.refs.length := by
      cases c.member.js_stacktrace.or garbage <;> simp [Jvm.deleteGlobalRef]
    refine captures_set h hlen.ge ⟨hcap.native_stack, ?_, hcap.outcome⟩
    rw [hlen]
    exact hcap.ref
  | leave hpc =>
    refine captures_set h (by simp) ⟨hcap.native_stack, ?_, hcap.outcome⟩
    simpa using hcap.ref
  | noIds _ _ | recordDetached _ _ _ | leaveError _ | routine _ | ret _ =>
    exact captures_set h (Nat.le_refl _) ⟨hcap.native_stack, hcap.ref, hcap.outcome⟩

theorem captures_step {e : Event} (h : s.Captures) (hunrec : s.Unrecorded) (habs : s.Absent)
    (ht : s.step ids e = some t) : t.Captures := by
  cases step_cases ht with
  | call =>
    intro k c hc
    rcases getElem?_concat_cases hc with ⟨-, rfl⟩ | hc
    · exact ⟨rfl, by simp [Call.begin], by simp [Call.begin]⟩
    · exact h k c hc
  | creator hk hstep => exact captures_creator h hunrec habs hk hstep
  | thread hk hstep => exact captures_thread h hk hstep
  | @join k c value result hk hpc =>
    have hcap := h k c hk
    exact captures_set h (Nat.le_refl _) ⟨hcap.native_stack, hcap.ref, hcap.outcome⟩
  | @attach u hu =>
    intro k c hk
    have hcap := h k c hk
    exact ⟨hcap.native_stack, by simpa using hcap.ref, hcap.outcome⟩
  | detach _ | collect _ =>
    intro k c hk
    have hcap := h k c hk
    exact ⟨hcap.native_stack, hcap.ref, hcap.outcome⟩

end Captures

/-- **Exceptions.** In every state of every run, a thread for which `record4Jni` has been called with
the trace of its creator, whatever the trace, has no exception pending (when the reference is deleted,
the thread detached, the start routine called, or later) if and only if `xunwind_cfi_get` was
initialised, and got a buffer by one of its first calls of `realloc`, as many as there are strings to
print. -/
theorem no_exception_iff {ids : RecordIds} {boot : Boot} {es : List Event} {t : Sys} {k : Nat}
    {c : Call} (hrun : run (Sys.step ids) (Sys.initial boot) es = some t)
    (hk : t.calls[k]? = some c) (hrecorded : c.outcome.isSome = true)
    (htrace : c.member.js_stacktrace.isSome = true) :
    c.pending = false ↔ c.unwinding.Captured TAG_bytes := by
  obtain ⟨-, -, hcaptures⟩ : t.Absent ∧ t.Unrecorded ∧ t.Captures :=
    run_invariant' (I := fun s => s.Absent ∧ s.Unrecorded ∧ s.Captures)
      (fun _ _ _ hs ht => ⟨absent_step hs.1 ht, unrecorded_step hs.2.1 hs.1 ht,
        captures_step hs.2.2 hs.2.1 hs.1 ht⟩)
      ⟨absent_initial boot, unrecorded_initial boot, captures_initial boot⟩ hrun
  have hcap := hcaptures k c hk
  obtain ⟨p, hp⟩ := Option.isSome_iff_exists.1 hrecorded
  rw [← xunwind_cfi_get_isSome, ← hcap.native_stack, ← hcap.outcome htrace p hp, Call.pending, hp]
  simp

/-! ### Two captures -/

section Sample

/-- The unwinder could not be initialised. -/
def failedUnwinding : Unwinding := ⟨1, .libbacktrace none, fun _ => true⟩

/-- The first call of `realloc`, for the frame, is refused; the second, for its newline, is not. -/
def lateUnwinding : Unwinding := { sampleUnwinding with realloc := fun n => n != 0 }

/-- A thread is created and recorded. -/
def captureRun (unwinding : Unwinding) : List Event :=
  [.call (.native 0) 0x40 0x50 unwinding, .creator 0 (.getEnv ⟨-2, 0⟩), .creator 0 (.trace []),
    .creator 0 .leave, .creator 0 (.create 0), .creator 0 .ret, .thread 0 (.getEnv ⟨-2, 0⟩),
    .thread 0 (.record none)]

/-- The system at the end of the run, and its call there. -/
def captured (unwinding : Unwinding) : Option (Sys × Call) :=
  (run (Sys.step sampleIds) (Sys.initial emptyBoot) (captureRun unwinding)).bind fun t =>
    t.calls[0]?.map fun c => (t, c)

/-- `record4Jni` throws, and the exception is pending at the `DeleteGlobalRef` that follows. -/
theorem not_no_exception :
    ((captured failedUnwinding).map fun p => (p.2.pending, p.2.thread)) =
      some (true, .recorded .needDetach) := by
  decide

/-- All that is left of the capture is the newline, and `record4Jni` returns normally. -/
theorem no_exception_lateUnwinding :
    xunwind_cfi_get lateUnwinding TAG_bytes = some [newline] ∧
      ∃ p, captured lateUnwinding = some p ∧ p.2.pending = false := by
  refine ⟨by decide, ?_⟩
  obtain ⟨p, hp⟩ : ∃ p, captured lateUnwinding = some p := ⟨_, rfl⟩
  obtain ⟨t, hrun, c, hk, rfl⟩ : ∃ t, run (Sys.step sampleIds) (Sys.initial emptyBoot)
      (captureRun lateUnwinding) = some t ∧ ∃ c, t.calls[0]? = some c ∧ (t, c) = p := by
    simpa [captured, Option.bind_eq_some_iff] using hp
  have hfacts : (captured lateUnwinding).all fun p =>
      p.2.outcome.isSome && p.2.member.js_stacktrace.isSome := by decide
  have hunwinding : (captured lateUnwinding).map (·.2.unwinding) = some lateUnwinding := rfl
  simp only [hp, Option.all_some, Option.map_some, Option.some.injEq, Bool.and_eq_true]
    at hfacts hunwinding
  refine ⟨(t, c), hp, (no_exception_iff hrun hk hfacts.1 hfacts.2).2 ?_⟩
  rw [hunwinding]
  exact ⟨rfl, 1, by decide, rfl⟩

end Sample

end ElfHook.Thread

import ElfHook.Thread.Steps

/-!
# The start stack of a running thread

`record4Jni` files the stack under the current `Thread` object, in a map that keeps no key alive. A
thread that `thread_call` itself attached is detached again before its start routine, so nothing
keeps the object from then on.

* `retrievable_iff`: in every run, the recorded stacks of the threads that have not finished their
  routine are in `STACK_MAP`, and a collection cannot take them, if and only if no step detaches such
  a thread.
* `not_retrievable`: the ordinary run, with a collection during the routine.
-/

namespace ElfHook.Thread

open Lib

/-- `record4Jni` has been called, and the start routine has not finished. -/
def ThreadPc.live : ThreadPc → Bool
  | .recorded _ | .deleted _ | .calling | .running => true
  | _ => false

/-- The entry filed for the thread, if `record4Jni` returned normally. -/
def Call.entry? (c : Call) : Option (ThreadObj × Text) :=
  c.outcome.bind fun p => if p.2.thrown = none then some (p.1, p.2.sb) else none

/-- `STACK_MAP` has the entry of every thread that was recorded and has not finished its routine, and
`getAllStacks` reports it. -/
def Sys.Retrievable (toString : ThreadObj → Text) (s : Sys) : Prop :=
  ∀ (k : Nat) (c : Call), s.calls[k]? = some c → c.thread.live = true → ∀ entry ∈ c.entry?,
    entry ∈ s.jvm.STACK_MAP ∧ sectionOf toString entry <:+: getAllStacks toString s.jvm.STACK_MAP

/-- The stacks are retrievable, and still are after any collection that may come next. -/
def Sys.StaysRetrievable (ids : RecordIds) (toString : ThreadObj → Text) (s : Sys) : Prop :=
  s.Retrievable toString ∧
    ∀ thread t, s.step ids (.collect thread) = some t → t.Retrievable toString

/-- The thread has been recorded normally and has not finished its routine. -/
def Sys.recordedLive (s : Sys) : OsThread → Bool
  | .native _ => false
  | .created k => s.calls[k]?.any fun c => c.thread.live && c.entry?.isSome

/-- The thread that a step detaches: by code outside the hook, or by a hook part whose `getJNIEnv` has
attached it. -/
def Sys.detaches (s : Sys) : Event → Option OsThread
  | .detach t => some t
  | .creator k .leave =>
    s.calls[k]?.bind fun c => if c.creator = .stored .needDetach then some c.caller else none
  | .thread k .leave =>
    s.calls[k]?.bind fun c => if c.thread = .deleted .needDetach then some (.created k) else none
  | _ => none

/-- The step detaches no thread that was recorded and has not finished its routine. For the detachment
of `thread_call` itself: the thread was attached before, and the status is `normal`. -/
def Sys.KeepsAttached (s : Sys) (e : Event) : Prop :=
  ∀ t ∈ s.detaches e, s.recordedLive t = false

instance (s : Sys) (e : Event) : Decidable (s.KeepsAttached e) :=
  inferInstanceAs (Decidable (∀ t ∈ _, _))

/-! ### Attachments -/

section Attached

variable {j : Jvm} {t : OsThread} {o : ThreadObj}

theorem mem_of_currentThread (h : j.currentThread t = some o) : (t, o) ∈ j.attached := by
  obtain ⟨p, hp, rfl⟩ := Option.map_eq_some_iff.1 h
  have ht : p.1 = t := by simpa using List.find?_some hp
  rw [← ht]
  exact List.mem_of_find?_eq_some hp

theorem not_mem_of_currentThread_eq_none (h : j.currentThread t = none) : (t, o) ∉ j.attached := by
  intro hmem
  have hnone := List.find?_eq_none.1 (Option.map_eq_none_iff.1 h)
  exact hnone _ hmem (by simp)

theorem Jvm.currentThread_detach_self (j : Jvm) (t : OsThread) :
    (j.detach t).currentThread t = none := by
  simp [Jvm.detach, Jvm.currentThread, List.find?_filter]

theorem Jvm.currentThread_detach {u : OsThread} (hne : u ≠ t) :
    (j.detach u).currentThread t = j.currentThread t := by
  simp only [Jvm.detach, Jvm.currentThread, List.find?_filter]
  congr 2
  funext p
  by_cases hp : p.1 = t
  · simp [hp, Ne.symm hne]
  · simp [hp]

/-- The `Thread` objects handed out, and those of created threads belonging to one thread each. -/
structure Jvm.Exclusive (j : Jvm) : Prop where
  below : ∀ p ∈ j.attached, p.2 < j.nextObj
  unique : ∀ k o o', (OsThread.created k, o) ∈ j.attached → (OsThread.created k, o') ∈ j.attached →
    o = o'
  own : ∀ k o t, (OsThread.created k, o) ∈ j.attached → (t, o) ∈ j.attached → t = .created k

theorem Jvm.Exclusive.mem_iff (h : j.Exclusive) {k : Nat} :
    (OsThread.created k, o) ∈ j.attached ↔ j.currentThread (.created k) = some o := by
  constructor
  · intro hmem
    cases hcurrent : j.currentThread (.created k) with
    | none => exact absurd hmem (not_mem_of_currentThread_eq_none hcurrent)
    | some o' => rw [h.unique k o o' hmem (mem_of_currentThread hcurrent)]
  · exact mem_of_currentThread

theorem Jvm.attach_cases (j : Jvm) (t : OsThread) : j.attach t = j ∨ (j.currentThread t = none ∧
    j.attach t = { j with attached := (t, j.nextObj) :: j.attached, nextObj := j.nextObj + 1 }) := by
  unfold Jvm.attach
  split_ifs with hsome
  · exact Or.inl rfl
  · exact Or.inr ⟨Option.not_isSome_iff_eq_none.1 hsome, rfl⟩

theorem Jvm.currentThread_attach (u : OsThread) (h : j.currentThread t = some o) :
    (j.attach u).currentThread t = some o := by
  rcases j.attach_cases u with heq | ⟨hnone, heq⟩
  · rwa [heq]
  · have hne : u ≠ t := by
      rintro rfl
      rw [h] at hnone
      cases hnone
    rw [heq]
    simpa [Jvm.currentThread, hne] using h

theorem Jvm.currentThread_getEnv {u : OsThread} {a : EnvAnswer} {status : JniEnvStatus} {j' : Jvm}
    (henv : j.getEnv u a = some (status, j')) (h : j.currentThread t = some o) :
    j'.currentThread t = some o := by
  obtain ⟨-, -, ⟨-, rfl⟩ | ⟨-, rfl⟩⟩ := Jvm.getEnv_cases henv
  · exact Jvm.currentThread_attach u h
  · exact h

/-- An attachment hands out a new object or nothing. -/
theorem mem_attach {p : OsThread × ThreadObj} (h : p ∈ (j.attach t).attached) :
    p ∈ j.attached ∨ p = (t, j.nextObj) := by
  rcases j.attach_cases t with heq | ⟨-, heq⟩
  · exact Or.inl (heq ▸ h)
  · rw [heq] at h
    exact (List.mem_cons.1 h).symm

theorem Jvm.Exclusive.attach (h : j.Exclusive) (t : OsThread) : (j.attach t).Exclusive := by
  rcases j.attach_cases t with heq | ⟨hnone, heq⟩
  · rwa [heq]
  rw [heq]
  have hnew : ∀ t', (t', j.nextObj) ∉ j.attached := fun t' hmem =>
    absurd (h.below _ hmem) (Nat.lt_irrefl _)
  have hold : ∀ o', (t, o') ∉ j.attached := fun _ => not_mem_of_currentThread_eq_none hnone
  refine ⟨?_, ?_, ?_⟩
  · intro p hp
    rcases List.mem_cons.1 hp with rfl | hp
    · exact Nat.lt_succ_self _
    · exact Nat.lt_succ_of_lt (h.below p hp)
  · intro k o o' ho ho'
    rcases List.mem_cons.1 ho with heq | ho <;> rcases List.mem_cons.1 ho' with heq' | ho'
    · rw [(Prod.mk.inj heq).2, (Prod.mk.inj heq').2]
    · exact absurd ((Prod.mk.inj heq).1 ▸ ho') (hold o')
    · exact absurd ((Prod.mk.inj heq').1 ▸ ho) (hold o)
    · exact h.unique k o o' ho ho'
  · intro k o t' ho ho'
    rcases List.mem_cons.1 ho with heq | ho <;> rcases List.mem_cons.1 ho' with heq' | ho'
    · rw [(Prod.mk.inj heq).1, (Prod.mk.inj heq').1]
    · exact absurd ((Prod.mk.inj heq).2 ▸ ho') (hnew t')
    · exact absurd ((Prod.mk.inj heq').2 ▸ ho) (hnew _)
    · exact h.own k o t' ho ho'

/-- What a step does to the attachments: it may take some away, and hand out a new object. -/
structure Jvm.Grows (j j' : Jvm) : Prop where
  exclusive : j'.Exclusive
  next : j.nextObj ≤ j'.nextObj
  attached : ∀ p ∈ j'.attached, p ∈ j.attached ∨ p.2 = j.nextObj

theorem Jvm.Exclusive.grows {j' : Jvm} (h : j.Exclusive) (hsub : j'.attached ⊆ j.attached)
    (hnext : j'.nextObj = j.nextObj) : j.Grows j' where
  exclusive :=
    ⟨fun p hp => hnext ▸ h.below p (hsub hp),
      fun k o o' ho ho' => h.unique k o o' (hsub ho) (hsub ho'),
      fun k o t ho ho' => h.own k o t (hsub ho) (hsub ho')⟩
  next := hnext.ge
  attached := fun _ hp => Or.inl (hsub hp)

theorem Jvm.Exclusive.grows_attach (h : j.Exclusive) (t : OsThread) : j.Grows (j.attach t) where
  exclusive := h.attach t
  next := by
    rcases j.attach_cases t with heq | ⟨-, heq⟩ <;> rw [heq]
    exact Nat.le_succ _
  attached := by
    intro p hp
    rcases mem_attach hp with hp | rfl
    · exact Or.inl hp
    · exact Or.inr rfl

theorem Jvm.Exclusive.grows_detach (h : j.Exclusive) (t : OsThread) : j.Grows (j.detach t) :=
  h.grows (fun _ hp => List.mem_of_mem_filter hp) rfl

theorem Jvm.Exclusive.grows_leave (h : j.Exclusive) (t : OsThread) (status : JniEnvStatus) :
    j.Grows (j.leave t status) := by
  unfold Jvm.leave
  split_ifs
  · exact h.grows_detach t
  · exact h.grows (List.Subset.refl _) rfl

theorem Jvm.Exclusive.grows_getEnv (h : j.Exclusive) {a : EnvAnswer} {status : JniEnvStatus}
    {j' : Jvm} (henv : j.getEnv t a = some (status, j')) : j.Grows j' := by
  obtain ⟨-, -, ⟨-, rfl⟩ | ⟨-, rfl⟩⟩ := Jvm.getEnv_cases henv
  · exact h.grows_attach t
  · exact h.grows (List.Subset.refl _) rfl

end Attached

/-! ### Keys -/

/-- Each call records under a `Thread` object of its own. -/
structure Sys.Keyed (s : Sys) : Prop where
  absent : s.Absent
  jvm : s.jvm.Exclusive
  unrecorded : s.Unrecorded
  own : ∀ (k : Nat) (c : Call), s.calls[k]? = some c → ∀ p ∈ c.outcome, p.1 < s.jvm.nextObj ∧
    ∀ t, (t, p.1) ∈ s.jvm.attached → t = .created k
  distinct : ∀ (i k : Nat) (c d : Call), s.calls[i]? = some c → s.calls[k]? = some d →
    ∀ p ∈ c.outcome, ∀ q ∈ d.outcome, p.1 = q.1 → i = k

section Keyed

variable {ids : RecordIds} {s t : Sys} {k : Nat} {c c' : Call} {j : Jvm}

theorem keyed_initial (boot : Boot) : (Sys.initial boot).Keyed where
  absent := absent_initial boot
  jvm := by
    refine ⟨?_, ?_, ?_⟩
    · intro p hp
      obtain ⟨q, hq, rfl⟩ := List.mem_map.1 hp
      exact boot.fresh q hq
    · intro k o o' ho
      simp [Sys.initial] at ho
    · intro k o t ho
      simp [Sys.initial] at ho
  unrecorded := unrecorded_initial boot
  own := by simp [Sys.initial]
  distinct := by simp [Sys.initial]

/-- The keys in use stay apart while the attachments grow. -/
theorem Sys.Keyed.own_of_grows (h : s.Keyed) (hgrows : s.jvm.Grows j) {i : Nat} {d : Call}
    (hd : s.calls[i]? = some d) : ∀ p ∈ d.outcome, p.1 < j.nextObj ∧
      ∀ t, (t, p.1) ∈ j.attached → t = .created i := by
  intro p hp
  obtain ⟨hlt, hown⟩ := h.own i d hd p hp
  refine ⟨Nat.lt_of_lt_of_le hlt hgrows.next, fun t ht => ?_⟩
  rcases hgrows.attached _ ht with ht | hnew
  · exact hown t ht
  · exact absurd hnew (Nat.ne_of_lt hlt)

/-- A step that records nothing. -/
theorem keyed_set (h : s.Keyed) (hk : s.calls[k]? = some c) (hgrows : s.jvm.Grows j)
    (habs : Sys.Absent ⟨s.calls.set k c', j⟩) (hunrec : Sys.Unrecorded ⟨s.calls.set k c', j⟩)
    (houtcome : c'.outcome = c.outcome) : Sys.Keyed ⟨s.calls.set k c', j⟩ where
  absent := habs
  jvm := hgrows.exclusive
  unrecorded := hunrec
  own := by
    intro i d hd
    rcases getElem?_set_cases hd with ⟨rfl, rfl⟩ | ⟨-, hd⟩
    · rw [houtcome]
      exact h.own_of_grows hgrows hk
    · exact h.own_of_grows hgrows hd
  distinct := by
    -- every outcome is one of before
    have hold : ∀ (i : Nat) (d : Call), (s.calls.set k c')[i]? = some d →
        ∃ d₀, s.calls[i]? = some d₀ ∧ d.outcome = d₀.outcome := by
      intro i d hd
      rcases getElem?_set_cases hd with ⟨rfl, rfl⟩ | ⟨-, hd⟩
      · exact ⟨c, hk, houtcome⟩
      · exact ⟨d, hd, rfl⟩
    intro i i' d d' hd hd' p hp q hq
    obtain ⟨d₀, hd₀, heq⟩ := hold i d hd
    obtain ⟨d₁, hd₁, heq'⟩ := hold i' d' hd'
    exact h.distinct i i' d₀ d₁ hd₀ hd₁ p (heq ▸ hp) q (heq' ▸ hq)

/-- No other call has recorded under the object that the thread of the call `k` is attached as. -/
theorem Sys.Keyed.eq_of_attached (h : s.Keyed) {i : Nat} {d : Call} {thread : ThreadObj}
    (hthread : s.jvm.currentThread (.created k) = some thread) (hd : s.calls[i]? = some d)
    {p : ThreadObj × RecordResult} (hp : p ∈ d.outcome) (heq : p.1 = thread) : i = k := by
  have hcreated := (h.own i d hd p hp).2 (.created k) (heq ▸ mem_of_currentThread hthread)
  exact (OsThread.created.inj hcreated).symm

theorem keyed_record {status : JniEnvStatus} {thread : ThreadObj} {result : RecordResult}
    (h : s.Keyed) (hk : s.calls[k]? = some c)
    (hthread : s.jvm.currentThread (.created k) = some thread)
    (habs : Sys.Absent ⟨s.calls.set k
      { c with thread := .recorded status, outcome := some (thread, result) },
      s.jvm.record thread result⟩)
    (hunrec : Sys.Unrecorded ⟨s.calls.set k
      { c with thread := .recorded status, outcome := some (thread, result) },
      s.jvm.record thread result⟩) :
    Sys.Keyed ⟨s.calls.set k { c with thread := .recorded status, outcome := some (thread, result) },
      s.jvm.record thread result⟩ where
  absent := habs
  jvm := ⟨h.jvm.below, h.jvm.unique, h.jvm.own⟩
  unrecorded := hunrec
  own := by
    intro i d hd
    rcases getElem?_set_cases hd with ⟨rfl, rfl⟩ | ⟨-, hd⟩
    · intro p hp
      obtain rfl : (thread, result) = p := Option.some.inj hp
      have hmem := mem_of_currentThread hthread
      exact ⟨h.jvm.below _ hmem, fun t ht => h.jvm.own _ _ t hmem ht⟩
    · exact h.own i d hd
  distinct := by
    intro i i' d d' hd hd' p hp q hq heq
    rcases getElem?_set_cases hd with ⟨rfl, rfl⟩ | ⟨-, hold⟩ <;>
      rcases getElem?_set_cases hd' with ⟨rfl, rfl⟩ | ⟨-, hold'⟩
    · rfl
    · obtain rfl : (thread, result) = p := Option.some.inj hp
      exact (h.eq_of_attached hthread hold' hq heq.symm).symm
    · obtain rfl : (thread, result) = q := Option.some.inj hq
      exact h.eq_of_attached hthread hold hp heq
    · exact h.distinct i i' d d' hold hold' p hp q hq heq

theorem Call.CreatorSteps.grows {op : CreatorOp} (h : c.CreatorSteps k s.jvm op j c')
    (hexcl : s.jvm.Exclusive) : s.jvm.Grows j ∧ j.STACK_MAP = s.jvm.STACK_MAP := by
  cases h with
  | getEnv _ henv => exact ⟨hexcl.grows_getEnv henv, Jvm.getEnv_STACK_MAP henv⟩
  | leave _ => exact ⟨hexcl.grows_leave _ _, Jvm.leave_STACK_MAP _ _ _⟩
  | trace _ _ | leaveError _ | create _ | ret _ =>
    exact ⟨hexcl.grows (List.Subset.refl _) rfl, rfl⟩

/-- A step of a new thread that records: the outcome and the maps change. -/
def Call.Records (c : Call) (k : Nat) (j : Jvm) (j' : Jvm) (c' : Call) : Prop :=
  ∃ status thread result, c.thread = .inEnv status ∧
    j.currentThread (.created k) = some thread ∧ j' = j.record thread result ∧
      c' = { c with thread := .recorded status, outcome := some (thread, result) }

/-- Every other step of a new thread keeps the outcome and the maps, and the thread is live after it
only if it was or has recorded nothing. -/
theorem Call.ThreadSteps.records_or {op : ThreadOp} (h : c.ThreadSteps ids k s.jvm op j c')
    (hexcl : s.jvm.Exclusive) : c.Records k s.jvm j c' ∨
      (s.jvm.Grows j ∧ j.STACK_MAP = s.jvm.STACK_MAP ∧ c'.outcome = c.outcome ∧
        (c'.thread.live = true → c.thread.live = true ∨ c.thread.beforeRecord = true)) := by
  have hsame : s.jvm.Grows s.jvm := hexcl.grows (List.Subset.refl _) rfl
  cases h with
  | getEnv hpc _ henv =>
    exact Or.inr ⟨hexcl.grows_getEnv henv, Jvm.getEnv_STACK_MAP henv, rfl, by simp [ThreadPc.live]⟩
  | record hpc _ hthread _ => exact Or.inl ⟨_, _, _, hpc, hthread, rfl, rfl⟩
  | @delete garbage status hpc =>
    obtain ⟨hatt, hnext, hmap⟩ := Jvm.deleteGlobalRef_elim s.jvm
      (c.member.js_stacktrace.or garbage)
    exact Or.inr ⟨hexcl.grows (by rw [hatt]; exact List.Subset.refl _) hnext, hmap, rfl,
      by simp [hpc, ThreadPc.live]⟩
  | leave hpc =>
    exact Or.inr ⟨hexcl.grows_leave _ _, Jvm.leave_STACK_MAP _ _ _, rfl,
      by simp [hpc, ThreadPc.live]⟩
  | noIds hpc _ | recordDetached hpc _ _ | leaveError hpc | routine hpc | ret hpc =>
    exact Or.inr ⟨hsame, rfl, rfl, by simp [hpc, ThreadPc.live, ThreadPc.beforeRecord]⟩

theorem keyed_step {e : Event} (h : s.Keyed) (ht : s.step ids e = some t) : t.Keyed := by
  have habs := absent_step h.absent ht
  have hunrec := unrecorded_step h.unrecorded h.absent ht
  cases step_cases ht with
  | call =>
    refine ⟨habs, h.jvm, hunrec, ?_, ?_⟩
    · intro k c hc
      rcases getElem?_concat_cases hc with ⟨-, rfl⟩ | hc
      · simp [Call.begin]
      · exact h.own k c hc
    · intro i k c d hc hd p hp q hq
      rcases getElem?_concat_cases hc with ⟨-, rfl⟩ | hc
      · cases hp
      · rcases getElem?_concat_cases hd with ⟨-, rfl⟩ | hd
        · cases hq
        · exact h.distinct i k c d hc hd p hp q hq
  | creator hk hstep => exact keyed_set h hk (hstep.grows h.jvm).1 habs hunrec hstep.outcome_eq
  | @thread k op c c' j hk hstep =>
    rcases hstep.records_or h.jvm with ⟨status, thread, result, -, hthread, rfl, rfl⟩ |
      ⟨hgrows, -, houtcome, -⟩
    · exact keyed_record h hk hthread habs hunrec
    · exact keyed_set h hk hgrows habs hunrec houtcome
  | join hk hpc =>
    exact keyed_set h hk (h.jvm.grows (List.Subset.refl _) rfl) habs hunrec rfl
  | @attach u hu =>
    have hgrows := h.jvm.grows_attach u
    exact ⟨habs, hgrows.exclusive, hunrec, fun k c hk => h.own_of_grows hgrows hk, h.distinct⟩
  | @detach u hu =>
    have hgrows := h.jvm.grows_detach u
    exact ⟨habs, hgrows.exclusive, hunrec, fun k c hk => h.own_of_grows hgrows hk, h.distinct⟩
  | collect _ => exact ⟨habs, ⟨h.jvm.below, h.jvm.unique, h.jvm.own⟩, hunrec, h.own, h.distinct⟩

end Keyed

/-! ### Entries -/

/-- The entries of live threads are in the map. -/
def Sys.Filed (s : Sys) : Prop :=
  ∀ (k : Nat) (c : Call), s.calls[k]? = some c → c.thread.live = true → ∀ entry ∈ c.entry?,
    entry ∈ s.jvm.STACK_MAP

theorem retrievable_iff_filed {toString : ThreadObj → Text} {s : Sys} :
    s.Retrievable toString ↔ s.Filed := by
  constructor
  · exact fun h k c hk hlive entry hentry => (h k c hk hlive entry hentry).1
  · intro h k c hk hlive entry hentry
    have hmem := h k c hk hlive entry hentry
    exact ⟨hmem, section_infix_getAllStacks hmem⟩

section Filed

variable {ids : RecordIds} {s t : Sys} {k : Nat} {c c' : Call} {j : Jvm}

theorem entry?_of_outcome {entry : ThreadObj × Text} (h : entry ∈ c.entry?) :
    ∃ result, c.outcome = some (entry.1, result) := by
  obtain ⟨⟨thread, result⟩, hout, hentry⟩ := Option.bind_eq_some_iff.1 h
  split_ifs at hentry
  cases hentry
  exact ⟨result, hout⟩

/-- The threads that were recorded and have not finished their routine are still attached as the
objects that they were recorded under. -/
def Sys.Held (s : Sys) : Prop :=
  ∀ (k : Nat) (c : Call), s.calls[k]? = some c → c.thread.live = true → ∀ entry ∈ c.entry?,
    s.jvm.currentThread (.created k) = some entry.1

/-- Where the entries of live threads after a step come from: the step has recorded the thread, or it
was live before with the same entry. -/
theorem entry_cases {e : Event} (hunrec : s.Unrecorded) (hexcl : s.jvm.Exclusive)
    (ht : s.step ids e = some t) {d : Call} (hd : t.calls[k]? = some d) (hlive : d.thread.live = true)
    {entry : ThreadObj × Text} (hentry : entry ∈ d.entry?) :
    (t.jvm.currentThread (.created k) = some entry.1 ∧ entry ∈ t.jvm.STACK_MAP) ∨
      ∃ c, s.calls[k]? = some c ∧ c.thread.live = true ∧ entry ∈ c.entry? := by
  cases step_cases ht with
  | call =>
    rcases getElem?_concat_cases hd with ⟨-, rfl⟩ | hd
    · exact absurd hlive Bool.false_ne_true
    · exact Or.inr ⟨d, hd, hlive, hentry⟩
  | @creator i op c c' j hk hstep =>
    rcases getElem?_set_cases hd with ⟨rfl, rfl⟩ | ⟨-, hd⟩
    · rcases hstep.thread_eq with hthread | ⟨-, hthread⟩
      · rw [Call.entry?, hstep.outcome_eq] at hentry
        exact Or.inr ⟨c, hk, hthread ▸ hlive, hentry⟩
      · rw [hthread] at hlive
        exact absurd hlive Bool.false_ne_true
    · exact Or.inr ⟨d, hd, hlive, hentry⟩
  | @thread i op c c' j hk hstep =>
    rcases getElem?_set_cases hd with ⟨rfl, rfl⟩ | ⟨-, hd⟩
    · rcases hstep.records_or hexcl with ⟨status, thread, result, -, hthread, rfl, rfl⟩ |
        ⟨-, -, houtcome, hbefore⟩
      · obtain ⟨p, hp, hentry⟩ := Option.bind_eq_some_iff.1 hentry
        obtain rfl := Option.some.inj hp
        split_ifs at hentry with hthrown
        cases hentry
        refine Or.inl ⟨hthread, ?_⟩
        simp only [Jvm.record, if_pos hthrown]
        exact mem_put.2 (Or.inl rfl)
      · rw [Call.entry?, houtcome] at hentry
        rcases hbefore hlive with hlive | hbefore
        · exact Or.inr ⟨c, hk, hlive, hentry⟩
        · rw [hunrec k c hk hbefore] at hentry
          cases hentry
    · exact Or.inr ⟨d, hd, hlive, hentry⟩
  | @join i c value result hk hpc =>
    rcases getElem?_set_cases hd with ⟨rfl, rfl⟩ | ⟨-, hd⟩
    · exact absurd hlive Bool.false_ne_true
    · exact Or.inr ⟨d, hd, hlive, hentry⟩
  | attach _ | detach _ | collect _ => exact Or.inr ⟨d, hd, hlive, hentry⟩

/-- The entry of a thread that is still attached as its key stays in the map: a `put` is under the
object of another thread, and a collection takes no object that a thread is attached as. -/
theorem mem_STACK_MAP_step {e : Event} (hkeyed : s.Keyed) (ht : s.step ids e = some t)
    (hk : s.calls[k]? = some c) (hlive : c.thread.live = true) {entry : ThreadObj × Text}
    (hentry : entry ∈ c.entry?) (hheld : s.jvm.currentThread (.created k) = some entry.1)
    (hmem : entry ∈ s.jvm.STACK_MAP) : entry ∈ t.jvm.STACK_MAP := by
  cases step_cases ht with
  | call | join _ _ | detach _ => exact hmem
  | @creator i op d d' j hi hstep =>
    change entry ∈ j.STACK_MAP
    rwa [(hstep.grows hkeyed.jvm).2]
  | @thread i op d d' j hi hstep =>
    change entry ∈ j.STACK_MAP
    rcases hstep.records_or hkeyed.jvm with ⟨status, thread, result, hpc, hthread, rfl, -⟩ |
      ⟨-, hmap, -, -⟩
    · have hne : entry.1 ≠ thread := by
        rintro rfl
        obtain ⟨result', hout⟩ := entry?_of_outcome hentry
        obtain rfl := hkeyed.eq_of_attached hthread hk hout rfl
        obtain rfl := Option.some.inj (hk.symm.trans hi)
        rw [hpc] at hlive
        exact Bool.false_ne_true hlive
      simp only [Jvm.record]
      split_ifs
      · exact mem_put.2 (Or.inr ⟨hmem, hne⟩)
      · exact hmem
    · rwa [hmap]
  | @attach u hu =>
    change entry ∈ (s.jvm.attach u).STACK_MAP
    rwa [Jvm.attach_STACK_MAP]
  | collect hweak =>
    refine mem_drop.2 ⟨hmem, ?_⟩
    exact hweak _ (mem_of_currentThread hheld)

theorem filed_step {e : Event} (hkeyed : s.Keyed) (hheld : s.Held) (h : s.Filed)
    (ht : s.step ids e = some t) : t.Filed := by
  intro k d hd hlive entry hentry
  rcases entry_cases hkeyed.unrecorded hkeyed.jvm ht hd hlive hentry with ⟨-, hmem⟩ |
    ⟨c, hk, hlive, hentry⟩
  · exact hmem
  · exact mem_STACK_MAP_step hkeyed ht hk hlive hentry (hheld k c hk hlive entry hentry)
      (h k c hk hlive entry hentry)

/-- A thread that a step does not detach stays attached as the same object. -/
theorem currentThread_step {e : Event} {u : OsThread} {o : ThreadObj} (ht : s.step ids e = some t)
    (hdetach : u ∉ s.detaches e) (h : s.jvm.currentThread u = some o) :
    t.jvm.currentThread u = some o := by
  cases step_cases ht with
  | call | join _ _ | collect _ => exact h
  | @creator k op c c' j hk hstep =>
    cases hstep with
    | getEnv _ henv => exact Jvm.currentThread_getEnv henv h
    | @leave status hpc =>
      simp only [Jvm.leave]
      split_ifs with hstatus
      · have hne : c.caller ≠ u := by simpa [Sys.detaches, hk, hpc, hstatus] using hdetach
        exact (Jvm.currentThread_detach hne).trans h
      · exact h
    | trace _ _ | leaveError _ | create _ | ret _ => exact h
  | @thread k op c c' j hk hstep =>
    cases hstep with
    | getEnv _ _ henv => exact Jvm.currentThread_getEnv henv h
    | @delete garbage status hpc =>
      have hattached := (Jvm.deleteGlobalRef_elim s.jvm (c.member.js_stacktrace.or garbage)).1
      simpa only [Jvm.currentThread, hattached] using h
    | @leave status hpc =>
      simp only [Jvm.leave]
      split_ifs with hstatus
      · have hne : OsThread.created k ≠ u := by
          simpa [Sys.detaches, hk, hpc, hstatus] using hdetach
        exact (Jvm.currentThread_detach hne).trans h
      · exact h
    | noIds _ _ | record _ _ _ _ | recordDetached _ _ _ | leaveError _ | routine _ | ret _ => exact h
  | attach _ => exact Jvm.currentThread_attach _ h
  | @detach v hv =>
    have hne : v ≠ u := by simpa [Sys.detaches] using hdetach
    exact (Jvm.currentThread_detach hne).trans h

theorem recordedLive_of_entry (hk : s.calls[k]? = some c) (hlive : c.thread.live = true)
    {entry : ThreadObj × Text} (hentry : entry ∈ c.entry?) : s.recordedLive (.created k) = true := by
  have hsome : c.entry?.isSome = true := Option.isSome_iff_exists.2 ⟨entry, hentry⟩
  simp [Sys.recordedLive, hk, hlive, hsome]

theorem held_step {e : Event} (hkeyed : s.Keyed) (h : s.Held) (hkeeps : s.KeepsAttached e)
    (ht : s.step ids e = some t) : t.Held := by
  intro k d hd hlive entry hentry
  rcases entry_cases hkeyed.unrecorded hkeyed.jvm ht hd hlive hentry with ⟨hcurrent, -⟩ |
    ⟨c, hk, hlive, hentry⟩
  · exact hcurrent
  · refine currentThread_step ht (fun hdetach => ?_) (h k c hk hlive entry hentry)
    have hlive' := recordedLive_of_entry hk hlive hentry
    rw [hkeeps _ hdetach] at hlive'
    exact Bool.false_ne_true hlive'

/-- A step that detaches a thread leaves it without a `Thread` object, and every call with its entry. -/
theorem detaches_step {e : Event} {u : OsThread} (ht : s.step ids e = some t)
    (hdetach : u ∈ s.detaches e) (hk : s.calls[k]? = some c) (hlive : c.thread.live = true) :
    t.jvm.currentThread u = none ∧
      ∃ d, t.calls[k]? = some d ∧ d.thread.live = true ∧ d.entry? = c.entry? := by
  have hset : ∀ (i : Nat) (d d' : Call), s.calls[i]? = some d → d'.outcome = d.outcome →
      (d.thread.live = true → d'.thread.live = true) →
        ∃ e, (s.calls.set i d')[k]? = some e ∧ e.thread.live = true ∧ e.entry? = c.entry? := by
    intro i d d' hi houtcome hthread
    by_cases hik : i = k
    · subst hik
      obtain rfl := Option.some.inj (hk.symm.trans hi)
      exact ⟨d', List.getElem?_set_self (List.getElem?_eq_some_iff.1 hk).1, hthread hlive,
        by rw [Call.entry?, houtcome, Call.entry?]⟩
    · exact ⟨c, (List.getElem?_set_ne hik).trans hk, hlive, rfl⟩
  cases step_cases ht with
  | @creator i op d d' j hi hstep =>
    cases hstep with
    | @leave status hpc =>
      obtain ⟨rfl, rfl⟩ : status = .needDetach ∧ d.caller = u := by
        simpa [Sys.detaches, hi, hpc] using hdetach
      exact ⟨Jvm.currentThread_detach_self _ _, hset i d _ hi rfl id⟩
    | leaveError hpc => simp [Sys.detaches, hi, hpc] at hdetach
    | getEnv _ _ | trace _ _ | create _ | ret _ => cases hdetach
  | @thread i op d d' j hi hstep =>
    cases hstep with
    | @leave status hpc =>
      obtain ⟨rfl, rfl⟩ : status = .needDetach ∧ OsThread.created i = u := by
        simpa [Sys.detaches, hi, hpc] using hdetach
      exact ⟨Jvm.currentThread_detach_self _ _, hset i d _ hi rfl fun _ => rfl⟩
    | leaveError hpc => simp [Sys.detaches, hi, hpc] at hdetach
    | getEnv _ _ _ | noIds _ _ | record _ _ _ _ | recordDetached _ _ _ | delete _ | routine _
    | ret _ => cases hdetach
  | @detach v hv =>
    obtain rfl := Option.some.inj hdetach
    exact ⟨Jvm.currentThread_detach_self _ _, c, hk, hlive, rfl⟩
  | call | join _ _ | attach _ | collect _ => cases hdetach

/-- The collector may take the entry of a call exactly when the thread is not attached as its key. -/
theorem collect_enabled_iff (hkeyed : s.Keyed) (hk : s.calls[k]? = some c)
    {entry : ThreadObj × Text} (hentry : entry ∈ c.entry?) :
    (∃ u, s.step ids (.collect entry.1) = some u) ↔
      s.jvm.currentThread (.created k) ≠ some entry.1 := by
  obtain ⟨result, hout⟩ := entry?_of_outcome hentry
  constructor
  · rintro ⟨u, hu⟩ hcurrent
    cases step_cases hu with
    | collect hweak => exact hweak _ (mem_of_currentThread hcurrent) rfl
  · intro hcurrent
    have hweak : ∀ p ∈ s.jvm.attached, p.2 ≠ entry.1 := by
      rintro ⟨t, o⟩ hp rfl
      obtain rfl := (hkeyed.own k c hk _ hout).2 t hp
      exact hcurrent (hkeyed.jvm.mem_iff.1 hp)
    exact ⟨_, if_pos (by simpa using hweak)⟩

/-- A step that detaches a live thread lets the collector take its entry. -/
theorem keepsAttached_of_staysRetrievable {e : Event} {toString : ThreadObj → Text} (hkeyed : s.Keyed)
    (ht : s.step ids e = some t) (hstays : t.StaysRetrievable ids toString) :
    s.KeepsAttached e := by
  intro u hdetach
  cases u with
  | native i => rfl
  | created k =>
    refine Bool.eq_false_iff.2 fun hrecorded => ?_
    obtain ⟨c, hk, hc⟩ := (Option.any_eq_true _ _).1 hrecorded
    obtain ⟨hlive, hsome⟩ := (Bool.and_eq_true_iff).1 hc
    obtain ⟨entry, hentry⟩ := Option.isSome_iff_exists.1 hsome
    obtain ⟨hnone, d, hd, hdlive, hdentry⟩ := detaches_step ht hdetach hk hlive
    have hentry' : entry ∈ d.entry? := hdentry.trans hentry
    have hcollect : t.jvm.currentThread (.created k) ≠ some entry.1 := by
      rw [hnone]
      exact fun h => Option.some_ne_none _ h.symm
    obtain ⟨v, hv⟩ := (collect_enabled_iff (keyed_step hkeyed ht) hd hentry').2 hcollect
    have hretrievable := hstays.2 _ v hv
    cases step_cases hv with
    | collect _ => exact (mem_drop.1 (hretrievable k d hd hdlive entry hentry').1).2 rfl

theorem Sys.Filed.staysRetrievable {toString : ThreadObj → Text} (h : s.Filed) (hkeyed : s.Keyed)
    (hheld : s.Held) : s.StaysRetrievable ids toString :=
  ⟨retrievable_iff_filed.2 h,
    fun _ _ hu => retrievable_iff_filed.2 (filed_step hkeyed hheld h hu)⟩

end Filed

/-- **The recorded stacks.** In every run of any number of threads: after every step, the stacks of the
threads that were recorded and have not finished their routine are in `STACK_MAP` and reported by
`getAllStacks`, and are still after any collection that may come next, if and only if no step of the
run detaches such a thread. -/
theorem retrievable_iff (ids : RecordIds) (boot : Boot) (toString : ThreadObj → Text)
    (es : List Event) :
    Along (Sys.step ids)
        (fun s e => ∀ t, s.step ids e = some t → t.StaysRetrievable ids toString)
        (Sys.initial boot) es ↔
      Along (Sys.step ids) (fun s e => (∃ t, s.step ids e = some t) → s.KeepsAttached e)
        (Sys.initial boot) es := by
  refine along_iff_of_invariant (I := fun s => s.Keyed ∧ s.Filed ∧ s.Held) (R := fun _ _ => True)
    ?_ ?_ ⟨keyed_initial boot, by simp [Sys.Filed, Sys.initial], by simp [Sys.Held, Sys.initial]⟩
    (along_true _ _)
  · rintro s e ⟨hkeyed, hfiled, hheld⟩ -
    constructor
    · rintro h ⟨t, ht⟩
      exact keepsAttached_of_staysRetrievable hkeyed ht (h t ht)
    · intro hkeeps t ht
      exact (filed_step hkeyed hheld hfiled ht).staysRetrievable (keyed_step hkeyed ht)
        (held_step hkeyed hheld (hkeeps ⟨t, ht⟩) ht)
  · rintro s e t ⟨hkeyed, hfiled, hheld⟩ - hkeeps ht
    exact ⟨keyed_step hkeyed ht, filed_step hkeyed hheld hfiled ht,
      held_step hkeyed hheld (hkeeps ⟨t, ht⟩) ht⟩

/-! ### A collection during the routine -/

section Sample

/-- The usual run: creator and new thread are attached for the hook parts only. -/
def usualRun : List Event :=
  [.call (.native 0) 0x40 0x50 sampleUnwinding, .creator 0 (.getEnv ⟨-2, 0⟩), .creator 0 (.trace []),
    .creator 0 .leave, .creator 0 (.create 0), .creator 0 .ret, .thread 0 (.getEnv ⟨-2, 0⟩),
    .thread 0 (.record none), .thread 0 (.delete none), .thread 0 .leave, .thread 0 .routine]

/-- While the routine runs, the collector takes the `Thread` object that the stack was filed under. -/
theorem not_retrievable :
    (run (Sys.step sampleIds) (Sys.initial emptyBoot) (usualRun ++ [.collect 1])).isSome = true ∧
      ¬ Along (Sys.step sampleIds)
        (fun s e => ∀ t, s.step sampleIds e = some t → t.Retrievable fun _ => [])
        (Sys.initial emptyBoot) (usualRun ++ [.collect 1]) := by
  refine ⟨rfl, fun h => ?_⟩
  have hcollect := ((along_concat (by rfl)).1 h).2
  obtain ⟨hmem, -⟩ := hcollect _ rfl 0 _ rfl rfl _ rfl
  cases hmem

/-- The new thread is attached as the object 1 before `thread_call` asks, and detaches itself only
after its routine; meanwhile the collector runs. -/
def attachedRun : List Event :=
  [.call (.native 0) 0x40 0x50 sampleUnwinding, .creator 0 (.getEnv ⟨-2, 0⟩),
    .creator 0 (.trace []), .creator 0 .leave, .creator 0 (.create 0), .attach (.created 0),
    .creator 0 .ret, .thread 0 (.getEnv ⟨0, 0⟩), .thread 0 (.record none), .thread 0 (.delete none),
    .collect 0, .thread 0 .leave, .thread 0 .routine, .collect 0]

theorem retrievable_attachedRun :
    (run (Sys.step sampleIds) (Sys.initial emptyBoot) attachedRun).isSome = true ∧
      Along (Sys.step sampleIds)
        (fun s e => ∀ t, s.step sampleIds e = some t → t.StaysRetrievable sampleIds fun _ => [])
        (Sys.initial emptyBoot) attachedRun := by
  refine ⟨rfl, (retrievable_iff sampleIds emptyBoot (fun _ => []) attachedRun).2 ?_⟩
  have hkeeps : Along (Sys.step sampleIds) Sys.KeepsAttached (Sys.initial emptyBoot) attachedRun := by
    decide
  exact along_of_invariant (I := fun _ => True) (fun _ _ _ _ _ _ => trivial)
    (fun _ _ _ h _ => h) trivial hkeeps

end Sample

end ElfHook.Thread

import ElfHook.Thread.Steps

/-!
# The references to start stack traces

`thread_create_proxy` obtains a global reference to the creator's stack trace and hands it to the new
thread in the record; `thread_call` uses it and deletes it. Each side looks at the status of its own
`getJNIEnv` only.

* `references_disciplined`: in every run in which the answers to the two `getJNIEnv`s agree, and the
  creations of creators with a `JNIEnv` succeed (`Matched`), every use is of the call's own live
  reference and every reference is deleted exactly once.
* `not_references_disciplined`: a creator without a `JNIEnv` leaves the field unwritten, and the new
  thread uses it.
-/

namespace ElfHook.Thread

open Lib

/-- The thread is past its `DeleteGlobalRef`, or past the point where it leaves it out. -/
def ThreadPc.pastDelete : ThreadPc → Bool
  | .deleted _ | .calling | .running | .exited _ _ | .joined => true
  | _ => false

/-- The thread is past the recording part of `thread_call`. -/
def ThreadPc.pastRecording : ThreadPc → Bool
  | .calling | .running | .exited _ _ | .joined => true
  | _ => false

/-- The event passes the `js_stacktrace` of the call `k` to `record4Jni` or to `DeleteGlobalRef`. -/
def Event.Uses (k : Nat) : Event → Prop
  | .thread k' (.record _) => k' = k
  | .thread k' (.delete _) => k' = k
  | _ => False

/-- A step uses only the reference that the same call has stored, and before its deletion. -/
def Sys.UsesOwnRef (ids : RecordIds) (s : Sys) (e : Event) : Prop :=
  ∀ t, s.step ids e = some t → ∀ k, e.Uses k → ∃ c r ref, s.calls[k]? = some c ∧
    c.member.js_stacktrace = some r ∧ s.jvm.refs[r]? = some ref ∧ ref.owner = k ∧ ref.deleted = 0

/-- Every reference is deleted at most once, and has been once its thread is past the recording part
or its call has returned without a thread. -/
def Sys.RefsDeleted (s : Sys) : Prop :=
  ∀ (r : RefId) (ref : GlobalRef), s.jvm.refs[r]? = some ref → ref.deleted ≤ 1 ∧
    ∀ c : Call, s.calls[ref.owner]? = some c →
      (c.thread.pastRecording = true → ref.deleted = 1) ∧
        ∀ rc, c.creator = .returned rc → rc ≠ 0 → ref.deleted = 1

/-- The step is disciplined, and so is the state after it. -/
def Sys.Disciplined (ids : RecordIds) (s : Sys) (e : Event) : Prop :=
  s.UsesOwnRef ids e ∧ ∀ t, s.step ids e = some t → t.RefsDeleted

/-- What the outside answers in a run, call by call: if the creator's `getJNIEnv` is no error, the
original `pthread_create` returns `0`; and it is no error exactly if the new thread finds the ids, and
its own `getJNIEnv` is no error either. -/
def Matched (ids : RecordIds) (es : List Event) : Prop :=
  ∀ k a, .creator k (.getEnv a) ∈ es →
    (∀ rc, .creator k (.create rc) ∈ es → getJNIEnv a ≠ .error → rc = 0) ∧
      ∀ b, .thread k (.getEnv b) ∈ es →
        (getJNIEnv a ≠ .error ↔ ids.ready = true ∧ getJNIEnv b ≠ .error)

/-! ### Answers -/

/-- What the creator has made of the answer to its `getJNIEnv`: a reference, once it is past the
point where it is stored. -/
def Call.FollowsAnswer (c : Call) (a : EnvAnswer) : Prop :=
  match c.creator with
  | .prepared => False
  | .inEnv status => status = getJNIEnv a
  | .stored _ | .ready | .created _ | .returned _ =>
    c.member.js_stacktrace.isSome = true ↔ getJNIEnv a ≠ .error

/-- Every creator past its `getJNIEnv` follows an answer among the events. -/
def Sys.Answered (es : List Event) (s : Sys) : Prop :=
  ∀ (k : Nat) (c : Call), s.calls[k]? = some c → c.creator = .prepared ∨
    ∃ a, .creator k (.getEnv a) ∈ es ∧ c.FollowsAnswer a

section Answered

variable {ids : RecordIds} {s t : Sys} {es : List Event} {k : Nat} {c c' : Call} {j : Jvm}

theorem answered_initial (es : List Event) (boot : Boot) : (Sys.initial boot).Answered es := by
  simp [Sys.Answered, Sys.initial]

theorem answered_set (h : s.Answered es) (hself : c'.creator = .prepared ∨
    ∃ a, .creator k (.getEnv a) ∈ es ∧ c'.FollowsAnswer a) :
    Sys.Answered es ⟨s.calls.set k c', j⟩ := by
  intro i d hd
  rcases getElem?_set_cases hd with ⟨rfl, rfl⟩ | ⟨-, hd⟩
  · exact hself
  · exact h i d hd

/-- A step that changes neither the creator nor its reference. -/
theorem answered_set_of_eq (h : s.Answered es) (hk : s.calls[k]? = some c)
    (hcreator : c'.creator = c.creator) (hmember : c'.member = c.member) :
    Sys.Answered es ⟨s.calls.set k c', j⟩ := by
  have hsame : ∀ a, c'.FollowsAnswer a ↔ c.FollowsAnswer a := by
    intro a
    unfold Call.FollowsAnswer
    rw [hcreator, hmember]
  refine answered_set h ?_
  simp only [hcreator, hsame]
  exact h k c hk

/-- The answer that a creator past its `getJNIEnv` has got. -/
theorem Sys.Answered.answer (h : s.Answered es) (hk : s.calls[k]? = some c)
    (hpc : c.creator ≠ .prepared) : ∃ a, .creator k (.getEnv a) ∈ es ∧ c.FollowsAnswer a :=
  (h k c hk).resolve_left hpc

theorem answered_creator {op : CreatorOp} (h : s.Answered es)
    (hunwritten : ∀ status, c.creator = .inEnv status → c.member.js_stacktrace = none)
    (hk : s.calls[k]? = some c) (he : .creator k op ∈ es)
    (hstep : c.CreatorSteps k s.jvm op j c') : Sys.Answered es ⟨s.calls.set k c', j⟩ := by
  refine answered_set h (Or.inr ?_)
  cases hstep with
  | @getEnv a j' status hpc henv =>
    obtain ⟨-, rfl, -⟩ := Jvm.getEnv_cases henv
    exact ⟨a, he, rfl⟩
  | @trace trace status hpc hok =>
    obtain ⟨a, ha, hfollows⟩ := h.answer hk (by simp [hpc])
    rw [Call.FollowsAnswer, hpc] at hfollows
    exact ⟨a, ha, iff_of_true rfl (hfollows ▸ hok)⟩
  | leaveError hpc =>
    obtain ⟨a, ha, hfollows⟩ := h.answer hk (by simp [hpc])
    rw [Call.FollowsAnswer, hpc] at hfollows
    have hnone := hunwritten _ hpc
    exact ⟨a, ha, by simp [Call.FollowsAnswer, hnone, ← hfollows]⟩
  | leave hpc | create hpc | ret hpc =>
    obtain ⟨a, ha, hfollows⟩ := h.answer hk (by simp [hpc])
    rw [Call.FollowsAnswer, hpc] at hfollows
    exact ⟨a, ha, hfollows⟩

/-- A creation with a reference succeeds. -/
theorem Matched.create {rc : Int} (h : Matched ids es) (hs : s.Answered es)
    (hk : s.calls[k]? = some c) (hpc : c.creator = .ready) (he : .creator k (.create rc) ∈ es)
    (hjs : c.member.js_stacktrace.isSome = true) : rc = 0 := by
  obtain ⟨a, ha, hfollows⟩ := hs.answer hk (by simp [hpc])
  rw [Call.FollowsAnswer, hpc] at hfollows
  exact (h k a ha).1 rc he (hfollows.1 hjs)

/-- The new thread comes to its use exactly if there is a reference. -/
theorem Matched.getEnv {b : EnvAnswer} (h : Matched ids es) (hs : s.Answered es)
    (hk : s.calls[k]? = some c) (hcode : c.creator.code = some 0)
    (he : .thread k (.getEnv b) ∈ es) :
    c.member.js_stacktrace.isSome = true ↔ ids.ready = true ∧ getJNIEnv b ≠ .error := by
  obtain ⟨a, ha, hfollows⟩ := hs.answer hk fun hpc => by simp [hpc, CreatorPc.code] at hcode
  refine Iff.trans ?_ ((h k a ha).2 b he)
  unfold Call.FollowsAnswer at hfollows
  cases hpc : c.creator <;> simp_all [CreatorPc.code]

end Answered

/-! ### Ownership -/

/-- What the call `k` has to do with the references. -/
structure Call.Owns (refs : List GlobalRef) (k : Nat) (c : Call) : Prop where
  unwritten : (c.creator = .prepared ∨ ∃ status, c.creator = .inEnv status) →
    c.member.js_stacktrace = none
  ref : ∀ r, c.member.js_stacktrace = some r → ∃ ref, refs[r]? = some ref ∧ ref.owner = k ∧
    ref.deleted = if c.thread.pastDelete then 1 else 0
  failed : ∀ rc, c.creator.code = some rc → rc ≠ 0 → c.member.js_stacktrace = none
  inEnv : ∀ status, c.thread = .inEnv status →
    (c.member.js_stacktrace.isSome = true ↔ status ≠ .error)
  recorded : ∀ status, c.thread = .recorded status → c.member.js_stacktrace.isSome = true

/-- Calls and references belong to each other. -/
structure Sys.Owned (s : Sys) : Prop where
  owns : ∀ (k : Nat) (c : Call), s.calls[k]? = some c → c.Owns s.jvm.refs k
  owner : ∀ (r : RefId) (ref : GlobalRef), s.jvm.refs[r]? = some ref →
    ∃ c : Call, s.calls[ref.owner]? = some c ∧ c.member.js_stacktrace = some r

section Owned

variable {ids : RecordIds} {s t : Sys} {es : List Event} {k : Nat} {c c' : Call} {j : Jvm}

theorem owned_initial (boot : Boot) : (Sys.initial boot).Owned :=
  ⟨by simp [Sys.initial], by simp [Sys.initial]⟩

/-- The references that a call owns are the one that it holds. -/
theorem Sys.Owned.js_stacktrace_eq (h : s.Owned) (hk : s.calls[k]? = some c) {r : RefId}
    {ref : GlobalRef} (href : s.jvm.refs[r]? = some ref) (howner : ref.owner = k) :
    c.member.js_stacktrace = some r := by
  obtain ⟨d, hd, hr⟩ := h.owner r ref href
  rw [howner, hk] at hd
  obtain rfl := Option.some.inj hd
  exact hr

/-- A step of the call `k` that touches no reference of another call. -/
theorem owned_set (h : s.Owned) (hk : s.calls[k]? = some c) (hself : c'.Owns j.refs k)
    (hkeep : ∀ (r : RefId) (ref : GlobalRef), s.jvm.refs[r]? = some ref → ref.owner ≠ k →
      j.refs[r]? = some ref)
    (hback : ∀ (r : RefId) (ref : GlobalRef), j.refs[r]? = some ref →
      (ref.owner ≠ k ∧ s.jvm.refs[r]? = some ref) ∨
        (ref.owner = k ∧ c'.member.js_stacktrace = some r)) :
    Sys.Owned ⟨s.calls.set k c', j⟩ := by
  constructor
  · intro i d hd
    rcases getElem?_set_cases hd with ⟨rfl, rfl⟩ | ⟨hik, hd⟩
    · exact hself
    · have howns := h.owns i d hd
      refine ⟨howns.unwritten, ?_, howns.failed, howns.inEnv, howns.recorded⟩
      intro r hr
      obtain ⟨ref, href, howner, hdel⟩ := howns.ref r hr
      exact ⟨ref, hkeep r ref href (by rw [howner]; exact hik), howner, hdel⟩
  · intro r ref href
    have hlt : k < s.calls.length := (List.getElem?_eq_some_iff.1 hk).1
    rcases hback r ref href with ⟨hne, href⟩ | ⟨howner, hr⟩
    · obtain ⟨d, hd, hjs⟩ := h.owner r ref href
      exact ⟨d, by rw [List.getElem?_set_ne (Ne.symm hne)]; exact hd, hjs⟩
    · exact ⟨c', by rw [howner]; exact List.getElem?_set_self hlt, hr⟩

/-- A step of the call `k` that leaves all references and its own field as they are. -/
theorem owned_set_of_refs_eq (h : s.Owned) (hk : s.calls[k]? = some c)
    (hself : c'.Owns s.jvm.refs k) (hrefs : j.refs = s.jvm.refs)
    (hjs : c'.member.js_stacktrace = c.member.js_stacktrace) :
    Sys.Owned ⟨s.calls.set k c', j⟩ := by
  refine owned_set h hk (hrefs ▸ hself) (fun r ref href _ => hrefs ▸ href) ?_
  intro r ref href
  rw [hrefs] at href
  by_cases howner : ref.owner = k
  · exact Or.inr ⟨howner, hjs.trans (h.js_stacktrace_eq hk href howner)⟩
  · exact Or.inl ⟨howner, href⟩

/-- The creator stores its reference. -/
theorem owned_trace (h : s.Owned) (habs : s.Absent) (hk : s.calls[k]? = some c)
    {status : JniEnvStatus} (hpc : c.creator = .inEnv status) (trace : List StackTraceElement) :
    Sys.Owned ⟨s.calls.set k { c with
      member := { c.member with js_stacktrace := some s.jvm.refs.length }
      creator := .stored status }, s.jvm.newGlobalRef k trace⟩ := by
  have hjs := (h.owns k c hk).unwritten (Or.inr ⟨_, hpc⟩)
  have habsent := habs k c hk (by simp [hpc, CreatorPc.code])
  refine owned_set h hk ⟨?_, ?_, ?_, ?_, ?_⟩ ?_ ?_
  · simp
  · intro r hr
    obtain rfl := Option.some.inj hr
    exact ⟨⟨k, trace, 0⟩, by simp [Jvm.newGlobalRef], rfl, by simp [habsent, ThreadPc.pastDelete]⟩
  · simp [CreatorPc.code]
  · simp [habsent]
  · simp [habsent]
  · intro r ref href _
    exact List.getElem?_append_left (List.getElem?_eq_some_iff.1 href).1 ▸ href
  · intro r ref href
    simp only [Jvm.newGlobalRef] at href
    by_cases hlt : r < s.jvm.refs.length
    · rw [List.getElem?_append_left hlt] at href
      refine Or.inl ⟨fun howner => ?_, href⟩
      -- the call had no reference before
      rw [h.js_stacktrace_eq hk href howner] at hjs
      cases hjs
    · rw [List.getElem?_append_right (Nat.le_of_not_lt hlt), List.getElem?_singleton] at href
      split_ifs at href with hr
      obtain rfl := Option.some.inj href
      have hlen : s.jvm.refs.length = r :=
        Nat.le_antisymm (Nat.le_of_not_lt hlt) (Nat.sub_eq_zero_iff_le.1 hr)
      exact Or.inr ⟨rfl, congrArg some hlen⟩

theorem owned_creator {op : CreatorOp} (h : s.Owned) (habs : s.Absent) (hanswered : s.Answered es)
    (hmatched : Matched ids es) (hk : s.calls[k]? = some c) (he : .creator k op ∈ es)
    (hstep : c.CreatorSteps k s.jvm op j c') : Sys.Owned ⟨s.calls.set k c', j⟩ := by
  have howns := h.owns k c hk
  cases hstep with
  | getEnv hpc henv =>
    have hjs := howns.unwritten (Or.inl hpc)
    refine owned_set_of_refs_eq h hk ⟨fun _ => hjs, howns.ref, ?_, howns.inEnv, howns.recorded⟩
      (Jvm.getEnv_refs henv) rfl
    exact fun _ _ _ => hjs
  | @trace trace status hpc _ => exact owned_trace h habs hk hpc trace
  | leaveError hpc =>
    exact owned_set_of_refs_eq h hk ⟨by simp, howns.ref, by simp [CreatorPc.code], howns.inEnv,
      howns.recorded⟩ rfl rfl
  | leave hpc =>
    exact owned_set_of_refs_eq h hk ⟨by simp, howns.ref, by simp [CreatorPc.code], howns.inEnv,
      howns.recorded⟩ (Jvm.leave_refs _ _ _) rfl
  | @create rc hpc =>
    have habsent := habs k c hk (by simp [hpc, CreatorPc.code])
    have hsucceeds := hmatched.create hanswered hk hpc he
    refine owned_set_of_refs_eq h hk ⟨by simp, ?_, ?_, ?_, ?_⟩ rfl rfl
    · intro r hr
      obtain ⟨ref, href, howner, hdel⟩ := howns.ref r hr
      refine ⟨ref, href, howner, hdel.trans ?_⟩
      by_cases hrc : rc = 0 <;> simp [habsent, hrc, ThreadPc.pastDelete]
    · intro rc' hcode hrc'
      obtain rfl : rc = rc' := by simpa [CreatorPc.code] using hcode
      exact Option.not_isSome_iff_eq_none.1 fun hsome => hrc' (hsucceeds hsome)
    · by_cases hrc : rc = 0 <;> simp [habsent, hrc]
    · by_cases hrc : rc = 0 <;> simp [habsent, hrc]
  | @ret rc hpc =>
    have hcode : c.creator.code = some rc := by simp [hpc, CreatorPc.code]
    exact owned_set_of_refs_eq h hk ⟨by simp, howns.ref, fun rc' hrc' => howns.failed rc'
      (by rw [hcode]; exact hrc'), howns.inEnv, howns.recorded⟩ rfl rfl

/-- The new thread deletes its reference. -/
theorem owned_delete (h : s.Owned) (hk : s.calls[k]? = some c) {status : JniEnvStatus}
    (hpc : c.thread = .recorded status) (garbage : Option RefId) :
    Sys.Owned ⟨s.calls.set k { c with thread := .deleted status },
      (c.member.js_stacktrace.or garbage).elim s.jvm s.jvm.deleteGlobalRef⟩ := by
  have howns := h.owns k c hk
  obtain ⟨r, hr⟩ := Option.isSome_iff_exists.1 (howns.recorded _ hpc)
  obtain ⟨ref, href, howner, hdel⟩ := howns.ref r hr
  have hrefs : ((c.member.js_stacktrace.or garbage).elim s.jvm s.jvm.deleteGlobalRef).refs =
      s.jvm.refs.modify r fun ref => { ref with deleted := ref.deleted + 1 } := by
    rw [hr]
    rfl
  refine owned_set h hk ⟨howns.unwritten, ?_, howns.failed, by simp, by simp⟩ ?_ ?_
  · intro r' hr'
    obtain rfl : r = r' := by simpa [hr] using hr'
    refine ⟨{ ref with deleted := ref.deleted + 1 }, ?_, howner, ?_⟩
    · rw [hrefs, List.getElem?_modify_eq, href]
      rfl
    · simp [hdel, hpc, ThreadPc.pastDelete]
  · intro r' ref' href' hne
    rw [hrefs, List.getElem?_modify_ne]
    · exact href'
    · rintro rfl
      rw [href] at href'
      exact hne (Option.some.inj href' ▸ howner)
  · intro r' ref' href'
    rw [hrefs] at href'
    by_cases hrr : r = r'
    · subst hrr
      rw [List.getElem?_modify_eq, href] at href'
      obtain rfl := Option.some.inj href'
      exact Or.inr ⟨howner, hr⟩
    · rw [List.getElem?_modify_ne _ _ hrr] at href'
      refine Or.inl ⟨fun howner' => hrr ?_, href'⟩
      have hr' := h.js_stacktrace_eq hk href' howner'
      exact Option.some.inj (hr.symm.trans hr')

theorem owned_thread {op : ThreadOp} (h : s.Owned) (habs : s.Absent) (hanswered : s.Answered es)
    (hmatched : Matched ids es) (hk : s.calls[k]? = some c) (he : .thread k op ∈ es)
    (hstep : c.ThreadSteps ids k s.jvm op j c') : Sys.Owned ⟨s.calls.set k c', j⟩ := by
  have howns := h.owns k c hk
  cases hstep with
  | @getEnv a j' status hpc hids henv =>
    obtain ⟨-, rfl, -⟩ := Jvm.getEnv_cases henv
    have huses := hmatched.getEnv hanswered hk (habs.code_eq hk (by simp [hpc])) he
    refine owned_set_of_refs_eq h hk ⟨howns.unwritten, ?_, howns.failed, ?_, by simp⟩
      (Jvm.getEnv_refs henv) rfl
    · simpa [hpc, ThreadPc.pastDelete] using howns.ref
    · intro status hstatus
      obtain rfl : getJNIEnv a = status := by simpa using hstatus
      simpa [hids] using huses
  | noIds hpc hids =>
    have huses := hmatched.getEnv hanswered hk (habs.code_eq hk (by simp [hpc])) he
    have hjs : c.member.js_stacktrace = none := by
      rw [hids] at huses
      exact Option.not_isSome_iff_eq_none.1 fun hsome => Bool.false_ne_true (huses.1 hsome).1
    refine owned_set_of_refs_eq h hk ⟨howns.unwritten, ?_, howns.failed, by simp, by simp⟩ rfl rfl
    simp [hjs]
  | record hpc hok _ _ | recordDetached hpc hok _ =>
    have hsome := (howns.inEnv _ hpc).2 hok
    refine owned_set_of_refs_eq h hk ⟨howns.unwritten, ?_, howns.failed, by simp, ?_⟩ rfl rfl
    · simpa [hpc, ThreadPc.pastDelete] using howns.ref
    · exact fun _ _ => hsome
  | @delete garbage status hpc => exact owned_delete h hk hpc garbage
  | leaveError hpc =>
    have hjs : c.member.js_stacktrace = none := by
      refine Option.not_isSome_iff_eq_none.1 fun hsome => ?_
      exact (howns.inEnv _ hpc).1 hsome rfl
    refine owned_set_of_refs_eq h hk ⟨howns.unwritten, ?_, howns.failed, by simp, by simp⟩ rfl rfl
    simp [hjs]
  | leave hpc =>
    refine owned_set_of_refs_eq h hk ⟨howns.unwritten, ?_, howns.failed, by simp, by simp⟩
      (Jvm.leave_refs _ _ _) rfl
    simpa [hpc, ThreadPc.pastDelete] using howns.ref
  | routine hpc | ret hpc =>
    refine owned_set_of_refs_eq h hk ⟨howns.unwritten, ?_, howns.failed, by simp, by simp⟩ rfl rfl
    simpa [hpc, ThreadPc.pastDelete] using howns.ref

theorem owned_join {value result : Ptr} (h : s.Owned) (hk : s.calls[k]? = some c)
    (hpc : c.thread = .exited value result) :
    Sys.Owned ⟨s.calls.set k { c with thread := .joined }, s.jvm⟩ := by
  have howns := h.owns k c hk
  refine owned_set_of_refs_eq h hk ⟨howns.unwritten, ?_, howns.failed, by simp, by simp⟩ rfl rfl
  simpa [hpc, ThreadPc.pastDelete] using howns.ref

theorem owned_begin (h : s.Owned) (caller : OsThread) (start_routine arg : Ptr)
    (unwinding : Unwinding) :
    Sys.Owned ⟨s.calls ++ [Call.begin caller start_routine arg unwinding], s.jvm⟩ := by
  constructor
  · intro k c hc
    rcases getElem?_concat_cases hc with ⟨-, rfl⟩ | hc
    · exact ⟨fun _ => rfl, by simp [Call.begin], by simp [Call.begin, CreatorPc.code],
        by simp [Call.begin], by simp [Call.begin]⟩
    · exact h.owns k c hc
  · intro r ref href
    obtain ⟨c, hc, hr⟩ := h.owner r ref href
    exact ⟨c, List.getElem?_append_left (List.getElem?_eq_some_iff.1 hc).1 ▸ hc, hr⟩

theorem owned_step {e : Event} (h : s.Owned) (habs : s.Absent) (hanswered : s.Answered es)
    (hmatched : Matched ids es) (he : e ∈ es) (ht : s.step ids e = some t) : t.Owned := by
  cases step_cases ht with
  | call => exact owned_begin h _ _ _ _
  | creator hk hstep => exact owned_creator h habs hanswered hmatched hk he hstep
  | thread hk hstep => exact owned_thread h habs hanswered hmatched hk he hstep
  | join hk hpc => exact owned_join h hk hpc
  | attach _ => exact ⟨by simpa using h.owns, by simpa using h.owner⟩
  | detach _ => exact ⟨h.owns, h.owner⟩
  | collect _ => exact ⟨h.owns, h.owner⟩

theorem answered_step {e : Event} (hanswered : s.Answered es) (h : s.Owned) (he : e ∈ es)
    (ht : s.step ids e = some t) : t.Answered es := by
  cases step_cases ht with
  | call =>
    intro k c hc
    rcases getElem?_concat_cases hc with ⟨-, rfl⟩ | hc
    · exact Or.inl rfl
    · exact hanswered k c hc
  | @creator k op c c' j hk hstep =>
    refine answered_creator hanswered (fun status hpc => ?_) hk he hstep
    exact (h.owns k c hk).unwritten (Or.inr ⟨status, hpc⟩)
  | thread hk hstep =>
    exact answered_set_of_eq hanswered hk hstep.creator_eq.1 (by cases hstep <;> rfl)
  | join hk hpc => exact answered_set_of_eq hanswered hk rfl rfl
  | attach _ | detach _ | collect _ => exact hanswered

theorem Sys.Owned.refsDeleted (h : s.Owned) : s.RefsDeleted := by
  intro r ref href
  obtain ⟨c, hc, hr⟩ := h.owner r ref href
  have howns := h.owns _ c hc
  obtain ⟨ref', href', -, hdel⟩ := howns.ref r hr
  obtain rfl : ref = ref' := Option.some.inj (href.symm.trans href')
  refine ⟨by rw [hdel]; split_ifs <;> decide, ?_⟩
  intro d hd
  obtain rfl : c = d := Option.some.inj (hc.symm.trans hd)
  refine ⟨fun hpast => ?_, fun rc hpc hrc => ?_⟩
  · rw [hdel]
    cases hthread : c.thread <;> simp_all [ThreadPc.pastRecording, ThreadPc.pastDelete]
  · have hnone := howns.failed rc (by rw [hpc]; rfl) hrc
    rw [hr] at hnone
    cases hnone

theorem Sys.Owned.usesOwnRef (h : s.Owned) (e : Event) : s.UsesOwnRef ids e := by
  intro t ht k huses
  have huse : ∀ c, s.calls[k]? = some c → c.member.js_stacktrace.isSome = true →
      c.thread.pastDelete = false → ∃ c r ref, s.calls[k]? = some c ∧
        c.member.js_stacktrace = some r ∧ s.jvm.refs[r]? = some ref ∧ ref.owner = k ∧
          ref.deleted = 0 := by
    intro c hc hsome hpast
    obtain ⟨r, hr⟩ := Option.isSome_iff_exists.1 hsome
    obtain ⟨ref, href, howner, hdel⟩ := (h.owns k c hc).ref r hr
    exact ⟨c, r, ref, hc, hr, href, howner, by rw [hdel, hpast]; rfl⟩
  cases step_cases ht with
  | thread hk hstep =>
    cases hstep with
    | record hpc hok hthread hresult =>
      obtain rfl := huses
      exact huse _ hk (((h.owns _ _ hk).inEnv _ hpc).2 hok) (by rw [hpc]; rfl)
    | recordDetached hpc hok hthread =>
      obtain rfl := huses
      exact huse _ hk (((h.owns _ _ hk).inEnv _ hpc).2 hok) (by rw [hpc]; rfl)
    | delete hpc =>
      obtain rfl := huses
      exact huse _ hk ((h.owns _ _ hk).recorded _ hpc) (by rw [hpc]; rfl)
    | _ => exact absurd huses id
  | _ => exact absurd huses id

end Owned

/-- **The references.** In every run, of any number of calls in any interleaving, in which the answers
to the creator's `getJNIEnv`, to the new thread's and of the original `pthread_create` are matched for
each call: every use is of the reference stored in the same record, not deleted yet, and every
reference is deleted exactly once. -/
theorem references_disciplined (ids : RecordIds) (boot : Boot) (es : List Event)
    (h : Matched ids es) : Along (Sys.step ids) (Sys.Disciplined ids) (Sys.initial boot) es := by
  refine along_of_invariant (I := fun s => s.Owned ∧ s.Absent ∧ s.Answered es) ?_ ?_
    ⟨owned_initial boot, absent_initial boot, answered_initial es boot⟩ (along_mem _ es)
  · rintro s e t ⟨howned, habs, hanswered⟩ he ht
    exact ⟨owned_step howned habs hanswered h he ht, absent_step habs ht,
      answered_step hanswered howned he ht⟩
  · rintro s e ⟨howned, habs, hanswered⟩ he
    exact ⟨howned.usesOwnRef e,
      fun _ ht => (owned_step howned habs hanswered h he ht).refsDeleted⟩

/-! ### Two runs of one call -/

section Sample

/-- The creator has no `JNIEnv` (`GetEnv` says `JNI_EVERSION`), the new thread has one. -/
def unmatchedRun : List Event :=
  [.call (.native 0) 0x40 0x50 sampleUnwinding, .creator 0 (.getEnv ⟨-3, 0⟩), .creator 0 .leave,
    .creator 0 (.create 0), .thread 0 (.getEnv ⟨-2, 0⟩), .thread 0 (.record none)]

/-- The new thread records with a field that was never written. -/
theorem not_references_disciplined :
    (run (Sys.step sampleIds) (Sys.initial emptyBoot) unmatchedRun).isSome = true ∧
      ¬ Along (Sys.step sampleIds) (Sys.Disciplined sampleIds) (Sys.initial emptyBoot)
        unmatchedRun := by
  refine ⟨rfl, fun h => ?_⟩
  have hrecord := ((((((h.2 _ rfl).2 _ rfl).2 _ rfl).2 _ rfl).2 _ rfl).1).1
  obtain ⟨c, r, ref, hc, hr, -⟩ := hrecord _ rfl 0 rfl
  cases hc
  cases hr

/-- The frames of a creator. -/
def sampleTrace : List StackTraceElement :=
  [⟨"dalvik.system.VMStack".toList, "getThreadStackTrace".toList, "VMStack.java".toList⟩,
    ⟨"com.yan.hook.MainActivity".toList, "onCreate".toList, "MainActivity.java:20".toList⟩]

/-- Two creators at once. Both threads of the first call have a `JNIEnv`, and the creation succeeds;
neither thread of the second has one. -/
def matchedRun : List Event :=
  [.call (.native 0) 0x40 0x50 sampleUnwinding, .call (.native 1) 0x44 0x54 sampleUnwinding,
    .creator 0 (.getEnv ⟨-2, 0⟩), .creator 1 (.getEnv ⟨-3, 0⟩), .creator 0 (.trace sampleTrace),
    .creator 1 .leave, .creator 1 (.create 0), .creator 0 .leave, .creator 0 (.create 0),
    .thread 1 (.getEnv ⟨-2, -1⟩), .thread 0 (.getEnv ⟨-2, 0⟩), .creator 0 .ret,
    .thread 0 (.record none), .thread 1 .leave, .thread 0 (.delete none), .thread 0 .leave,
    .thread 0 .routine, .thread 1 .routine, .thread 0 (.ret 0x60)]

/-- The run is taken to its end; the trace of the first creator is what its thread records. -/
theorem references_disciplined_matchedRun :
    ((run (Sys.step sampleIds) (Sys.initial emptyBoot) matchedRun).map fun t =>
        t.jvm.refs.map fun ref => (ref.owner, ref.trace, ref.deleted)) =
      some [(0, sampleTrace, 1)] ∧
    Along (Sys.step sampleIds) (Sys.Disciplined sampleIds) (Sys.initial emptyBoot) matchedRun := by
  refine ⟨rfl, references_disciplined _ _ _ ?_⟩
  intro k a ha
  have hk : k = 0 ∧ a = ⟨-2, 0⟩ ∨ k = 1 ∧ a = ⟨-3, 0⟩ := by simpa [matchedRun] using ha
  rcases hk with ⟨rfl, rfl⟩ | ⟨rfl, rfl⟩
  · refine ⟨fun rc hrc _ => by simpa [matchedRun] using hrc, fun b hb => ?_⟩
    obtain rfl : b = ⟨-2, 0⟩ := by simpa [matchedRun] using hb
    decide
  · refine ⟨fun rc _ hok => absurd rfl hok, fun b hb => ?_⟩
    obtain rfl : b = ⟨-2, -1⟩ := by simpa [matchedRun] using hb
    decide

end Sample

end ElfHook.Thread

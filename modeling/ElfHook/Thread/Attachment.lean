import ElfHook.Lib.Run
import ElfHook.Thread.Jni

/-!
# Attachment under re-entrancy

One native thread in the hook parts that call into Java: `thread_create_proxy`, `logJavaStack` and
the recording part of `thread_call`. The virtual machine may run code that creates threads at any
point of a part, so each part may be re-entered before it goes on; the open parts form a stack.

* `Frame.during`: the attachment that an open part is responsible for while no part is open above it.
* `attachment_neutral`: in every run, each part leaves the attachment as it found it, detaches only
  what it attached, and makes its calls while the thread is attached.
* `exists_run_leave`: every open part can come to its end.
-/

namespace ElfHook.Thread

open Lib

/-- The functions of `JNIEnv` that the parts call. -/
inductive JniFunction where
  | CallStaticObjectMethod
  | CallObjectMethod
  | NewGlobalRef
  | GetStringUTFChars
  | DeleteGlobalRef
  | NewStringUTF
  | CallStaticVoidMethod
  deriving DecidableEq

/-- A call of a hook part, with what its first test reads: whether `txt_stacktrace` is `NULL`, and
whether the class and the method to record with are there. -/
inductive Part where
  | thread_create_proxy
  | logJavaStack (txt_stacktrace_null : Bool)
  | thread_call (record_ids : Bool)
  deriving DecidableEq

/-- Whether the part comes to `getJNIEnv`. -/
def Part.needsEnv : Part → Bool
  | .thread_create_proxy => true
  | .logJavaStack txt_stacktrace_null => txt_stacktrace_null
  | .thread_call record_ids => record_ids

/-- The calls made unless the status is `error`. -/
def Part.calls : Part → List JniFunction
  | .thread_create_proxy => [.CallStaticObjectMethod, .CallObjectMethod, .NewGlobalRef]
  | .logJavaStack _ => [.CallStaticObjectMethod, .GetStringUTFChars, .DeleteGlobalRef]
  | .thread_call _ => [.NewStringUTF, .NewStringUTF, .CallStaticVoidMethod, .DeleteGlobalRef]

/-- Where a part stands: before `GetEnv`, before `AttachCurrentThread` (`GetEnv` having said
`JNI_EDETACHED`), at its calls, or past them. -/
inductive PartPc where
  | atGetEnv
  | atAttach
  | atCalls (status : JniEnvStatus) (calls : List JniFunction)
  | done
  deriving DecidableEq

/-- An open part; `initially` is whether the thread was attached when it began. -/
structure Frame where
  part : Part
  initially : Bool
  pc : PartPc
  deriving DecidableEq

/-- The thread: its attachment, and its open parts, the innermost first. -/
structure Native where
  attached : Bool
  parts : List Frame
  deriving DecidableEq

/-- A step of the thread. -/
inductive PartEvent where
  | enter (part : Part)
  | getEnv (getEnvStat : Int)
  | attach (status : Int)
  | call
  | detach
  | leave
  deriving DecidableEq

/-- The calls that are left for a status. -/
def Part.callsFor (part : Part) (status : JniEnvStatus) : List JniFunction :=
  if status = .error then [] else part.calls

def Native.step (s : Native) : PartEvent → Option Native
  | .enter part =>
    some { s with
      parts := ⟨part, s.attached, if part.needsEnv then .atGetEnv else .done⟩ :: s.parts }
  | .getEnv getEnvStat =>
    match s.parts with
    | ⟨part, initially, .atGetEnv⟩ :: rest =>
      if GetEnvAnswers s.attached getEnvStat then
        if getEnvStat = JNI_EDETACHED then
          some { s with parts := ⟨part, initially, .atAttach⟩ :: rest }
        else
          let status := getJNIEnv ⟨getEnvStat, 0⟩
          some { s with parts := ⟨part, initially, .atCalls status (part.callsFor status)⟩ :: rest }
      else none
    | _ => none
  | .attach status =>
    match s.parts with
    | ⟨part, initially, .atAttach⟩ :: rest =>
      let st := getJNIEnv ⟨JNI_EDETACHED, status⟩
      some ⟨s.attached || decide (st = .needDetach),
        ⟨part, initially, .atCalls st (part.callsFor st)⟩ :: rest⟩
    | _ => none
  | .call =>
    match s.parts with
    | ⟨part, initially, .atCalls status (_ :: calls)⟩ :: rest =>
      some { s with parts := ⟨part, initially, .atCalls status calls⟩ :: rest }
    | _ => none
  | .detach =>
    match s.parts with
    | ⟨part, initially, .atCalls .needDetach []⟩ :: rest =>
      some ⟨false, ⟨part, initially, .done⟩ :: rest⟩
    | _ => none
  | .leave =>
    match s.parts with
    | ⟨_, _, .done⟩ :: rest => some { s with parts := rest }
    | ⟨_, _, .atCalls .normal []⟩ :: rest => some { s with parts := rest }
    | ⟨_, _, .atCalls .error []⟩ :: rest => some { s with parts := rest }
    | _ => none

/-! ### The attachment that each open part answers for -/

/-- The part has attached the thread and not detached it yet. -/
def PartPc.holds : PartPc → Bool
  | .atCalls .needDetach _ => true
  | _ => false

/-- The attachment while the part is open and none is open above it. -/
def Frame.during (f : Frame) : Bool := f.initially || f.pc.holds

/-- What a part has found out about the attachment. -/
def Frame.Sound (f : Frame) : Prop :=
  match f.pc with
  | .atAttach => f.initially = false
  | .atCalls .normal _ => f.initially = true
  | .atCalls .needDetach _ => f.initially = false
  | .atCalls .error calls => calls = []
  | _ => True

/-- Each part began with the attachment that the part below it answers for. -/
def Nested : Bool → List Frame → Prop
  | _, [] => True
  | attached, f :: rest => attached = f.during ∧ f.Sound ∧ Nested f.initially rest

def Native.Sound (s : Native) : Prop := Nested s.attached s.parts

/-- What a step to `t` must respect: calls are made on an attached thread, a part detaches a thread
that is attached, that it attached itself and that was detached when it began, and the thread leaves
a part with the attachment that it had when the part began. -/
def Native.Respects (s t : Native) : PartEvent → Prop
  | .call => s.attached = true
  | .detach => ∃ f rest, s.parts = f :: rest ∧ s.attached = true ∧ f.initially = false ∧
      f.pc.holds = true
  | .leave => ∃ f, s.parts = f :: t.parts ∧ t.attached = f.initially
  | _ => True

/-- Every outcome of the step respects the attachment. -/
def Native.Neutral (s : Native) (e : PartEvent) : Prop :=
  ∀ t, s.step e = some t → s.Respects t e

section Step

variable {s t : Native}

theorem sound_initial (attached : Bool) : (⟨attached, []⟩ : Native).Sound := trivial

theorem sound_enter (h : s.Sound) (part : Part) (ht : s.step (.enter part) = some t) : t.Sound := by
  obtain rfl := Option.some.inj ht
  refine ⟨?_, ?_, h⟩
  · cases hneeds : part.needsEnv <;> simp [Frame.during, PartPc.holds]
  · cases hneeds : part.needsEnv <;> trivial

theorem getEnv_cases {getEnvStat : Int} (ht : s.step (.getEnv getEnvStat) = some t) :
    ∃ part initially rest, s.parts = ⟨part, initially, .atGetEnv⟩ :: rest ∧
      GetEnvAnswers s.attached getEnvStat ∧ t.attached = s.attached ∧
        ((getEnvStat = JNI_EDETACHED ∧ t.parts = ⟨part, initially, .atAttach⟩ :: rest) ∨
          (getEnvStat = JNI_OK ∧
            t.parts = ⟨part, initially, .atCalls .normal part.calls⟩ :: rest) ∨
          t.parts = ⟨part, initially, .atCalls .error []⟩ :: rest) := by
  obtain ⟨attached, parts⟩ := s
  simp only [Native.step] at ht
  split at ht
  · split_ifs at ht with hans hdet
    · obtain rfl := Option.some.inj ht
      exact ⟨_, _, _, rfl, hans, rfl, Or.inl ⟨hdet, rfl⟩⟩
    · obtain rfl := Option.some.inj ht
      refine ⟨_, _, _, rfl, hans, rfl, Or.inr ?_⟩
      by_cases hok : getEnvStat = JNI_OK
      · exact Or.inl ⟨hok, by simp [getJNIEnv, hok, JNI_OK, JNI_EDETACHED, Part.callsFor]⟩
      · exact Or.inr (by simp [getJNIEnv, hok, hdet, Part.callsFor])
  · cases ht

theorem attach_cases {status : Int} (ht : s.step (.attach status) = some t) :
    ∃ part initially rest, s.parts = ⟨part, initially, .atAttach⟩ :: rest ∧
      ((t.attached = true ∧
          t.parts = ⟨part, initially, .atCalls .needDetach part.calls⟩ :: rest) ∨
        (t.attached = s.attached ∧ t.parts = ⟨part, initially, .atCalls .error []⟩ :: rest)) := by
  obtain ⟨attached, parts⟩ := s
  simp only [Native.step] at ht
  split at ht
  · obtain rfl := Option.some.inj ht
    refine ⟨_, _, _, rfl, ?_⟩
    by_cases hstatus : status = 0
    · exact Or.inl (by simp [getJNIEnv, hstatus, Part.callsFor])
    · exact Or.inr (by simp [getJNIEnv, hstatus, Part.callsFor])
  · cases ht

theorem call_cases (ht : s.step .call = some t) :
    ∃ part initially status f calls rest,
      s.parts = ⟨part, initially, .atCalls status (f :: calls)⟩ :: rest ∧
      t = ⟨s.attached, ⟨part, initially, .atCalls status calls⟩ :: rest⟩ := by
  obtain ⟨attached, parts⟩ := s
  simp only [Native.step] at ht
  split at ht
  · obtain rfl := Option.some.inj ht
    exact ⟨_, _, _, _, _, _, rfl, rfl⟩
  · cases ht

theorem detach_cases (ht : s.step .detach = some t) :
    ∃ part initially rest, s.parts = ⟨part, initially, .atCalls .needDetach []⟩ :: rest ∧
      t = ⟨false, ⟨part, initially, .done⟩ :: rest⟩ := by
  obtain ⟨attached, parts⟩ := s
  simp only [Native.step] at ht
  split at ht
  · obtain rfl := Option.some.inj ht
    exact ⟨_, _, _, rfl, rfl⟩
  · cases ht

theorem leave_cases (ht : s.step .leave = some t) :
    ∃ f, s.parts = f :: t.parts ∧ t.attached = s.attached ∧ f.pc.holds = false := by
  obtain ⟨attached, parts⟩ := s
  simp only [Native.step] at ht
  split at ht
  · cases ht
    exact ⟨_, rfl, rfl, rfl⟩
  · cases ht
    exact ⟨_, rfl, rfl, rfl⟩
  · cases ht
    exact ⟨_, rfl, rfl, rfl⟩
  · cases ht

/-- While a part is at its calls the thread is attached. -/
theorem attached_at_calls (h : s.Sound) {part : Part} {initially : Bool} {status : JniEnvStatus}
    {f : JniFunction} {calls : List JniFunction} {rest : List Frame}
    (hparts : s.parts = ⟨part, initially, .atCalls status (f :: calls)⟩ :: rest) :
    s.attached = true ∧ status ≠ .error := by
  rw [Native.Sound, hparts] at h
  obtain ⟨hduring, hsound, -⟩ := h
  cases status with
  | normal =>
    have hinit : initially = true := hsound
    exact ⟨hduring.trans (by simp [Frame.during, PartPc.holds, hinit]), by decide⟩
  | needDetach => exact ⟨hduring.trans (by simp [Frame.during, PartPc.holds]), by decide⟩
  | error => simp [Frame.Sound] at hsound

theorem neutral_of_sound (h : s.Sound) (e : PartEvent) : s.Neutral e := by
  intro t ht
  cases e with
  | call =>
    obtain ⟨_, _, _, _, _, _, hparts, -⟩ := call_cases ht
    exact (attached_at_calls h hparts).1
  | detach =>
    obtain ⟨part, initially, rest, hparts, -⟩ := detach_cases ht
    rw [Native.Sound, hparts] at h
    exact ⟨_, _, hparts, h.1.trans (by simp [Frame.during, PartPc.holds]), h.2.1, rfl⟩
  | leave =>
    obtain ⟨f, hparts, hatt, hholds⟩ := leave_cases ht
    rw [Native.Sound, hparts] at h
    refine ⟨f, hparts, hatt.trans (h.1.trans ?_)⟩
    rw [Frame.during, hholds, Bool.or_false]
  | _ => trivial

theorem sound_step (h : s.Sound) (e : PartEvent) (ht : s.step e = some t) : t.Sound := by
  cases e with
  | enter part => exact sound_enter h part ht
  | getEnv getEnvStat =>
    obtain ⟨part, initially, rest, hparts, ⟨hok, hdet⟩, hatt, hcases⟩ := getEnv_cases ht
    rw [Native.Sound, hparts] at h
    obtain ⟨hduring, -, hrest⟩ := h
    have hinit : s.attached = initially := by simpa [Frame.during, PartPc.holds] using hduring
    rw [Native.Sound, hatt]
    rcases hcases with ⟨hstat, hparts'⟩ | ⟨hstat, hparts'⟩ | hparts'
    · rw [hparts']
      exact ⟨by simpa [Frame.during, PartPc.holds] using hinit, hinit.symm.trans (hdet hstat), hrest⟩
    · rw [hparts']
      exact ⟨by simpa [Frame.during, PartPc.holds] using hinit, hinit.symm.trans (hok hstat), hrest⟩
    · rw [hparts']
      exact ⟨by simpa [Frame.during, PartPc.holds] using hinit, rfl, hrest⟩
  | attach status =>
    obtain ⟨part, initially, rest, hparts, hcases⟩ := attach_cases ht
    rw [Native.Sound, hparts] at h
    obtain ⟨hduring, hinit, hrest⟩ := h
    rw [Native.Sound]
    rcases hcases with ⟨hatt, hparts'⟩ | ⟨hatt, hparts'⟩
    · rw [hatt, hparts']
      exact ⟨by simp [Frame.during, PartPc.holds], hinit, hrest⟩
    · rw [hatt, hparts']
      exact ⟨by simpa [Frame.during, PartPc.holds] using hduring, rfl, hrest⟩
  | call =>
    obtain ⟨part, initially, status, f, calls, rest, hparts, rfl⟩ := call_cases ht
    have hstatus := (attached_at_calls h hparts).2
    rw [Native.Sound, hparts] at h
    obtain ⟨hduring, hsound, hrest⟩ := h
    cases status with
    | normal => exact ⟨by simpa [Frame.during, PartPc.holds] using hduring, hsound, hrest⟩
    | needDetach => exact ⟨by simpa [Frame.during, PartPc.holds] using hduring, hsound, hrest⟩
    | error => exact absurd rfl hstatus
  | detach =>
    obtain ⟨part, initially, rest, hparts, rfl⟩ := detach_cases ht
    rw [Native.Sound, hparts] at h
    obtain ⟨-, hinit, hrest⟩ := h
    exact ⟨by simpa [Frame.during, PartPc.holds] using hinit.symm, trivial, hrest⟩
  | leave =>
    obtain ⟨f, hparts, hatt, hholds⟩ := leave_cases ht
    rw [Native.Sound, hparts] at h
    obtain ⟨hduring, -, hrest⟩ := h
    have hinit : t.attached = f.initially := by
      rw [hatt, hduring, Frame.during, hholds, Bool.or_false]
    rw [Native.Sound, hinit]
    exact hrest

end Step

/-- **Attachment.** Whatever the attachment of the thread, the answers of the virtual machine and the
nesting of the parts, every part leaves the thread as it found it, detaches no thread that it did not
attach, and calls into Java only while the thread is attached. -/
theorem attachment_neutral (attached : Bool) (es : List PartEvent) :
    Along Native.step Native.Neutral ⟨attached, []⟩ es :=
  along_of_invariant' (fun _ e _ hs => sound_step hs e) (fun _ e hs => neutral_of_sound hs e)
    (sound_initial attached) es

/-- Every open part can come to its end, whatever it stands at. -/
theorem exists_run_leave {s : Native} {f : Frame} {rest : List Frame} (h : s.parts = f :: rest) :
    ∃ es t, run Native.step s es = some t ∧ t.parts = rest := by
  obtain ⟨attached, parts⟩ := s
  obtain ⟨part, initially, pc⟩ := f
  obtain rfl : parts = ⟨part, initially, pc⟩ :: rest := h
  -- from the calls on, whatever the attachment
  have hcalls : ∀ attached status calls, ∃ es t,
      run Native.step ⟨attached, ⟨part, initially, .atCalls status calls⟩ :: rest⟩ es = some t ∧
        t.parts = rest := by
    intro attached status calls
    induction calls with
    | nil =>
      cases status with
      | needDetach => exact ⟨[.detach, .leave], _, rfl, rfl⟩
      | normal => exact ⟨[.leave], _, rfl, rfl⟩
      | error => exact ⟨[.leave], _, rfl, rfl⟩
    | cons f calls ih =>
      obtain ⟨es, t, hrun, ht⟩ := ih
      exact ⟨.call :: es, t, run_cons_eq_some.2 ⟨_, rfl, hrun⟩, ht⟩
  cases pc with
  | atGetEnv =>
    obtain ⟨es, t, hrun, ht⟩ := hcalls attached .error []
    refine ⟨.getEnv (-1) :: es, t, run_cons_eq_some.2 ⟨_, ?_, hrun⟩, ht⟩
    cases attached <;> rfl
  | atAttach =>
    obtain ⟨es, t, hrun, ht⟩ := hcalls true .needDetach part.calls
    refine ⟨.attach 0 :: es, t, run_cons_eq_some.2 ⟨_, ?_, hrun⟩, ht⟩
    cases attached <;> rfl
  | atCalls status calls => exact hcalls attached status calls
  | done => exact ⟨[.leave], _, rfl, rfl⟩

end ElfHook.Thread

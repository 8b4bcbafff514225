import Mathlib.Logic.Function.Basic
import ElfHook.Lib.Run
import ElfHook.Thread.Jni
import ElfHook.Thread.StackMap
import ElfHook.Thread.Unwind

/-!
# The `pthread_create` hook, with all its threads

Every call of `thread_create_proxy` is a `Call`: the record that it allocates, where its creator
stands, and where the thread that it made stands in `thread_call`. Calls are numbered in the order in
which they begin, and a record is never freed, so the number names the record too. The calls share
the virtual machine (`Jvm`): the attachments, the global references and the two maps of
`Thread4StartStack`.

A `step` takes one event of one party, with the answers that the outside gives there. Steps come in
any order, so a run is any interleaving of any number of creators and created threads; the calls that
one thread has open at a time (the proxy can be re-entered) are not ordered either.
-/

namespace ElfHook.Thread

open Lib

/-- A pointer; `0` is `NULL`. -/
abbrev Ptr := Nat

def NULL : Ptr := 0

/-- A JNI global reference. -/
abbrev RefId := Nat

/-- A native thread: one that the hook has not made, or the one made by the call `k`. -/
inductive OsThread where
  | native (i : Nat)
  | created (k : Nat)
  deriving DecidableEq

/-- The record; a `js_stacktrace` that nothing was stored in since `malloc` is `none`. -/
structure ThreadCall_Args where
  thread_call_original : Ptr
  arg : Ptr
  native_stack : Option CText
  js_stacktrace : Option RefId
  txt_stacktrace : Option Text

/-- The ids found by `thread_hook` that `thread_call` tests before it records. -/
structure RecordIds where
  jmethodRecord : Ptr
  jclassThread4StartStack : Ptr

def RecordIds.ready (ids : RecordIds) : Bool :=
  ids.jmethodRecord != NULL && ids.jclassThread4StartStack != NULL && ids.jmethodRecord != NULL

/-! ### The virtual machine -/

/-- A global reference to a stack trace: the call that obtained it, and how often it was deleted. -/
structure GlobalRef where
  owner : Nat
  trace : List StackTraceElement
  deleted : Nat

structure Jvm where
  strings : JniStrings
  attached : List (OsThread × ThreadObj)
  nextObj : ThreadObj
  refs : List GlobalRef
  STACK_LOCAL : ThreadObj → Text
  STACK_MAP : StackMap

/-- `Thread.currentThread()`, on an attached thread. -/
def Jvm.currentThread (j : Jvm) (t : OsThread) : Option ThreadObj :=
  (j.attached.find? fun p => p.1 = t).map (·.2)

/-- `AttachCurrentThread`: a detached thread gets a fresh `Thread` object. -/
def Jvm.attach (j : Jvm) (t : OsThread) : Jvm :=
  if (j.currentThread t).isSome then j
  else { j with attached := (t, j.nextObj) :: j.attached, nextObj := j.nextObj + 1 }

/-- `DetachCurrentThread`. -/
def Jvm.detach (j : Jvm) (t : OsThread) : Jvm :=
  { j with attached := j.attached.filter fun p => p.1 ≠ t }

/-- `getJNIEnv` on the thread, if the answers are possible there. -/
def Jvm.getEnv (j : Jvm) (t : OsThread) (a : EnvAnswer) : Option (JniEnvStatus × Jvm) :=
  if GetEnvAnswers (j.currentThread t).isSome a.getEnvStat then
    some (getJNIEnv a, if getJNIEnv a = .needDetach then j.attach t else j)
  else none

/-- The detachment at the end of a hook part. -/
def Jvm.leave (j : Jvm) (t : OsThread) (status : JniEnvStatus) : Jvm :=
  if status = .needDetach then j.detach t else j

/-- `NewGlobalRef` on the trace that the call `k` has taken. -/
def Jvm.newGlobalRef (j : Jvm) (k : Nat) (trace : List StackTraceElement) : Jvm :=
  { j with refs := j.refs ++ [⟨k, trace, 0⟩] }

def Jvm.deleteGlobalRef (j : Jvm) (r : RefId) : Jvm :=
  { j with refs := j.refs.modify r fun ref => { ref with deleted := ref.deleted + 1 } }

/-- The part of `record4Jni` that touches the maps. -/
def Jvm.record (j : Jvm) (thread : ThreadObj) (result : RecordResult) : Jvm :=
  { j with
    STACK_LOCAL := Function.update j.STACK_LOCAL thread result.sb
    STACK_MAP := if result.thrown = none then j.STACK_MAP.put thread result.sb else j.STACK_MAP }

section Jvm

variable (j : Jvm) (t : OsThread)

@[simp] theorem Jvm.attach_refs : (j.attach t).refs = j.refs := by
  unfold Jvm.attach
  split_ifs <;> rfl

@[simp] theorem Jvm.attach_STACK_MAP : (j.attach t).STACK_MAP = j.STACK_MAP := by
  unfold Jvm.attach
  split_ifs <;> rfl

@[simp] theorem Jvm.leave_refs (status : JniEnvStatus) : (j.leave t status).refs = j.refs := by
  unfold Jvm.leave
  split_ifs <;> rfl

@[simp] theorem Jvm.leave_STACK_MAP (status : JniEnvStatus) :
    (j.leave t status).STACK_MAP = j.STACK_MAP := by
  unfold Jvm.leave
  split_ifs <;> rfl

theorem Jvm.deleteGlobalRef_elim (r : Option RefId) :
    (r.elim j j.deleteGlobalRef).attached = j.attached ∧
      (r.elim j j.deleteGlobalRef).nextObj = j.nextObj ∧
        (r.elim j j.deleteGlobalRef).STACK_MAP = j.STACK_MAP := by
  cases r <;> exact ⟨rfl, rfl, rfl⟩

variable {j t}

theorem Jvm.getEnv_cases {a : EnvAnswer} {status : JniEnvStatus} {j' : Jvm}
    (h : j.getEnv t a = some (status, j')) :
    GetEnvAnswers (j.currentThread t).isSome a.getEnvStat ∧ status = getJNIEnv a ∧
      ((status = .needDetach ∧ j' = j.attach t) ∨ (status ≠ .needDetach ∧ j' = j)) := by
  unfold Jvm.getEnv at h
  split_ifs at h with hans hneed
  · cases h
    exact ⟨hans, rfl, Or.inl ⟨hneed, rfl⟩⟩
  · cases h
    exact ⟨hans, rfl, Or.inr ⟨hneed, rfl⟩⟩

theorem Jvm.getEnv_refs {a : EnvAnswer} {status : JniEnvStatus} {j' : Jvm}
    (h : j.getEnv t a = some (status, j')) : j'.refs = j.refs := by
  obtain ⟨-, -, ⟨-, rfl⟩ | ⟨-, rfl⟩⟩ := Jvm.getEnv_cases h
  · exact j.attach_refs t
  · rfl

theorem Jvm.getEnv_STACK_MAP {a : EnvAnswer} {status : JniEnvStatus} {j' : Jvm}
    (henv : j.getEnv t a = some (status, j')) : j'.STACK_MAP = j.STACK_MAP := by
  obtain ⟨-, -, ⟨-, rfl⟩ | ⟨-, rfl⟩⟩ := Jvm.getEnv_cases henv
  · exact j.attach_STACK_MAP t
  · rfl

end Jvm

/-! ### One call of the proxy -/

/-- Where the creator stands in `thread_create_proxy`. -/
inductive CreatorPc where
  | prepared
  | inEnv (status : JniEnvStatus)
  | stored (status : JniEnvStatus)
  | ready
  | created (rc : Int)
  | returned (rc : Int)
  deriving DecidableEq

/-- Where the new thread stands in `thread_call`. After the start routine has returned `value`,
`thread_call` returns `result`. -/
inductive ThreadPc where
  | absent
  | entered
  | inEnv (status : JniEnvStatus)
  | recorded (status : JniEnvStatus)
  | deleted (status : JniEnvStatus)
  | calling
  | running
  | exited (value result : Ptr)
  | joined
  deriving DecidableEq

/-- The code of `thread_create_original`, once there is one. -/
def CreatorPc.code : CreatorPc → Option Int
  | .created rc | .returned rc => some rc
  | _ => none

/-- A call of `thread_create_proxy`. What the unwinder found, and the outcome of `record4Jni` on the
new thread with the `Thread` object it ran under, are history. -/
structure Call where
  caller : OsThread
  unwinding : Unwinding
  member : ThreadCall_Args
  creator : CreatorPc
  thread : ThreadPc
  outcome : Option (ThreadObj × RecordResult)

/-- `thread_create_proxy` up to `getJNIEnv`: the record is allocated and filled in, but for
`js_stacktrace`. -/
def Call.begin (caller : OsThread) (start_routine arg : Ptr) (unwinding : Unwinding) : Call where
  caller
  unwinding
  member := ⟨start_routine, arg, xunwind_cfi_get unwinding TAG_bytes, none, none⟩
  creator := .prepared
  thread := .absent
  outcome := none

/-- A step of the creator: `getJNIEnv`, the trace of the current thread and its global reference, the
detachment, `thread_create_original` with its code, the return. -/
inductive CreatorOp where
  | getEnv (a : EnvAnswer)
  | trace (trace : List StackTraceElement)
  | leave
  | create (rc : Int)
  | ret

def Call.creatorStep (c : Call) (k : Nat) (j : Jvm) : CreatorOp → Option (Jvm × Call)
  | .getEnv a =>
    match c.creator with
    | .prepared => (j.getEnv c.caller a).map fun r => (r.2, { c with creator := .inEnv r.1 })
    | _ => none
  | .trace trace =>
    match c.creator with
    | .inEnv .error => none
    | .inEnv status =>
      some (j.newGlobalRef k trace,
        { c with
          member := { c.member with js_stacktrace := some j.refs.length }
          creator := .stored status })
    | _ => none
  | .leave =>
    match c.creator with
    | .inEnv .error => some (j, { c with creator := .ready })
    | .stored status => some (j.leave c.caller status, { c with creator := .ready })
    | _ => none
  | .create rc =>
    match c.creator with
    | .ready =>
      some (j, { c with creator := .created rc, thread := if rc = 0 then .entered else c.thread })
    | _ => none
  | .ret =>
    match c.creator with
    | .created rc => some (j, { c with creator := .returned rc })
    | _ => none

/-- A step of the new thread: the test of the ids and `getJNIEnv`, `record4Jni`, `DeleteGlobalRef`,
the detachment, the call of the start routine, its return. A `js_stacktrace` that was never written
is whatever the memory holds: the trace that the handle happens to denote, and the reference that its
deletion happens to hit. -/
inductive ThreadOp where
  | getEnv (a : EnvAnswer)
  | record (garbage : Option (List StackTraceElement))
  | delete (garbage : Option RefId)
  | leave
  | routine
  | ret (value : Ptr)

/-- The trace that `record4Jni` gets. -/
def Call.traceArg (c : Call) (j : Jvm) (garbage : Option (List StackTraceElement)) :
    Option (List StackTraceElement) :=
  match c.member.js_stacktrace with
  | some r => j.refs[r]?.map (·.trace)
  | none => garbage

/-- `record4Jni` with the trace, on the strings that `NewStringUTF` makes; it makes none of `NULL`. -/
def Call.record4Jni (c : Call) (j : Jvm) (thread : ThreadObj)
    (garbage : Option (List StackTraceElement)) : RecordResult :=
  Thread.record4Jni (j.STACK_LOCAL thread) (j.strings.NewStringUTF TAG_bytes) (c.traceArg j garbage)
    (c.member.native_stack.map j.strings.NewStringUTF)

/-- `record4Jni` on the new thread. A thread that is not attached there, which the order of its own
parts excludes, records nothing. -/
def Call.recordStep (c : Call) (k : Nat) (j : Jvm) (status : JniEnvStatus)
    (garbage : Option (List StackTraceElement)) : Jvm × Call :=
  match j.currentThread (.created k) with
  | none => (j, { c with thread := .recorded status })
  | some thread =>
    let result := c.record4Jni j thread garbage
    (j.record thread result,
      { c with thread := .recorded status, outcome := some (thread, result) })

def Call.threadStep (ids : RecordIds) (c : Call) (k : Nat) (j : Jvm) :
    ThreadOp → Option (Jvm × Call)
  | .getEnv a =>
    match c.thread with
    | .entered =>
      if ids.ready then
        (j.getEnv (.created k) a).map fun r => (r.2, { c with thread := .inEnv r.1 })
      else some (j, { c with thread := .calling })
    | _ => none
  | .record garbage =>
    match c.thread with
    | .inEnv .error => none
    | .inEnv status => some (c.recordStep k j status garbage)
    | _ => none
  | .delete garbage =>
    match c.thread with
    | .recorded status =>
      some (((c.member.js_stacktrace.or garbage).elim j j.deleteGlobalRef),
        { c with thread := .deleted status })
    | _ => none
  | .leave =>
    match c.thread with
    | .inEnv .error => some (j, { c with thread := .calling })
    | .deleted status => some (j.leave (.created k) status, { c with thread := .calling })
    | _ => none
  | .routine =>
    match c.thread with
    | .calling => some (j, { c with thread := .running })
    | _ => none
  | .ret value =>
    match c.thread with
    | .running => some (j, { c with thread := .exited value NULL })
    | _ => none

/-! ### The system -/

structure Sys where
  calls : List Call
  jvm : Jvm

/-- What the virtual machine holds when the hook is installed: some of the other threads attached. -/
structure Boot where
  strings : JniStrings
  attached : List (Nat × ThreadObj)
  nextObj : ThreadObj
  fresh : ∀ p ∈ attached, p.2 < nextObj

def Sys.initial (boot : Boot) : Sys where
  calls := []
  jvm :=
    { strings := boot.strings
      attached := boot.attached.map fun p => (.native p.1, p.2)
      nextObj := boot.nextObj
      refs := []
      STACK_LOCAL := fun _ => []
      STACK_MAP := [] }

/-- An event: a call of the proxy begins, a party of the call `k` steps, the thread of the call `k` is
joined, code outside the hook attaches or detaches a thread, the collector takes an entry of
`STACK_MAP`. -/
inductive Event where
  | call (caller : OsThread) (start_routine arg : Ptr) (unwinding : Unwinding)
  | creator (k : Nat) (op : CreatorOp)
  | thread (k : Nat) (op : ThreadOp)
  | join (k : Nat)
  | attach (t : OsThread)
  | detach (t : OsThread)
  | collect (thread : ThreadObj)

/-- Lets a party of the call `k` step. -/
def Sys.update (s : Sys) (k : Nat) (f : Call → Option (Jvm × Call)) : Option Sys :=
  s.calls[k]?.bind fun c => (f c).map fun r => ⟨s.calls.set k r.2, r.1⟩

def ThreadPc.outsideHook : ThreadPc → Bool
  | .entered => true
  | .running => true
  | _ => false

/-- Whether the thread is outside the hook, where it may attach and detach as it likes. -/
def Sys.outsideHook (s : Sys) : OsThread → Bool
  | .native _ => true
  | .created k => s.calls[k]?.any fun c => c.thread.outsideHook

def Sys.step (ids : RecordIds) (s : Sys) : Event → Option Sys
  | .call caller start_routine arg unwinding =>
    some { s with calls := s.calls ++ [Call.begin caller start_routine arg unwinding] }
  | .creator k op => s.update k fun c => c.creatorStep k s.jvm op
  | .thread k op => s.update k fun c => c.threadStep ids k s.jvm op
  | .join k =>
    s.update k fun c =>
      match c.thread with
      | .exited _ _ => some (s.jvm, { c with thread := .joined })
      | _ => none
  | .attach t => if s.outsideHook t then some { s with jvm := s.jvm.attach t } else none
  | .detach t => if s.outsideHook t then some { s with jvm := s.jvm.detach t } else none
  | .collect thread =>
    -- the key is weakly reachable at most: no attached thread is it
    if s.jvm.attached.all fun p => p.2 ≠ thread then
      some { s with jvm := { s.jvm with STACK_MAP := s.jvm.STACK_MAP.drop thread } }
    else none

/-! ### A sample -/

/-- A process with no thread attached. -/
def emptyBoot : Boot := ⟨byteStrings, [], 0, by simp⟩

def sampleIds : RecordIds := ⟨0x10, 0x20⟩

/-- An unwinder that prints one frame. -/
def sampleUnwinding : Unwinding :=
  ⟨0, .libcorkscrew (some [bytes "#00 pc 0 libc.so".toList]), fun _ => true⟩

end ElfHook.Thread

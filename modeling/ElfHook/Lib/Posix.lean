import ElfHook.Lib.Run

/-!
# Threads of `pthread_create` and `pthread_join`

What a program sees of its threads. A call of `pthread_create` is known by its number; it decides its
code at some moment between the call and the return, and with the code `0` there is a thread, which
runs the start routine on the argument once. A join takes the value that the routine returned.

`update_map` is the rule for reading such a system off another one, call by call.
-/

namespace ElfHook.Lib.Posix

variable {T F V : Type*}

inductive CallState where
  | called
  | created (rc : Int)
  | returned (rc : Int)
  deriving DecidableEq

inductive ThreadState (V : Type*) where
  | absent
  | ready
  | running
  | finished (value : V)
  | joined
  deriving DecidableEq

/-- A call of `pthread_create`, and the thread that it has made. -/
structure Creation (T F V : Type*) where
  caller : T
  start_routine : F
  arg : V
  call : CallState
  thread : ThreadState V
  deriving DecidableEq

/-- What can be seen of the calls and the threads. -/
inductive Event (T F V : Type*) where
  | call (caller : T) (start_routine : F) (arg : V)
  | create (k : Nat) (rc : Int)
  | ret (k : Nat) (rc : Int)
  | start (k : Nat) (start_routine : F) (arg : V)
  | finish (k : Nat) (value : V)
  | join (k : Nat) (value : V)
  deriving DecidableEq

/-- Lets the call `k` step. -/
def update {α : Type*} (s : List α) (k : Nat) (f : α → Option α) : Option (List α) :=
  s[k]?.bind fun c => (f c).map fun c' => s.set k c'

def Creation.create (c : Creation T F V) (rc : Int) : Option (Creation T F V) :=
  match c.call with
  | .called => some { c with call := .created rc, thread := if rc = 0 then .ready else c.thread }
  | _ => none

def Creation.ret (c : Creation T F V) (rc : Int) : Option (Creation T F V) :=
  if c.call = .created rc then some { c with call := .returned rc } else none

def Creation.start [DecidableEq F] [DecidableEq V] (c : Creation T F V) (start_routine : F)
    (arg : V) : Option (Creation T F V) :=
  if c.thread = .ready ∧ c.start_routine = start_routine ∧ c.arg = arg then
    some { c with thread := .running }
  else none

def Creation.finish (c : Creation T F V) (value : V) : Option (Creation T F V) :=
  match c.thread with
  | .running => some { c with thread := .finished value }
  | _ => none

def Creation.join [DecidableEq V] (c : Creation T F V) (value : V) : Option (Creation T F V) :=
  if c.thread = .finished value then some { c with thread := .joined } else none

def step [DecidableEq F] [DecidableEq V] (s : List (Creation T F V)) :
    Event T F V → Option (List (Creation T F V))
  | .call caller start_routine arg => some (s ++ [⟨caller, start_routine, arg, .called, .absent⟩])
  | .create k rc => update s k fun c => c.create rc
  | .ret k rc => update s k fun c => c.ret rc
  | .start k start_routine arg => update s k fun c => c.start start_routine arg
  | .finish k value => update s k fun c => c.finish value
  | .join k value => update s k fun c => c.join value

/-- A step of one call in the image of another system. -/
theorem update_map {α β : Type*} {abs : α → β} {s : List α} {k : Nat} {c : α} {f : β → Option β}
    (hk : s[k]? = some c) {b : List β} :
    update (s.map abs) k f = some b ↔ ∃ d, f (abs c) = some d ∧ b = (s.map abs).set k d := by
  simp [update, hk, eq_comm]

end ElfHook.Lib.Posix

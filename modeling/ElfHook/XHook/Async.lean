import ElfHook.Lib.Pthread
import ElfHook.XHook.Process

/-!
# xHook: the refresh thread

`xh_core_refresh` and `xh_core_clear` of `xh_core.c`, called from any number of threads, and the
thread that carries out asynchronous refreshes: every statement that another thread may come
between is a place of its own. What `xh_core_refresh_impl` reads and what it writes are two steps,
on a state `W` of the hooks, the maps and the memory. The last three fields of `Shared` and the log
count what has happened and are read by no step.

* `checked_program`: the places annotated with the mutexes held there.
-/

namespace ElfHook.XHook.Async

open Lib Lib.Pthread

inductive Tid
  | refresher
  | client (c : Nat)
deriving DecidableEq

inductive Mutex
  | xh_core_mutex
  | xh_core_refresh_mutex
deriving DecidableEq

open Mutex

/-- What has been done to the state, one after the other. -/
inductive Op
  | refresh
  | clear
deriving DecidableEq

structure Shared (W : Type) where
  xh_core_inited : Bool
  xh_core_init_ok : Bool
  xh_core_async_inited : Bool
  xh_core_async_init_ok : Bool
  xh_core_refresh_thread_running : Bool
  xh_core_refresh_thread_do : Bool
  work : W
  /-- What the thread in `xh_core_refresh_impl` has read. -/
  snapshot : Tid → W
  log : List Op
  /-- Asynchronous refreshes asked for, those the refresh thread has taken up, those carried out. -/
  requested : Nat
  taken : Nat
  served : Nat

/-- The flag of the first group of places is the argument `async`. -/
inductive Pc
  | idle
  | ret (r : Int)
  | initOnce (async : Bool)
  | initLock (async : Bool)
  | initBody (async : Bool)
  | initSet (async : Bool)
  | initHandler (async : Bool)
  | initUnlock (async : Bool)
  | checkInit (async : Bool)
  | asyncOnce
  | asyncLock
  | asyncBody
  | asyncSet
  | asyncStart
  | asyncCreate
  | asyncFail
  | asyncOk
  | asyncUnlock
  | checkAsync
  | postLock
  | post
  | postSignal
  | postUnlock
  | syncLock
  | syncBegin
  | syncEnd
  | syncUnlock
  | clear
  | stopLock
  | stop
  | stopSignal
  | stopUnlock
  | join
  | joined
  | clearAsyncInited
  | clearInitOk
  | clearInited
  | freeLock
  | freeLockRefresh
  | free
  | freeUnlockRefresh
  | freeUnlock
  | loop
  | threadLock
  | test
  | sleep
  | take
  | exitUnlock
  | exited
  | takeUnlock
  | refreshLock
  | implBegin
  | implEnd
  | refreshUnlock
deriving DecidableEq

variable {W : Type} (refresh_impl clear_impl : W → W)

/-- Applies what the log records. -/
def replay (w : W) (log : List Op) : W :=
  log.foldl (fun w op => match op with
    | .refresh => refresh_impl w
    | .clear => clear_impl w) w

/-- `xh_core_refresh_impl` writes what follows from what it has read. -/
def finishRefresh (t : Tid) (s : Shared W) : Shared W :=
  { s with work := refresh_impl (s.snapshot t), log := s.log ++ [.refresh] }

def beginRefresh (t : Tid) (s : Shared W) : Shared W :=
  { s with snapshot := Function.update s.snapshot t s.work }

def code : Pc → Instr Tid Mutex Pc (Shared W)
  | .idle => .rest
  | .ret _ => .rest
  -- xh_core_init_once
  | .initOnce a => .act fun _ s _ => (s, if s.xh_core_inited then .checkInit a else .initLock a)
  | .initLock a => .lock xh_core_mutex (.initBody a)
  | .initBody a => .act fun _ s _ => (s, if s.xh_core_inited then .initUnlock a else .initSet a)
  | .initSet a => .act fun _ s _ => ({ s with xh_core_inited := true }, .initHandler a)
  | .initHandler a => .act fun _ s ok =>
    (if ok then { s with xh_core_init_ok := true } else s, .initUnlock a)
  | .initUnlock a => .unlock xh_core_mutex (.checkInit a)
  -- xh_core_refresh
  | .checkInit a => .act fun _ s _ =>
    (s, if ¬ s.xh_core_init_ok then .ret XH_ERRNO_UNKNOWN
      else if a then .asyncOnce else .syncLock)
  -- xh_core_init_async_once
  | .asyncOnce => .act fun _ s _ => (s, if s.xh_core_async_inited then .checkAsync else .asyncLock)
  | .asyncLock => .lock xh_core_mutex .asyncBody
  | .asyncBody => .act fun _ s _ => (s, if s.xh_core_async_inited then .asyncUnlock else .asyncSet)
  | .asyncSet => .act fun _ s _ => ({ s with xh_core_async_inited := true }, .asyncStart)
  | .asyncStart => .act fun _ s _ =>
    ({ s with xh_core_refresh_thread_running := true }, .asyncCreate)
  | .asyncCreate => .create .refresher .loop .asyncOk .asyncFail
  | .asyncFail => .act fun _ s _ =>
    ({ s with xh_core_refresh_thread_running := false }, .asyncUnlock)
  | .asyncOk => .act fun _ s _ => ({ s with xh_core_async_init_ok := true }, .asyncUnlock)
  | .asyncUnlock => .unlock xh_core_mutex .checkAsync
  | .checkAsync => .act fun _ s _ =>
    (s, if ¬ s.xh_core_async_init_ok then .ret XH_ERRNO_UNKNOWN else .postLock)
  | .postLock => .lock xh_core_mutex .post
  | .post => .act fun _ s _ =>
    ({ s with xh_core_refresh_thread_do := true, requested := s.requested + 1 }, .postSignal)
  | .postSignal => .signal .refresher .postUnlock
  | .postUnlock => .unlock xh_core_mutex (.ret 0)
  | .syncLock => .lock xh_core_refresh_mutex .syncBegin
  | .syncBegin => .act fun t s _ => (beginRefresh t s, .syncEnd)
  | .syncEnd => .act fun t s _ => (finishRefresh refresh_impl t s, .syncUnlock)
  | .syncUnlock => .unlock xh_core_refresh_mutex (.ret 0)
  -- xh_core_clear
  | .clear => .act fun _ s _ =>
    (s, if s.xh_core_async_init_ok then .stopLock else .clearAsyncInited)
  | .stopLock => .lock xh_core_mutex .stop
  | .stop => .act fun _ s _ => ({ s with xh_core_refresh_thread_running := false }, .stopSignal)
  | .stopSignal => .signal .refresher .stopUnlock
  | .stopUnlock => .unlock xh_core_mutex .join
  | .join => .join .refresher .joined
  | .joined => .act fun _ s _ => ({ s with xh_core_async_init_ok := false }, .clearAsyncInited)
  | .clearAsyncInited => .act fun _ s _ =>
    ({ s with xh_core_async_inited := false }, .clearInitOk)
  | .clearInitOk => .act fun _ s _ => ({ s with xh_core_init_ok := false }, .clearInited)
  | .clearInited => .act fun _ s _ => ({ s with xh_core_inited := false }, .freeLock)
  | .freeLock => .lock xh_core_mutex .freeLockRefresh
  | .freeLockRefresh => .lock xh_core_refresh_mutex .free
  | .free => .act fun _ s _ =>
    ({ s with work := clear_impl s.work, log := s.log ++ [.clear] }, .freeUnlockRefresh)
  | .freeUnlockRefresh => .unlock xh_core_refresh_mutex .freeUnlock
  | .freeUnlock => .unlock xh_core_mutex (.ret 0)
  -- xh_core_refresh_thread_func
  | .loop => .act fun _ s _ =>
    (s, if s.xh_core_refresh_thread_running then .threadLock else .exited)
  | .threadLock => .lock xh_core_mutex .test
  | .test => .act fun _ s _ =>
    (s, if ¬ s.xh_core_refresh_thread_do ∧ s.xh_core_refresh_thread_running then .sleep else .take)
  | .sleep => .wait xh_core_mutex .test
  | .take => .act fun _ s _ =>
    if ¬ s.xh_core_refresh_thread_running then (s, .exitUnlock)
    else ({ s with xh_core_refresh_thread_do := false, taken := s.requested }, .takeUnlock)
  | .exitUnlock => .unlock xh_core_mutex .exited
  | .exited => .rest
  | .takeUnlock => .unlock xh_core_mutex .refreshLock
  | .refreshLock => .lock xh_core_refresh_mutex .implBegin
  | .implBegin => .act fun t s _ => (beginRefresh t s, .implEnd)
  | .implEnd => .act fun t s _ =>
    ({ finishRefresh refresh_impl t s with served := s.taken }, .refreshUnlock)
  | .refreshUnlock => .unlock xh_core_refresh_mutex .loop

/-- The calls of a client. -/
def entry : Tid → Pc → Bool
  | .client _, .initOnce _ => true
  | .client _, .clear => true
  | _, _ => false

def program : Program Tid Mutex Pc (Shared W) := ⟨code refresh_impl clear_impl, entry⟩

abbrev State (W : Type) := Conf Tid Mutex Pc (Shared W)

def initial (w : W) : State W where
  status t := if t = .refresher then .absent else .run .idle
  owner _ := none
  mem :=
    { xh_core_inited := false, xh_core_init_ok := false
      xh_core_async_inited := false, xh_core_async_init_ok := false
      xh_core_refresh_thread_running := false, xh_core_refresh_thread_do := false
      work := w, snapshot := fun _ => w, log := [], requested := 0, taken := 0, served := 0 }

abbrev step (s : State W) (e : Pthread.Event Tid Pc) : Option (State W) :=
  step? (program refresh_impl clear_impl) s e

/-! ### The mutexes held at each place -/

def held : Pc → Mutex → Bool
  | .initBody _, m | .initSet _, m | .initHandler _, m | .initUnlock _, m | .asyncBody, m
  | .asyncSet, m | .asyncStart, m | .asyncCreate, m | .asyncFail, m | .asyncOk, m
  | .asyncUnlock, m | .post, m | .postSignal, m | .postUnlock, m
  | .stop, m | .stopSignal, m | .stopUnlock, m | .freeLockRefresh, m | .freeUnlock, m
  | .test, m | .sleep, m | .take, m | .exitUnlock, m | .takeUnlock, m => m = xh_core_mutex
  | .syncBegin, m | .syncEnd, m | .syncUnlock, m | .implBegin, m | .implEnd, m
  | .refreshUnlock, m => m = xh_core_refresh_mutex
  | .free, _ | .freeUnlockRefresh, _ => true
  | _, _ => false

/-- `xh_core_clear` takes both, in this order. -/
def rank : Mutex → Nat
  | xh_core_mutex => 0
  | xh_core_refresh_mutex => 1

theorem checked_program : Checked (program refresh_impl clear_impl) held rank := by
  constructor
  · intro k
    cases k <;> simp only [program, code, Fits] <;> intros <;> (try split_ifs) <;>
      simp [held, rank] <;> intro m <;> cases m <;> decide
  · intro t k h m
    cases t <;> cases k <;> first | rfl | cases h

end ElfHook.XHook.Async

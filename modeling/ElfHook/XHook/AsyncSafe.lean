import ElfHook.XHook.Async

/-!
# xHook: refreshes from many threads

What holds in every state that calls of `xh_core_refresh` and `xh_core_clear` from any number of
threads lead to, whatever the order of their steps, with one refresh thread at most.
-/

namespace ElfHook.XHook.Async

open Lib Lib.Pthread Mutex

variable {W : Type} {refresh_impl clear_impl : W → W} {s s' : State W} {e : Pthread.Event Tid Pc}

/-! ### Who runs what -/

def Pc.ofThread : Pc → Bool
  | .loop | .threadLock | .test | .sleep | .take | .exitUnlock | .exited | .takeUnlock
  | .refreshLock | .implBegin | .implEnd | .refreshUnlock => true
  | _ => false

/-- Where the refresh thread may be. -/
def ThreadOk : Status Mutex Pc → Prop
  | .absent => True
  | .run k => k.ofThread = true
  | .asleep m k => m = xh_core_mutex ∧ k = .test
  | .woken m k => m = xh_core_mutex ∧ k = .test

/-- The refresh thread runs its own function, the clients the others. -/
structure Typed (s : State W) : Prop where
  client : ∀ c, ∃ k, s.status (.client c) = .run k ∧ k.ofThread = false
  thread : ThreadOk (s.status .refresher)

/-- The steps, by who takes them. -/
inductive Took (refresh_impl clear_impl : W → W) (s s' : State W) (e : Pthread.Event Tid Pc) :
    Prop
  | client (c : Nat) (k : Pc) (ok : Bool) (hk : s.status (.client c) = .run k)
    (hclient : k.ofThread = false)
    (hexec : exec (program refresh_impl clear_impl) s (.client c) ok
      (code refresh_impl clear_impl k) = some s') (he : e = .go (.client c) ok)
  | thread (k : Pc) (ok : Bool) (hk : s.status .refresher = .run k) (hthread : k.ofThread = true)
    (hexec : exec (program refresh_impl clear_impl) s .refresher ok
      (code refresh_impl clear_impl k) = some s') (he : e = .go .refresher ok)
  | relock (hst : s.status .refresher = .woken xh_core_mutex .test)
    (hs' : s' = (s.own xh_core_mutex (some .refresher)).set .refresher (.run .test))
  | wake (hst : s.status .refresher = .asleep xh_core_mutex .test)
    (hs' : s' = s.set .refresher (.woken xh_core_mutex .test)) (he : e = .wake .refresher)
  | call (c : Nat) (k : Pc) (he : e = .call (.client c) k)
    (hrests : (s.status (.client c)).rests (program refresh_impl clear_impl))
    (hentry : entry (.client c) k) (hs' : s' = s.set (.client c) (.run k))

theorem took_of_step (h : Typed s) (hstep : step refresh_impl clear_impl s e = some s') :
    Took refresh_impl clear_impl s s' e := by
  cases e with
  | go t ok =>
    cases t with
    | client c =>
      obtain ⟨k, hk, hclient⟩ := h.client c
      simp only [step, step?, hk] at hstep
      exact .client c k ok hk hclient hstep rfl
    | refresher =>
      unfold step step? at hstep
      have hthread := h.thread
      cases hst : s.status .refresher with
      | run k =>
        rw [hst] at hthread
        simp only [hst] at hstep
        exact .thread k ok hst hthread hstep rfl
      | woken m k =>
        rw [hst] at hthread
        obtain ⟨rfl, rfl⟩ := hthread
        simp only [hst] at hstep
        split_ifs at hstep
        cases hstep
        exact .relock hst rfl
      | _ => simp [hst] at hstep
  | wake t =>
    unfold step step? at hstep
    cases t with
    | client c =>
      obtain ⟨k, hk, -⟩ := h.client c
      simp [hk] at hstep
    | refresher =>
      have hthread := h.thread
      cases hst : s.status .refresher with
      | asleep m k =>
        rw [hst] at hthread
        obtain ⟨rfl, rfl⟩ := hthread
        simp only [hst] at hstep
        cases hstep
        exact .wake hst rfl rfl
      | _ => simp [hst] at hstep
  | call t k =>
    simp only [step, step?] at hstep
    split_ifs at hstep with hcall
    cases hstep
    cases t with
    | client c => exact .call c k rfl hcall.1 hcall.2 rfl
    | refresher => cases k <;> cases hcall.2

section Steps

variable {c : Nat} {t : Tid} {k : Pc} {ok : Bool}

def Pc.signals : Pc → Bool
  | .postSignal | .stopSignal => true
  | _ => false

theorem target_ne_client (k : Pc) (d : Nat) :
    (code refresh_impl clear_impl k).target ≠ some (.client d) := by
  cases k <;> exact fun h => by cases h

/-- A step leaves the other clients where they are. -/
theorem exec_client_of_ne {d : Nat} (hne : .client d ≠ t)
    (hexec : exec (program refresh_impl clear_impl) s t ok (code refresh_impl clear_impl k) =
      some s') : s'.status (.client d) = s.status (.client d) :=
  exec_status_of_ne hexec hne (target_ne_client k d)

theorem stays_client (hclient : k.ofThread = false) :
    (code refresh_impl clear_impl k).Stays fun k => ! k.ofThread := by
  cases k <;> first
    | (cases hclient; done)
    | (simp only [code, Instr.Stays] <;> intros <;> (try split_ifs) <;> simp [Pc.ofThread])

theorem stays_thread (hthread : k.ofThread = true) :
    (code refresh_impl clear_impl k).Stays Pc.ofThread := by
  cases k <;> first
    | (cases hthread; done)
    | (simp only [code, Instr.Stays] <;> intros <;> (try split_ifs) <;> simp [Pc.ofThread])

/-- Only the refresh thread waits on the condition. -/
theorem exec_client_next (hclient : k.ofThread = false)
    (hexec : exec (program refresh_impl clear_impl) s (.client c) ok
      (code refresh_impl clear_impl k) = some s') :
    ∃ k', s'.status (.client c) = .run k' ∧ k'.ofThread = false := by
  obtain ⟨k', hk', hrun | ⟨m, hasleep⟩⟩ := exec_stays (stays_client hclient) hexec
  · exact ⟨k', hrun, by simpa using hk'⟩
  · rw [exec_status hexec] at hasleep
    cases k <;> first
      | (cases hclient; done)
      | cases hasleep

theorem exec_thread_next (hthread : k.ofThread = true)
    (hexec : exec (program refresh_impl clear_impl) s .refresher ok
      (code refresh_impl clear_impl k) = some s') :
    (∃ k', s'.status .refresher = .run k' ∧ k'.ofThread = true) ∨
      s'.status .refresher = .asleep xh_core_mutex .test := by
  obtain ⟨k', hk', hrun | ⟨m, hasleep⟩⟩ := exec_stays (stays_thread hthread) hexec
  · exact .inl ⟨k', hrun, hk'⟩
  · rw [exec_status hexec] at hasleep
    cases k <;> first
      | exact .inr (exec_status hexec)
      | cases hasleep

/-- What a client's step does to the refresh thread. -/
theorem exec_client_thread
    (hexec : exec (program refresh_impl clear_impl) s (.client c) ok
      (code refresh_impl clear_impl k) = some s') :
    (k.signals = true ∧ s'.status .refresher = (s.status .refresher).wake) ∨
      (k = .asyncCreate ∧ ok = true ∧ s.status .refresher = .absent ∧
        s'.status .refresher = .run .loop) ∨
      (k = .join ∧ (s.status .refresher).rests (program refresh_impl clear_impl) ∧
        s'.status .refresher = .absent) ∨
      (k.signals = false ∧ k ≠ .join ∧ (k = .asyncCreate → ok = false) ∧
        s'.status .refresher = s.status .refresher) := by
  have hother (htarget : (code refresh_impl clear_impl k).target ≠ some .refresher) :
      s'.status .refresher = s.status .refresher :=
    exec_status_of_ne hexec Tid.noConfusion htarget
  cases k with
  | postSignal =>
    cases hexec
    exact .inl ⟨rfl, rfl⟩
  | stopSignal =>
    cases hexec
    exact .inl ⟨rfl, rfl⟩
  | asyncCreate =>
    simp only [code, exec] at hexec
    split_ifs at hexec with hok
    · cases hst : s.status .refresher with
      | absent =>
        simp only [hst] at hexec
        cases hexec
        exact .inr (.inl ⟨rfl, hok, rfl, rfl⟩)
      | _ => simp [hst] at hexec
    · cases hexec
      exact .inr (.inr (.inr ⟨rfl, Pc.noConfusion, fun _ => by simpa using hok, rfl⟩))
  | join =>
    simp only [code, exec] at hexec
    split_ifs at hexec with hrests
    cases hexec
    exact .inr (.inr (.inl ⟨rfl, hrests, rfl⟩))
  | _ =>
    refine .inr (.inr (.inr ⟨rfl, Pc.noConfusion, Pc.noConfusion, hother ?_⟩))
    simp [code, Instr.target]

end Steps

theorem threadOk_wake {st : Status Mutex Pc} (h : ThreadOk st) : ThreadOk st.wake := by
  cases st <;> exact h

theorem typed_step (h : Typed s) (hstep : step refresh_impl clear_impl s e = some s') :
    Typed s' := by
  have hkeep (c : Nat) (st : Status Mutex Pc) :
      (s.set (.client c) st).status .refresher = s.status .refresher :=
    Conf.set_status_of_ne Tid.noConfusion
  cases took_of_step h hstep with
  | client c k ok hk hclient hexec =>
    constructor
    · intro d
      rcases eq_or_ne d c with rfl | hne
      · exact exec_client_next hclient hexec
      · rw [exec_client_of_ne (fun h => hne (Tid.client.inj h)) hexec]
        exact h.client d
    · rcases exec_client_thread hexec with ⟨-, hst⟩ | ⟨-, -, -, hst⟩ | ⟨-, -, hst⟩ | ⟨-, -, -, hst⟩
      · rw [hst]
        exact threadOk_wake h.thread
      · rw [hst]
        rfl
      · rw [hst]
        trivial
      · rw [hst]
        exact h.thread
  | thread k ok hk hthread hexec =>
    constructor
    · intro d
      rw [exec_client_of_ne Tid.noConfusion hexec]
      exact h.client d
    · rcases exec_thread_next hthread hexec with ⟨k', hst, hk'⟩ | hst
      · rw [hst]
        exact hk'
      · rw [hst]
        exact ⟨rfl, rfl⟩
  | relock hst hs' =>
    subst hs'
    refine ⟨fun d => ?_, ?_⟩
    · rw [Conf.set_status_of_ne Tid.noConfusion]
      exact h.client d
    · rw [Conf.set_status_self]
      rfl
  | wake hst hs' =>
    subst hs'
    refine ⟨fun d => ?_, ?_⟩
    · rw [Conf.set_status_of_ne Tid.noConfusion]
      exact h.client d
    · rw [Conf.set_status_self]
      exact ⟨rfl, rfl⟩
  | call c k he hrests hentry hs' =>
    subst hs'
    refine ⟨fun d => ?_, ?_⟩
    · rcases eq_or_ne d c with rfl | hne
      · refine ⟨k, Conf.set_status_self, ?_⟩
        cases k <;> first | rfl | cases hentry
      · rw [Conf.set_status_of_ne fun h => hne (Tid.client.inj h)]
        exact h.client d
    · rw [hkeep]
      exact h.thread

/-! ### One refresh at a time -/

def Pc.begins : Pc → Bool
  | .syncBegin | .implBegin => true
  | _ => false

/-- In `xh_core_refresh_impl`, between what it reads and what it writes. -/
def Pc.ends : Pc → Bool
  | .syncEnd | .implEnd => true
  | _ => false

/-- The state is what the operations of the log make of the first one, and whoever refreshes has
read it as it still is. -/
structure Serial (refresh_impl clear_impl : W → W) (w : W) (s : State W) : Prop where
  work : s.mem.work = replay refresh_impl clear_impl w s.mem.log
  snapshot : ∀ t k, s.status t = .run k → k.ends = true → s.mem.snapshot t = s.mem.work

section Serial

variable {w : W} {t : Tid} {k k' : Pc} {ok : Bool} {m : Shared W}

variable (refresh_impl clear_impl t ok m) in
theorem write_ends (hk : k.ends = true) :
    ((code refresh_impl clear_impl k).write t m ok).work = refresh_impl (m.snapshot t) ∧
      ((code refresh_impl clear_impl k).write t m ok).log = m.log ++ [.refresh] := by
  cases k <;> first
    | exact ⟨rfl, rfl⟩
    | cases hk

theorem write_begins (hk : k.begins = true) :
    (code refresh_impl clear_impl k).write t m ok = beginRefresh t m := by
  cases k <;> first
    | rfl
    | cases hk

variable (refresh_impl clear_impl t ok m) in
theorem write_other (hends : k.ends = false) (hbegins : k.begins = false) (hfree : k ≠ .free) :
    ((code refresh_impl clear_impl k).write t m ok).work = m.work ∧
      ((code refresh_impl clear_impl k).write t m ok).log = m.log ∧
      ((code refresh_impl clear_impl k).write t m ok).snapshot = m.snapshot := by
  cases k <;> first
    | exact ⟨rfl, rfl, rfl⟩
    | (cases hends; done)
    | (cases hbegins; done)
    | exact absurd rfl hfree
    | (simp only [code, Instr.write]; split_ifs <;> exact ⟨rfl, rfl, rfl⟩)

/-- The only way between the two is through the first. -/
theorem stays_not_ends (hbegins : k.begins = false) :
    (code refresh_impl clear_impl k).Stays fun k => ! k.ends := by
  cases k <;> first
    | (cases hbegins; done)
    | (simp only [code, Instr.Stays] <;> intros <;> (try split_ifs) <;> simp [Pc.ends])

theorem begins_of_exec
    (hexec : exec (program refresh_impl clear_impl) s t ok (code refresh_impl clear_impl k) =
      some s') (hst : s'.status t = .run k') (hk' : k'.ends = true) : k.begins = true := by
  by_contra hbegins
  rw [Bool.not_eq_true] at hbegins
  obtain ⟨k'', hk'', hrun | ⟨m, hasleep⟩⟩ := exec_stays (stays_not_ends hbegins) hexec
  · cases hrun.symm.trans hst
    simp [hk'] at hk''
  · cases hasleep.symm.trans hst

theorem replay_append (log : List Op) (op : Op) :
    replay refresh_impl clear_impl w (log ++ [op]) =
      replay refresh_impl clear_impl (replay refresh_impl clear_impl w log) [op] :=
  List.foldl_append

theorem not_begins_of_ends (hk : k.ends = true) : k.begins = false := by
  cases k <;> first | rfl | cases hk

theorem held_of_ends (hk : k.ends = true) : held k xh_core_refresh_mutex = true := by
  cases k <;> first | rfl | cases hk

theorem serial_exec (h : Serial refresh_impl clear_impl w s) (hsound : Sound held s)
    (hk : s.status t = .run k)
    (hexec : exec (program refresh_impl clear_impl) s t ok (code refresh_impl clear_impl k) =
      some s')
    (hother : ∀ u k', u ≠ t → s'.status u = .run k' → k'.ends = true → s.status u = .run k') :
    Serial refresh_impl clear_impl w s' := by
  have hmem := exec_mem hexec
  have halone (hheld : held k xh_core_refresh_mutex = true) {u : Tid} {k' : Pc} (hne : u ≠ t)
      (hu : s.status u = .run k') (hends : k'.ends = true) : False := by
    apply hne
    apply exclusive hsound (m := xh_core_refresh_mutex)
    · rw [hu]
      exact held_of_ends hends
    · rw [hk]
      exact hheld
  cases hends : k.ends with
  | true =>
    obtain ⟨hwork, hlog⟩ := write_ends refresh_impl clear_impl t ok s.mem hends
    constructor
    · rw [hmem, hwork, hlog, replay_append, ← h.work, h.snapshot t k hk hends]
      rfl
    · intro u k' hu hk'
      rcases eq_or_ne u t with rfl | hne
      · have hbegins := begins_of_exec hexec hu hk'
        rw [not_begins_of_ends hends] at hbegins
        cases hbegins
      · exact (halone (held_of_ends hends) hne (hother u k' hne hu hk') hk').elim
  | false =>
    cases hbegins : k.begins with
    | true =>
      have hwrite := hmem.trans (write_begins hbegins)
      constructor
      · rw [hwrite]
        exact h.work
      · intro u k' hu hk'
        rw [hwrite]
        rcases eq_or_ne u t with rfl | hne
        · exact Function.update_self _ _ _
        · refine (Function.update_of_ne hne _ _).trans ?_
          exact h.snapshot u k' (hother u k' hne hu hk') hk'
    | false =>
      -- whoever has read and not yet written was there before
      have hbefore {u : Tid} {k' : Pc} (hu : s'.status u = .run k') (hk' : k'.ends = true) :
          u ≠ t ∧ s.status u = .run k' := by
        have hne : u ≠ t := by
          rintro rfl
          rw [begins_of_exec hexec hu hk'] at hbegins
          cases hbegins
        exact ⟨hne, hother u k' hne hu hk'⟩
      by_cases hfree : k = .free
      · subst hfree
        constructor
        · rw [hmem]
          change clear_impl s.mem.work = replay _ _ _ (s.mem.log ++ [.clear])
          rw [replay_append, ← h.work]
          rfl
        · intro u k' hu hk'
          exact (halone rfl (hbefore hu hk').1 (hbefore hu hk').2 hk').elim
      · obtain ⟨hwork, hlog, hsnapshot⟩ :=
          write_other refresh_impl clear_impl t ok s.mem hends hbegins hfree
        rw [← hmem] at hwork hlog hsnapshot
        constructor
        · rw [hwork, hlog]
          exact h.work
        · intro u k' hu hk'
          rw [hsnapshot, hwork]
          exact h.snapshot u k' (hbefore hu hk').2 hk'

/-- A step of a client leaves another thread where it is, or wakes, starts or takes it away. -/
theorem run_of_exec_client {c : Nat} {u : Tid} (hne : u ≠ .client c)
    (hexec : exec (program refresh_impl clear_impl) s (.client c) ok
      (code refresh_impl clear_impl k) = some s') (hu : s'.status u = .run k')
    (hloop : k' ≠ .loop) : s.status u = .run k' := by
  cases u with
  | client d => rwa [exec_client_of_ne hne hexec] at hu
  | refresher =>
    rcases exec_client_thread hexec with ⟨-, hst⟩ | ⟨-, -, -, hst⟩ | ⟨-, -, hst⟩ | ⟨-, -, -, hst⟩
    · rw [hst] at hu
      cases hold : s.status .refresher with
      | run k'' =>
        rw [hold] at hu
        exact hu
      | _ =>
        rw [hold] at hu
        cases hu
    · cases hst.symm.trans hu
      exact absurd rfl hloop
    · cases hst.symm.trans hu
    · rwa [hst] at hu

theorem serial_set (h : Serial refresh_impl clear_impl w s) {st : Status Mutex Pc}
    (hmem : s'.mem = s.mem) (hstatus : s'.status = Function.update s.status t st)
    (hst : ∀ k, st = .run k → k.ends = false) : Serial refresh_impl clear_impl w s' := by
  refine ⟨by rw [hmem]; exact h.work, fun u k hu hk => ?_⟩
  rw [hmem]
  rw [hstatus] at hu
  rcases eq_or_ne u t with rfl | hne
  · rw [Function.update_self] at hu
    rw [hst k hu] at hk
    cases hk
  · rw [Function.update_of_ne hne] at hu
    exact h.snapshot u k hu hk

theorem serial_step (htyped : Typed s) (hsound : Sound held s)
    (h : Serial refresh_impl clear_impl w s)
    (hstep : step refresh_impl clear_impl s e = some s') :
    Serial refresh_impl clear_impl w s' := by
  cases took_of_step htyped hstep with
  | client c k ok hk hclient hexec =>
    refine serial_exec h hsound hk hexec fun u k' hne hu hk' => ?_
    apply run_of_exec_client hne hexec hu
    rintro rfl
    cases hk'
  | thread k ok hk hthread hexec =>
    refine serial_exec h hsound hk hexec fun u k' hne hu hk' => ?_
    cases u with
    | client d => rwa [exec_client_of_ne hne hexec] at hu
    | refresher => exact absurd rfl hne
  | relock hst hs' =>
    subst hs'
    exact serial_set h rfl rfl fun k hk => by cases hk; rfl
  | wake hst hs' =>
    subst hs'
    exact serial_set h rfl rfl fun k hk => by cases hk
  | call c k he hrests hentry hs' =>
    subst hs'
    refine serial_set h rfl rfl fun k' hk' => ?_
    cases hk'
    cases k <;> first
      | rfl
      | cases hentry

end Serial

/-! ### No request is lost -/

/-- The refresh thread has taken a request up and not yet carried it out. -/
def Pc.serving : Pc → Bool
  | .takeUnlock | .refreshLock | .implBegin | .implEnd => true
  | _ => false

structure Counts (s : State W) : Prop where
  pending : s.mem.xh_core_refresh_thread_do = false → s.mem.taken = s.mem.requested
  served : (∀ k, s.status .refresher = .run k → k.serving = false) → s.mem.served = s.mem.taken

section Counts

variable {t : Tid} {k k' : Pc} {ok : Bool} {m : Shared W}

theorem write_pending (h : m.xh_core_refresh_thread_do = false → m.taken = m.requested) :
    ((code refresh_impl clear_impl k).write t m ok).xh_core_refresh_thread_do = false →
      ((code refresh_impl clear_impl k).write t m ok).taken =
        ((code refresh_impl clear_impl k).write t m ok).requested := by
  cases k <;> first
    | exact h
    | exact fun _ => rfl
    | (simp only [code, Instr.write]; split_ifs <;> first | exact h | exact fun _ => rfl)
    | (intro hdo; cases hdo)

variable (refresh_impl clear_impl t ok m) in
/-- A client carries out no asynchronous refresh. -/
theorem write_client (hk : k.ofThread = false) :
    ((code refresh_impl clear_impl k).write t m ok).taken = m.taken ∧
      ((code refresh_impl clear_impl k).write t m ok).served = m.served := by
  cases k <;> first
    | (cases hk; done)
    | exact ⟨rfl, rfl⟩
    | (simp only [code, Instr.write]; split_ifs <;> exact ⟨rfl, rfl⟩)

theorem not_serving_of_rests
    (h : (Status.run k : Status Mutex Pc).rests (program refresh_impl clear_impl) = true) :
    k.serving = false := by
  cases k <;> first
    | rfl
    | cases h

/-- After a step of the refresh thread, if it is not in the middle of a request. -/
theorem served_of_thread (h : Counts s) (hk : s.status .refresher = .run k)
    (hthread : k.ofThread = true)
    (hexec : exec (program refresh_impl clear_impl) s .refresher ok
      (code refresh_impl clear_impl k) = some s')
    (hidle : ∀ k', s'.status .refresher = .run k' → k'.serving = false) :
    s'.mem.served = s'.mem.taken := by
  have hst := exec_status hexec
  have hbefore (hserving : k.serving = false) : s.mem.served = s.mem.taken := by
    apply h.served
    intro k' hk'
    cases hk.symm.trans hk'
    exact hserving
  rw [exec_mem hexec]
  cases k with
  | take =>
    by_cases hrunning : s.mem.xh_core_refresh_thread_running
    · have hnext : s'.status .refresher = .run .takeUnlock := by
        rw [hst]
        simp [code, Instr.after, hrunning]
      cases hidle _ hnext
    · simp only [code, Instr.write, hrunning]
      exact hbefore rfl
  | takeUnlock => cases hidle _ hst
  | refreshLock => cases hidle _ hst
  | implBegin => cases hidle _ hst
  | implEnd => rfl
  | _ => first
    | exact hbefore rfl
    | cases hthread

theorem counts_step (htyped : Typed s) (h : Counts s)
    (hstep : step refresh_impl clear_impl s e = some s') : Counts s' := by
  cases took_of_step htyped hstep with
  | client c k ok hk hclient hexec =>
    have hmem := exec_mem hexec
    obtain ⟨htaken, hserved⟩ :=
      write_client refresh_impl clear_impl (.client c) ok s.mem hclient
    rw [← hmem] at htaken hserved
    constructor
    · rw [hmem]
      exact write_pending h.pending
    · intro hidle
      rw [htaken, hserved]
      apply h.served
      intro k' hk'
      rcases exec_client_thread hexec with
        ⟨-, hst⟩ | ⟨-, -, habsent, -⟩ | ⟨-, hrests, -⟩ | ⟨-, -, -, hst⟩
      · rw [hk'] at hst
        exact hidle k' hst
      · cases habsent.symm.trans hk'
      · rw [hk'] at hrests
        exact not_serving_of_rests hrests
      · exact hidle k' (hst.trans hk')
  | thread k ok hk hthread hexec =>
    constructor
    · rw [exec_mem hexec]
      exact write_pending h.pending
    · exact served_of_thread h hk hthread hexec
  | relock hst hs' =>
    subst hs'
    exact ⟨h.pending, fun _ => h.served fun k hk => by cases hst.symm.trans hk⟩
  | wake hst hs' =>
    subst hs'
    exact ⟨h.pending, fun _ => h.served fun k hk => by cases hst.symm.trans hk⟩
  | call c k he hrests hentry hs' =>
    subst hs'
    refine ⟨h.pending, fun hidle => h.served fun k' hk' => hidle k' ?_⟩
    rw [Conf.set_status_of_ne Tid.noConfusion]
    exact hk'

end Counts
end ElfHook.XHook.Async

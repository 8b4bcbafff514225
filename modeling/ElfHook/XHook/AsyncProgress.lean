import ElfHook.XHook.AsyncLive

/-!
# xHook: asynchronous refreshes are carried out

* `refresh_serial`: refreshes from any number of threads change the state as if made one after the
  other, and there is one refresh thread at most.
* `asleep_served`: no request is lost.
* `exists_step_of_call`: no deadlock.
* `refresh_drains`: once the callers are back, the refresh thread carries out what was asked for.
-/

namespace ElfHook.XHook.Async

open Lib Lib.Pthread Mutex

variable {W : Type} {refresh_impl clear_impl : W → W} {w : W} {s s' : State W}
  {es : List (Pthread.Event Tid Pc)} {e : Pthread.Event Tid Pc}

/-- What holds in every state, whatever the callers do. -/
structure Safe (refresh_impl clear_impl : W → W) (w : W) (s : State W) : Prop where
  typed : Typed s
  sound : Sound held s
  serial : Serial refresh_impl clear_impl w s
  counts : Counts s

/-- What holds besides where callers clear with no other call under way. -/
structure Live (s : State W) : Prop where
  lifecycle : Lifecycle s
  signalled : Signalled s

theorem initial_client (w : W) (c : Nat) : (initial w).status (.client c) = .run .idle := rfl

theorem safe_initial (w : W) : Safe refresh_impl clear_impl w (initial w) where
  typed := ⟨fun c => ⟨.idle, initial_client w c, rfl⟩, trivial⟩
  sound := by
    refine ⟨fun m t => ?_, fun t => ?_⟩
    · cases t <;> exact iff_of_false (fun h => by cases h) fun h => by cases h
    · cases t <;> trivial
  serial := ⟨rfl, fun _ _ _ _ => rfl⟩
  counts := ⟨fun _ => rfl, fun _ => rfl⟩

theorem live_initial (w : W) : Live (initial w) := by
  have hidle {c : Nat} {k : Pc} (h : (initial w).status (.client c) = .run k) : k = .idle := by
    rw [initial_client] at h
    cases h
    rfl
  refine ⟨⟨fun c k hk => ?_, fun c d k k' hk hclears => ?_, ?_, ?_, ?_, ?_⟩, ⟨?_, ?_, ?_⟩⟩
  · rw [hidle hk]
    trivial
  · rw [hidle hk] at hclears
    cases hclears
  · exact fun hp => absurd rfl hp
  · exact fun hok => by cases hok
  · exact fun hp => absurd rfl hp
  · exact fun hp => absurd rfl hp
  · exact fun h => by cases h
  · exact fun h => by cases h
  · exact fun k h => by cases h

theorem safe_step (h : Safe refresh_impl clear_impl w s)
    (hstep : step refresh_impl clear_impl s e = some s') :
    Safe refresh_impl clear_impl w s' where
  typed := typed_step h.typed hstep
  sound := sound_step (checked_program refresh_impl clear_impl) h.sound hstep
  serial := serial_step h.typed h.sound h.serial hstep
  counts := counts_step h.typed h.counts hstep

theorem live_step (hsafe : Safe refresh_impl clear_impl w s) (h : Live s) (horderly : Orderly s e)
    (hstep : step refresh_impl clear_impl s e = some s') : Live s' where
  lifecycle := lifecycle_step hsafe.typed hsafe.sound h.lifecycle horderly hstep
  signalled := signalled_step hsafe.typed hsafe.sound h.lifecycle h.signalled hstep

theorem safe_run (hrun : run (step refresh_impl clear_impl) (initial w) es = some s) :
    Safe refresh_impl clear_impl w s :=
  run_invariant' (fun _ _ _ => safe_step) (safe_initial w) hrun

theorem live_run (horderly : Along (step refresh_impl clear_impl) Orderly (initial w) es)
    (hrun : run (step refresh_impl clear_impl) (initial w) es = some s) : Live s := by
  have hboth : Safe refresh_impl clear_impl w s ∧ Live s := by
    refine run_invariant (I := fun s => Safe refresh_impl clear_impl w s ∧ Live s) ?_
      ⟨safe_initial w, live_initial w⟩ horderly hrun
    intro s e s' h horderly hstep
    exact ⟨safe_step h.1 hstep, live_step h.1 h.2 horderly hstep⟩
  exact hboth.2

/-- The state is the result of the refreshes and clearings carried out, one after the other, no two
threads are within the refresh mutex at once, and no second refresh thread is ever started. -/
theorem refresh_serial (horderly : Along (step refresh_impl clear_impl) Orderly (initial w) es)
    (hrun : run (step refresh_impl clear_impl) (initial w) es = some s) :
    s.mem.work = replay refresh_impl clear_impl w s.mem.log ∧
      (∀ t u k k', s.status t = .run k → s.status u = .run k' →
        held k xh_core_refresh_mutex = true → held k' xh_core_refresh_mutex = true → t = u) ∧
      ∀ c, s.status (.client c) = .run .asyncCreate → s.status .refresher = .absent := by
  have hsafe := safe_run hrun
  have hlive := live_run horderly hrun
  refine ⟨hsafe.serial.work, fun t u k k' ht hu hk hk' => ?_, fun c hc => ?_⟩
  · apply exclusive hsafe.sound (m := xh_core_refresh_mutex)
    · rw [ht]
      exact hk
    · rw [hu]
      exact hk'
  · exact not_not.1 (hlive.lifecycle.relies c _ hc).1

theorem served_of_asleep (h : Safe refresh_impl clear_impl w s)
    (hasleep : s.status .refresher = .asleep xh_core_mutex .test) :
    s.mem.served = s.mem.taken :=
  h.counts.served fun k hk => by cases hasleep.symm.trans hk

/-- A caller asks for an asynchronous refresh and returns. -/
def asked : List (Pthread.Event Tid Pc) :=
  .call (.client 0) (.initOnce true) :: List.replicate 20 (.go (.client 0) true)

/-- Then another one refreshes while the thread has begun to. -/
def bothRefresh : List (Pthread.Event Tid Pc) :=
  asked ++ .call (.client 1) (.initOnce false) :: (List.replicate 7 (.go .refresher true) ++
    List.replicate 2 (.go (.client 1) true) ++ List.replicate 2 (.go .refresher true) ++
      List.replicate 4 (.go (.client 1) true))

theorem orderly_of_go (s : State W) (h : ∀ e ∈ es, ∃ t ok, e = .go t ok) :
    Along (step refresh_impl clear_impl) Orderly s es := by
  induction es generalizing s with
  | nil => trivial
  | cons e es ih =>
    obtain ⟨⟨t, ok, rfl⟩, hes⟩ := List.forall_mem_cons.1 h
    exact ⟨trivial, fun s' _ => ih s' hes⟩

theorem orderly_replicate (s : State W) (n : Nat) (t : Tid) :
    Along (step refresh_impl clear_impl) Orderly s (List.replicate n (.go t true)) :=
  orderly_of_go s fun _ he => ⟨t, true, List.eq_of_mem_replicate he⟩

theorem orderly_asked (w : W) :
    Along (step refresh_impl clear_impl) Orderly (initial w) asked := by
  refine ⟨fun d k hd => ?_, fun s' _ => orderly_replicate s' 20 _⟩
  cases (initial_client w d).symm.trans hd
  rfl

theorem orderly_bothRefresh :
    Along (step Nat.succ fun _ => 0) Orderly (initial 0) bothRefresh := by
  refine (along_append rfl).2 ⟨orderly_asked 0, fun d k hd => ?_, fun s' _ => ?_⟩
  · cases d <;> cases hd <;> rfl
  · apply orderly_of_go
    simp only [List.mem_append, List.mem_replicate]
    rintro e (((⟨-, rfl⟩ | ⟨-, rfl⟩) | ⟨-, rfl⟩) | ⟨-, rfl⟩) <;> exact ⟨_, _, rfl⟩

theorem refresh_serial_both :
    ∃ s, run (step Nat.succ fun _ => 0) (initial 0) bothRefresh = some s ∧
      s.mem.log = [.refresh, .refresh] ∧ (s.mem.work = replay Nat.succ (fun _ => 0) 0 s.mem.log ∧
        (∀ t u k k', s.status t = .run k → s.status u = .run k' →
          held k xh_core_refresh_mutex = true → held k' xh_core_refresh_mutex = true → t = u) ∧
        ∀ c, s.status (.client c) = .run .asyncCreate → s.status .refresher = .absent) :=
  ⟨_, rfl, rfl, refresh_serial orderly_bothRefresh
    (show run (step Nat.succ fun _ => 0) (initial 0) bothRefresh = some _ from rfl)⟩

/-- When the refresh thread sleeps and no one holds the mutex, it has carried out every request. -/
theorem asleep_served (horderly : Along (step refresh_impl clear_impl) Orderly (initial w) es)
    (hrun : run (step refresh_impl clear_impl) (initial w) es = some s)
    (hasleep : s.status .refresher = .asleep xh_core_mutex .test)
    (hfree : s.owner xh_core_mutex = none) :
    s.mem.xh_core_refresh_thread_do = false ∧ s.mem.xh_core_refresh_thread_running = true ∧
      s.mem.served = s.mem.requested := by
  have hsafe := safe_run hrun
  have hlive := live_run horderly hrun
  have hnone : ¬ ∃ c k, s.status (.client c) = .run k ∧ k.signals = true := by
    rintro ⟨c, k, hk, hsignals⟩
    have hheld : (s.status (.client c)).holds held xh_core_mutex := by
      rw [hk]
      cases k <;> first
        | rfl
        | cases hsignals
    rw [← hsafe.sound.owns, hfree] at hheld
    cases hheld
  obtain ⟨hdo, hrunning⟩ := (hlive.signalled.asleep hasleep).resolve_right hnone
  exact ⟨hdo, hrunning, (served_of_asleep hsafe hasleep).trans (hsafe.counts.pending hdo)⟩

theorem asleep_served_asked :
    ∃ s, run (step Nat.succ fun _ => 0) (initial 0)
        (asked ++ List.replicate 13 (.go .refresher true)) = some s ∧
      (s.mem.xh_core_refresh_thread_do = false ∧ s.mem.xh_core_refresh_thread_running = true ∧
        s.mem.served = s.mem.requested) := by
  have horderly : Along (step Nat.succ fun _ => 0) Orderly (initial 0)
      (asked ++ List.replicate 13 (.go .refresher true)) :=
    (along_append rfl).2 ⟨orderly_asked 0, orderly_replicate _ 13 _⟩
  exact ⟨_, rfl, asleep_served horderly rfl rfl rfl⟩

/-! ### Some thread can go on -/

theorem rests_client {k : Pc} (hk : k.ofThread = false) :
    (Status.run k : Status Mutex Pc).rests (program refresh_impl clear_impl) = k.rests := by
  cases k <;> first
    | rfl
    | cases hk

theorem holds_of_resting {k : Pc} {m : Mutex} (hk : k.rests = true) : held k m = false := by
  cases k <;> first
    | rfl
    | cases hk

/-- With every caller at rest or about to join the thread, it does not wait for a mutex. -/
theorem not_blocked_of_alone (hsafe : Safe refresh_impl clear_impl w s)
    (halone : ∀ c k, s.status (.client c) = .run k → k.rests = true ∨ k = .join) :
    ¬ Blocked (program refresh_impl clear_impl) s .refresher := by
  rintro ⟨m, hwants, howner⟩
  obtain ⟨t, ht⟩ := Option.ne_none_iff_exists'.1 howner
  have hheld := (hsafe.sound.owns m t).1 ht
  cases t with
  | refresher =>
    have hlt := rank_lt_of_wants (checked_program refresh_impl clear_impl) hheld hwants
    exact Nat.lt_irrefl _ hlt
  | client c =>
    obtain ⟨k, hk, -⟩ := hsafe.typed.client c
    rw [hk] at hheld
    change held k m = true at hheld
    rcases halone c k hk with hrests | rfl
    · rw [holds_of_resting hrests] at hheld
      cases hheld
    · cases hheld

theorem ready_refresher (hsafe : Safe refresh_impl clear_impl w s) (k : Pc)
    (hk : s.status .refresher = .run k) :
    (code refresh_impl clear_impl k).Ready (program refresh_impl clear_impl) s := by
  have hthread := hsafe.typed.thread
  rw [hk] at hthread
  cases k <;> first
    | (cases hthread; done)
    | trivial

/-- The thread that is being joined has ended or can go on. -/
theorem refresher_of_join (hsafe : Safe refresh_impl clear_impl w s) (hlive : Live s) {c : Nat}
    (hjoin : s.status (.client c) = .run .join)
    (hnot : (s.status .refresher).rests (program refresh_impl clear_impl) = false) (ok : Bool) :
    ∃ s', step refresh_impl clear_impl s (.go .refresher ok) = some s' := by
  have halone (d : Nat) (k : Pc) (hd : s.status (.client d) = .run k) :
      k.rests = true ∨ k = .join := by
    rcases eq_or_ne d c with rfl | hne
    · cases hjoin.symm.trans hd
      exact .inr rfl
    · exact .inl (hlive.lifecycle.alone c d _ k hjoin rfl hne hd)
  obtain ⟨hpresent, hstop⟩ := hlive.lifecycle.relies c _ hjoin
  have hwork : AtWork (program refresh_impl clear_impl) s .refresher := by
    unfold AtWork
    cases hst : s.status .refresher with
    | absent => exact hpresent hst
    | run k => rwa [hst] at hnot
    | woken m k => trivial
    | asleep m k =>
      have hthread := hsafe.typed.thread
      rw [hst] at hthread
      obtain ⟨rfl, rfl⟩ := hthread
      rcases hlive.signalled.asleep hst with ⟨-, hrunning⟩ | ⟨d, k, hd, hsignals⟩
      · cases hstop.symm.trans hrunning
      · rcases halone d k hd with hrests | rfl
        · cases k <;> first
            | (cases hrests; done)
            | cases hsignals
        · cases hsignals
  exact exists_step hwork (not_blocked_of_alone hsafe halone) (ready_refresher hsafe) ok

theorem rank_lt_two (m : Mutex) : rank m < 2 := by
  cases m <;> decide

/-- As long as some caller is not back, some thread can take a step, whether or not the calls that
may fail do. -/
theorem exists_step_of_call
    (horderly : Along (step refresh_impl clear_impl) Orderly (initial w) es)
    (hrun : run (step refresh_impl clear_impl) (initial w) es = some s) {c : Nat} {k : Pc}
    (hk : s.status (.client c) = .run k) (hcall : k.rests = false) (ok : Bool) :
    ∃ t s', step refresh_impl clear_impl s (.go t ok) = some s' := by
  have hsafe := safe_run hrun
  have hlive := live_run horderly hrun
  have hwork : AtWork (program refresh_impl clear_impl) s (.client c) := by
    obtain ⟨k', hk', hclient⟩ := hsafe.typed.client c
    cases hk.symm.trans hk'
    unfold AtWork
    rw [hk]
    exact (rests_client hclient).trans hcall
  obtain ⟨u, hu, hfree⟩ := exists_unblocked (checked_program refresh_impl clear_impl) hsafe.sound
    rank_lt_two hwork
  cases u with
  | refresher => exact ⟨.refresher, exists_step hu hfree (ready_refresher hsafe) ok⟩
  | client d =>
    obtain ⟨kd, hd, -⟩ := hsafe.typed.client d
    by_cases hjoin : kd = .join ∧
        (s.status .refresher).rests (program refresh_impl clear_impl) = false
    · obtain ⟨rfl, hnot⟩ := hjoin
      exact ⟨.refresher, refresher_of_join hsafe hlive hd hnot ok⟩
    · refine ⟨.client d, exists_step hu hfree (fun k' hk' => ?_) ok⟩
      cases hd.symm.trans hk'
      have hat := hlive.lifecycle.relies d _ hd
      cases kd with
      | asyncCreate => exact not_not.1 hat.1
      | join =>
        change (s.status .refresher).rests (program refresh_impl clear_impl) = true
        simpa using hjoin
      | _ => trivial

/-- The callers are back, and the thread has not been stopped. -/
structure Quiet (s : State W) : Prop where
  back : ∀ c k, s.status (.client c) = .run k → k.rests = true
  present : Present s

theorem quiet_asked : ∃ s, run (step Nat.succ fun _ => 0) (initial 0) asked = some s ∧ Quiet s := by
  refine ⟨_, rfl, fun c k hk => ?_, fun h => by cases h⟩
  cases c <;> cases hk <;> rfl

theorem exists_step_of_join : ∃ s,
    run (step Nat.succ fun _ => 0) (initial 0)
        (asked ++ .call (.client 0) .clear :: List.replicate 5 (.go (.client 0) true)) = some s ∧
      s.status (.client 0) = .run .join ∧
      ∃ t s', step Nat.succ (fun _ => 0) s (.go t true) = some s' := by
  have horderly : Along (step Nat.succ fun _ => 0) Orderly (initial 0)
      (asked ++ .call (.client 0) .clear :: List.replicate 5 (.go (.client 0) true)) := by
    obtain ⟨s, hs, hquiet⟩ := quiet_asked
    refine (along_append hs).2 ⟨orderly_asked 0, ?_⟩
    exact ⟨hquiet.back, fun s' _ => orderly_replicate s' 5 _⟩
  have hjoining : ∃ s, run (step Nat.succ fun _ => 0) (initial 0)
      (asked ++ .call (.client 0) .clear :: List.replicate 5 (.go (.client 0) true)) = some s ∧
        s.status (.client 0) = .run .join := ⟨_, rfl, rfl⟩
  obtain ⟨s, hs, hjoin⟩ := hjoining
  exact ⟨s, hs, hjoin, exists_step_of_call horderly hs hjoin rfl true⟩

/-! ### The thread alone -/

def Pc.toSleep : Pc → Nat
  | .sleep => 1
  | .test => 2
  | .threadLock => 3
  | .loop => 4
  | .refreshUnlock => 5
  | .implEnd => 6
  | .implBegin => 7
  | .refreshLock => 8
  | .takeUnlock => 9
  | _ => 0

/-- The steps that the thread takes until it sleeps, where nothing more is asked of it. -/
def distance (work : Bool) : Status Mutex Pc → Nat
  | .absent => 0
  | .asleep _ _ => 0
  | .woken _ k => k.toSleep + 1 + if work then 9 else 0
  | .run .take => 10
  | .run k => k.toSleep + if work then 9 else 0

theorem toSleep_le (k : Pc) : k.toSleep ≤ 9 := by
  unfold Pc.toSleep
  split <;> decide

theorem distance_le (work : Bool) (st : Status Mutex Pc) : distance work st ≤ 19 := by
  have hwork : (if work then 9 else 0) ≤ 9 := by
    split_ifs <;> decide
  unfold distance
  split
  · decide
  · decide
  · rename_i k
    have hle := toSleep_le k
    omega
  · decide
  · rename_i k _
    have hle := toSleep_le k
    omega

theorem running_of_quiet (hlive : Live s) (h : Quiet s) :
    s.mem.xh_core_refresh_thread_running = true := by
  by_contra hstop
  rw [Bool.not_eq_true] at hstop
  obtain ⟨c, k, hk, hstopping⟩ := hlive.lifecycle.stopped h.present hstop
  have hrests := h.back c k hk
  rw [not_rests_of_relying (relying_of_stopping hstopping)] at hrests
  cases hrests

theorem do_of_quiet_asleep (hlive : Live s) (h : Quiet s)
    (hasleep : s.status .refresher = .asleep xh_core_mutex .test) :
    s.mem.xh_core_refresh_thread_do = false := by
  rcases hlive.signalled.asleep hasleep with ⟨hdo, -⟩ | ⟨c, k, hk, hsignals⟩
  · exact hdo
  · have hrests := h.back c k hk
    cases k <;> first
      | (cases hrests; done)
      | cases hsignals

section Alone

variable {k : Pc} {ok : Bool}

theorem distance_lt_of_exec (hlive : Live s)
    (hrunning : s.mem.xh_core_refresh_thread_running = true) (hk : s.status .refresher = .run k)
    (hthread : k.ofThread = true)
    (hexec : exec (program refresh_impl clear_impl) s .refresher ok
      (code refresh_impl clear_impl k) = some s') :
    distance s'.mem.xh_core_refresh_thread_do (s'.status .refresher) <
      distance s.mem.xh_core_refresh_thread_do (s.status .refresher) := by
  have hexits : k.exits = false := by
    by_contra hexits
    rw [Bool.not_eq_false] at hexits
    cases (hlive.signalled.ends k hk hexits).symm.trans hrunning
  rw [exec_mem hexec, exec_status hexec, hk]
  cases hdo : s.mem.xh_core_refresh_thread_do with
  | false =>
    cases k <;> first
      | (cases hthread; done)
      | (cases hexits; done)
      | simp [code, Instr.after, Instr.write, beginRefresh, finishRefresh, distance, Pc.toSleep,
          hrunning, hdo]
  | true =>
    cases k with
    | sleep => cases (hlive.signalled.sleep hk).1.symm.trans hdo
    | _ => first
      | (cases hthread; done)
      | (cases hexits; done)
      | simp [code, Instr.after, Instr.write, beginRefresh, finishRefresh, distance, Pc.toSleep,
          hrunning, hdo]

theorem write_requested {t : Tid} {m : Shared W} (hthread : k.ofThread = true) :
    ((code refresh_impl clear_impl k).write t m ok).requested = m.requested := by
  cases k <;> first
    | (cases hthread; done)
    | rfl
    | (simp only [code, Instr.write]; split_ifs <;> rfl)

end Alone

theorem drain_step (hsafe : Safe refresh_impl clear_impl w s) (hlive : Live s) (h : Quiet s)
    (hawake : s.status .refresher ≠ .asleep xh_core_mutex .test) :
    ∃ s', step refresh_impl clear_impl s (.go .refresher true) = some s' ∧ Quiet s' ∧
      s'.mem.requested = s.mem.requested ∧
      distance s'.mem.xh_core_refresh_thread_do (s'.status .refresher) <
        distance s.mem.xh_core_refresh_thread_do (s.status .refresher) := by
  have hrunning := running_of_quiet hlive h
  have hfree : ¬ Blocked (program refresh_impl clear_impl) s .refresher :=
    not_blocked_of_alone hsafe fun c k hk => .inl (h.back c k hk)
  have hthread := hsafe.typed.thread
  have hwork : AtWork (program refresh_impl clear_impl) s .refresher := by
    unfold AtWork
    cases hst : s.status .refresher with
    | absent => exact h.present hst
    | run k =>
      rw [hst] at hthread
      cases k with
      | exited => cases (hlive.signalled.ends _ hst rfl).symm.trans hrunning
      | _ => first
        | (cases hthread; done)
        | rfl
    | woken m k => trivial
    | asleep m k =>
      rw [hst] at hthread
      obtain ⟨rfl, rfl⟩ := hthread
      exact hawake hst
  obtain ⟨s', hstep⟩ := exists_step hwork hfree (ready_refresher hsafe) true
  refine ⟨s', hstep, ?_⟩
  cases took_of_step hsafe.typed hstep with
  | thread k ok hk hofThread hexec =>
    refine ⟨⟨fun c k hc => ?_, ?_⟩, ?_, distance_lt_of_exec hlive hrunning hk hofThread hexec⟩
    · rw [exec_client_of_ne Tid.noConfusion hexec] at hc
      exact h.back c k hc
    · rcases exec_thread_next hofThread hexec with ⟨k', hst, -⟩ | hst
      · exact present_of_status hst fun h => by cases h
      · exact present_of_status hst fun h => by cases h
    · rw [exec_mem hexec]
      exact write_requested hofThread
  | relock hst hs' =>
    subst hs'
    refine ⟨⟨fun c k hc => ?_, ?_⟩, rfl, ?_⟩
    · rw [Conf.set_status_of_ne Tid.noConfusion] at hc
      exact h.back c k hc
    · exact present_of_status Conf.set_status_self fun h => by cases h
    · rw [Conf.set_status_self, hst]
      exact Nat.add_lt_add_right (by decide) _
  | client c k ok hk hclient hexec he => cases he
  | wake hst hs' he => cases he
  | call c k he hrests hentry hs' => cases he

theorem drains (hsafe : Safe refresh_impl clear_impl w s) (hlive : Live s) (hquiet : Quiet s) :
    ∃ n ≤ distance s.mem.xh_core_refresh_thread_do (s.status .refresher), ∃ s',
      run (step refresh_impl clear_impl) s (List.replicate n (.go .refresher true)) = some s' ∧
        s'.status .refresher = .asleep xh_core_mutex .test ∧
        s'.mem.xh_core_refresh_thread_do = false ∧ s'.mem.served = s.mem.requested := by
  induction hd : distance s.mem.xh_core_refresh_thread_do (s.status .refresher)
    using Nat.strongRecOn generalizing s with
  | _ d ih =>
    by_cases hasleep : s.status .refresher = .asleep xh_core_mutex .test
    · have hdo := do_of_quiet_asleep hlive hquiet hasleep
      refine ⟨0, Nat.zero_le _, s, rfl, hasleep, hdo, ?_⟩
      exact (served_of_asleep hsafe hasleep).trans (hsafe.counts.pending hdo)
    · obtain ⟨s₁, hstep, hquiet₁, hrequested, hlt⟩ := drain_step hsafe hlive hquiet hasleep
      have horderly : Orderly s (.go .refresher true) := trivial
      obtain ⟨n, hn, s', hrun, hdone⟩ := ih _ (hd ▸ hlt) (safe_step hsafe hstep)
        (live_step hsafe hlive horderly hstep) hquiet₁ rfl
      rw [hrequested] at hdone
      refine ⟨n + 1, by omega, s', ?_, hdone⟩
      rw [List.replicate_succ]
      exact run_cons_eq_some.2 ⟨s₁, hstep, hrun⟩

/-- From any state that the callers leave behind, the thread comes to sleep in at most nineteen
steps of its own, with every request carried out. -/
theorem refresh_drains (horderly : Along (step refresh_impl clear_impl) Orderly (initial w) es)
    (hrun : run (step refresh_impl clear_impl) (initial w) es = some s) (hquiet : Quiet s) :
    ∃ n ≤ 19, ∃ s',
      run (step refresh_impl clear_impl) s (List.replicate n (.go .refresher true)) = some s' ∧
        s'.status .refresher = .asleep xh_core_mutex .test ∧
        s'.mem.xh_core_refresh_thread_do = false ∧ s'.mem.served = s.mem.requested := by
  obtain ⟨n, hn, hdrained⟩ := drains (safe_run hrun) (live_run horderly hrun) hquiet
  exact ⟨n, Nat.le_trans hn (distance_le _ _), hdrained⟩

theorem refresh_drains_asked :
    ∃ s, run (step Nat.succ fun _ => 0) (initial 0) asked = some s ∧
      ∃ n ≤ 19, ∃ s',
        run (step Nat.succ fun _ => 0) s (List.replicate n (.go .refresher true)) = some s' ∧
          s'.status .refresher = .asleep xh_core_mutex .test ∧
          s'.mem.xh_core_refresh_thread_do = false ∧ s'.mem.served = s.mem.requested := by
  obtain ⟨s, hs, hquiet⟩ := quiet_asked
  exact ⟨s, hs, refresh_drains (orderly_asked 0) hs hquiet⟩

end ElfHook.XHook.Async

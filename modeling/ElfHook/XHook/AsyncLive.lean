import ElfHook.XHook.AsyncSafe

/-!
# xHook: the refresh thread started, woken and stopped

Callers that clear do so while no other call is under way.
-/

namespace ElfHook.XHook.Async

open Lib Lib.Pthread Mutex

variable {W : Type} {refresh_impl clear_impl : W → W} {s s' : State W} {e : Pthread.Event Tid Pc}

/-- The places of `xh_core_clear`. -/
def Pc.clears : Pc → Bool
  | .clear | .stopLock | .stop | .stopSignal | .stopUnlock | .join | .joined
  | .clearAsyncInited | .clearInitOk | .clearInited | .freeLock | .freeLockRefresh | .free
  | .freeUnlockRefresh | .freeUnlock => true
  | _ => false

def Pc.rests : Pc → Bool
  | .idle | .ret _ => true
  | _ => false

/-- No call is begun while another thread clears, and no clearing while there is another call. -/
def Orderly (s : State W) : Pthread.Event Tid Pc → Prop
  | .call _ .clear => ∀ d k, s.status (.client d) = .run k → k.rests = true
  | .call _ _ => ∀ d k, s.status (.client d) = .run k → k.clears = false
  | _ => True

/-- The refresh thread has been started, and not been joined. -/
def Present (s : State W) : Prop := s.status .refresher ≠ .absent

/-- What a client relies on at a place. -/
def At (present : Prop) (m : Shared W) : Pc → Prop
  | .asyncSet | .clearAsyncInited => ¬ present ∧ m.xh_core_async_init_ok = false
  | .asyncStart | .asyncFail =>
    ¬ present ∧ m.xh_core_async_inited = true ∧ m.xh_core_async_init_ok = false
  | .asyncCreate =>
    ¬ present ∧ m.xh_core_async_inited = true ∧ m.xh_core_async_init_ok = false ∧
      m.xh_core_refresh_thread_running = true
  | .asyncOk => present ∧ m.xh_core_async_inited = true
  | .stopLock | .stop => present
  | .stopSignal | .stopUnlock | .join => present ∧ m.xh_core_refresh_thread_running = false
  | .joined => ¬ present
  | _ => True

/-- The places of `xh_core_clear` where it has told the thread to stop. -/
def Pc.stopping : Pc → Bool
  | .stopSignal | .stopUnlock | .join => true
  | _ => false

structure Lifecycle (s : State W) : Prop where
  relies : ∀ c k, s.status (.client c) = .run k → At (Present s) s.mem k
  alone : ∀ c d k k', s.status (.client c) = .run k → k.clears = true → d ≠ c →
    s.status (.client d) = .run k' → k'.rests = true
  inited : Present s → s.mem.xh_core_async_inited = true
  ok : s.mem.xh_core_async_init_ok = true →
    Present s ∨ ∃ c, s.status (.client c) = .run .joined
  started : Present s →
    s.mem.xh_core_async_init_ok = true ∨ ∃ c, s.status (.client c) = .run .asyncOk
  stopped : Present s → s.mem.xh_core_refresh_thread_running = false →
    ∃ c k, s.status (.client c) = .run k ∧ k.stopping = true

/-- The places whose step changes what others rely on. -/
def Pc.touches : Pc → Bool
  | .asyncSet | .asyncStart | .asyncCreate | .asyncFail | .asyncOk | .stop | .join | .joined
  | .clearAsyncInited => true
  | _ => false

/-- The places where a client relies on something. -/
def Pc.relying : Pc → Bool
  | .asyncSet | .asyncStart | .asyncCreate | .asyncFail | .asyncOk | .stopLock | .stop
  | .stopSignal | .stopUnlock | .join | .joined | .clearAsyncInited => true
  | _ => false

section Places

variable {t : Tid} {k k' : Pc} {ok : Bool} {m : Shared W}

theorem at_of_not_relying (hk : k.relying = false) (present : Prop) : At present m k := by
  cases k <;> trivial

variable (refresh_impl clear_impl t ok m) in
theorem write_keeps (hk : k.touches = false) :
    ((code refresh_impl clear_impl k).write t m ok).xh_core_async_inited =
        m.xh_core_async_inited ∧
      ((code refresh_impl clear_impl k).write t m ok).xh_core_async_init_ok =
        m.xh_core_async_init_ok ∧
      ((code refresh_impl clear_impl k).write t m ok).xh_core_refresh_thread_running =
        m.xh_core_refresh_thread_running := by
  cases k <;> first
    | (cases hk; done)
    | exact ⟨rfl, rfl, rfl⟩
    | (simp only [code, Instr.write]; split_ifs <;> exact ⟨rfl, rfl, rfl⟩)

theorem not_touches_of_thread (hk : k.ofThread = true) : k.touches = false := by
  cases k <;> first | rfl | cases hk

theorem stays_not_clears (hk : k.clears = false) :
    (code refresh_impl clear_impl k).Stays fun k => ! k.clears := by
  cases k <;> first
    | (cases hk; done)
    | (simp only [code, Instr.Stays] <;> intros <;> (try split_ifs) <;> simp [Pc.clears])

/-- The places between which nobody else starts or stops the thread. -/
theorem touches_holds (hk : k.touches = true) :
    held k xh_core_mutex = true ∨ k.clears = true := by
  cases k <;> first
    | exact .inl rfl
    | exact .inr rfl
    | cases hk

theorem relying_holds (hk : k.relying = true) :
    held k xh_core_mutex = true ∨ k.clears = true := by
  cases k <;> first
    | exact .inl rfl
    | exact .inr rfl
    | cases hk

theorem not_rests_of_touches (hk : k.touches = true) : k.rests = false := by
  cases k <;> first | rfl | cases hk

theorem not_rests_of_clears (hk : k.clears = true) : k.rests = false := by
  cases k <;> first | rfl | cases hk

theorem relying_of_stopping (hk : k.stopping = true) : k.relying = true := by
  cases k <;> first | rfl | cases hk

theorem not_rests_of_relying (hk : k.relying = true) : k.rests = false := by
  cases k <;> first | rfl | cases hk

end Places

/-- While a client starts or stops the thread, no other relies on it. -/
theorem not_relying_of_touches (hsound : Sound held s) (h : Lifecycle s) {c d : Nat} {k k' : Pc}
    (hk : s.status (.client c) = .run k) (htouches : k.touches = true) (hne : d ≠ c)
    (hk' : s.status (.client d) = .run k') : k'.relying = false := by
  by_contra hrelying
  rw [Bool.not_eq_false] at hrelying
  have hd : k'.clears = false := by
    by_contra hclears
    rw [Bool.not_eq_false] at hclears
    have hrests := h.alone d c k' k hk' hclears hne.symm hk
    rw [not_rests_of_touches htouches] at hrests
    cases hrests
  have hc : k.clears = false := by
    by_contra hclears
    rw [Bool.not_eq_false] at hclears
    have hrests := h.alone c d k k' hk hclears hne hk'
    rw [not_rests_of_relying hrelying] at hrests
    cases hrests
  have hheld := (touches_holds htouches).resolve_right (by simp [hc])
  have hheld' := (relying_holds hrelying).resolve_right (by simp [hd])
  apply hne
  apply Tid.client.inj
  apply exclusive hsound (m := xh_core_mutex)
  · rw [hk']
    exact hheld'
  · rw [hk]
    exact hheld

/-- What does not change the thread's life keeps what clients rely on. -/
theorem lifecycle_of_same (h : Lifecycle s)
    (hclients : ∀ c, s'.status (.client c) = s.status (.client c))
    (hpresent : Present s' ↔ Present s)
    (hinited : s'.mem.xh_core_async_inited = s.mem.xh_core_async_inited)
    (hok : s'.mem.xh_core_async_init_ok = s.mem.xh_core_async_init_ok)
    (hrunning : s'.mem.xh_core_refresh_thread_running = s.mem.xh_core_refresh_thread_running) :
    Lifecycle s' := by
  constructor
  · intro c k hk
    rw [hclients] at hk
    have hat := h.relies c k hk
    rw [← propext hpresent] at hat
    cases k <;> first
      | trivial
      | (simp only [At] at hat ⊢; simpa only [hinited, hok, hrunning] using hat)
  · intro c d k k' hk hclears hne hk'
    rw [hclients] at hk hk'
    exact h.alone c d k k' hk hclears hne hk'
  · intro hp
    rw [hinited]
    exact h.inited (hpresent.1 hp)
  · intro hflag
    rw [hok] at hflag
    simpa only [hclients, hpresent] using h.ok hflag
  · intro hp
    rw [hok]
    simpa only [hclients] using h.started (hpresent.1 hp)
  · intro hp hstop
    rw [hrunning] at hstop
    simpa only [hclients] using h.stopped (hpresent.1 hp) hstop

theorem lifecycle_call (h : Lifecycle s) {c : Nat} {k : Pc}
    (hrests : (s.status (.client c)).rests (program refresh_impl clear_impl) = true)
    (hentry : entry (.client c) k = true) (horderly : Orderly s (.call (.client c) k)) :
    Lifecycle (s.set (.client c) (.run k)) := by
  have hother {d : Nat} (hne : d ≠ c) :
      (s.set (.client c) (.run k)).status (.client d) = s.status (.client d) :=
    Conf.set_status_of_ne fun heq => hne (Tid.client.inj heq)
  have hthread : (s.set (.client c) (.run k)).status .refresher = s.status .refresher :=
    Conf.set_status_of_ne Tid.noConfusion
  have hstays {d : Nat} {kd : Pc} (hd : s.status (.client d) = .run kd)
      (hkd : (Status.run kd : Status Mutex Pc).rests (program refresh_impl clear_impl) = false) :
      (s.set (.client c) (.run k)).status (.client d) = .run kd := by
    rw [hother, hd]
    rintro rfl
    rw [hd, hkd] at hrests
    cases hrests
  constructor
  · intro d kd hd
    rcases eq_or_ne d c with rfl | hne
    · rw [Conf.set_status_self] at hd
      cases hd
      cases k <;> trivial
    · rw [hother hne] at hd
      unfold Present
      rw [hthread]
      exact h.relies d kd hd
  · intro a d ka kd ha hclears hne hd
    cases k with
    | initOnce async =>
      have hac : a ≠ c := by
        rintro rfl
        rw [Conf.set_status_self] at ha
        cases ha
        cases hclears
      rw [hother hac] at ha
      rw [horderly a ka ha] at hclears
      cases hclears
    | clear =>
      have hac : a = c := by
        by_contra hac
        rw [hother hac] at ha
        have hrest := horderly a ka ha
        rw [not_rests_of_clears hclears] at hrest
        cases hrest
      rw [hother (hac ▸ hne)] at hd
      exact horderly d kd hd
    | _ => cases hentry
  · intro hp
    unfold Present at hp
    rw [hthread] at hp
    exact h.inited hp
  · intro hflag
    unfold Present
    rw [hthread]
    exact (h.ok hflag).imp_right fun ⟨d, hd⟩ => ⟨d, hstays hd rfl⟩
  · intro hp
    unfold Present at hp
    rw [hthread] at hp
    exact (h.started hp).imp_right fun ⟨d, hd⟩ => ⟨d, hstays hd rfl⟩
  · intro hp hstop
    unfold Present at hp
    rw [hthread] at hp
    obtain ⟨d, kd, hd, hkd⟩ := h.stopped hp hstop
    refine ⟨d, kd, hstays hd ?_, hkd⟩
    cases kd <;> first
      | rfl
      | cases hkd

section Exec

variable {c : Nat} {k : Pc} {ok : Bool}

theorem present_of_exec
    (hexec : exec (program refresh_impl clear_impl) s (.client c) ok
      (code refresh_impl clear_impl k) = some s') (hcreate : k ≠ .asyncCreate) (hjoin : k ≠ .join) :
    Present s' ↔ Present s := by
  unfold Present
  rcases exec_client_thread hexec with ⟨-, hst⟩ | ⟨hk, -⟩ | ⟨hk, -⟩ | ⟨-, -, -, hst⟩
  · rw [hst]
    cases s.status .refresher <;> simp [Status.wake]
  · exact absurd hk hcreate
  · exact absurd hk hjoin
  · rw [hst]

theorem not_rests_of_exec
    (hexec : exec (program refresh_impl clear_impl) s (.client c) ok
      (code refresh_impl clear_impl k) = some s') : k.rests = false := by
  cases k <;> first
    | rfl
    | cases hexec

/-- Clearing is begun by a call, and leaves no one else in a call. -/
theorem alone_of_exec (h : Lifecycle s) (hk : s.status (.client c) = .run k)
    (hexec : exec (program refresh_impl clear_impl) s (.client c) ok
      (code refresh_impl clear_impl k) = some s') (a d : Nat) (ka kd : Pc)
    (ha : s'.status (.client a) = .run ka) (hclears : ka.clears = true) (hne : d ≠ a)
    (hd : s'.status (.client d) = .run kd) : kd.rests = true := by
  have hother {b : Nat} (hb : b ≠ c) : s'.status (.client b) = s.status (.client b) :=
    exec_client_of_ne (fun heq => hb (Tid.client.inj heq)) hexec
  rcases eq_or_ne a c with rfl | hac
  · rw [hother hne] at hd
    refine h.alone a d k kd hk ?_ hne hd
    by_contra hnot
    rw [Bool.not_eq_true] at hnot
    obtain ⟨k', hk', hrun | ⟨m, hasleep⟩⟩ := exec_stays (stays_not_clears hnot) hexec
    · cases hrun.symm.trans ha
      simp [hclears] at hk'
    · cases hasleep.symm.trans ha
  · rw [hother hac] at ha
    have hrests := h.alone a c ka k ha hclears hac.symm hk
    rw [not_rests_of_exec hexec] at hrests
    cases hrests

theorem stays_not_relying (htouches : k.touches = false) (hclear : k ≠ .clear)
    (hbody : k ≠ .asyncBody) (hclears : k.relying = false) :
    (code refresh_impl clear_impl k).Stays fun k => ! k.relying := by
  cases k <;> first
    | (cases htouches; done)
    | (cases hclears; done)
    | (simp only [code, Instr.Stays] <;> intros <;> (try split_ifs) <;> simp_all [Pc.relying])

/-- Where the client itself ends up. -/
theorem at_of_exec (h : Lifecycle s) (hk : s.status (.client c) = .run k)
    (hexec : exec (program refresh_impl clear_impl) s (.client c) ok
      (code refresh_impl clear_impl k) = some s') (htouches : k.touches = false) {k' : Pc}
    (hk' : s'.status (.client c) = .run k') : At (Present s) s.mem k' := by
  have hnext := (exec_status hexec).symm.trans hk'
  have hat := h.relies c k hk
  by_cases hbody : k = .asyncBody
  · subst hbody
    cases hflag : s.mem.xh_core_async_inited with
    | true =>
      simp only [code, Instr.after, hflag, if_true] at hnext
      cases hnext
      trivial
    | false =>
      have habsent : ¬ Present s := fun hp => by
        rw [h.inited hp] at hflag
        cases hflag
      simp only [code, Instr.after, hflag] at hnext
      cases hnext
      refine ⟨habsent, ?_⟩
      by_contra hok
      rw [Bool.not_eq_false] at hok
      obtain ⟨d, hd⟩ := (h.ok hok).resolve_left habsent
      have hne : c ≠ d := by
        rintro rfl
        cases hk.symm.trans hd
      cases h.alone d c _ _ hd rfl hne hk
  by_cases hclear : k = .clear
  · subst hclear
    have hnobody {kd : Pc} (hkd : kd.touches = true) :
        ¬ ∃ d, s.status (.client d) = .run kd := by
      rintro ⟨d, hd⟩
      rcases eq_or_ne d c with rfl | hne
      · cases hd.symm.trans hk
        cases hkd
      · have hrests := h.alone c d _ kd hk rfl hne hd
        rw [not_rests_of_touches hkd] at hrests
        cases hrests
    cases hflag : s.mem.xh_core_async_init_ok with
    | true =>
      simp only [code, Instr.after, hflag, if_true] at hnext
      cases hnext
      exact (h.ok hflag).resolve_right (hnobody rfl)
    | false =>
      simp only [code, Instr.after, hflag] at hnext
      cases hnext
      refine ⟨fun hp => ?_, hflag⟩
      rcases h.started hp with hflag' | hd
      · rw [hflag] at hflag'
        cases hflag'
      · exact hnobody rfl hd
  · cases hrelying : k.relying with
    | true =>
      cases k <;> first
        | (cases htouches; done)
        | (cases hrelying; done)
        | (cases hnext; exact hat)
    | false =>
      obtain ⟨k'', hk'', hrun | ⟨m, hasleep⟩⟩ :=
        exec_stays (stays_not_relying htouches hclear hbody hrelying) hexec
      · cases hrun.symm.trans hk'
        exact at_of_not_relying (by simpa using hk'') _
      · cases hasleep.symm.trans hk'

theorem lifecycle_keeps (h : Lifecycle s) (hk : s.status (.client c) = .run k)
    (hexec : exec (program refresh_impl clear_impl) s (.client c) ok
      (code refresh_impl clear_impl k) = some s') (htouches : k.touches = false) :
    Lifecycle s' := by
  have hother {d : Nat} (hne : d ≠ c) : s'.status (.client d) = s.status (.client d) :=
    exec_client_of_ne (fun heq => hne (Tid.client.inj heq)) hexec
  have hpresent : Present s' ↔ Present s := by
    apply present_of_exec hexec
    · rintro rfl
      cases htouches
    · rintro rfl
      cases htouches
  obtain ⟨hinited, hok, hrunning⟩ :=
    write_keeps refresh_impl clear_impl (.client c) ok s.mem htouches
  rw [← exec_mem hexec] at hinited hok hrunning
  have hstays {kd : Pc} (hkd : kd.touches = true) (hd : ∃ d, s.status (.client d) = .run kd) :
      ∃ d, s'.status (.client d) = .run kd := by
    obtain ⟨d, hd⟩ := hd
    refine ⟨d, ?_⟩
    rw [hother, hd]
    rintro rfl
    cases hk.symm.trans hd
    rw [htouches] at hkd
    cases hkd
  constructor
  · intro d kd hd
    have hat : At (Present s) s.mem kd := by
      rcases eq_or_ne d c with rfl | hne
      · exact at_of_exec h hk hexec htouches hd
      · exact h.relies d kd (hother hne ▸ hd)
    rw [← propext hpresent] at hat
    cases kd <;> first
      | trivial
      | (simp only [At] at hat ⊢; simpa only [hinited, hok, hrunning] using hat)
  · exact alone_of_exec h hk hexec
  · intro hp
    rw [hinited]
    exact h.inited (hpresent.1 hp)
  · intro hflag
    rw [hok] at hflag
    exact (h.ok hflag).imp hpresent.2 (hstays rfl)
  · intro hp
    rw [hok]
    exact (h.started (hpresent.1 hp)).imp_right (hstays rfl)
  · intro hp hstop
    rw [hrunning] at hstop
    obtain ⟨d, kd, hd, hkd⟩ := h.stopped (hpresent.1 hp) hstop
    rcases eq_or_ne d c with rfl | hne
    · cases hk.symm.trans hd
      cases k with
      | stopSignal => exact ⟨d, .stopUnlock, exec_status hexec, rfl⟩
      | stopUnlock => exact ⟨d, .join, exec_status hexec, rfl⟩
      | join => cases htouches
      | _ => cases hkd
    · exact ⟨d, kd, (hother hne).trans hd, hkd⟩

/-- After a step that starts or stops the thread only the client that took it relies on anything. -/
theorem lifecycle_touched (hsound : Sound held s) (h : Lifecycle s)
    (hk : s.status (.client c) = .run k) (htouches : k.touches = true)
    (hexec : exec (program refresh_impl clear_impl) s (.client c) ok
      (code refresh_impl clear_impl k) = some s') {k' : Pc} (hk' : s'.status (.client c) = .run k')
    (hat : At (Present s') s'.mem k') (hinited : Present s' → s'.mem.xh_core_async_inited = true)
    (hok : s'.mem.xh_core_async_init_ok = true → Present s' ∨ k' = .joined)
    (hstarted : Present s' → s'.mem.xh_core_async_init_ok = true ∨ k' = .asyncOk)
    (hstopped : Present s' → s'.mem.xh_core_refresh_thread_running = false →
      k'.stopping = true) :
    Lifecycle s' := by
  constructor
  · intro d kd hd
    rcases eq_or_ne d c with rfl | hne
    · cases hk'.symm.trans hd
      exact hat
    · rw [exec_client_of_ne (fun heq => hne (Tid.client.inj heq)) hexec] at hd
      exact at_of_not_relying (not_relying_of_touches hsound h hk htouches hne hd) _
  · exact alone_of_exec h hk hexec
  · exact hinited
  · exact fun hflag => (hok hflag).imp_right fun hj => ⟨c, by rw [hk', hj]⟩
  · exact fun hp => (hstarted hp).imp_right fun ha => ⟨c, by rw [hk', ha]⟩
  · exact fun hp hstop => ⟨c, k', hk', hstopped hp hstop⟩

theorem lifecycle_absent (hsound : Sound held s) (h : Lifecycle s)
    (hk : s.status (.client c) = .run k) (htouches : k.touches = true)
    (hexec : exec (program refresh_impl clear_impl) s (.client c) ok
      (code refresh_impl clear_impl k) = some s') {k' : Pc} (hk' : s'.status (.client c) = .run k')
    (habsent : ¬ Present s') (hat : At (Present s') s'.mem k')
    (hok : s'.mem.xh_core_async_init_ok = true → k' = .joined) : Lifecycle s' := by
  apply lifecycle_touched hsound h hk htouches hexec hk' hat
  · exact fun hp => absurd hp habsent
  · exact fun hflag => .inr (hok hflag)
  · exact fun hp => absurd hp habsent
  · exact fun hp => absurd hp habsent

theorem lifecycle_touches (hsound : Sound held s) (h : Lifecycle s)
    (hk : s.status (.client c) = .run k) (htouches : k.touches = true)
    (hexec : exec (program refresh_impl clear_impl) s (.client c) ok
      (code refresh_impl clear_impl k) = some s') : Lifecycle s' := by
  have hat := h.relies c k hk
  have hst := exec_status hexec
  have hmem := exec_mem hexec
  have hpresent := present_of_exec hexec
  have hnobody {kd : Pc} (hkd : kd.relying = true) (hne : kd ≠ k) :
      ¬ ∃ d, s.status (.client d) = .run kd := by
    rintro ⟨d, hd⟩
    have hdc : d ≠ c := by
      rintro rfl
      cases hk.symm.trans hd
      exact hne rfl
    rw [not_relying_of_touches hsound h hk htouches hdc hd] at hkd
    cases hkd
  have hrunning (hnot : k.stopping = false) (hp : Present s)
      (hstop : s.mem.xh_core_refresh_thread_running = false) : False := by
    obtain ⟨d, kd, hd, hkd⟩ := h.stopped hp hstop
    refine hnobody (relying_of_stopping hkd) ?_ ⟨d, hd⟩
    rintro rfl
    rw [hnot] at hkd
    cases hkd
  cases k with
  | asyncSet =>
    obtain ⟨habsent, hok⟩ := hat
    have habsent' : ¬ Present s' :=
      fun hp => habsent ((hpresent Pc.noConfusion Pc.noConfusion).1 hp)
    apply lifecycle_absent hsound h hk htouches hexec hst habsent'
    · rw [hmem]
      exact ⟨habsent', rfl, hok⟩
    · rw [hmem]
      exact fun hok' => by cases hok.symm.trans hok'
  | asyncStart =>
    obtain ⟨habsent, hinited, hok⟩ := hat
    have habsent' : ¬ Present s' :=
      fun hp => habsent ((hpresent Pc.noConfusion Pc.noConfusion).1 hp)
    apply lifecycle_absent hsound h hk htouches hexec hst habsent'
    · rw [hmem]
      exact ⟨habsent', hinited, hok, rfl⟩
    · rw [hmem]
      exact fun hok' => by cases hok.symm.trans hok'
  | asyncCreate =>
    obtain ⟨habsent, hinited, hok, hruns⟩ := hat
    cases ok with
    | true =>
      have hpresent' : Present s' := by
        rcases exec_client_thread hexec with ⟨hk, -⟩ | ⟨-, -, -, hrun⟩ | ⟨hk, -⟩ | ⟨-, -, hfail, -⟩
        · cases hk
        · unfold Present
          rw [hrun]
          exact fun habsent => by cases habsent
        · cases hk
        · cases hfail rfl
      apply lifecycle_touched hsound h hk htouches hexec hst
      · rw [hmem]
        exact ⟨hpresent', hinited⟩
      · rw [hmem]
        exact fun _ => hinited
      · exact fun _ => .inl hpresent'
      · exact fun _ => .inr rfl
      · rw [hmem]
        exact fun _ hstop => by cases hruns.symm.trans hstop
    | false =>
      have habsent' : ¬ Present s' := by
        rcases exec_client_thread hexec with ⟨hk, -⟩ | ⟨-, hk, -⟩ | ⟨hk, -⟩ | ⟨-, -, -, hst⟩
        · cases hk
        · cases hk
        · cases hk
        · unfold Present
          rw [hst]
          exact habsent
      apply lifecycle_absent hsound h hk htouches hexec hst habsent'
      · rw [hmem]
        exact ⟨habsent', hinited, hok⟩
      · rw [hmem]
        exact fun hok' => by cases hok.symm.trans hok'
  | asyncFail =>
    obtain ⟨habsent, hinited, hok⟩ := hat
    have habsent' : ¬ Present s' :=
      fun hp => habsent ((hpresent Pc.noConfusion Pc.noConfusion).1 hp)
    apply lifecycle_absent hsound h hk htouches hexec hst habsent' trivial
    rw [hmem]
    exact fun hok' => by cases hok.symm.trans hok'
  | asyncOk =>
    obtain ⟨hp, hinited⟩ := hat
    have hp' := (hpresent Pc.noConfusion Pc.noConfusion).2 hp
    apply lifecycle_touched hsound h hk htouches hexec hst trivial
    · rw [hmem]
      exact fun _ => hinited
    · exact fun _ => .inl hp'
    · rw [hmem]
      exact fun _ => .inl rfl
    · rw [hmem]
      exact fun _ hstop => (hrunning rfl hp hstop).elim
  | stop =>
    have hp' := (hpresent Pc.noConfusion Pc.noConfusion).2 hat
    apply lifecycle_touched hsound h hk htouches hexec hst
    · rw [hmem]
      exact ⟨hp', rfl⟩
    · rw [hmem]
      exact fun _ => h.inited hat
    · exact fun _ => .inl hp'
    · rw [hmem]
      exact fun _ => .inl ((h.started hat).resolve_right (hnobody rfl Pc.noConfusion))
    · exact fun _ _ => rfl
  | join =>
    have habsent' : ¬ Present s' := by
      rcases exec_client_thread hexec with ⟨hk, -⟩ | ⟨hk, -⟩ | ⟨-, -, habsent⟩ | ⟨-, hjoin, -⟩
      · cases hk
      · cases hk
      · exact fun hp => hp habsent
      · exact absurd rfl hjoin
    exact lifecycle_absent hsound h hk htouches hexec hst habsent' habsent' fun _ => rfl
  | joined =>
    have habsent' : ¬ Present s' :=
      fun hp => hat ((hpresent Pc.noConfusion Pc.noConfusion).1 hp)
    apply lifecycle_absent hsound h hk htouches hexec hst habsent'
    · rw [hmem]
      exact ⟨habsent', rfl⟩
    · rw [hmem]
      exact fun hok => by cases hok
  | clearAsyncInited =>
    have habsent' : ¬ Present s' :=
      fun hp => hat.1 ((hpresent Pc.noConfusion Pc.noConfusion).1 hp)
    apply lifecycle_absent hsound h hk htouches hexec hst habsent' trivial
    rw [hmem]
    exact fun hok' => by cases hat.2.symm.trans hok'
  | _ => cases htouches

end Exec

theorem present_of_status {st : Status Mutex Pc} (h : s.status .refresher = st)
    (hst : st ≠ .absent) : Present s := by
  unfold Present
  rw [h]
  exact hst

theorem lifecycle_thread (h : Lifecycle s) {k : Pc} {ok : Bool}
    (hk : s.status .refresher = .run k) (hthread : k.ofThread = true)
    (hexec : exec (program refresh_impl clear_impl) s .refresher ok
      (code refresh_impl clear_impl k) = some s') : Lifecycle s' := by
  have hpresent : Present s := present_of_status hk (fun h => by cases h)
  have hpresent' : Present s' := by
    rcases exec_thread_next hthread hexec with ⟨k', hst, -⟩ | hst
    · exact present_of_status hst (fun h => by cases h)
    · exact present_of_status hst (fun h => by cases h)
  obtain ⟨hinited, hok, hrunning⟩ :=
    write_keeps refresh_impl clear_impl .refresher ok s.mem (not_touches_of_thread hthread)
  rw [← exec_mem hexec] at hinited hok hrunning
  exact lifecycle_of_same h (fun c => exec_client_of_ne Tid.noConfusion hexec)
    (iff_of_true hpresent' hpresent) hinited hok hrunning

theorem lifecycle_step (htyped : Typed s) (hsound : Sound held s) (h : Lifecycle s)
    (horderly : Orderly s e) (hstep : step refresh_impl clear_impl s e = some s') :
    Lifecycle s' := by
  cases took_of_step htyped hstep with
  | client c k ok hk hclient hexec =>
    cases htouches : k.touches with
    | true => exact lifecycle_touches hsound h hk htouches hexec
    | false => exact lifecycle_keeps h hk hexec htouches
  | thread k ok hk hthread hexec => exact lifecycle_thread h hk hthread hexec
  | relock hst hs' =>
    subst hs'
    refine lifecycle_of_same h (fun c => Conf.set_status_of_ne Tid.noConfusion) ?_ rfl rfl rfl
    refine iff_of_true (present_of_status Conf.set_status_self ?_) (present_of_status hst ?_) <;>
      exact fun h => by cases h
  | wake hst hs' =>
    subst hs'
    refine lifecycle_of_same h (fun c => Conf.set_status_of_ne Tid.noConfusion) ?_ rfl rfl rfl
    refine iff_of_true (present_of_status Conf.set_status_self ?_) (present_of_status hst ?_) <;>
      exact fun h => by cases h
  | call c k he hrests hentry hs' =>
    subst hs' he
    exact lifecycle_call h hrests hentry horderly

/-! ### No wake-up is lost -/

def Pc.exits : Pc → Bool
  | .exitUnlock | .exited => true
  | _ => false

/-- The refresh thread goes to sleep only with nothing to do, and sleeps on with something to do
only where it is about to be woken; it ends only when told to. -/
structure Signalled (s : State W) : Prop where
  sleep : s.status .refresher = .run .sleep →
    s.mem.xh_core_refresh_thread_do = false ∧ s.mem.xh_core_refresh_thread_running = true
  asleep : s.status .refresher = .asleep xh_core_mutex .test →
    (s.mem.xh_core_refresh_thread_do = false ∧ s.mem.xh_core_refresh_thread_running = true) ∨
      ∃ c k, s.status (.client c) = .run k ∧ k.signals = true
  ends : ∀ k, s.status .refresher = .run k → k.exits = true →
    s.mem.xh_core_refresh_thread_running = false

/-- The places that give the refresh thread something to do. -/
def Pc.raises : Pc → Bool
  | .asyncStart | .asyncFail | .post | .stop => true
  | _ => false

section Signalled

variable {t : Tid} {k : Pc} {ok : Bool} {m : Shared W}

variable (refresh_impl clear_impl t ok m) in
theorem write_quiet (hclient : k.ofThread = false) (hk : k.raises = false) :
    ((code refresh_impl clear_impl k).write t m ok).xh_core_refresh_thread_do =
        m.xh_core_refresh_thread_do ∧
      ((code refresh_impl clear_impl k).write t m ok).xh_core_refresh_thread_running =
        m.xh_core_refresh_thread_running := by
  cases k <;> first
    | (cases hclient; done)
    | (cases hk; done)
    | exact ⟨rfl, rfl⟩
    | (simp only [code, Instr.write]; split_ifs <;> exact ⟨rfl, rfl⟩)

theorem held_of_raises (hk : k.raises = true) : held k xh_core_mutex = true := by
  cases k <;> first | rfl | cases hk

theorem asleep_of_exec_client {c : Nat}
    (hexec : exec (program refresh_impl clear_impl) s (.client c) ok
      (code refresh_impl clear_impl k) = some s')
    (hst : s'.status .refresher = .asleep xh_core_mutex .test) :
    s.status .refresher = .asleep xh_core_mutex .test := by
  rcases exec_client_thread hexec with
    ⟨-, hwake⟩ | ⟨-, -, -, hrun⟩ | ⟨-, -, habsent⟩ | ⟨-, -, -, hsame⟩
  · rw [hst] at hwake
    cases hold : s.status .refresher <;> rw [hold] at hwake <;> cases hwake
  · cases hst.symm.trans hrun
  · cases hst.symm.trans habsent
  · exact hsame.symm.trans hst

theorem not_signals_of_asleep {c : Nat}
    (hexec : exec (program refresh_impl clear_impl) s (.client c) ok
      (code refresh_impl clear_impl k) = some s')
    (hst : s'.status .refresher = .asleep xh_core_mutex .test) : k.signals = false := by
  rcases exec_client_thread hexec with
    ⟨-, hwake⟩ | ⟨-, -, -, hrun⟩ | ⟨-, -, habsent⟩ | ⟨hquiet, -⟩
  · rw [hst] at hwake
    cases hold : s.status .refresher <;> rw [hold] at hwake <;> cases hwake
  · cases hst.symm.trans hrun
  · cases hst.symm.trans habsent
  · exact hquiet

theorem signalled_client (hsound : Sound held s) (hlife : Lifecycle s) (h : Signalled s) {c : Nat}
    (hk : s.status (.client c) = .run k) (hclient : k.ofThread = false)
    (hexec : exec (program refresh_impl clear_impl) s (.client c) ok
      (code refresh_impl clear_impl k) = some s') : Signalled s' := by
  have hmem := exec_mem hexec
  constructor
  · intro hst
    have hold := run_of_exec_client Tid.noConfusion hexec hst Pc.noConfusion
    cases hraises : k.raises with
    | true =>
      have hheld : (s.status (.client c)).holds held xh_core_mutex := by
        rw [hk]
        exact held_of_raises hraises
      have hheld' : (s.status .refresher).holds held xh_core_mutex := by
        rw [hold]
        rfl
      cases exclusive hsound hheld hheld'
    | false =>
      obtain ⟨hdo, hrunning⟩ :=
        write_quiet refresh_impl clear_impl (.client c) ok s.mem hclient hraises
      rw [hmem, hdo, hrunning]
      exact h.sleep hold
  · intro hst
    have hold := asleep_of_exec_client hexec hst
    have hquiet := not_signals_of_asleep hexec hst
    have hother {d : Nat} (hne : d ≠ c) : s'.status (.client d) = s.status (.client d) :=
      exec_client_of_ne (fun heq => hne (Tid.client.inj heq)) hexec
    cases hraises : k.raises with
    | false =>
      obtain ⟨hdo, hrunning⟩ :=
        write_quiet refresh_impl clear_impl (.client c) ok s.mem hclient hraises
      rw [hmem, hdo, hrunning]
      refine (h.asleep hold).imp_right fun ⟨d, kd, hd, hsignals⟩ => ?_
      have hne : d ≠ c := by
        rintro rfl
        cases hk.symm.trans hd
        rw [hquiet] at hsignals
        cases hsignals
      exact ⟨d, kd, (hother hne).trans hd, hsignals⟩
    | true =>
      have hpresent : Present s := present_of_status hold (fun h => by cases h)
      cases k with
      | post => exact .inr ⟨c, .postSignal, exec_status hexec, rfl⟩
      | stop => exact .inr ⟨c, .stopSignal, exec_status hexec, rfl⟩
      | asyncFail => exact absurd hpresent (hlife.relies c _ hk).1
      | asyncStart => exact absurd hpresent (hlife.relies c _ hk).1
      | _ => cases hraises
  · intro k' hst hk'
    have hold : s.status .refresher = .run k' := by
      refine run_of_exec_client Tid.noConfusion hexec hst ?_
      rintro rfl
      cases hk'
    have hstop := h.ends k' hold hk'
    rw [hmem]
    cases hraises : k.raises with
    | false =>
      rw [(write_quiet refresh_impl clear_impl (.client c) ok s.mem hclient hraises).2]
      exact hstop
    | true =>
      cases k with
      | asyncStart =>
        exact absurd (present_of_status hold fun h => by cases h) (hlife.relies c _ hk).1
      | post => exact hstop
      | asyncFail => rfl
      | stop => rfl
      | _ => cases hraises

theorem stays_not_sleep (hk : k ≠ .test) :
    (code refresh_impl clear_impl k).Stays fun k => decide (k ≠ .sleep) := by
  cases k <;> first
    | exact absurd rfl hk
    | (simp only [code, Instr.Stays] <;> intros <;> (try split_ifs) <;> simp)

theorem signalled_thread (h : Signalled s) (hk : s.status .refresher = .run k)
    (hthread : k.ofThread = true)
    (hexec : exec (program refresh_impl clear_impl) s .refresher ok
      (code refresh_impl clear_impl k) = some s') : Signalled s' := by
  have hst := exec_status hexec
  have hmem := exec_mem hexec
  constructor
  · intro hsleep
    by_cases htest : k = .test
    · subst htest
      have hnext := hst.symm.trans hsleep
      simp only [code, Instr.after, Instr.write] at hnext hmem
      split_ifs at hnext with hwait
      · rw [hmem]
        simpa using hwait
      · cases hnext
    · obtain ⟨k', hk', hrun | ⟨m, hasleep⟩⟩ := exec_stays (stays_not_sleep htest) hexec
      · cases hrun.symm.trans hsleep
        cases hk'
      · cases hasleep.symm.trans hsleep
  · intro hasleep
    have hsleep : k = .sleep := by
      rw [hst] at hasleep
      cases k <;> first | rfl | cases hasleep
    subst hsleep
    rw [hmem]
    exact .inl (h.sleep hk)
  · intro k' hrun hexits
    have hnext := hst.symm.trans hrun
    rw [hmem]
    cases k with
    | loop =>
      simp only [code, Instr.after] at hnext
      split_ifs at hnext with hrunning
      · cases hnext
        cases hexits
      · simpa [code, Instr.write] using hrunning
    | take =>
      by_cases hrunning : s.mem.xh_core_refresh_thread_running
      · simp only [code, Instr.after, hrunning] at hnext
        cases hnext
        cases hexits
      · simp [code, Instr.write, hrunning]
    | exitUnlock => exact h.ends _ hk rfl
    | test =>
      simp only [code, Instr.after] at hnext
      split_ifs at hnext <;> cases hnext <;> cases hexits
    | _ => first
      | (cases hthread; done)
      | (cases hnext; done)
      | (cases hnext; cases hexits)

theorem signalled_step (htyped : Typed s) (hsound : Sound held s) (hlife : Lifecycle s)
    (h : Signalled s) (hstep : step refresh_impl clear_impl s e = some s') : Signalled s' := by
  cases took_of_step htyped hstep with
  | client c k ok hk hclient hexec => exact signalled_client hsound hlife h hk hclient hexec
  | thread k ok hk hthread hexec => exact signalled_thread h hk hthread hexec
  | relock hst hs' =>
    subst hs'
    constructor
    · intro hst'
      cases Conf.set_status_self.symm.trans hst'
    · intro hst'
      cases Conf.set_status_self.symm.trans hst'
    · intro k hst' hk
      cases Conf.set_status_self.symm.trans hst'
      cases hk
  | wake hst hs' =>
    subst hs'
    constructor
    · intro hst'
      cases Conf.set_status_self.symm.trans hst'
    · intro hst'
      cases Conf.set_status_self.symm.trans hst'
    · intro k hst' hk
      cases Conf.set_status_self.symm.trans hst'
  | call c k he hrests hentry hs' =>
    subst hs'
    have hthread : (s.set (.client c) (.run k)).status .refresher = s.status .refresher :=
      Conf.set_status_of_ne Tid.noConfusion
    constructor
    · rw [hthread]
      exact h.sleep
    · rw [hthread]
      intro hst
      refine (h.asleep hst).imp_right fun ⟨d, kd, hd, hsignals⟩ => ⟨d, kd, ?_, hsignals⟩
      rw [Conf.set_status_of_ne, hd]
      rintro ⟨⟩
      rw [hd] at hrests
      cases kd <;> first
        | (cases hsignals; done)
        | cases hrests
    · rw [hthread]
      exact h.ends

end Signalled

end ElfHook.XHook.Async

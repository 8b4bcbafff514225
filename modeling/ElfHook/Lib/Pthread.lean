import Mathlib.Logic.Function.Basic
import ElfHook.Lib.Run

/-!
# Threads with mutexes and a condition variable

Threads that run a program of small steps, one step of one thread at a time. A program says for
each place in the code which instruction stands there; `Checked` annotates each place with the
mutexes held there, as a programmer would, and orders the mutexes.

* `sound_run`: in every run a mutex is owned by the thread at a place that holds it, by no other.
* `exclusive`: so two threads never stand at places that hold the same mutex.
* `exists_unblocked`: where mutexes are taken in order, some thread is not waiting for a mutex as
  long as one is at work.
* `exists_step`: such a thread can take a step, unless it waits for another to end.
-/

namespace ElfHook.Lib.Pthread

variable {ι L K S : Type*} [DecidableEq ι] [DecidableEq L]

/-- `next` is the place after the instruction. -/
inductive Instr (ι L K S : Type*)
  /-- Outside of any call, or ended. -/
  | rest
  | lock (m : L) (next : K)
  | unlock (m : L) (next : K)
  /-- `pthread_cond_wait` with the mutex held. -/
  | wait (m : L) (next : K)
  /-- `pthread_cond_signal` where only `u` waits on the condition. -/
  | signal (u : ι) (next : K)
  /-- Anything else, by a thread of this name; the flag is the outcome of a call that may fail. -/
  | act (f : ι → S → Bool → S × K)
  | create (u : ι) (start next fail : K)
  | join (u : ι) (next : K)

inductive Status (L K : Type*)
  | absent
  | run (k : K)
  /-- In `pthread_cond_wait`, without the mutex, until it is woken; it goes on at `k`. -/
  | asleep (m : L) (k : K)
  /-- Woken, and waiting for the mutex. -/
  | woken (m : L) (k : K)
deriving DecidableEq

structure Program (ι L K S : Type*) where
  code : K → Instr ι L K S
  /-- The places where a thread at rest may begin a call. -/
  entry : ι → K → Bool

structure Conf (ι L K S : Type*) where
  status : ι → Status L K
  owner : L → Option ι
  mem : S

inductive Event (ι K : Type*)
  | go (t : ι) (ok : Bool)
  /-- A wake-up that no signal caused. -/
  | wake (t : ι)
  | call (t : ι) (k : K)

namespace Conf

def set (c : Conf ι L K S) (t : ι) (st : Status L K) : Conf ι L K S :=
  { c with status := Function.update c.status t st }

def own (c : Conf ι L K S) (m : L) (o : Option ι) : Conf ι L K S :=
  { c with owner := Function.update c.owner m o }

variable {c : Conf ι L K S} {t u : ι} {st : Status L K}

omit [DecidableEq L] in
@[simp] theorem set_status_self : (c.set t st).status t = st := Function.update_self _ _ _

omit [DecidableEq L] in
theorem set_status_of_ne (h : u ≠ t) : (c.set t st).status u = c.status u :=
  Function.update_of_ne h _ _

end Conf

def Status.wake : Status L K → Status L K
  | .asleep m k => .woken m k
  | st => st

variable (P : Program ι L K S)

def Status.rests : Status L K → Bool
  | .run k => match P.code k with
    | .rest => true
    | _ => false
  | _ => false

/-- An instruction of `t`; `none` while it blocks. A thread is one name: `.create` of a thread that
has been started and not joined would be a second one of that name, and has no step here. -/
def exec (c : Conf ι L K S) (t : ι) (ok : Bool) : Instr ι L K S → Option (Conf ι L K S)
  | .rest => none
  | .lock m next =>
    if c.owner m = none then some ((c.own m (some t)).set t (.run next)) else none
  | .unlock m next => some ((c.own m none).set t (.run next))
  | .wait m next => some ((c.own m none).set t (.asleep m next))
  | .signal u next => some ((c.set u (c.status u).wake).set t (.run next))
  | .act f => some { c.set t (.run (f t c.mem ok).2) with mem := (f t c.mem ok).1 }
  | .create u start next fail =>
    if ok then
      match c.status u with
      | .absent => some ((c.set u (.run start)).set t (.run next))
      | _ => none
    else some (c.set t (.run fail))
  | .join u next =>
    if (c.status u).rests P then some ((c.set u .absent).set t (.run next)) else none

def step? (c : Conf ι L K S) : Event ι K → Option (Conf ι L K S)
  | .go t ok =>
    match c.status t with
    | .absent => none
    | .run k => exec P c t ok (P.code k)
    | .asleep _ _ => none
    | .woken m k =>
      if c.owner m = none then some ((c.own m (some t)).set t (.run k)) else none
  | .wake t =>
    match c.status t with
    | .asleep m k => some (c.set t (.woken m k))
    | _ => none
  | .call t k => if (c.status t).rests P ∧ P.entry t k then some (c.set t (.run k)) else none

/-! ### What a step changes -/

def Instr.write : Instr ι L K S → ι → S → Bool → S
  | .act f, t, s, ok => (f t s ok).1
  | _, _, s, _ => s

/-- The status of the thread after its instruction. -/
def Instr.after : Instr ι L K S → ι → S → Bool → Status L K
  | .rest, _, _, _ => .absent
  | .lock _ next, _, _, _ => .run next
  | .unlock _ next, _, _, _ => .run next
  | .wait m next, _, _, _ => .asleep m next
  | .signal _ next, _, _, _ => .run next
  | .act f, t, s, ok => .run (f t s ok).2
  | .create _ _ next fail, _, _, ok => .run (if ok then next else fail)
  | .join _ next, _, _, _ => .run next

/-- The thread whose status the instruction changes besides that of the thread it is of. -/
def Instr.target : Instr ι L K S → Option ι
  | .signal u _ => some u
  | .create u _ _ _ => some u
  | .join u _ => some u
  | _ => none

/-- The places after the instruction are all of a kind. -/
def Instr.Stays (p : K → Bool) : Instr ι L K S → Prop
  | .rest => True
  | .lock _ next => p next
  | .unlock _ next => p next
  | .wait _ next => p next
  | .signal _ next => p next
  | .act f => ∀ t s ok, p (f t s ok).2
  | .create _ _ next fail => p next ∧ p fail
  | .join _ next => p next

section Exec

variable {P} {c c' : Conf ι L K S} {t u : ι} {ok : Bool} {i : Instr ι L K S}

theorem exec_mem (h : exec P c t ok i = some c') : c'.mem = i.write t c.mem ok := by
  cases i with
  | rest => cases h
  | lock m next =>
    simp only [exec] at h
    split_ifs at h
    cases h
    rfl
  | create u start next fail =>
    simp only [exec] at h
    split_ifs at h
    · split at h
      · cases h
        rfl
      · cases h
    · cases h
      rfl
  | join u next =>
    simp only [exec] at h
    split_ifs at h
    cases h
    rfl
  | _ =>
    cases h
    rfl

theorem exec_status (h : exec P c t ok i = some c') : c'.status t = i.after t c.mem ok := by
  cases i with
  | rest => cases h
  | lock m next =>
    simp only [exec] at h
    split_ifs at h
    cases h
    exact Function.update_self _ _ _
  | create u start next fail =>
    simp only [exec] at h
    split_ifs at h with hok
    · split at h
      · cases h
        rw [Instr.after, if_pos hok]
        exact Function.update_self _ _ _
      · cases h
    · cases h
      rw [Instr.after, if_neg hok]
      exact Function.update_self _ _ _
  | join u next =>
    simp only [exec] at h
    split_ifs at h
    cases h
    exact Function.update_self _ _ _
  | _ =>
    cases h
    exact Function.update_self _ _ _

theorem exec_stays {p : K → Bool} (hp : i.Stays p) (h : exec P c t ok i = some c') :
    ∃ k, p k ∧ (c'.status t = .run k ∨ ∃ m, c'.status t = .asleep m k) := by
  rw [exec_status h]
  cases i with
  | rest => cases h
  | wait m next => exact ⟨next, hp, .inr ⟨m, rfl⟩⟩
  | act f => exact ⟨_, hp t c.mem ok, .inl rfl⟩
  | create u start next fail =>
    cases ok with
    | true => exact ⟨next, hp.1, .inl rfl⟩
    | false => exact ⟨fail, hp.2, .inl rfl⟩
  | _ => exact ⟨_, hp, .inl rfl⟩

theorem exec_status_of_ne (h : exec P c t ok i = some c') (hne : u ≠ t)
    (htarget : i.target ≠ some u) : c'.status u = c.status u := by
  cases i with
  | rest => cases h
  | lock m next =>
    simp only [exec] at h
    split_ifs at h
    cases h
    exact Function.update_of_ne hne _ _
  | signal v next =>
    cases h
    have hv : u ≠ v := fun huv => htarget (congrArg some huv.symm)
    exact (Function.update_of_ne hne _ _).trans (Function.update_of_ne hv _ _)
  | create v start next fail =>
    have hv : u ≠ v := fun huv => htarget (congrArg some huv.symm)
    simp only [exec] at h
    split_ifs at h
    · split at h
      · cases h
        exact (Function.update_of_ne hne _ _).trans (Function.update_of_ne hv _ _)
      · cases h
    · cases h
      exact Function.update_of_ne hne _ _
  | join v next =>
    have hv : u ≠ v := fun huv => htarget (congrArg some huv.symm)
    simp only [exec] at h
    split_ifs at h
    cases h
    exact (Function.update_of_ne hne _ _).trans (Function.update_of_ne hv _ _)
  | _ =>
    cases h
    exact Function.update_of_ne hne _ _

end Exec

/-! ### Mutexes held -/

/-- `held k m`: a thread at `k` holds `m`. -/
def Status.holds (held : K → L → Bool) : Status L K → L → Bool
  | .run k, m => held k m
  | _, _ => false

/-- A thread in `pthread_cond_wait` goes on holding that mutex alone. -/
def Status.Waits (held : K → L → Bool) : Status L K → Prop
  | .asleep m k => ∀ m', held k m' = decide (m' = m)
  | .woken m k => ∀ m', held k m' = decide (m' = m)
  | _ => True

/-- The annotation fits the instruction at `k`, and mutexes are taken in the order of their rank. -/
def Fits (held : K → L → Bool) (rank : L → Nat) (k : K) : Instr ι L K S → Prop
  | .rest => ∀ m, held k m = false
  | .lock m next =>
    (∀ m', held next m' = (decide (m' = m) || held k m')) ∧ ∀ m', held k m' → rank m' < rank m
  | .unlock m next => held k m ∧ ∀ m', held next m' = (held k m' && decide (m' ≠ m))
  | .wait m next => ∀ m', held k m' = decide (m' = m) ∧ held next m' = held k m'
  | .signal _ next => ∀ m', held next m' = held k m'
  | .act f => ∀ t s ok m', held (f t s ok).2 m' = held k m'
  | .create _ start next fail =>
    ∀ m', held start m' = false ∧ held next m' = held k m' ∧ held fail m' = held k m'
  | .join _ next => ∀ m', held k m' = false ∧ held next m' = false

structure Checked (held : K → L → Bool) (rank : L → Nat) : Prop where
  code : ∀ k, Fits held rank k (P.code k)
  entry : ∀ t k, P.entry t k → ∀ m, held k m = false

/-- The owner of a mutex is the thread that holds it. -/
structure Sound (held : K → L → Bool) (c : Conf ι L K S) : Prop where
  owns : ∀ m t, c.owner m = some t ↔ (c.status t).holds held m
  waits : ∀ t, (c.status t).Waits held

variable {P} {held : K → L → Bool} {rank : L → Nat} {c c' : Conf ι L K S} {t u : ι} {m : L}

omit [DecidableEq ι] in
theorem exclusive (h : Sound held c) (ht : (c.status t).holds held m)
    (hu : (c.status u).holds held m) : t = u :=
  Option.some.inj (((h.owns m t).2 ht).symm.trans ((h.owns m u).2 hu))

theorem waits_set (h : Sound held c) {st : Status L K} (hst : st.Waits held) (u : ι) :
    (Function.update c.status t st u).Waits held := by
  rcases eq_or_ne u t with rfl | hne
  · rwa [Function.update_self]
  · rw [Function.update_of_ne hne]
    exact h.waits u

theorem sound_set (h : Sound held c) {st : Status L K} (hwaits : st.Waits held)
    (hst : ∀ m, st.holds held m = (c.status t).holds held m) : Sound held (c.set t st) := by
  refine ⟨fun m u => ?_, waits_set h hwaits⟩
  change c.owner m = some u ↔ (Function.update c.status t st u).holds held m
  rw [h.owns m u]
  rcases eq_or_ne u t with rfl | hne
  · rw [Function.update_self, hst m]
  · rw [Function.update_of_ne hne]

theorem sound_acquire (h : Sound held c) (hfree : c.owner m = none) {st : Status L K}
    (hwaits : st.Waits held)
    (hst : ∀ m', st.holds held m' = (decide (m' = m) || (c.status t).holds held m')) :
    Sound held ((c.own m (some t)).set t st) := by
  refine ⟨fun m' u => ?_, waits_set h hwaits⟩
  change Function.update c.owner m (some t) m' = some u ↔
    (Function.update c.status t st u).holds held m'
  rcases eq_or_ne m' m with rfl | hm
  · rw [Function.update_self]
    rcases eq_or_ne u t with rfl | hne
    · simp [hst]
    · have hnot : (c.status u).holds held m' = false := by
        rw [← Bool.not_eq_true, ← h.owns m' u, hfree]
        simp
      simp [Function.update_of_ne hne, hnot, hne.symm]
  · rw [Function.update_of_ne hm, h.owns m' u]
    rcases eq_or_ne u t with rfl | hne
    · simp [hst, hm]
    · rw [Function.update_of_ne hne]

theorem sound_release (h : Sound held c) (hheld : (c.status t).holds held m) {st : Status L K}
    (hwaits : st.Waits held)
    (hst : ∀ m', st.holds held m' = ((c.status t).holds held m' && decide (m' ≠ m))) :
    Sound held ((c.own m none).set t st) := by
  refine ⟨fun m' u => ?_, waits_set h hwaits⟩
  change Function.update c.owner m none m' = some u ↔
    (Function.update c.status t st u).holds held m'
  rcases eq_or_ne m' m with rfl | hm
  · rw [Function.update_self]
    rcases eq_or_ne u t with rfl | hne
    · simp [hst]
    · have hnot : ¬ (c.status u).holds held m' := fun hu => hne (exclusive h hu hheld)
      simp [Function.update_of_ne hne, hnot]
  · rw [Function.update_of_ne hm, h.owns m' u]
    rcases eq_or_ne u t with rfl | hne
    · simp [hst, hm]
    · rw [Function.update_of_ne hne]

omit [DecidableEq ι] in
theorem holds_of_rests (hP : Checked P held rank) {st : Status L K} (h : st.rests P) (m : L) :
    st.holds held m = false := by
  cases st with
  | run k =>
    have hfits := hP.code k
    unfold Status.rests at h
    cases hcode : P.code k with
    | rest =>
      rw [hcode] at hfits
      exact hfits m
    | _ => simp [hcode] at h
  | _ => cases h

omit [DecidableEq L] in
theorem holds_wake (st : Status L K) (m : L) : st.wake.holds held m = st.holds held m := by
  cases st <;> rfl

theorem waits_wake {st : Status L K} (h : st.Waits held) : st.wake.Waits held := by
  cases st <;> exact h

omit [DecidableEq L] in
/-- A change of `u` that keeps its mutexes keeps everyone's. -/
theorem holds_set {st : Status L K} (hst : ∀ m, st.holds held m = (c.status u).holds held m)
    (t : ι) (m : L) : ((c.set u st).status t).holds held m = (c.status t).holds held m := by
  change (Function.update c.status u st t).holds held m = _
  rcases eq_or_ne t u with rfl | hne
  · rw [Function.update_self, hst]
  · rw [Function.update_of_ne hne]

/-- A change of `u` that keeps its mutexes, and then `t` goes on to a place that keeps its own. -/
theorem sound_set_run (h : Sound held c) {st : Status L K} {k k' : K} (hwaits : st.Waits held)
    (hu : ∀ m, st.holds held m = (c.status u).holds held m) (hk : c.status t = .run k)
    (ht : ∀ m, held k' m = held k m) : Sound held ((c.set u st).set t (.run k')) := by
  refine sound_set (sound_set h hwaits hu) trivial fun m => ?_
  rw [holds_set hu, hk]
  exact ht m

theorem sound_exec (hP : Checked P held rank) (h : Sound held c) {k : K} {ok : Bool}
    (hk : c.status t = .run k) (hstep : exec P c t ok (P.code k) = some c') : Sound held c' := by
  have hfits := hP.code k
  have hold (m : L) : (c.status t).holds held m = held k m := by
    rw [hk]
    rfl
  cases hcode : P.code k with
  | rest => simp [hcode, exec] at hstep
  | lock m next =>
    rw [hcode] at hstep hfits
    obtain ⟨hfree, rfl⟩ : c.owner m = none ∧ (c.own m (some t)).set t (.run next) = c' := by
      simpa [exec] using hstep
    refine sound_acquire h hfree trivial fun m' => ?_
    rw [hold]
    exact hfits.1 m'
  | unlock m next =>
    rw [hcode] at hstep hfits
    cases hstep
    refine sound_release h ((hold m).trans hfits.1) trivial fun m' => ?_
    rw [hold]
    exact hfits.2 m'
  | wait m next =>
    rw [hcode] at hstep hfits
    cases hstep
    refine sound_release h ?_ (fun m' => ?_) fun m' => ?_
    · rw [hold, (hfits m).1, decide_eq_true rfl]
    · rw [(hfits m').2, (hfits m').1]
    · rw [hold, (hfits m').1]
      change false = _
      by_cases hm : m' = m <;> simp [hm]
  | signal u next =>
    rw [hcode] at hstep hfits
    cases hstep
    exact sound_set_run h (waits_wake (h.waits u)) (holds_wake _) hk hfits
  | act f =>
    rw [hcode] at hstep hfits
    cases hstep
    have hset : Sound held (c.set t (.run (f t c.mem ok).2)) :=
      sound_set h trivial fun m => by rw [hold]; exact hfits t c.mem ok m
    exact ⟨hset.owns, hset.waits⟩
  | create u start next fail =>
    rw [hcode] at hstep hfits
    cases ok with
    | false =>
      cases hstep
      exact sound_set h trivial fun m => by rw [hold]; exact (hfits m).2.2
    | true =>
      cases hu : c.status u with
      | absent =>
        simp only [exec, hu] at hstep
        cases hstep
        refine sound_set_run h trivial (fun m => ?_) hk fun m => (hfits m).2.1
        rw [hu]
        exact (hfits m).1
      | _ => simp [exec, hu] at hstep
  | join u next =>
    rw [hcode] at hstep hfits
    obtain ⟨hrests, rfl⟩ : (c.status u).rests P ∧
        (c.set u .absent).set t (.run next) = c' := by
      simpa [exec] using hstep
    refine sound_set_run h trivial (fun m => ?_) hk fun m => ?_
    · rw [holds_of_rests hP hrests]
      rfl
    · rw [(hfits m).1, (hfits m).2]

theorem sound_step (hP : Checked P held rank) (h : Sound held c) {e : Event ι K}
    (hstep : step? P c e = some c') : Sound held c' := by
  cases e with
  | go t ok =>
    unfold step? at hstep
    cases hst : c.status t with
    | run k => exact sound_exec hP h hst (by simpa only [hst] using hstep)
    | woken m k =>
      obtain ⟨hfree, rfl⟩ : c.owner m = none ∧ (c.own m (some t)).set t (.run k) = c' := by
        simpa [hst] using hstep
      have hwaits := h.waits t
      rw [hst] at hwaits
      refine sound_acquire h hfree trivial fun m' => ?_
      rw [hst]
      exact (hwaits m').trans (Bool.or_false _).symm
    | _ => simp [hst] at hstep
  | wake t =>
    unfold step? at hstep
    cases hst : c.status t with
    | asleep m k =>
      simp only [hst] at hstep
      cases hstep
      have hwaits := h.waits t
      rw [hst] at hwaits
      refine sound_set h hwaits fun m' => ?_
      rw [hst]
      rfl
    | _ => simp [hst] at hstep
  | call t k =>
    obtain ⟨⟨hrests, hentry⟩, rfl⟩ : ((c.status t).rests P ∧ P.entry t k) ∧
        c.set t (.run k) = c' := by
      simpa [step?] using hstep
    refine sound_set h trivial fun m => ?_
    rw [holds_of_rests hP hrests]
    exact hP.entry t k hentry m

theorem sound_run (hP : Checked P held rank) (h : Sound held c) {es : List (Event ι K)}
    (hrun : run (step? P) c es = some c') : Sound held c' :=
  run_invariant' (fun _ _ _ hc hstep => sound_step hP hc hstep) h hrun

/-! ### No deadlock on mutexes -/

/-- The mutex that a thread stands in line for. -/
def Status.wants (P : Program ι L K S) : Status L K → Option L
  | .run k => match P.code k with
    | .lock m _ => some m
    | _ => none
  | .woken m _ => some m
  | _ => none

/-- The thread can take a step, or waits for another one to end. -/
def AtWork (P : Program ι L K S) (c : Conf ι L K S) (t : ι) : Prop :=
  match c.status t with
  | .run k => (Status.run (L := L) k).rests P = false
  | .woken _ _ => True
  | _ => False

def Blocked (P : Program ι L K S) (c : Conf ι L K S) (t : ι) : Prop :=
  ∃ m, (c.status t).wants P = some m ∧ c.owner m ≠ none

omit [DecidableEq ι] in
theorem atWork_of_holds (hP : Checked P held rank) (h : (c.status t).holds held m) :
    AtWork P c t := by
  unfold AtWork
  cases hst : c.status t with
  | run k =>
    rw [hst] at h
    change (Status.run k).rests P = false
    by_contra hrests
    rw [Bool.not_eq_false] at hrests
    rw [holds_of_rests hP hrests] at h
    cases h
  | _ =>
    rw [hst] at h
    cases h

omit [DecidableEq ι] in
/-- The owner of a mutex does not stand in line for one of lower rank. -/
theorem rank_lt_of_wants (hP : Checked P held rank) (hheld : (c.status t).holds held m) {m' : L}
    (hwants : (c.status t).wants P = some m') : rank m < rank m' := by
  cases hst : c.status t with
  | run k =>
    rw [hst] at hheld hwants
    have hfits := hP.code k
    unfold Status.wants at hwants
    cases hcode : P.code k with
    | lock n next =>
      rw [hcode] at hfits
      obtain rfl : n = m' := by simpa [hcode] using hwants
      exact hfits.2 m hheld
    | _ => simp [hcode] at hwants
  | _ =>
    rw [hst] at hheld
    cases hheld

omit [DecidableEq ι] in
/-- Some thread at work is not waiting for a mutex, if any is at work. -/
theorem exists_unblocked (hP : Checked P held rank) (h : Sound held c) {bound : Nat}
    (hbound : ∀ m, rank m < bound) (hwork : AtWork P c t) :
    ∃ u, AtWork P c u ∧ ¬ Blocked P c u := by
  -- along the owners, the rank of the mutex wanted grows
  have hline (n : Nat) : ∀ m, c.owner m ≠ none → bound - rank m ≤ n →
      ∃ u, AtWork P c u ∧ ¬ Blocked P c u := by
    induction n with
    | zero =>
      intro m _ hn
      have hlt := hbound m
      omega
    | succ n ih =>
      intro m howner hn
      obtain ⟨u, hu⟩ := Option.ne_none_iff_exists'.1 howner
      have hheld := (h.owns m u).1 hu
      by_cases hblocked : Blocked P c u
      · obtain ⟨m', hwants, howner'⟩ := hblocked
        have hlt := rank_lt_of_wants hP hheld hwants
        exact ih m' howner' (by omega)
      · exact ⟨u, atWork_of_holds hP hheld, hblocked⟩
  by_cases hblocked : Blocked P c t
  · obtain ⟨m, -, howner⟩ := hblocked
    exact hline _ m howner (Nat.le_refl _)
  · exact ⟨t, hwork, hblocked⟩

/-- What an instruction needs of other threads, besides its mutex. -/
def Instr.Ready (P : Program ι L K S) (c : Conf ι L K S) : Instr ι L K S → Prop
  | .create u _ _ _ => c.status u = .absent
  | .join u _ => (c.status u).rests P
  | _ => True

theorem exists_step (hwork : AtWork P c t) (hfree : ¬ Blocked P c t)
    (hready : ∀ k, c.status t = .run k → (P.code k).Ready P c) (ok : Bool) :
    ∃ c', step? P c (.go t ok) = some c' := by
  unfold AtWork at hwork
  unfold Blocked Status.wants at hfree
  unfold step?
  cases hst : c.status t with
  | run k =>
    rw [hst] at hwork hfree
    have hneeds := hready k hst
    unfold Status.rests at hwork
    cases hcode : P.code k with
    | rest => simp [hcode] at hwork
    | lock m next =>
      have howner : c.owner m = none := by simpa [hcode] using hfree
      simp [hst, hcode, exec, howner]
    | create u start next fail =>
      rw [hcode] at hneeds
      change c.status u = .absent at hneeds
      cases ok <;> simp [hst, hcode, exec, hneeds]
    | join u next =>
      rw [hcode] at hneeds
      change (c.status u).rests P = true at hneeds
      simp [hst, hcode, exec, hneeds]
    | _ => simp [hst, hcode, exec]
  | woken m k =>
    rw [hst] at hfree
    have howner : c.owner m = none := by simpa using hfree
    simp [hst, howner]
  | _ => simp [hst] at hwork

end ElfHook.Lib.Pthread

import Mathlib.Data.List.InsertIdx
import Mathlib.Data.List.Nodup
import ElfHook.Lib.Run

/-!
# A loop over a map with a fail-fast iterator

A map counts its structural modifications: a `put` of a new key is one, a `put` of a key that is
there is none, and neither is the silent removal of an entry of a weak map. The iterator of a loop
remembers the count it began with. Each iteration asks it for the next entry, which throws when the
count has changed, and runs the body on the entry. In between, other parties put and drop as they
like; a new entry lands anywhere, ahead of the cursor or behind it.

* `FailFast.sound_run`: up to the end of the loop, each key that stayed is given once or is ahead.
* `FailFast.next_count_le`: the loop ends after one step more than the map had entries.
* `FailFast.failed_iff`: it throws if and only if it asks for a further entry after a structural
  modification.
-/

namespace ElfHook.Lib

variable {K V β : Type*} [DecidableEq K]

/-- A map with the count of its structural modifications. -/
structure CountedMap (K V : Type*) where
  entries : List (K × V)
  modCount : Nat
  nodup : (entries.map Prod.fst).Nodup

namespace CountedMap

def keys (m : CountedMap K V) : List K := m.entries.map Prod.fst

def put (m : CountedMap K V) (k : K) (v : V) : CountedMap K V where
  entries := (k, v) :: m.entries.filter fun p => p.1 ≠ k
  modCount := if k ∈ m.entries.map Prod.fst then m.modCount else m.modCount + 1
  nodup := by
    rw [List.map_cons, List.nodup_cons]
    refine ⟨?_, m.nodup.sublist (List.filter_sublist.map Prod.fst)⟩
    simp

def drop (m : CountedMap K V) (k : K) : CountedMap K V where
  entries := m.entries.filter fun p => p.1 ≠ k
  modCount := m.modCount
  nodup := m.nodup.sublist (List.filter_sublist.map Prod.fst)

def get? (m : CountedMap K V) (k : K) : Option V :=
  (m.entries.find? fun p => p.1 = k).map Prod.snd

variable {m : CountedMap K V} {k l : K} {v : V}

theorem mem_keys_put : l ∈ (m.put k v).keys ↔ l = k ∨ l ∈ m.keys := by
  by_cases hlk : l = k
  · simp [keys, put, hlk]
  · simp [keys, put, hlk]

theorem mem_keys_drop : l ∈ (m.drop k).keys ↔ l ≠ k ∧ l ∈ m.keys := by
  by_cases hlk : l = k
  · simp [keys, drop, hlk]
  · simp [keys, drop, hlk]

theorem get?_eq_some (h : (k, v) ∈ m.entries) : m.get? k = some v := by
  obtain ⟨p, hp⟩ : ∃ p, (m.entries.find? fun p => p.1 = k) = some p :=
    Option.isSome_iff_exists.1 (List.find?_isSome.2 ⟨_, h, by simp⟩)
  have hkey : p.1 = k := by simpa using List.find?_some hp
  obtain rfl : p = (k, v) :=
    List.inj_on_of_nodup_map m.nodup (List.mem_of_find?_eq_some hp) h hkey
  rw [get?, hp, Option.map_some]

theorem get?_isSome : (m.get? k).isSome = true ↔ k ∈ m.keys := by
  simp [get?, keys]

end CountedMap

/-! ### The loop -/

namespace FailFast

inductive Status where
  | iterating
  | returned
  | failed
  deriving DecidableEq

/-- A loop that has reached the value `acc`. What it was given, and which of the keys there at its
beginning have stayed, are history. -/
structure Loop (K V β : Type*) where
  map : CountedMap K V
  expectedModCount : Nat
  ahead : List K
  acc : β
  given : List (K × V)
  stayed : List K
  status : Status

/-- The iterator is created; the entries are listed in its order. -/
def Loop.begin (m : CountedMap K V) (acc : β) : Loop K V β where
  map := m
  expectedModCount := m.modCount
  ahead := m.keys
  acc := acc
  given := []
  stayed := m.keys
  status := .iterating

/-- Another party puts an entry, a new one landing at `place` among those ahead, or behind the cursor
when there is no such place; an entry disappears; the loop makes its next step. -/
inductive Event (K V : Type*) where
  | put (k : K) (v : V) (place : Nat)
  | drop (k : K)
  | next

def Event.isNext : Event K V → Bool
  | .next => true
  | _ => false

def Loop.modified (s : Loop K V β) : Prop := s.map.modCount ≠ s.expectedModCount

instance (s : Loop K V β) : Decidable s.modified := inferInstanceAs (Decidable (_ ≠ _))

def Loop.put (s : Loop K V β) (k : K) (v : V) (place : Nat) : Loop K V β :=
  { s with
    map := s.map.put k v
    ahead := if k ∈ s.map.keys then s.ahead else s.ahead.insertIdx place k }

def Loop.drop (s : Loop K V β) (k : K) : Loop K V β :=
  { s with
    map := s.map.drop k
    ahead := s.ahead.filter (· ≠ k)
    stayed := s.stayed.filter (· ≠ k) }

/-- `hasNext`, `next` and the body. -/
def Loop.next (body : β → K × V → β) (s : Loop K V β) : Loop K V β :=
  match s.ahead with
  -- `hasNext` does not look at the count
  | [] => { s with status := .returned }
  | k :: ahead =>
    if s.modified then { s with status := .failed }
    else
      match s.map.get? k with
      | none => { s with ahead := ahead }
      | some v =>
        { s with ahead := ahead, acc := body s.acc (k, v), given := s.given ++ [(k, v)] }

def Loop.step (body : β → K × V → β) (s : Loop K V β) (e : Event K V) : Option (Loop K V β) :=
  if s.status = .iterating then
    match e with
    | .put k v place => some (s.put k v place)
    | .drop k => some (s.drop k)
    | .next => some (s.next body)
  else none

/-- The step of the loop, if it is one, finds no further entry once the map has been modified. -/
def Loop.Undisturbed (s : Loop K V β) (e : Event K V) : Prop :=
  e.isNext = true → s.modified → s.ahead = []

instance (s : Loop K V β) (e : Event K V) : Decidable (s.Undisturbed e) :=
  inferInstanceAs (Decidable (_ → _ → _))

/-- What holds up to the end of the loop. -/
structure Loop.Sound (body : β → K × V → β) (init : β) (s : Loop K V β) : Prop where
  ahead_mem : ∀ k ∈ s.ahead, k ∈ s.map.keys
  stayed_mem : ∀ k ∈ s.stayed, k ∈ s.map.keys
  once : ∀ k ∈ s.stayed, (s.given.map Prod.fst).count k + s.ahead.count k = 1
  acc_eq : s.acc = s.given.foldl body init
  modCount_le : s.expectedModCount ≤ s.map.modCount
  returned : s.status = .returned → s.ahead = []

section Loop

variable {body : β → K × V → β} {init : β} {s t : Loop K V β} {e : Event K V}

theorem step_eq_some (h : s.step body e = some t) : s.status = .iterating := by
  unfold Loop.step at h
  split_ifs at h with hstatus
  exact hstatus

/-- The steps of the loop itself, with what each requires. -/
inductive Loop.Nexts (body : β → K × V → β) (s : Loop K V β) : Loop K V β → Prop where
  | finish (hahead : s.ahead = []) : Nexts body s { s with status := .returned }
  | fail {k : K} {ahead : List K} (hahead : s.ahead = k :: ahead) (hmod : s.modified) :
      Nexts body s { s with status := .failed }
  | skip {k : K} {ahead : List K} (hahead : s.ahead = k :: ahead) (hmod : ¬ s.modified)
      (hget : s.map.get? k = none) : Nexts body s { s with ahead := ahead }
  | give {k : K} {ahead : List K} {v : V} (hahead : s.ahead = k :: ahead) (hmod : ¬ s.modified)
      (hget : s.map.get? k = some v) :
      Nexts body s
        { s with ahead := ahead, acc := body s.acc (k, v), given := s.given ++ [(k, v)] }

theorem next_cases (body : β → K × V → β) (s : Loop K V β) : s.Nexts body (s.next body) := by
  unfold Loop.next
  split
  · next hahead => exact .finish hahead
  · next k ahead hahead =>
    split_ifs with hmod
    · exact .fail hahead hmod
    · split
      · next hget => exact .skip hahead hmod hget
      · next v hget => exact .give hahead hmod hget

theorem step_put (hstatus : s.status = .iterating) (k : K) (v : V) (place : Nat) :
    s.step body (.put k v place) = some (s.put k v place) :=
  if_pos hstatus

theorem step_drop (hstatus : s.status = .iterating) (k : K) :
    s.step body (.drop k) = some (s.drop k) :=
  if_pos hstatus

theorem step_next (hstatus : s.status = .iterating) : s.step body .next = some (s.next body) :=
  if_pos hstatus

/-! ### What stays is given once -/

theorem count_insertIdx_of_ne {k l : K} {ahead : List K} {place : Nat} (hlk : l ≠ k) :
    (ahead.insertIdx place k).count l = ahead.count l := by
  rcases Nat.lt_or_ge ahead.length place with hlt | hle
  · rw [List.insertIdx_of_length_lt hlt]
  · rw [(List.perm_insertIdx k ahead hle).count_eq, List.count_cons_of_ne (Ne.symm hlk)]

theorem sound_begin (m : CountedMap K V) (init : β) : (Loop.begin m init).Sound body init where
  ahead_mem _ hk := hk
  stayed_mem _ hk := hk
  once k hk := by
    have hcount : m.keys.count k = 1 := List.count_eq_one_of_mem m.nodup hk
    simpa [Loop.begin] using hcount
  acc_eq := rfl
  modCount_le := Nat.le_refl _
  returned h := by cases h

theorem sound_put (h : s.Sound body init) (k : K) (v : V) (place : Nat)
    (hstatus : s.status = .iterating) :
    (s.put k v place).Sound body init where
  ahead_mem l hl := by
    refine CountedMap.mem_keys_put.2 ?_
    unfold Loop.put at hl
    dsimp only at hl
    split_ifs at hl
    · exact Or.inr (h.ahead_mem l hl)
    · exact (List.eq_or_mem_of_mem_insertIdx hl).imp_right (h.ahead_mem l)
  stayed_mem l hl := CountedMap.mem_keys_put.2 (Or.inr (h.stayed_mem l hl))
  once l hl := by
    have honce := h.once l hl
    unfold Loop.put
    dsimp only
    split_ifs with hk
    · exact honce
    · -- the key that stayed is not the new one
      have hlk : l ≠ k := fun hlk => hk (hlk ▸ h.stayed_mem l hl)
      rw [count_insertIdx_of_ne hlk]
      exact honce
  acc_eq := h.acc_eq
  modCount_le := by
    have hle := h.modCount_le
    simp only [Loop.put, CountedMap.put]
    split_ifs <;> omega
  returned hret := by simp [Loop.put, hstatus] at hret

theorem sound_drop (h : s.Sound body init) (k : K) : (s.drop k).Sound body init where
  ahead_mem l hl := by
    obtain ⟨hl, hlk⟩ := List.mem_filter.1 hl
    exact CountedMap.mem_keys_drop.2 ⟨by simpa using hlk, h.ahead_mem l hl⟩
  stayed_mem l hl := by
    obtain ⟨hl, hlk⟩ := List.mem_filter.1 hl
    exact CountedMap.mem_keys_drop.2 ⟨by simpa using hlk, h.stayed_mem l hl⟩
  once l hl := by
    obtain ⟨hl, hlk⟩ := List.mem_filter.1 hl
    have hcount : (s.ahead.filter (· ≠ k)).count l = s.ahead.count l := List.count_filter hlk
    simpa only [Loop.drop, hcount] using h.once l hl
  acc_eq := h.acc_eq
  modCount_le := h.modCount_le
  returned hret := by simp [Loop.drop, h.returned hret]

theorem sound_next (h : s.Sound body init) (hstatus : s.status = .iterating)
    (hnext : s.Nexts body t) : t.Sound body init := by
  cases hnext with
  | finish hahead =>
    exact ⟨h.ahead_mem, h.stayed_mem, h.once, h.acc_eq, h.modCount_le, fun _ => hahead⟩
  | fail _ _ =>
    exact ⟨h.ahead_mem, h.stayed_mem, h.once, h.acc_eq, h.modCount_le, fun hret => by cases hret⟩
  | @skip k ahead hahead _ hget =>
    -- an entry ahead is in the map
    have hmem := h.ahead_mem k (by simp [hahead])
    rw [← CountedMap.get?_isSome, hget] at hmem
    cases hmem
  | @give k ahead v hahead _ _ =>
    refine ⟨fun l hl => h.ahead_mem l (by simp [hahead, hl]), h.stayed_mem, fun l hl => ?_, ?_,
      h.modCount_le, fun hret => ?_⟩
    · have honce := h.once l hl
      rw [hahead, List.count_cons] at honce
      simp only [List.map_append, List.map_cons, List.map_nil, List.count_append,
        List.count_singleton]
      omega
    · simp [h.acc_eq]
    · simp [hstatus] at hret

theorem sound_step (h : s.Sound body init) (ht : s.step body e = some t) : t.Sound body init := by
  have hstatus := step_eq_some ht
  cases e with
  | put k v place =>
    rw [step_put hstatus] at ht
    exact Option.some.inj ht ▸ sound_put h k v place hstatus
  | drop k =>
    rw [step_drop hstatus] at ht
    exact Option.some.inj ht ▸ sound_drop h k
  | next =>
    rw [step_next hstatus] at ht
    exact Option.some.inj ht ▸ sound_next h hstatus (next_cases body s)

theorem sound_run {m : CountedMap K V} {es : List (Event K V)}
    (hrun : run (Loop.step body) (Loop.begin m init) es = some t) : t.Sound body init :=
  run_invariant' (I := Loop.Sound body init) (fun _ _ _ hs ht => sound_step hs ht)
    (sound_begin m init) hrun

/-- At the end, each key that stayed has been given once. -/
theorem Loop.Sound.given_once (h : s.Sound body init) (hret : s.status = .returned) :
    ∀ k ∈ s.stayed, (s.given.map Prod.fst).count k = 1 := by
  intro k hk
  simpa [h.returned hret] using h.once k hk

/-! ### The loop ends -/

/-- How many steps the loop may still make. -/
def Loop.remaining (s : Loop K V β) : Nat :=
  if s.status = .iterating then if s.modified then 1 else s.ahead.length + 1 else 0

omit [DecidableEq K] in
theorem remaining_of_modified (hstatus : s.status = .iterating) (hmod : s.modified) :
    s.remaining = 1 := by
  rw [Loop.remaining, if_pos hstatus, if_pos hmod]

omit [DecidableEq K] in
theorem remaining_of_not_modified (hstatus : s.status = .iterating) (hmod : ¬ s.modified) :
    s.remaining = s.ahead.length + 1 := by
  rw [Loop.remaining, if_pos hstatus, if_neg hmod]

omit [DecidableEq K] in
theorem remaining_pos (hstatus : s.status = .iterating) : 0 < s.remaining := by
  by_cases hmod : s.modified
  · rw [remaining_of_modified hstatus hmod]
    omega
  · rw [remaining_of_not_modified hstatus hmod]
    omega

theorem remaining_put (h : s.Sound body init) (hstatus : s.status = .iterating) (k : K) (v : V)
    (place : Nat) : (s.put k v place).remaining ≤ s.remaining := by
  have hle := h.modCount_le
  by_cases hk : k ∈ s.map.keys
  · have hcount : (s.put k v place).map.modCount = s.map.modCount := if_pos hk
    have hahead : (s.put k v place).ahead = s.ahead := if_pos hk
    have hmod : (s.put k v place).modified ↔ s.modified := by
      rw [Loop.modified, hcount]
      exact Iff.rfl
    by_cases hmod' : s.modified
    · rw [remaining_of_modified (s := s.put k v place) hstatus (hmod.2 hmod')]
      exact remaining_pos hstatus
    · apply Nat.le_of_eq
      rw [remaining_of_not_modified (s := s.put k v place) hstatus (mt hmod.1 hmod'), hahead,
        remaining_of_not_modified hstatus hmod']
  · -- the map is modified now, and one step is left
    have hcount : (s.put k v place).map.modCount = s.map.modCount + 1 := if_neg hk
    have hmod : (s.put k v place).modified := by
      show (s.put k v place).map.modCount ≠ s.expectedModCount
      omega
    rw [remaining_of_modified (s := s.put k v place) hstatus hmod]
    exact remaining_pos hstatus

theorem remaining_drop (hstatus : s.status = .iterating) (k : K) :
    (s.drop k).remaining ≤ s.remaining := by
  by_cases hmod : s.modified
  · have hmod' : (s.drop k).modified := hmod
    rw [remaining_of_modified (s := s.drop k) hstatus hmod']
    exact remaining_pos hstatus
  · have hmod' : ¬ (s.drop k).modified := hmod
    have hlen : (s.drop k).ahead.length ≤ s.ahead.length := List.length_filter_le _ _
    rw [remaining_of_not_modified hstatus hmod,
      remaining_of_not_modified (s := s.drop k) hstatus hmod']
    omega

theorem remaining_next (hstatus : s.status = .iterating) (hnext : s.Nexts body t) :
    t.remaining + 1 ≤ s.remaining := by
  -- an iteration takes one of the entries ahead
  have htake : ∀ {u : Loop K V β} {k : K}, s.ahead = k :: u.ahead → ¬ s.modified →
      u.status = .iterating → ¬ u.modified → u.remaining + 1 ≤ s.remaining := by
    intro u k hahead hmod hstatus' hmod'
    have hlen : s.ahead.length = u.ahead.length + 1 := by rw [hahead, List.length_cons]
    rw [remaining_of_not_modified hstatus hmod, remaining_of_not_modified hstatus' hmod']
    omega
  cases hnext with
  | finish _ | fail _ _ => exact remaining_pos hstatus
  | skip hahead hmod _ | give hahead hmod _ => exact htake hahead hmod hstatus hmod

theorem remaining_step (h : s.Sound body init) (ht : s.step body e = some t) :
    [e].countP Event.isNext + t.remaining ≤ s.remaining := by
  have hstatus := step_eq_some ht
  cases e with
  | put k v place =>
    rw [step_put hstatus] at ht
    obtain rfl := Option.some.inj ht
    simpa [Event.isNext] using remaining_put h hstatus k v place
  | drop k =>
    rw [step_drop hstatus] at ht
    obtain rfl := Option.some.inj ht
    simpa [Event.isNext] using remaining_drop hstatus k
  | next =>
    rw [step_next hstatus] at ht
    obtain rfl := Option.some.inj ht
    have hle := remaining_next hstatus (next_cases body s)
    simp [Event.isNext]
    omega

theorem remaining_run {es : List (Event K V)} (h : s.Sound body init)
    (hrun : run (Loop.step body) s es = some t) :
    es.countP Event.isNext + t.remaining ≤ s.remaining := by
  induction es generalizing s with
  | nil =>
    cases hrun
    simp
  | cons e es ih =>
    obtain ⟨u, hu, hrest⟩ := run_cons_eq_some.1 hrun
    have hstep := remaining_step h hu
    have hle := ih (sound_step h hu) hrest
    rw [← List.singleton_append, List.countP_append]
    omega

/-- The loop makes at most one step more than the map had entries, however long the run. -/
theorem next_count_le {m : CountedMap K V} {es : List (Event K V)}
    (hrun : run (Loop.step body) (Loop.begin m init) es = some t) :
    es.countP Event.isNext ≤ m.entries.length + 1 := by
  have hle := remaining_run (sound_begin m init) hrun
  have hbegin : (Loop.begin m init).remaining = m.entries.length + 1 := by
    simp [Loop.remaining, Loop.begin, Loop.modified, CountedMap.keys]
  omega

/-- By itself, the loop runs its body on all entries ahead. -/
theorem run_next {rest : List (K × V)} (hstatus : s.status = .iterating) (hmod : ¬ s.modified)
    (hrest : ∀ p ∈ rest, p ∈ s.map.entries) (hahead : s.ahead = rest.map Prod.fst) :
    ∃ t, run (Loop.step body) s (List.replicate (rest.length + 1) .next) = some t ∧
      t.status = .returned ∧ t.acc = rest.foldl body s.acc := by
  induction rest generalizing s with
  | nil =>
    refine ⟨{ s with status := .returned }, ?_, rfl, rfl⟩
    have hnext : s.next body = { s with status := .returned } := by rw [Loop.next, hahead]; rfl
    rw [List.length_nil, List.replicate_one, run_singleton, step_next hstatus, hnext]
  | cons p rest ih =>
    obtain ⟨k, v⟩ := p
    have hget : s.map.get? k = some v := CountedMap.get?_eq_some (hrest _ List.mem_cons_self)
    have hnext : s.next body = { s with
        ahead := rest.map Prod.fst
        acc := body s.acc (k, v)
        given := s.given ++ [(k, v)] } := by
      rw [Loop.next, hahead]
      simp only [List.map_cons, if_neg hmod, hget]
    obtain ⟨t, hrun, hend⟩ := ih (s := s.next body) (by rw [hnext]; exact hstatus)
      (by rw [hnext]; exact hmod)
      (by rw [hnext]; exact fun p hp => hrest p (List.mem_cons_of_mem _ hp)) (by rw [hnext])
    refine ⟨t, run_cons_eq_some.2 ⟨_, step_next hstatus, hrun⟩, ?_⟩
    rw [hnext] at hend
    exact hend

/-! ### When it throws -/

theorem failed_step (ht : s.step body e = some t) : t.status = .failed ↔ ¬ s.Undisturbed e := by
  have hstatus := step_eq_some ht
  cases e with
  | put k v place =>
    rw [step_put hstatus] at ht
    obtain rfl := Option.some.inj ht
    simp [Loop.put, Loop.Undisturbed, Event.isNext, hstatus]
  | drop k =>
    rw [step_drop hstatus] at ht
    obtain rfl := Option.some.inj ht
    simp [Loop.drop, Loop.Undisturbed, Event.isNext, hstatus]
  | next =>
    rw [step_next hstatus] at ht
    obtain rfl := Option.some.inj ht
    have hnext := next_cases body s
    generalize s.next body = t at hnext
    cases hnext with
    | finish hahead => simp [Loop.Undisturbed, hahead]
    | fail hahead hmod => simp [Loop.Undisturbed, hahead, hmod, Event.isNext]
    | skip _ hmod _ | give _ hmod _ => simp [Loop.Undisturbed, hmod, hstatus]

/-- Nothing is enabled once the loop has ended. -/
theorem run_of_ended {es : List (Event K V)} (hstatus : s.status ≠ .iterating)
    (hrun : run (Loop.step body) s es = some t) : es = [] ∧ t = s := by
  cases es with
  | nil => exact ⟨rfl, (Option.some.inj hrun).symm⟩
  | cons e es =>
    obtain ⟨u, hu, -⟩ := run_cons_eq_some.1 hrun
    exact absurd (step_eq_some hu) hstatus

theorem failed_iff {es : List (Event K V)} (hstatus : s.status = .iterating)
    (hrun : run (Loop.step body) s es = some t) :
    t.status = .failed ↔ ¬ Along (Loop.step body) Loop.Undisturbed s es := by
  induction es generalizing s with
  | nil =>
    cases hrun
    simp [hstatus]
  | cons e es ih =>
    obtain ⟨u, hu, hrest⟩ := run_cons_eq_some.1 hrun
    rw [along_cons_of_eq_some hu]
    by_cases hu' : u.status = .iterating
    · have hgood : s.Undisturbed e := by
        by_contra hbad
        rw [(failed_step hu).2 hbad] at hu'
        cases hu'
      simp [ih hu' hrest, hgood]
    · obtain ⟨rfl, rfl⟩ := run_of_ended hu' hrest
      simp [failed_step hu]

end Loop

end FailFast

end ElfHook.Lib

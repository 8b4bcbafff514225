import Mathlib.Data.List.Forall2

/-!
# A backtracking matcher

Patterns that are sequences of one-character classes and of greedy runs of a class. `rests` lists
what is left of the text after each way to match a prefix of it, in the order in which a
backtracking matcher tries them, so its head is the match that the matcher reports. `removeAll`
replaces the matches by nothing: leftmost first, and from the end of each match on.

* `mem_rests_plus`, `mem_rests_ones`: what is left after some match of a run, or of single classes.
* `head?_rests_plus_of_longest`, `head?_rests_plus`: the match reported for a greedy run.
* `removeAll_of_match`, `removeAll_append`: one match is removed, and text without one is kept.
-/

namespace ElfHook.Lib

variable {α : Type*}

/-- One character of a class, or a greedy run of at least one of them. -/
inductive Atom (α : Type*) where
  | one (p : α → Bool)
  | plus (p : α → Bool)

/-- What is left after each match of the atom at the start of the text, the longest match first. -/
def Atom.rests : Atom α → List α → List (List α)
  | _, [] => []
  | .one p, x :: xs => if p x then [xs] else []
  | .plus p, x :: xs => if p x then (Atom.plus p).rests xs ++ [xs] else []

/-- What is left after each match of the pattern, in the order of the search. -/
def rests : List (Atom α) → List α → List (List α)
  | [], s => [s]
  | a :: as, s => (a.rests s).flatMap (rests as)

/-- Copies the text without its matches, after `skip` more characters of the last match. -/
def removeFrom (pat : List (Atom α)) : Nat → List α → List α
  | _, [] => []
  | skip + 1, _ :: xs => removeFrom pat skip xs
  | 0, x :: xs =>
    match (rests pat (x :: xs)).head? with
    | some rest =>
      if rest.length ≤ xs.length then removeFrom pat (xs.length - rest.length) xs
      else x :: removeFrom pat 0 xs
    | none => x :: removeFrom pat 0 xs

/-- The text with every match replaced by nothing. -/
def removeAll (pat : List (Atom α)) (s : List α) : List α :=
  removeFrom pat 0 s

/-- The text has one character of each class, in order. -/
def Spells (classes : List (α → Bool)) (q : List α) : Prop :=
  List.Forall₂ (fun p x => p x = true) classes q

section Atoms

variable {p : α → Bool} {as : List (Atom α)} {classes : List (α → Bool)} {q s t u : List α}

@[simp] theorem rests_cons_nil (a : Atom α) : rests (a :: as) [] = [] := by
  cases a <;> rfl

theorem mem_plus_rests :
    t ∈ (Atom.plus p).rests s ↔ ∃ u, u ≠ [] ∧ (∀ x ∈ u, p x = true) ∧ s = u ++ t := by
  induction s with
  | nil =>
    simp only [Atom.rests, List.not_mem_nil, false_iff, not_exists, not_and]
    intro u hu _ h
    exact hu (List.append_eq_nil_iff.1 h.symm).1
  | cons x xs ih =>
    by_cases hx : p x = true
    · simp only [Atom.rests, hx, if_true, List.mem_append, ih, List.mem_singleton]
      constructor
      · rintro (⟨u, hu, hall, rfl⟩ | rfl)
        · refine ⟨x :: u, List.cons_ne_nil _ _, ?_, rfl⟩
          simpa [hx] using hall
        · exact ⟨[x], List.cons_ne_nil _ _, by simpa using hx, rfl⟩
      · rintro ⟨_ | ⟨y, u⟩, hu, hall, h⟩
        · exact absurd rfl hu
        · obtain ⟨rfl, rfl⟩ := List.cons.inj h
          by_cases hnil : u = []
          · exact Or.inr (by simp [hnil])
          · exact Or.inl ⟨u, hnil, fun z hz => hall z (List.mem_cons_of_mem _ hz), rfl⟩
    · simp only [Atom.rests, hx, Bool.false_eq_true, if_false, List.not_mem_nil, false_iff,
        not_exists, not_and]
      rintro (_ | ⟨y, u⟩) hu hall h
      · exact hu rfl
      · obtain ⟨rfl, -⟩ := List.cons.inj h
        exact hx (hall _ List.mem_cons_self)

theorem mem_rests_plus : t ∈ rests (.plus p :: as) s ↔
    ∃ u r, u ≠ [] ∧ (∀ x ∈ u, p x = true) ∧ s = u ++ r ∧ t ∈ rests as r := by
  simp only [rests, List.mem_flatMap, mem_plus_rests]
  constructor
  · rintro ⟨r, ⟨u, hu, hall, hs⟩, ht⟩
    exact ⟨u, r, hu, hall, hs, ht⟩
  · rintro ⟨u, r, hu, hall, hs, ht⟩
    exact ⟨r, ⟨u, hu, hall, hs⟩, ht⟩

/-- Classes match in one way only. -/
theorem rests_ones_of_spells (h : Spells classes q) :
    rests (classes.map .one ++ as) (q ++ s) = rests as s := by
  induction h with
  | nil => rfl
  | cons hx _ ih => simpa [rests, Atom.rests, hx] using ih

theorem mem_rests_ones : t ∈ rests (classes.map .one ++ as) s ↔
    ∃ q r, Spells classes q ∧ s = q ++ r ∧ t ∈ rests as r := by
  constructor
  · intro h
    induction classes generalizing s with
    | nil => exact ⟨[], s, List.Forall₂.nil, rfl, h⟩
    | cons p classes ih =>
      cases s with
      | nil => simp at h
      | cons x xs =>
        by_cases hx : p x = true
        · simp only [List.map_cons, List.cons_append, rests, Atom.rests, hx, if_true,
            List.flatMap_cons, List.flatMap_nil, List.append_nil] at h
          obtain ⟨q, r, hq, rfl, ht⟩ := ih h
          exact ⟨x :: q, r, List.Forall₂.cons hx hq, rfl, ht⟩
        · simp [rests, Atom.rests, hx] at h
  · rintro ⟨q, r, hq, rfl, ht⟩
    rwa [rests_ones_of_spells hq]

theorem suffix_of_mem_atom_rests {a : Atom α} (h : t ∈ a.rests s) : t <:+ s := by
  cases a with
  | one p =>
    cases s with
    | nil => simp [Atom.rests] at h
    | cons x xs =>
      by_cases hx : p x = true
      · obtain rfl : t = xs := by simpa [Atom.rests, hx] using h
        exact List.suffix_cons _ _
      · simp [Atom.rests, hx] at h
  | plus p =>
    obtain ⟨u, -, -, rfl⟩ := mem_plus_rests.1 h
    exact List.suffix_append _ _

theorem suffix_of_mem_rests (h : t ∈ rests as s) : t <:+ s := by
  induction as generalizing s with
  | nil =>
    obtain rfl := List.mem_singleton.1 h
    exact List.suffix_rfl
  | cons a as ih =>
    obtain ⟨r, hr, ht⟩ := List.mem_flatMap.1 h
    exact (ih ht).trans (suffix_of_mem_atom_rests hr)

/-- The match reported for a greedy run is the longest run after which the rest of the pattern
matches. -/
theorem head?_rests_plus_of_longest {r : List α} (hu : u ≠ []) (hall : ∀ x ∈ u, p x = true)
    (hr : (rests as t).head? = some r)
    (hlongest : ∀ v w, v ≠ [] → t = v ++ w → (∀ x ∈ v, p x = true) → rests as w = []) :
    (rests (.plus p :: as) (u ++ t)).head? = some r := by
  induction u with
  | nil => exact absurd rfl hu
  | cons x u ih =>
    have hx : p x = true := hall x List.mem_cons_self
    have hsplit : rests (.plus p :: as) (x :: u ++ t) =
        rests (.plus p :: as) (u ++ t) ++ rests as (u ++ t) := by
      simp [rests, Atom.rests, hx]
    rw [hsplit]
    by_cases hnil : u = []
    · subst hnil
      -- a longer run leaves a text on which the rest of the pattern fails
      have hnone : rests (.plus p :: as) t = [] := by
        refine List.eq_nil_iff_forall_not_mem.2 fun t' ht' => ?_
        obtain ⟨v, w, hv, hvall, hvw, hmem⟩ := mem_rests_plus.1 ht'
        rw [hlongest v w hv hvw hvall] at hmem
        exact List.not_mem_nil hmem
      rw [List.nil_append, hnone, List.nil_append, hr]
    · have hhead := ih hnil fun y hy => hall y (List.mem_cons_of_mem _ hy)
      rw [List.head?_append, hhead, Option.some_or]

/-- A run at the end of the pattern takes all it can. -/
theorem head?_rests_plus (hu : u ≠ []) (hall : ∀ x ∈ u, p x = true)
    (hstop : ∀ x ∈ t.head?, p x = false) :
    (rests [.plus p] (u ++ t)).head? = some t := by
  refine head?_rests_plus_of_longest (t := t) hu hall rfl ?_
  rintro (_ | ⟨x, v⟩) w hv rfl hvall
  · exact absurd rfl hv
  · have hx := hvall x List.mem_cons_self
    rw [hstop x rfl] at hx
    exact absurd hx Bool.false_ne_true

end Atoms

section Remove

variable {pat : List (Atom α)} {s t u : List α}

theorem removeFrom_eq_drop (skip : Nat) (s : List α) :
    removeFrom pat skip s = removeAll pat (s.drop skip) := by
  induction skip generalizing s with
  | zero => rfl
  | succ skip ih =>
    cases s with
    | nil => rfl
    | cons x xs => exact ih xs

@[simp] theorem removeAll_nil : removeAll pat [] = [] := rfl

theorem removeAll_cons_of_rests_eq_nil {x : α} (h : rests pat (x :: s) = []) :
    removeAll pat (x :: s) = x :: removeAll pat s := by
  simp [removeAll, removeFrom, h]

/-- The match reported at the start of the text is removed. -/
theorem removeAll_of_match (h : (rests pat s).head? = some t) (hlt : t.length < s.length) :
    removeAll pat s = removeAll pat t := by
  cases s with
  | nil => simp at hlt
  | cons x xs =>
    have hle : t.length ≤ xs.length := by simpa [Nat.lt_succ_iff] using hlt
    obtain ⟨w, hw⟩ := suffix_of_mem_rests (List.mem_of_head? h)
    obtain ⟨y, w, rfl⟩ : ∃ y w', w = y :: w' := by
      refine List.exists_cons_of_ne_nil ?_
      rintro rfl
      rw [List.nil_append] at hw
      rw [hw] at hlt
      exact Nat.lt_irrefl _ hlt
    obtain ⟨-, hxs⟩ := List.cons.inj hw
    have hdrop : xs.drop (xs.length - t.length) = t := by
      rw [← hxs]
      simp
    rw [removeAll, removeFrom, h]
    simp only [hle, if_true]
    rw [removeFrom_eq_drop, hdrop]

/-- Text in which no match starts is kept. -/
theorem removeAll_append (h : ∀ v w, u = v ++ w → w ≠ [] → rests pat (w ++ t) = []) :
    removeAll pat (u ++ t) = u ++ removeAll pat t := by
  induction u with
  | nil => rfl
  | cons x u ih =>
    have hhead : rests pat (x :: (u ++ t)) = [] := h [] (x :: u) rfl (List.cons_ne_nil _ _)
    rw [List.cons_append, removeAll_cons_of_rests_eq_nil hhead,
      ih fun v w hvw hw => h (x :: v) w (by rw [hvw, List.cons_append]) hw, List.cons_append]

end Remove

end ElfHook.Lib

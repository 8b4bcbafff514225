import Mathlib.Data.List.MinMax

/-!
# Linear search

The first element with a property, and the one with the least key. In a list that is sorted by the
key they are the same.

* `findSome?_eq_map_find?`: a loop that returns a value at the first element that passes a test.
* `find?_eq_lowest`: in a sorted list the first element that passes is the lowest one.
* `map_lowest_getD_eq_iff`: when the least key of the elements that pass is a given lower bound.
-/

namespace ElfHook.Lib

variable {α β : Type*}

theorem findSome?_eq_map_find? {f : α → Option β} {g : α → β} {p : α → Prop} [DecidablePred p]
    {xs : List α} (h : ∀ x ∈ xs, f x = if p x then some (g x) else none) :
    xs.findSome? f = (xs.find? p).map g := by
  induction xs with
  | nil => rfl
  | cons x xs ih =>
    have hrest := ih fun y hy => h y (List.mem_cons_of_mem _ hy)
    rw [List.findSome?_cons, List.find?_cons, h x List.mem_cons_self]
    by_cases hp : p x
    · simp [hp]
    · simpa [hp] using hrest

variable [LinearOrder β]

/-- The first of the elements with `p` whose key is the least. -/
def lowest (key : α → β) (p : α → Prop) [DecidablePred p] (xs : List α) : Option α :=
  (xs.filter p).argmin key

section Lowest

variable {key : α → β} {p q : α → Prop} [DecidablePred p] [DecidablePred q] {xs : List α} {x y : α}
  {b : β}

theorem lowest_congr (h : ∀ x ∈ xs, p x ↔ q x) : lowest key p xs = lowest key q xs := by
  rw [lowest, List.filter_congr fun x hx => decide_eq_decide.2 (h x hx), lowest]

theorem lowest_eq_none : lowest key p xs = none ↔ ∀ x ∈ xs, ¬ p x := by
  simp [lowest]

theorem of_lowest_eq_some (h : lowest key p xs = some x) : x ∈ xs ∧ p x := by
  simpa using List.argmin_mem h

theorem key_le_of_lowest (h : lowest key p xs = some x) (hy : y ∈ xs) (hp : p y) :
    key x ≤ key y :=
  List.le_of_mem_argmin (List.mem_filter.2 ⟨hy, decide_eq_true hp⟩) h

theorem argmin_eq_head? (h : xs.Pairwise fun x y => key x ≤ key y) :
    xs.argmin key = xs.head? := by
  cases xs with
  | nil => rfl
  | cons x xs =>
    rw [List.argmin_cons, List.head?_cons]
    cases hmin : xs.argmin key with
    | none => rfl
    | some y =>
      have hle : key x ≤ key y := List.rel_of_pairwise_cons h (List.argmin_mem hmin)
      exact if_neg hle.not_gt

theorem find?_eq_lowest (h : xs.Pairwise fun x y => key x ≤ key y) :
    xs.find? p = lowest key p xs := by
  rw [lowest, argmin_eq_head? (h.sublist List.filter_sublist), List.head?_filter]

/-- When the least key, or the default without one, is a given lower bound. -/
theorem map_lowest_getD_eq_iff {d : β} (hb : ∀ x ∈ xs, p x → b ≤ key x) :
    ((lowest key p xs).map key).getD d = b ↔
      (∃ x ∈ xs, p x ∧ key x = b) ∨ d = b ∧ ∀ x ∈ xs, ¬ p x := by
  cases hlowest : lowest key p xs with
  | none =>
    have hnone := lowest_eq_none.1 hlowest
    rw [Option.map_none, Option.getD_none]
    constructor
    · exact fun hd => Or.inr ⟨hd, hnone⟩
    · rintro (⟨x, hx, hp, -⟩ | ⟨hd, -⟩)
      · exact absurd hp (hnone x hx)
      · exact hd
  | some x =>
    obtain ⟨hx, hp⟩ := of_lowest_eq_some hlowest
    rw [Option.map_some, Option.getD_some]
    constructor
    · exact fun hkey => Or.inl ⟨x, hx, hp, hkey⟩
    · rintro (⟨y, hy, hpy, rfl⟩ | ⟨-, hnone⟩)
      · exact le_antisymm (key_le_of_lowest hlowest hy hpy) (hb x hx hp)
      · exact absurd hp (hnone x hx)

end Lowest

end ElfHook.Lib

import Mathlib.Data.List.Basic
import Mathlib.Logic.Function.Basic

/-!
# A table that deletes by moving its last entry

The first `size` slots are in use; what the others hold is left over from earlier entries.

* `has_push`, `has_set`, `has_remove`: the entries after each operation, when no two entries share
  a key.
* `distinct_push`, `distinct_set`, `distinct_remove`: no operation makes two entries share a key.
-/

namespace ElfHook.Lib

structure Slots (α : Type*) where
  item : Nat → α
  size : Nat

namespace Slots

variable {α κ : Type*} {T : Slots α} {key : α → κ} {p : α → Bool} {x y : α} {i : Nat}

/-- The entries in use. -/
def Has (T : Slots α) (x : α) : Prop := ∃ i < T.size, T.item i = x

/-- No two entries in use share a key. -/
def Distinct (key : α → κ) (T : Slots α) : Prop :=
  ∀ i < T.size, ∀ j < T.size, key (T.item i) = key (T.item j) → i = j

def push (T : Slots α) (x : α) : Slots α := ⟨Function.update T.item T.size x, T.size + 1⟩

def set (T : Slots α) (i : Nat) (x : α) : Slots α := ⟨Function.update T.item i x, T.size⟩

/-- The last entry takes the place of entry `i`. -/
def remove (T : Slots α) (i : Nat) : Slots α :=
  ⟨Function.update T.item i (T.item (T.size - 1)), T.size - 1⟩

/-- The first entry in use with `p`. -/
def find (p : α → Bool) (T : Slots α) : Option Nat := (List.range T.size).find? fun i => p (T.item i)

theorem item_set (T : Slots α) (i j : Nat) (x : α) :
    (T.set i x).item j = if j = i then x else T.item j := Function.update_apply _ _ _ _

@[simp] theorem size_set (T : Slots α) (i : Nat) (x : α) : (T.set i x).size = T.size := rfl

@[simp] theorem size_remove (T : Slots α) (i : Nat) : (T.remove i).size = T.size - 1 := rfl

theorem has_item (hi : i < T.size) : T.Has (T.item i) := ⟨i, hi, rfl⟩

theorem of_find_eq_some (h : T.find p = some i) : i < T.size ∧ p (T.item i) = true :=
  by
  have hp := List.find?_some h
  exact ⟨List.mem_range.1 (List.mem_of_find?_eq_some h), hp⟩

theorem find_eq_none : T.find p = none ↔ ∀ x, T.Has x → p x = false := by
  constructor
  · rintro h x ⟨i, hi, rfl⟩
    have hnot := List.find?_eq_none.1 h i (List.mem_range.2 hi)
    simpa using hnot
  · intro h
    refine List.find?_eq_none.2 fun i hi => ?_
    rw [h _ (has_item (List.mem_range.1 hi))]
    exact Bool.false_ne_true

theorem Distinct.eq (hd : T.Distinct key) (hx : T.Has x) (hy : T.Has y) (h : key x = key y) :
    x = y := by
  obtain ⟨i, hi, rfl⟩ := hx
  obtain ⟨j, hj, rfl⟩ := hy
  rw [hd i hi j hj h]

/-! ### The entries after an operation -/

theorem has_push : (T.push x).Has y ↔ T.Has y ∨ y = x := by
  constructor
  · rintro ⟨j, hj, rfl⟩
    by_cases hlast : j = T.size
    · subst hlast
      exact .inr (Function.update_self _ _ _)
    · have hlt : j < T.size := Nat.lt_of_le_of_ne (Nat.le_of_lt_succ hj) hlast
      exact .inl ⟨j, hlt, (Function.update_of_ne hlast _ _).symm⟩
  · rintro (⟨j, hj, rfl⟩ | rfl)
    · exact ⟨j, Nat.lt_succ_of_lt hj, Function.update_of_ne (Nat.ne_of_lt hj) _ _⟩
    · exact ⟨T.size, Nat.lt_succ_self _, Function.update_self _ _ _⟩

theorem has_set (hd : T.Distinct key) (hi : i < T.size) :
    (T.set i x).Has y ↔ y = x ∨ T.Has y ∧ key y ≠ key (T.item i) := by
  constructor
  · rintro ⟨j, hj, rfl⟩
    by_cases hij : j = i
    · subst hij
      exact .inl (Function.update_self _ _ _)
    · have hsame : (T.set i x).item j = T.item j := Function.update_of_ne hij _ _
      rw [hsame]
      exact .inr ⟨has_item hj, fun hkey => hij (hd j hj i hi hkey)⟩
  · rintro (rfl | ⟨⟨j, hj, rfl⟩, hkey⟩)
    · exact ⟨i, hi, Function.update_self _ _ _⟩
    · have hij : j ≠ i := fun h => hkey (by rw [h])
      exact ⟨j, hj, Function.update_of_ne hij _ _⟩

theorem item_remove (T : Slots α) (i j : Nat) :
    (T.remove i).item j = if j = i then T.item (T.size - 1) else T.item j :=
  Function.update_apply _ _ _ _

theorem has_remove (hd : T.Distinct key) (hi : i < T.size) :
    (T.remove i).Has y ↔ T.Has y ∧ key y ≠ key (T.item i) := by
  constructor
  · rintro ⟨j, hj, rfl⟩
    have hj' : j < T.size - 1 := hj
    rw [item_remove]
    split_ifs with hij
    · have hlast : T.size - 1 < T.size := by omega
      refine ⟨has_item hlast, fun hkey => ?_⟩
      have := hd _ hlast i hi hkey
      omega
    · have hlt : j < T.size := by omega
      exact ⟨has_item hlt, fun hkey => hij (hd j hlt i hi hkey)⟩
  · rintro ⟨⟨j, hj, rfl⟩, hkey⟩
    have hij : j ≠ i := fun h => hkey (by rw [h])
    by_cases hlast : j = T.size - 1
    · -- the last entry is now in slot `i`
      have hi' : i < T.size - 1 := by omega
      refine ⟨i, hi', ?_⟩
      rw [item_remove, if_pos rfl, hlast]
    · have hj' : j < T.size - 1 := by omega
      refine ⟨j, hj', ?_⟩
      rw [item_remove, if_neg hij]

/-! ### Keys -/

theorem distinct_push (hd : T.Distinct key) (hnew : ∀ y, T.Has y → key y ≠ key x) :
    (T.push x).Distinct key := by
  have hlast : (T.push x).item T.size = x := Function.update_self _ _ _
  have hitem : ∀ j, j < T.size → (T.push x).item j = T.item j :=
    fun j hj => Function.update_of_ne (Nat.ne_of_lt hj) _ _
  intro i hi j hj hkey
  have hi' : i < T.size ∨ i = T.size := Nat.lt_succ_iff_lt_or_eq.1 hi
  have hj' : j < T.size ∨ j = T.size := Nat.lt_succ_iff_lt_or_eq.1 hj
  rcases hi' with hi' | rfl <;> rcases hj' with hj' | rfl
  · rw [hitem i hi', hitem j hj'] at hkey
    exact hd i hi' j hj' hkey
  · rw [hitem i hi', hlast] at hkey
    exact absurd hkey (hnew _ (has_item hi'))
  · rw [hitem j hj', hlast] at hkey
    exact absurd hkey.symm (hnew _ (has_item hj'))
  · rfl

theorem distinct_set (hd : T.Distinct key) (hkey : key x = key (T.item i)) :
    (T.set i x).Distinct key := by
  have hsame : ∀ j, key ((T.set i x).item j) = key (T.item j) := by
    intro j
    by_cases hij : j = i
    · subst hij
      rw [← hkey]
      exact congrArg key (Function.update_self _ _ _)
    · exact congrArg key (Function.update_of_ne hij _ _)
  intro j hj k hk h
  rw [hsame, hsame] at h
  exact hd j hj k hk h

theorem distinct_remove (hd : T.Distinct key) (hi : i < T.size) : (T.remove i).Distinct key := by
  intro j hj k hk h
  have hj' : j < T.size - 1 := hj
  have hk' : k < T.size - 1 := hk
  rw [item_remove, item_remove] at h
  split_ifs at h with hji hki hki
  · rw [hji, hki]
  · have := hd _ (by omega) _ (by omega) h
    omega
  · have := hd _ (by omega) _ (by omega) h
    omega
  · exact hd _ (by omega) _ (by omega) h

end Slots

end ElfHook.Lib

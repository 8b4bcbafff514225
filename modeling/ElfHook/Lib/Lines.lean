import Mathlib.Data.List.Basic

/-!
# Texts as sequences of terminated lines

A line ends with the terminator and has no other. A text made of lines determines them.
-/

namespace ElfHook.Lib

variable {α : Type*} {e : α}

/-- One line, with its terminator. -/
def Terminated (e : α) (l : List α) : Prop :=
  ∃ x, l = x ++ [e] ∧ e ∉ x

theorem Terminated.ne_nil {l : List α} (h : Terminated e l) : l ≠ [] := by
  obtain ⟨x, rfl, -⟩ := h
  simp

theorem eq_of_append_terminator_eq {x y s t : List α} (hx : e ∉ x) (hy : e ∉ y)
    (h : x ++ e :: s = y ++ e :: t) : x = y ∧ s = t := by
  induction x generalizing y with
  | nil =>
    cases y with
    | nil => exact ⟨rfl, (List.cons.inj h).2⟩
    | cons b y => exact absurd ((List.cons.inj h).1 ▸ List.mem_cons_self) hy
  | cons a x ih =>
    cases y with
    | nil => exact absurd ((List.cons.inj h).1 ▸ List.mem_cons_self) hx
    | cons b y =>
      obtain ⟨rfl, hrest⟩ := List.cons.inj h
      obtain ⟨rfl, hst⟩ := ih (fun hm => hx (List.mem_cons_of_mem _ hm))
        (fun hm => hy (List.mem_cons_of_mem _ hm)) hrest
      exact ⟨rfl, hst⟩

theorem eq_of_flatten_eq {xs ys : List (List α)} (hxs : ∀ x ∈ xs, Terminated e x)
    (hys : ∀ y ∈ ys, Terminated e y) (h : xs.flatten = ys.flatten) : xs = ys := by
  induction xs generalizing ys with
  | nil =>
    cases ys with
    | nil => rfl
    | cons y ys =>
      have hy := (hys y List.mem_cons_self).ne_nil
      exact absurd (List.append_eq_nil_iff.1 h.symm).1 hy
  | cons x xs ih =>
    cases ys with
    | nil =>
      have hx := (hxs x List.mem_cons_self).ne_nil
      exact absurd (List.append_eq_nil_iff.1 h).1 hx
    | cons y ys =>
      obtain ⟨a, rfl, ha⟩ := hxs x List.mem_cons_self
      obtain ⟨b, rfl, hb⟩ := hys y List.mem_cons_self
      simp only [List.flatten_cons, List.append_assoc, List.singleton_append] at h
      obtain ⟨rfl, hrest⟩ := eq_of_append_terminator_eq ha hb h
      rw [ih (fun x hx => hxs x (List.mem_cons_of_mem _ hx))
        (fun y hy => hys y (List.mem_cons_of_mem _ hy)) hrest]

end ElfHook.Lib

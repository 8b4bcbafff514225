import Mathlib.Data.Finset.Card
import Mathlib.Data.Nat.Find
import Mathlib.Logic.Function.Iterate

/-!
# Walking a chain of links

Each element links to the next one; a walk ends at the first element with a property, or where the
chain stops.

* `chase_eq_some_iff`: what a walk of so many rounds finds.
* `lt_card_of_first`: an element is first met before as many steps as there are elements.
* `chase_isSome_of_reach`: so that many rounds reach everything on the chain.
-/

namespace ElfHook.Lib

variable {α : Type*} (f : α → α) (stop p : α → Prop) [DecidablePred stop] [DecidablePred p]

def chase : Nat → α → Option α
  | 0, _ => none
  | rounds + 1, x =>
    if stop x then none else if p x then some x else chase rounds (f x)

/-- `y` is on the chain from `x`, and the chain does not stop before or at it. -/
def OnChain (x y : α) : Prop :=
  ∃ k, f^[k] x = y ∧ ∀ j ≤ k, ¬ stop (f^[j] x)

variable {f stop p} {x y : α} {rounds : Nat}

omit [DecidablePred stop] in
theorem OnChain.step (hx : ¬ stop x) (h : OnChain f stop (f x) y) : OnChain f stop x y := by
  obtain ⟨k, hk, hgo⟩ := h
  refine ⟨k + 1, hk, fun j hj => ?_⟩
  cases j with
  | zero => exact hx
  | succ j => exact hgo j (Nat.le_of_succ_le_succ hj)

theorem chase_spec (h : chase f stop p rounds x = some y) : OnChain f stop x y ∧ p y := by
  induction rounds generalizing x with
  | zero => cases h
  | succ rounds ih =>
    rw [chase] at h
    split_ifs at h with hstop hp
    · cases h
      exact ⟨⟨0, rfl, fun j hj => by rwa [Nat.le_zero.1 hj]⟩, hp⟩
    · obtain ⟨hchain, hy⟩ := ih h
      exact ⟨hchain.step hstop, hy⟩

theorem chase_isSome {k : Nat} (hk : k < rounds) (hgo : ∀ j ≤ k, ¬ stop (f^[j] x))
    (hp : p (f^[k] x)) : (chase f stop p rounds x).isSome := by
  induction rounds generalizing x k with
  | zero => exact absurd hk (Nat.not_lt_zero k)
  | succ rounds ih =>
    have hx : ¬ stop x := hgo 0 (Nat.zero_le k)
    rw [chase, if_neg hx]
    split_ifs with hpx
    · rfl
    · cases k with
      | zero => exact absurd hp hpx
      | succ k =>
        exact ih (Nat.lt_of_succ_lt_succ hk) (fun j hj => hgo (j + 1) (Nat.succ_le_succ hj)) hp

/-- Up to where an element is met for the first time, no element is met twice. -/
theorem injOn_iterate {k : Nat} (h : ∀ j < k, f^[j] x ≠ f^[k] x) :
    Set.InjOn (fun j => f^[j] x) (Set.Iic k) := by
  have hlt {a b : Nat} (hab : a < b) (hb : b ≤ k) : f^[a] x ≠ f^[b] x := by
    intro heq
    apply h (k - b + a) (by omega)
    calc f^[k - b + a] x = f^[k - b] (f^[a] x) := Function.iterate_add_apply f _ _ x
      _ = f^[k - b] (f^[b] x) := by rw [heq]
      _ = f^[k] x := by rw [← Function.iterate_add_apply, Nat.sub_add_cancel hb]
  intro a ha b hb heq
  rcases lt_trichotomy a b with hab | hab | hab
  · exact absurd heq (hlt hab hb)
  · exact hab
  · exact absurd heq.symm (hlt hab ha)

theorem lt_card_of_first {s : Finset α} {k : Nat} (h : ∀ j < k, f^[j] x ≠ f^[k] x)
    (hs : ∀ j ≤ k, f^[j] x ∈ s) : k < s.card := by
  have hinj : Set.InjOn (fun j => f^[j] x) (Finset.range (k + 1)) := by
    intro a ha b hb
    exact injOn_iterate h (Nat.lt_succ_iff.1 (Finset.mem_range.1 ha))
      (Nat.lt_succ_iff.1 (Finset.mem_range.1 hb))
  have hmem (j : Nat) (hj : j ∈ Finset.range (k + 1)) : f^[j] x ∈ s :=
    hs j (Nat.lt_succ_iff.1 (Finset.mem_range.1 hj))
  have hle : (Finset.range (k + 1)).card ≤ s.card := Finset.card_le_card_of_injOn _ hmem hinj
  rw [Finset.card_range] at hle
  exact hle

/-- As many rounds as there are elements before the stop find whatever is on the chain. -/
theorem chase_isSome_of_onChain {s : Finset α} (hs : ∀ y, OnChain f stop x y → y ∈ s)
    (hy : OnChain f stop x y) (hp : p y) (hrounds : s.card ≤ rounds) :
    (chase f stop p rounds x).isSome := by
  classical
  obtain ⟨k, hk, hgo⟩ := hy
  have hex : ∃ k, f^[k] x = y := ⟨k, hk⟩
  have hfirst := Nat.find_spec hex
  have hle : Nat.find hex ≤ k := Nat.find_le hk
  have hgo' (j : Nat) (hj : j ≤ Nat.find hex) : ¬ stop (f^[j] x) := hgo j (hj.trans hle)
  have hlt : Nat.find hex < s.card := by
    apply lt_card_of_first (f := f) (x := x)
    · intro j hj
      rw [hfirst]
      exact Nat.find_min hex hj
    · intro j hj
      exact hs _ ⟨j, rfl, fun i hi => hgo' i (hi.trans hj)⟩
  exact chase_isSome (hlt.trans_le hrounds) hgo' (by rwa [hfirst])

end ElfHook.Lib

import Mathlib.Logic.Function.Basic
import Mathlib.Data.List.Induction

/-!
# Redirecting memory cells

Memory is a function from cells to values. A redirection makes one cell hold a target and, unless
the cell holds it already, first saves what the cell held in another cell. The save cell may be any
cell, the redirected one included, so the order of redirections matters.

* `applyAll_frame`, `applyAll_holds`: what a list of redirections leaves alone, and what it settles.
* `applyAll_settles`: a cell that other redirections save in holds `v` at the end, when each of them is
  followed by a redirection of the cell to `v`.
* `applyAll_save`: redirections that all go to one target and all save in one cell `o`. If every cell
  named and `o` start with the value `f`, then `o` ends with `f`, unless `o` is itself redirected and
  no cell is redirected for the first time after that (`Repaired`).
-/

namespace ElfHook.Lib

variable {α β : Type*} [DecidableEq α] [DecidableEq β]

/-- Redirect `cell` to `target`, saving its old value in `save`. -/
structure Redirect (α β : Type*) where
  cell : α
  target : β
  save : Option α

namespace Redirect

/-- Put the value in the save cell, if there is one. -/
def keep (m : α → β) (save : Option α) (v : β) : α → β :=
  save.elim m fun o => Function.update m o v

def apply (m : α → β) (op : Redirect α β) : α → β :=
  if m op.cell = op.target then m
  else Function.update (keep m op.save (m op.cell)) op.cell op.target

def applyAll (m : α → β) (ops : List (Redirect α β)) : α → β :=
  ops.foldl apply m

variable {m : α → β} {op : Redirect α β} {ops : List (Redirect α β)} {c : α}

@[simp] theorem applyAll_nil : applyAll m [] = m := rfl

@[simp] theorem applyAll_cons : applyAll m (op :: ops) = applyAll (apply m op) ops := rfl

theorem applyAll_append (l r : List (Redirect α β)) :
    applyAll m (l ++ r) = applyAll (applyAll m l) r :=
  List.foldl_append

omit [DecidableEq β] in
theorem keep_ne {save : Option α} {v : β} (h : save ≠ some c) : keep m save v c = m c := by
  cases save with
  | none => rfl
  | some o => exact Function.update_of_ne (fun hc => h (congrArg some hc.symm)) _ _

theorem apply_cell : apply m op op.cell = op.target := by
  unfold apply
  split
  · assumption
  · exact Function.update_self _ _ _

theorem apply_frame (hcell : op.cell ≠ c) (hsave : op.save ≠ some c) : apply m op c = m c := by
  unfold apply
  split
  · rfl
  · rw [Function.update_of_ne (Ne.symm hcell), keep_ne hsave]

/-- Cells that are neither redirected nor saved to keep their value. -/
theorem applyAll_frame (h : ∀ op ∈ ops, op.cell ≠ c ∧ op.save ≠ some c) : applyAll m ops c = m c := by
  induction ops generalizing m with
  | nil => rfl
  | cons op ops ih =>
    have hop := h op List.mem_cons_self
    rw [applyAll_cons, ih fun op' hop' => h op' (List.mem_cons_of_mem _ hop'),
      apply_frame hop.1 hop.2]

/-- A cell that is only redirected to `v` and never saved to holds `v` afterwards, if it is
redirected at all or held `v` before. -/
theorem applyAll_holds {v : β} (htarget : ∀ op ∈ ops, op.cell = c → op.target = v)
    (hsave : ∀ op ∈ ops, op.save ≠ some c) (h : m c = v ∨ ∃ op ∈ ops, op.cell = c) :
    applyAll m ops c = v := by
  induction ops generalizing m with
  | nil =>
    rcases h with h | ⟨op, hop, _⟩
    · exact h
    · simp at hop
  | cons op ops ih =>
    rw [applyAll_cons]
    refine ih (fun op' h' => htarget op' (List.mem_cons_of_mem _ h'))
      (fun op' h' => hsave op' (List.mem_cons_of_mem _ h')) ?_
    by_cases hc : op.cell = c
    · left
      rw [← htarget op List.mem_cons_self hc, ← hc]
      exact apply_cell
    · rcases h with h | ⟨op', hmem, hc'⟩
      · left
        rw [apply_frame hc (hsave op List.mem_cons_self), h]
      · rcases List.mem_cons.mp hmem with rfl | hmem
        · exact absurd hc' hc
        · exact Or.inr ⟨op', hmem, hc'⟩

/-! ### Cells with a second use -/

/-- The redirection puts something else than `v` in `c`, unless it is skipped. -/
def Disturbs (op : Redirect α β) (c : α) (v : β) : Prop :=
  (op.cell = c ∧ op.target ≠ v) ∨ (op.cell ≠ c ∧ op.save = some c)

/-- Whatever disturbs `c` is followed by a redirection of `c` to `v`. -/
def Settles (c : α) (v : β) : List (Redirect α β) → Prop
  | [] => True
  | op :: ops => (op.Disturbs c v → ∃ op' ∈ ops, op'.cell = c ∧ op'.target = v) ∧ Settles c v ops

instance (op : Redirect α β) (c : α) (v : β) : Decidable (op.Disturbs c v) := by
  unfold Disturbs
  infer_instance

instance Settles.decidable (c : α) (v : β) :
    (ops : List (Redirect α β)) → Decidable (Settles c v ops)
  | [] => .isTrue trivial
  | _ :: ops =>
    have := Settles.decidable c v ops
    inferInstanceAs (Decidable (_ ∧ _))

theorem apply_of_not_disturbs {v : β} (h : ¬ op.Disturbs c v) (hc : m c = v ∨ op.cell = c) :
    apply m op c = v := by
  obtain ⟨htarget, hsave⟩ := not_or.1 h
  by_cases hcell : op.cell = c
  · have htarget' : op.target = v := not_not.1 fun hne => htarget ⟨hcell, hne⟩
    rw [← htarget', ← hcell]
    exact apply_cell
  · rw [apply_frame hcell fun heq => hsave ⟨hcell, heq⟩]
    exact hc.resolve_right hcell

theorem applyAll_settles {v : β} (h : Settles c v ops)
    (hc : m c = v ∨ ∃ op ∈ ops, op.cell = c ∧ op.target = v) : applyAll m ops c = v := by
  induction ops generalizing m with
  | nil =>
    rcases hc with hc | ⟨op, hop, -⟩
    · exact hc
    · exact absurd hop List.not_mem_nil
  | cons op ops ih =>
    obtain ⟨hhead, hrest⟩ := h
    rw [applyAll_cons]
    refine ih hrest ?_
    by_cases hdisturbs : op.Disturbs c v
    · exact .inr (hhead hdisturbs)
    · rcases hc with hc | ⟨op', hop', hcell, htarget⟩
      · exact .inl (apply_of_not_disturbs hdisturbs (.inl hc))
      · rcases List.mem_cons.1 hop' with rfl | hop'
        · exact .inl (apply_of_not_disturbs hdisturbs (.inr hcell))
        · exact .inr ⟨op', hop', hcell, htarget⟩

/-! ### One target, one save cell -/

/-- The redirections of the cells `ws` to `t`, all saving in `o`. -/
def toward (t : β) (o : α) (ws : List α) : List (Redirect α β) :=
  ws.map fun c => ⟨c, t, some o⟩

/-- Some cell other than `o` is named for the first time, and `o` is not named after it. -/
def Repaired (o : α) (ws : List α) : Prop :=
  ∃ pre c post, ws = pre ++ c :: post ∧ c ≠ o ∧ c ∉ pre ∧ o ∉ post

omit [DecidableEq α] in
theorem not_repaired_concat_self (o : α) (ws : List α) : ¬ Repaired o (ws ++ [o]) := by
  rintro ⟨pre, c, post, h, hne, _, hpost⟩
  rcases List.eq_nil_or_concat post with rfl | ⟨post, d, rfl⟩
  · obtain ⟨_, hc⟩ := List.append_inj' h rfl
    exact hne (List.head_eq_of_cons_eq hc).symm
  · have hlast := congrArg List.getLast? h
    simp only [List.getLast?_append, List.getLast?_cons, List.getLast?_nil,
      List.concat_eq_append] at hlast
    simp only [List.concat_eq_append, List.mem_append, List.mem_singleton, not_or] at hpost
    simp at hlast
    exact hpost.2 hlast

omit [DecidableEq α] in
theorem repaired_concat_of_mem {o c : α} {ws : List α} (hc : c ≠ o) (hmem : c ∈ ws) :
    Repaired o (ws ++ [c]) ↔ Repaired o ws := by
  constructor
  · rintro ⟨pre, d, post, h, hne, hpre, hpost⟩
    rcases List.eq_nil_or_concat post with rfl | ⟨post, e, rfl⟩
    · obtain ⟨rfl, hd⟩ := List.append_inj' h rfl
      exact absurd (List.head_eq_of_cons_eq hd ▸ hmem) hpre
    · have h' : ws ++ [c] = (pre ++ d :: post) ++ [e] := by
        rw [h]
        simp
      obtain ⟨rfl, _⟩ := List.append_inj' h' rfl
      refine ⟨pre, d, post, rfl, hne, hpre, fun ho => hpost ?_⟩
      simp [ho]
  · rintro ⟨pre, d, post, rfl, hne, hpre, hpost⟩
    refine ⟨pre, d, post ++ [c], by simp, hne, hpre, ?_⟩
    simp [hpost, Ne.symm hc]

omit [DecidableEq α] in
theorem repaired_concat_of_not_mem {o c : α} {ws : List α} (hc : c ≠ o) (hmem : c ∉ ws) :
    Repaired o (ws ++ [c]) :=
  ⟨ws, c, [], rfl, hc, hmem, by simp⟩

theorem toward_concat (t : β) (o c : α) (ws : List α) :
    applyAll m (toward t o (ws ++ [c])) = apply (applyAll m (toward t o ws)) ⟨c, t, some o⟩ := by
  rw [toward, List.map_append, applyAll_append]
  rfl

/-- The cells named, other than the save cell, all end at the target. -/
theorem applyAll_toward_cell {t : β} {o c : α} {ws : List α} (hc : c ≠ o) (hmem : c ∈ ws) :
    applyAll m (toward t o ws) c = t := by
  refine applyAll_holds ?_ ?_ (Or.inr ⟨_, List.mem_map.2 ⟨c, hmem, rfl⟩, rfl⟩)
  · intro op hop _
    obtain ⟨_, _, rfl⟩ := List.mem_map.1 hop
    rfl
  · intro op hop
    obtain ⟨_, _, rfl⟩ := List.mem_map.1 hop
    exact fun h => hc (Option.some.inj h).symm

/-- The cells not named, other than the save cell, keep their value. -/
theorem applyAll_toward_frame {t : β} {o c : α} {ws : List α} (hc : c ≠ o) (hmem : c ∉ ws) :
    applyAll m (toward t o ws) c = m c := by
  refine applyAll_frame fun op hop => ?_
  obtain ⟨d, hd, rfl⟩ := List.mem_map.1 hop
  exact ⟨fun h => hmem (h ▸ hd), fun h => hc (Option.some.inj h).symm⟩

/-- **The saved value.** Redirect cells that all hold `f`, saving in a cell that holds `f` too: the
save cell ends with `f`, or with the target if it was redirected itself and not repaired. -/
theorem applyAll_save {t f : β} {o : α} {ws : List α} (hft : f ≠ t)
    (hcells : ∀ c ∈ ws, m c = f) (ho : m o = f) :
    (applyAll m (toward t o ws) o = f ∧ (o ∈ ws → Repaired o ws)) ∨
      (applyAll m (toward t o ws) o = t ∧ o ∈ ws ∧ ¬ Repaired o ws) := by
  induction ws using List.reverseRecOn with
  | nil => exact Or.inl ⟨ho, by simp⟩
  | append_singleton ws c ih =>
    have ih := ih fun d hd => hcells d (List.mem_append_left _ hd)
    rw [toward_concat]
    by_cases hc : c = o
    · -- the save cell itself: whatever was saved is overwritten by the target
      subst hc
      exact Or.inr ⟨apply_cell, by simp, not_repaired_concat_self c ws⟩
    · by_cases hmem : c ∈ ws
      · -- a cell redirected before is skipped
        have hskip : applyAll m (toward t o ws) c = t := applyAll_toward_cell hc hmem
        have hsame : apply (applyAll m (toward t o ws)) ⟨c, t, some o⟩ = applyAll m (toward t o ws) :=
          if_pos hskip
        rw [hsame, repaired_concat_of_mem hc hmem]
        simpa [Ne.symm hc] using ih
      · -- a fresh cell still holds `f`, and saving it repairs the save cell
        have hfresh : applyAll m (toward t o ws) c = f := by
          rw [applyAll_toward_frame hc hmem]
          exact hcells c (by simp)
        left
        refine ⟨?_, fun _ => repaired_concat_of_not_mem hc hmem⟩
        have hne : ¬ applyAll m (toward t o ws) c = t := by rw [hfresh]; exact hft
        rw [apply, if_neg hne, Function.update_of_ne (Ne.symm hc)]
        exact (Function.update_self _ _ _).trans hfresh

end Redirect

end ElfHook.Lib

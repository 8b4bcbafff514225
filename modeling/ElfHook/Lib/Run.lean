import Mathlib.Logic.Basic
import Mathlib.Data.List.Basic

/-!
# Runs of a labelled partial step function

`step s e` is the state after event `e`, or `none` when `e` is not enabled in `s`. A run is a
list of events, all enabled; `Along step P s es` says that `P` holds of every pair of a state and
the event taken there. Both are closed under prefixes, so a statement about the last state of
every run is a statement about every state of every run.

* `run_invariant`: what each step keeps, under the condition `P` on the step, a run keeps.
* `along_of_invariant`: a property of steps that follows from an invariant holds along a run;
  `along_iff_of_invariant` is the same for equivalences.
* `run_countP_le`: a measure bounds how often steps of one kind are taken.
* `run_simulation`: a relation that each step keeps, the abstract side answering with any number of
  events, relates whole runs; `run_trace_iff` fixes the answers and says when there are any.
-/

namespace ElfHook.Lib

variable {σ ε τ κ : Type*}

/-- The state after the events, if all are enabled one after the other. -/
def run (step : σ → ε → Option σ) : σ → List ε → Option σ
  | s, [] => some s
  | s, e :: es => (step s e).bind fun t => run step t es

/-- Every step taken satisfies `P` (of the state before it and its event). -/
def Along (step : σ → ε → Option σ) (P : σ → ε → Prop) : σ → List ε → Prop
  | _, [] => True
  | s, e :: es => P s e ∧ ∀ t, step s e = some t → Along step P t es

variable {step : σ → ε → Option σ} {P Q : σ → ε → Prop} {s t u : σ} {e : ε} {es fs : List ε}

@[simp] theorem run_nil : run step s [] = some s := rfl

theorem run_cons : run step s (e :: es) = (step s e).bind fun t => run step t es := rfl

theorem run_cons_eq_some :
    run step s (e :: es) = some u ↔ ∃ t, step s e = some t ∧ run step t es = some u := by
  rw [run_cons, Option.bind_eq_some_iff]

theorem run_append : run step s (es ++ fs) = (run step s es).bind fun t => run step t fs := by
  induction es generalizing s with
  | nil => rfl
  | cons e es ih =>
    rw [List.cons_append, run_cons, run_cons, Option.bind_assoc]
    congr 1
    funext t
    exact ih

theorem run_append_eq_some :
    run step s (es ++ fs) = some u ↔ ∃ t, run step s es = some t ∧ run step t fs = some u := by
  rw [run_append, Option.bind_eq_some_iff]

theorem run_singleton : run step s [e] = step s e := by
  rw [run_cons]
  cases step s e <;> rfl

@[simp] theorem along_nil : Along step P s [] := trivial

theorem along_cons :
    Along step P s (e :: es) ↔ P s e ∧ ∀ t, step s e = some t → Along step P t es :=
  Iff.rfl

theorem along_cons_of_eq_some (ht : step s e = some t) :
    Along step P s (e :: es) ↔ P s e ∧ Along step P t es := by
  simp [along_cons, ht]

theorem along_cons_of_eq_none (hnone : step s e = none) : Along step P s (e :: es) ↔ P s e := by
  simp [along_cons, hnone]

instance Along.decidable [∀ s e, Decidable (P s e)] :
    (s : σ) → (es : List ε) → Decidable (Along step P s es)
  | _, [] => .isTrue trivial
  | s, e :: es =>
    match hstep : step s e with
    | none => decidable_of_iff _ (along_cons_of_eq_none hstep).symm
    | some t =>
      have := Along.decidable t es
      decidable_of_iff _ (along_cons_of_eq_some hstep).symm

theorem along_append (hrun : run step s es = some t) :
    Along step P s (es ++ fs) ↔ Along step P s es ∧ Along step P t fs := by
  induction es generalizing s with
  | nil =>
    cases hrun
    simp
  | cons e es ih =>
    obtain ⟨u, hu, hrest⟩ := run_cons_eq_some.1 hrun
    simp only [List.cons_append, along_cons, hu, Option.some.injEq, forall_eq', and_assoc]
    rw [ih hrest]

theorem along_concat (hrun : run step s es = some t) :
    Along step P s (es ++ [e]) ↔ Along step P s es ∧ P t e := by
  rw [along_append hrun, along_cons]
  simp

theorem Along.and (hP : Along step P s es) (hQ : Along step Q s es) :
    Along step (fun s e => P s e ∧ Q s e) s es := by
  induction es generalizing s with
  | nil => trivial
  | cons e es ih => exact ⟨⟨hP.1, hQ.1⟩, fun t ht => ih (hP.2 t ht) (hQ.2 t ht)⟩

theorem along_true (s : σ) (es : List ε) : Along step (fun _ _ => True) s es := by
  induction es generalizing s with
  | nil => trivial
  | cons e es ih => exact ⟨trivial, fun t _ => ih t⟩

theorem along_mem (s : σ) (es : List ε) : Along step (fun _ e => e ∈ es) s es := by
  have hsub : ∀ fs : List ε, (∀ e ∈ fs, e ∈ es) → ∀ s, Along step (fun _ e => e ∈ es) s fs := by
    intro fs
    induction fs with
    | nil => exact fun _ _ => trivial
    | cons f fs ih =>
      exact fun h s => ⟨h f List.mem_cons_self,
        fun t _ => ih (fun e he => h e (List.mem_cons_of_mem _ he)) t⟩
  exact hsub es (fun _ he => he) s

/-- What every step keeps under the condition `P`, every run along `P` keeps. -/
theorem run_invariant {I : σ → Prop} (hstep : ∀ s e t, I s → P s e → step s e = some t → I t)
    (hinit : I s) (halong : Along step P s es) (hrun : run step s es = some t) : I t := by
  induction es generalizing s with
  | nil =>
    cases hrun
    exact hinit
  | cons e es ih =>
    obtain ⟨u, hu, hrest⟩ := run_cons_eq_some.1 hrun
    exact ih (hstep s e u hinit halong.1 hu) (halong.2 u hu) hrest

/-- `run_invariant` for steps that keep the invariant without a condition. -/
theorem run_invariant' {I : σ → Prop} (hstep : ∀ s e t, I s → step s e = some t → I t)
    (hinit : I s) (hrun : run step s es = some t) : I t :=
  run_invariant (fun s e t hs _ => hstep s e t hs) hinit (along_true s es) hrun

/-- A property of steps that the invariant and the condition give holds along the run. -/
theorem along_of_invariant {I : σ → Prop}
    (hstep : ∀ s e t, I s → P s e → step s e = some t → I t)
    (hgood : ∀ s e, I s → P s e → Q s e)
    (hinit : I s) (halong : Along step P s es) : Along step Q s es := by
  induction es generalizing s with
  | nil => trivial
  | cons e es ih =>
    exact ⟨hgood s e hinit halong.1,
      fun t ht => ih (hstep s e t hinit halong.1 ht) (halong.2 t ht)⟩

/-- `along_of_invariant` for steps that keep the invariant without a condition. -/
theorem along_of_invariant' {I : σ → Prop} (hstep : ∀ s e t, I s → step s e = some t → I t)
    (hgood : ∀ s e, I s → Q s e) (hinit : I s) (es : List ε) : Along step Q s es :=
  along_of_invariant (fun s e t hs _ => hstep s e t hs) (fun s e hs _ => hgood s e hs) hinit
    (along_true s es)

/-- Two properties of steps that are equivalent as long as the second has held are equivalent along a
run. -/
theorem along_iff_of_invariant {I : σ → Prop} {R : σ → ε → Prop}
    (hiff : ∀ s e, I s → R s e → (P s e ↔ Q s e))
    (hstep : ∀ s e t, I s → R s e → Q s e → step s e = some t → I t)
    (hinit : I s) (hR : Along step R s es) : Along step P s es ↔ Along step Q s es := by
  induction es generalizing s with
  | nil => exact Iff.rfl
  | cons e es ih =>
    have hhead := hiff s e hinit hR.1
    constructor
    · rintro ⟨hP, hrest⟩
      have hQ := hhead.1 hP
      exact ⟨hQ, fun t ht => (ih (hstep s e t hinit hR.1 hQ ht) (hR.2 t ht)).1 (hrest t ht)⟩
    · rintro ⟨hQ, hrest⟩
      exact ⟨hhead.2 hQ,
        fun t ht => (ih (hstep s e t hinit hR.1 hQ ht) (hR.2 t ht)).2 (hrest t ht)⟩

/-- Steps of one kind that each lower a measure, while no other step raises it, are at most as many as
the measure allows. -/
theorem run_countP_le {I : σ → Prop} {μ : σ → Nat} {own : ε → Bool}
    (hkeep : ∀ s e t, I s → step s e = some t → I t)
    (hstep : ∀ s e t, I s → step s e = some t → μ t + (if own e then 1 else 0) ≤ μ s)
    (hinit : I s) (hrun : run step s es = some t) : μ t + es.countP own ≤ μ s := by
  induction es generalizing s with
  | nil =>
    cases hrun
    exact Nat.le_refl _
  | cons e es ih =>
    obtain ⟨u, hu, hrest⟩ := run_cons_eq_some.1 hrun
    have hhead := hstep s e u hinit hu
    have htail := ih (hkeep s e u hinit hu) hrest
    rw [List.countP_cons]
    omega

/-! ### Simulation -/

/-- The abstract events of a concrete run, `label s e` being those of event `e` taken in `s`. -/
def trace (step : σ → ε → Option σ) (label : σ → ε → List κ) : σ → List ε → List κ
  | _, [] => []
  | s, e :: es => label s e ++ ((step s e).elim [] fun t => trace step label t es)

theorem trace_cons {label : σ → ε → List κ} (ht : step s e = some t) :
    trace step label s (e :: es) = label s e ++ trace step label t es := by
  rw [trace, ht, Option.elim_some]

/-- If related states stay related when the abstract side answers each concrete step with some
events of the kind `K`, a concrete run is answered by an abstract run of such events. -/
theorem run_simulation {astep : τ → κ → Option τ} {K : κ → Prop} {R : σ → τ → Prop}
    (hstep : ∀ s e t a, R s a → step s e = some t →
      ∃ ks b, run astep a ks = some b ∧ (∀ k ∈ ks, K k) ∧ R t b)
    {a : τ} (hinit : R s a) (hrun : run step s es = some t) :
    ∃ ks b, run astep a ks = some b ∧ (∀ k ∈ ks, K k) ∧ R t b := by
  induction es generalizing s a with
  | nil =>
    cases hrun
    exact ⟨[], a, rfl, by simp, hinit⟩
  | cons e es ih =>
    obtain ⟨u, hu, hrest⟩ := run_cons_eq_some.1 hrun
    obtain ⟨ks, b, hks, hK, hub⟩ := hstep s e u a hinit hu
    obtain ⟨ls, c, hls, hL, htc⟩ := ih hub hrest
    refine ⟨ks ++ ls, c, run_append_eq_some.2 ⟨b, hks, hls⟩, ?_, htc⟩
    intro k hk
    rcases List.mem_append.1 hk with hk | hk
    · exact hK k hk
    · exact hL k hk

/-- When the abstract side, from the image of the state, takes the label of a step exactly if the
step is good, and then comes to the image of the next state: the trace of a run is an abstract run
exactly if every step was good. -/
theorem run_trace_iff (abs : σ → τ) {astep : τ → κ → Option τ} {label : σ → ε → List κ}
    {I : σ → Prop}
    (hstep : ∀ s e t, I s → step s e = some t → I t)
    (hlabel : ∀ s e t, I s → step s e = some t →
      ∀ b, run astep (abs s) (label s e) = some b ↔ P s e ∧ b = abs t)
    (hinit : I s) (hrun : run step s es = some t) :
    (∃ b, run astep (abs s) (trace step label s es) = some b) ↔ Along step P s es := by
  induction es generalizing s with
  | nil => exact ⟨fun _ => trivial, fun _ => ⟨abs s, rfl⟩⟩
  | cons e es ih =>
    obtain ⟨u, hu, hrest⟩ := run_cons_eq_some.1 hrun
    rw [trace_cons hu, along_cons_of_eq_some hu, ← ih (hstep s e u hinit hu) hrest]
    constructor
    · rintro ⟨b, hb⟩
      obtain ⟨a, ha, hab⟩ := run_append_eq_some.1 hb
      obtain ⟨hgood, rfl⟩ := (hlabel s e u hinit hu a).1 ha
      exact ⟨hgood, b, hab⟩
    · rintro ⟨hgood, b, hb⟩
      exact ⟨b, run_append_eq_some.2 ⟨_, (hlabel s e u hinit hu _).2 ⟨hgood, rfl⟩, hb⟩⟩

end ElfHook.Lib

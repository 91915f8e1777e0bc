import Mathlib.Data.Option.Basic
import Mathlib.Data.List.Basic

/-!
# Runs of a labelled step function

A system is a partial step function `step : σ → ε → Option σ`: `none` when the event is not
enabled in the state. This module has what every safety argument about such a system uses.

* `run step s es` is the state a list of events leads to.
* `Guarded step G s es` says that every step of the run meets the condition `G`, which reads the
  state before the step and the event; `Along step Q s es` says that every step satisfies `Q`,
  which also reads the state after.
* `inv_of_run` is the induction on a run, done once: an invariant that the guarded steps keep
  holds at the end; `along_of_guarded` gives in the same way a property of every step, and
  `length_le_of_measure` a bound on the number of steps.
* `along_congr`, `along_congr_of_inv` and `along_congr_of_guarded` exchange the property of the
  steps for another one.
* `withHistory` adds a history variable, which records what the property speaks of and the
  program does not store. Forgetting it gives the run back (`run_fst_of_withHistory`).
-/

namespace Foundations.Runs

variable {σ ε γ : Type*} (step : σ → ε → Option σ)

/-- The state the events `es` lead to from `s`, when each of them is enabled in its turn. -/
def run : σ → List ε → Option σ
  | s, [] => some s
  | s, e :: es => (step s e).bind fun s' => run s' es

/-- Every step of the run of `es` from `s` meets `G`. -/
def Guarded (G : σ → ε → Prop) : σ → List ε → Prop
  | _, [] => True
  | s, e :: es => G s e ∧ ∀ s', step s e = some s' → Guarded G s' es

/-- Every step of the run of `es` from `s` satisfies `Q`. -/
def Along (Q : σ → ε → σ → Prop) : σ → List ε → Prop
  | _, [] => True
  | s, e :: es => ∀ s', step s e = some s' → Q s e s' ∧ Along Q s' es

@[simp] theorem run_nil (s : σ) : run step s [] = some s := rfl

@[simp] theorem run_cons (s : σ) (e : ε) (es : List ε) :
    run step s (e :: es) = (step s e).bind fun s' => run step s' es := rfl

variable {step}

theorem run_cons_eq_some {s s' : σ} {e : ε} {es : List ε} :
    run step s (e :: es) = some s' ↔ ∃ t, step s e = some t ∧ run step t es = some s' := by
  rw [run_cons, Option.bind_eq_some_iff]

theorem run_append (s : σ) (es fs : List ε) :
    run step s (es ++ fs) = (run step s es).bind fun t => run step t fs := by
  induction es generalizing s with
  | nil => rfl
  | cons e es ih =>
    rw [List.cons_append, run_cons, run_cons, Option.bind_assoc]
    exact congrArg _ (funext ih)

/-- **The run rule.** An invariant kept by every step that meets the condition holds in the state
a guarded run ends in. -/
theorem inv_of_run {G : σ → ε → Prop} {I : σ → Prop}
    (hstep : ∀ s e s', I s → G s e → step s e = some s' → I s') {s : σ} {es : List ε} {s' : σ}
    (h₀ : I s) (hg : Guarded step G s es) (hr : run step s es = some s') : I s' := by
  induction es generalizing s with
  | nil =>
    rw [run_nil, Option.some.injEq] at hr
    exact hr ▸ h₀
  | cons e es ih =>
    obtain ⟨t, ht, hr⟩ := run_cons_eq_some.1 hr
    exact ih (hstep s e t h₀ hg.1 ht) (hg.2 t ht) hr

/-- The events meet the condition in every state. -/
theorem guarded_of_forall {G : σ → ε → Prop} {es : List ε} (h : ∀ s, ∀ e ∈ es, G s e) (s : σ) :
    Guarded step G s es := by
  induction es generalizing s with
  | nil => trivial
  | cons e es ih =>
    exact ⟨h s e List.mem_cons_self,
      fun s' _ => ih (fun t e' he' => h t e' (List.mem_cons_of_mem _ he')) s'⟩

/-- **The measure rule.** Where every guarded step takes something from a measure, a guarded run is
no longer than what it takes away. -/
theorem length_le_of_measure {G : σ → ε → Prop} {I : σ → Prop} {μ : σ → ℕ}
    (hstep : ∀ s e s', I s → G s e → step s e = some s' → I s' ∧ μ s' + 1 ≤ μ s) {s : σ}
    {es : List ε} {s' : σ} (h₀ : I s) (hg : Guarded step G s es) (hr : run step s es = some s') :
    es.length + μ s' ≤ μ s := by
  induction es generalizing s with
  | nil =>
    obtain rfl := Option.some.inj hr
    exact Nat.le_of_eq (Nat.zero_add _)
  | cons e es ih =>
    obtain ⟨t, ht, hr⟩ := run_cons_eq_some.1 hr
    obtain ⟨hI, hlt⟩ := hstep s e t h₀ hg.1 ht
    have hle := ih hI (hg.2 t ht) hr
    rw [List.length_cons]
    omega

/-- **The step rule.** Where the guarded steps keep an invariant and the invariant and the
condition give `Q` for one step, every step of a guarded run satisfies `Q`. -/
theorem along_of_guarded {G : σ → ε → Prop} {I : σ → Prop} {Q : σ → ε → σ → Prop}
    (hstep : ∀ s e s', I s → G s e → step s e = some s' → I s')
    (hQ : ∀ s e s', I s → G s e → step s e = some s' → Q s e s') {s : σ} {es : List ε}
    (h₀ : I s) (hg : Guarded step G s es) : Along step Q s es := by
  induction es generalizing s with
  | nil => trivial
  | cons e es ih =>
    intro s' hs'
    exact ⟨hQ s e s' h₀ hg.1 hs', ih (hstep s e s' h₀ hg.1 hs') (hg.2 s' hs')⟩

/-- What holds along a run holds along what is left of it after a part. -/
theorem Along.drop {Q : σ → ε → σ → Prop} {s s' : σ} {es fs : List ε}
    (h : Along step Q s (es ++ fs)) (hr : run step s es = some s') : Along step Q s' fs := by
  induction es generalizing s with
  | nil =>
    rw [run_nil, Option.some.injEq] at hr
    exact hr ▸ h
  | cons e es ih =>
    obtain ⟨t, ht, hr⟩ := run_cons_eq_some.1 hr
    exact ih (h t ht).2 hr

/-- Properties of steps that agree on every step agree along a run. -/
theorem along_congr {Q Q' : σ → ε → σ → Prop}
    (h : ∀ s e s', step s e = some s' → (Q s e s' ↔ Q' s e s')) (s : σ) (es : List ε) :
    Along step Q s es ↔ Along step Q' s es := by
  induction es generalizing s with
  | nil => exact .rfl
  | cons e es ih =>
    exact forall₂_congr fun s' hs' => and_congr (h s e s' hs') (ih s')

/-- Under an invariant that the first of two properties keeps, it is enough that they agree on the
steps from states that satisfy it. -/
theorem along_congr_of_inv {I : σ → Prop} {Q Q' : σ → ε → σ → Prop}
    (h : ∀ s e s', I s → step s e = some s' → (Q s e s' ↔ Q' s e s'))
    (hI : ∀ s e s', I s → step s e = some s' → Q s e s' → I s') {s : σ} (es : List ε) (hs : I s) :
    Along step Q s es ↔ Along step Q' s es := by
  induction es generalizing s with
  | nil => exact .rfl
  | cons e es ih =>
    refine forall₂_congr fun s' hs' => ?_
    have hstep := h s e s' hs hs'
    constructor
    · rintro ⟨hq, hrest⟩
      exact ⟨hstep.1 hq, (ih (hI s e s' hs hs' hq)).1 hrest⟩
    · rintro ⟨hq, hrest⟩
      have hq := hstep.2 hq
      exact ⟨hq, (ih (hI s e s' hs hs' hq)).2 hrest⟩

/-- The same for the steps of a guarded run. -/
theorem along_congr_of_guarded {G : σ → ε → Prop} {I : σ → Prop} {Q Q' : σ → ε → σ → Prop}
    (h : ∀ s e s', I s → G s e → step s e = some s' → (Q s e s' ↔ Q' s e s'))
    (hI : ∀ s e s', I s → G s e → step s e = some s' → Q s e s' → I s') {s : σ} {es : List ε}
    (hs : I s) (hg : Guarded step G s es) : Along step Q s es ↔ Along step Q' s es := by
  induction es generalizing s with
  | nil => exact .rfl
  | cons e es ih =>
    refine forall₂_congr fun s' hs' => ?_
    have hstep := h s e s' hs hg.1 hs'
    constructor
    · rintro ⟨hq, hrest⟩
      exact ⟨hstep.1 hq, (ih (hI s e s' hs hg.1 hs' hq) (hg.2 s' hs')).1 hrest⟩
    · rintro ⟨hq, hrest⟩
      have hq := hstep.2 hq
      exact ⟨hq, (ih (hI s e s' hs hg.1 hs' hq) (hg.2 s' hs')).2 hrest⟩

/-- A run is guarded when its first part is and what is left of it after that. -/
theorem guarded_append {G : σ → ε → Prop} {s : σ} {es fs : List ε} :
    Guarded step G s (es ++ fs) ↔
      Guarded step G s es ∧ ∀ t, run step s es = some t → Guarded step G t fs := by
  induction es generalizing s with
  | nil =>
    refine ⟨fun h => ⟨trivial, fun t ht => ?_⟩, fun h => h.2 s rfl⟩
    rw [run_nil, Option.some.injEq] at ht
    exact ht ▸ h
  | cons e es ih =>
    constructor
    · rintro ⟨he, hrest⟩
      refine ⟨⟨he, fun s' hs' => (ih.1 (hrest s' hs')).1⟩, fun t ht => ?_⟩
      obtain ⟨s', hs', ht⟩ := run_cons_eq_some.1 ht
      exact (ih.1 (hrest s' hs')).2 t ht
    · rintro ⟨⟨he, hes⟩, hfs⟩
      exact ⟨he, fun s' hs' => ih.2 ⟨hes s' hs', fun t ht =>
        hfs t (run_cons_eq_some.2 ⟨s', hs', ht⟩)⟩⟩

theorem Guarded.and {G G' : σ → ε → Prop} {s : σ} {es : List ε} (h : Guarded step G s es)
    (h' : Guarded step G' s es) : Guarded step (fun s e => G s e ∧ G' s e) s es := by
  induction es generalizing s with
  | nil => trivial
  | cons e es ih => exact ⟨⟨h.1, h'.1⟩, fun s' hs' => ih (h.2 s' hs') (h'.2 s' hs')⟩

/-- A condition that every event of a list meets in every state guards every run of the list. -/
theorem Guarded.of_forall {G : σ → ε → Prop} {es : List ε} (h : ∀ e ∈ es, ∀ s, G s e) (s : σ) :
    Guarded step G s es := by
  induction es generalizing s with
  | nil => trivial
  | cons e es ih =>
    exact ⟨h e List.mem_cons_self s, fun s' _ =>
      ih (fun f hf => h f (List.mem_cons_of_mem _ hf)) s'⟩

/-- A decidable condition can be checked along a run by executing it. -/
instance Guarded.decidable {G : σ → ε → Prop} [hG : ∀ s e, Decidable (G s e)] :
    ∀ (s : σ) (es : List ε), Decidable (Guarded step G s es)
  | _, [] => .isTrue trivial
  | s, e :: es =>
    have : Decidable (∀ s', step s e = some s' → Guarded step G s' es) :=
      match step s e with
      | none => .isTrue fun _ h' => nomatch h'
      | some t =>
        @decidable_of_iff _ (Guarded step G t es)
          ⟨fun hg _ h' => Option.some.inj h' ▸ hg, fun hg => hg t rfl⟩ (Guarded.decidable t es)
    inferInstanceAs (Decidable (_ ∧ _))

/-! ## History variables -/

/-- The system with a history variable: each step of `step` also updates the history by `hist`,
which reads the state before the step, the event and the state after. -/
def withHistory (step : σ → ε → Option σ) (hist : σ → ε → σ → γ → γ) :
    σ × γ → ε → Option (σ × γ)
  | (s, g), e => (step s e).map fun s' => (s', hist s e s' g)

variable {hist : σ → ε → σ → γ → γ}

theorem withHistory_eq_some {s : σ} {g : γ} {e : ε} {x : σ × γ} :
    withHistory step hist (s, g) e = some x ↔
      step s e = some x.1 ∧ x.2 = hist s e x.1 g := by
  obtain ⟨s', g'⟩ := x
  rw [withHistory, Option.map_eq_some_iff]
  constructor
  · rintro ⟨t, ht, he⟩
    obtain ⟨rfl, rfl⟩ := Prod.mk.inj he
    exact ⟨ht, rfl⟩
  · rintro ⟨ht, hg⟩
    exact ⟨s', ht, congrArg (Prod.mk s') hg.symm⟩

/-- Forgetting the history variable gives a run of the system. -/
theorem run_fst_of_withHistory {x y : σ × γ} {es : List ε}
    (h : run (withHistory step hist) x es = some y) : run step x.1 es = some y.1 := by
  induction es generalizing x with
  | nil =>
    rw [run_nil, Option.some.injEq] at h
    rw [run_nil, h]
  | cons e es ih =>
    obtain ⟨t, ht, hr⟩ := run_cons_eq_some.1 h
    exact run_cons_eq_some.2 ⟨t.1, (withHistory_eq_some.1 ht).1, ih hr⟩

end Foundations.Runs

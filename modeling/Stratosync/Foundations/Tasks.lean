import Mathlib.Data.List.Basic

/-!
# Tasks

A task works on a state it shares with others, one call at a time, and ends with a value or an
error. What a call meets, an element of `ε`, is up to its surroundings, so that a run is a list of
these. `runFrom` is the task left alone; `Reaches` says that some run of it comes to a place.
-/

namespace Foundations.Tasks

/-- What a task does after a call. -/
inductive Next (π α : Type*)
  | goto (pc : π)
  | ok (value : α)
  | err

variable {σ ε π α : Type*} (tick : σ → ε → π → σ × Next π α)

/-- The task up to the last of these calls, or to its end. -/
def runFrom : σ → π → List ε → σ × Next π α
  | s, pc, [] => (s, .goto pc)
  | s, pc, e :: es =>
    match tick s e pc with
    | (s', .goto pc') => runFrom s' pc' es
    | (s', .ok value) => (s', .ok value)
    | (s', .err) => (s', .err)

variable {tick} {s s' : σ} {pc pc' : π} {e : ε} {es : List ε} {next : Next π α}

theorem runFrom_concat (e : ε) (h : runFrom tick s pc es = (s', .goto pc')) :
    runFrom tick s pc (es ++ [e]) = tick s' e pc' := by
  induction es generalizing s pc with
  | nil =>
    obtain ⟨rfl, hpc⟩ := Prod.mk.inj h
    obtain rfl := Next.goto.inj hpc
    rw [List.nil_append, runFrom]
    split <;> rename_i ht <;> exact ht.symm
  | cons e' es ih =>
    rw [runFrom] at h
    rw [List.cons_append, runFrom]
    split at h
    · exact ih h
    · cases h
    · cases h

/-- **What every step leaves, a run leaves.** -/
theorem runFrom_induct {Leaves : σ × Next π α → Prop}
    (step : ∀ s pc e, Leaves (s, .goto pc) → Leaves (tick s e pc)) (h : Leaves (s, .goto pc))
    (es : List ε) : Leaves (runFrom tick s pc es) := by
  induction es generalizing s pc with
  | nil => exact h
  | cons e es ih =>
    have hstep := step s pc e h
    rw [runFrom]
    split
    · rename_i ht
      rw [ht] at hstep
      exact ih hstep
    · rename_i ht
      rwa [ht] at hstep
    · rename_i ht
      rwa [ht] at hstep

variable (tick) in
/-- Some run of the task from `pc` comes to this. -/
def Reaches (s : σ) (pc : π) (s' : σ) (next : Next π α) : Prop :=
  ∃ es, runFrom tick s pc es = (s', next)

theorem Reaches.refl : Reaches tick s pc s (.goto pc) := ⟨[], rfl⟩

theorem Reaches.step {s'' : σ} (h : Reaches tick s pc s' (.goto pc')) (e : ε)
    (ht : tick s' e pc' = (s'', next)) : Reaches tick s pc s'' next := by
  obtain ⟨es, h⟩ := h
  exact ⟨es ++ [e], (runFrom_concat e h).trans ht⟩

theorem Reaches.leaves {Leaves : σ × Next π α → Prop} (h : Reaches tick s pc s' next)
    (step : ∀ s pc e, Leaves (s, .goto pc) → Leaves (tick s e pc)) (h₀ : Leaves (s, .goto pc)) :
    Leaves (s', next) := by
  obtain ⟨es, h⟩ := h
  exact h ▸ runFrom_induct step h₀ es

end Foundations.Tasks

import Mathlib.Data.List.Basic

/-!
# The versions of a cell

A cell holds one value, or none, and others write it. `record` keeps the list of the values it has
had, which is a history variable of the cell: `Current` says that the last of them is the one that
is there, and `AtOrAfter` orders them by age.
-/

namespace Foundations.Versions

variable {α : Type*}

/-- The versions of a cell after its content went from `old` to `new`. -/
def record [DecidableEq α] (vs : List α) (old new : Option α) : List α :=
  if new = old then vs else vs ++ new.toList

/-- The last version is the one in the cell. -/
def Current (vs : List α) (cell : Option α) : Prop := ∀ a ∈ cell, vs.getLast? = some a

/-- `b` is the version `a`, or a later one. -/
def AtOrAfter (vs : List α) (a b : α) : Prop :=
  ∃ v w : ℕ, v ≤ w ∧ vs[v]? = some a ∧ vs[w]? = some b

/-- The version in the cell is the last. -/
theorem Current.getElem? {vs : List α} {cell : Option α} {a : α} (h : Current vs cell)
    (ha : a ∈ cell) : vs[vs.length - 1]? = some a := by
  rw [← List.getLast?_eq_getElem?]
  exact h a ha

theorem AtOrAfter.of_current {vs : List α} {cell : Option α} {a : α} (h : Current vs cell)
    (ha : a ∈ cell) : AtOrAfter vs a a :=
  ⟨_, _, Nat.le_refl _, h.getElem? ha, h.getElem? ha⟩

section Record

variable [DecidableEq α] {vs : List α} {old new : Option α} {a b : α}

@[simp] theorem record_self (vs : List α) (cell : Option α) : record vs cell cell = vs :=
  if_pos rfl

/-- The versions keep their numbers. -/
theorem getElem?_record {n : ℕ} (h : vs[n]? = some a) : (record vs old new)[n]? = some a := by
  rw [record]
  split
  · exact h
  · obtain ⟨hlt, -⟩ := List.getElem?_eq_some_iff.1 h
    rw [List.getElem?_append_left hlt, h]

/-- Recording keeps the last version the one in the cell. -/
theorem Current.record (h : Current vs old) : Current (record vs old new) new := by
  intro a ha
  rw [Versions.record]
  split
  · rename_i hsame
    exact h a (hsame ▸ ha)
  · rw [Option.mem_def.1 ha]
    exact List.getLast?_concat

theorem AtOrAfter.record (h : AtOrAfter vs a b) : AtOrAfter (record vs old new) a b := by
  obtain ⟨v, w, hvw, hv, hw⟩ := h
  exact ⟨v, w, hvw, getElem?_record hv, getElem?_record hw⟩

end Record

end Foundations.Versions

import Mathlib.Data.List.Infix

/-!
# Paths with steps up

A path may have a component that stands for the step up. `resolve` walks the path from the root and
says where it leads. What is above the place it leads to was visited on the way:
`exists_prefix_resolve`.
-/

namespace Foundations.Upward

variable {α : Type*} [DecidableEq α] (up : α)

/-- The path with each step up and the component before it removed; above the root there is
nothing. -/
def resolve (p : List α) : List α :=
  p.foldl (fun acc c => if c = up then acc.dropLast else acc ++ [c]) []

variable {up} {p s : List α} {c : α}

@[simp] theorem resolve_nil : resolve up [] = [] := rfl

theorem resolve_concat :
    resolve up (p ++ [c]) = if c = up then (resolve up p).dropLast else resolve up p ++ [c] := by
  rw [resolve, List.foldl_append]
  rfl

@[simp] theorem resolve_concat_up : resolve up (p ++ [up]) = (resolve up p).dropLast := by
  rw [resolve_concat, if_pos rfl]

theorem resolve_concat_of_ne (hc : c ≠ up) : resolve up (p ++ [c]) = resolve up p ++ [c] := by
  rw [resolve_concat, if_neg hc]

/-- No step up is left. -/
theorem up_not_mem_resolve : up ∉ resolve up p := by
  induction p using List.reverseRecOn with
  | nil => exact List.not_mem_nil
  | append_singleton p c ih =>
    rw [resolve_concat]
    split
    · exact fun h => ih (List.mem_of_mem_dropLast h)
    · rename_i hc
      simp [ih, Ne.symm hc]

/-- Components without a step up lead further down. -/
theorem resolve_append_of_not_mem (h : up ∉ s) : resolve up (p ++ s) = resolve up p ++ s := by
  induction s using List.reverseRecOn with
  | nil => simp
  | append_singleton s c ih =>
    simp only [List.mem_append, List.mem_singleton, not_or] at h
    rw [← List.append_assoc, resolve_concat_of_ne (Ne.symm h.2), ih h.1, List.append_assoc]

/-- A path without a step up leads to where it says. -/
theorem resolve_eq_self_iff : resolve up p = p ↔ up ∉ p := by
  constructor
  · intro h
    exact h ▸ up_not_mem_resolve
  · intro h
    simpa using resolve_append_of_not_mem (p := []) h

theorem length_resolve_le : (resolve up p).length ≤ p.length := by
  induction p using List.reverseRecOn with
  | nil => exact le_rfl
  | append_singleton p c ih =>
    rw [resolve_concat, List.length_append, List.length_singleton]
    split
    · rw [List.length_dropLast]
      omega
    · rw [List.length_append, List.length_singleton]
      omega

theorem prefix_resolve_iff : p <+: resolve up p ↔ up ∉ p := by
  rw [← resolve_eq_self_iff]
  constructor
  · intro h
    exact (h.eq_of_length (le_antisymm h.length_le length_resolve_le)).symm
  · intro h
    rw [h]

/-- **What is above the place a path leads to was visited on the way.** -/
theorem exists_prefix_resolve (hs : s <+: resolve up p) (hne : s ≠ resolve up p) :
    ∃ q, q <+: p ∧ q ≠ p ∧ resolve up q = s := by
  induction p using List.reverseRecOn with
  | nil => exact absurd (List.prefix_nil.1 hs) hne
  | append_singleton p c ih =>
    have hlast : ∀ q, q <+: p → q ≠ p ++ [c] := by
      rintro q hq rfl
      have hlen := hq.length_le
      rw [List.length_append, List.length_singleton] at hlen
      omega
    by_cases hsp : s = resolve up p
    · exact ⟨p, List.prefix_append _ _, hlast p List.prefix_rfl, hsp.symm⟩
    have hpre : s <+: resolve up p := by
      by_cases hc : c = up
      · rw [resolve_concat, if_pos hc] at hs
        exact hs.trans (List.dropLast_prefix _)
      · rw [resolve_concat_of_ne hc] at hs hne
        exact (List.prefix_concat_iff.1 hs).resolve_left hne
    obtain ⟨q, hq, -, hqs⟩ := ih hpre hsp
    exact ⟨q, hq.trans (List.prefix_append _ _), hlast q hq, hqs⟩

end Foundations.Upward

import Mathlib.Data.List.DropRight
import Mathlib.Data.List.Infix

/-!
# Searching a text

Two ways to cut a text: before the first occurrence of a pattern (`before`) and at the last
occurrence of a separator (`splitLast`). A text that was put together with the pattern, or with
the separator, is cut where it was joined exactly when neither occurs at another place
(`before_append_iff`, `splitLast_eq_some`).
-/

namespace Foundations.Search

variable {α : Type*} [DecidableEq α]

/-- The text before the first occurrence of the pattern. -/
def before (pat : List α) : List α → Option (List α)
  | [] => if pat = [] then some [] else none
  | a :: s => if pat.isPrefixOf (a :: s) then some [] else (before pat s).map (a :: ·)

variable {pat a b s : List α}

theorem before_spec (h : before pat s = some a) : (a ++ pat) <+: s := by
  induction s generalizing a with
  | nil =>
    rw [before] at h
    split at h
    · rename_i hpat
      obtain rfl := Option.some.inj h
      simp [hpat]
    · cases h
  | cons c s ih =>
    rw [before] at h
    split at h
    · rename_i hpre
      obtain rfl := Option.some.inj h
      simpa using hpre
    · obtain ⟨a', ha', rfl⟩ := Option.map_eq_some_iff.1 h
      rw [List.cons_append, List.cons_prefix_cons]
      exact ⟨rfl, ih ha'⟩

theorem before_eq_none : before pat s = none ↔ ¬pat <:+: s := by
  induction s with
  | nil =>
    rw [before, List.infix_nil]
    split <;> simp [*]
  | cons c s ih =>
    rw [before, List.infix_cons_iff, ← List.isPrefixOf_iff_prefix]
    split
    · simp [*]
    · rw [Option.map_eq_none_iff, ih]
      simp [*]

/-- The first occurrence of a pattern is not after one that is given. -/
theorem prefix_of_before (h : before pat (a ++ (pat ++ b)) = some s) : s <+: a := by
  induction a generalizing s with
  | nil =>
    have hpre : pat.isPrefixOf (pat ++ b) = true := by simp
    rw [List.nil_append] at h
    cases hpat : pat ++ b with
    | nil =>
      rw [hpat, before] at h
      split at h
      · obtain rfl := Option.some.inj h
        exact List.prefix_rfl
      · cases h
    | cons c t =>
      rw [hpat] at h hpre
      rw [before, if_pos hpre] at h
      obtain rfl := Option.some.inj h
      exact List.prefix_rfl
  | cons c a ih =>
    rw [List.cons_append, before] at h
    split at h
    · obtain rfl := Option.some.inj h
      exact List.nil_prefix
    · obtain ⟨s', hs', rfl⟩ := Option.map_eq_some_iff.1 h
      exact List.cons_prefix_cons.2 ⟨rfl, ih hs'⟩

/-- **A text joined with a pattern is cut where it was joined** exactly when the pattern does not
begin inside the first part. -/
theorem before_append_iff (hpat : pat ≠ []) :
    before pat (a ++ (pat ++ b)) = some a ↔ ¬pat <:+: a ++ pat.dropLast := by
  have hlen : pat.dropLast.length + 1 = pat.length := by
    have := List.length_pos_iff.2 hpat
    rw [List.length_dropLast]
    omega
  induction a with
  | nil =>
    constructor
    · intro _ hin
      have := hin.length_le
      simp only [List.nil_append] at this
      omega
    · intro _
      cases hcut : before pat ([] ++ (pat ++ b)) with
      | none => exact absurd (List.prefix_append pat b).isInfix (before_eq_none.1 hcut)
      | some s => rw [List.prefix_nil.1 (prefix_of_before hcut)]
  | cons c a ih =>
    rw [List.cons_append, before, List.cons_append, List.infix_cons_iff]
    split
    · -- an occurrence at the front fits in the first part and all but the end of the pattern
      rename_i hpre
      have hin : pat <+: c :: (a ++ pat.dropLast) := by
        refine List.prefix_of_prefix_length_le (List.isPrefixOf_iff_prefix.1 hpre) ?_ ?_
        · rw [List.cons_prefix_cons, List.prefix_append_right_inj]
          exact ⟨rfl, (List.dropLast_prefix pat).trans (List.prefix_append pat b)⟩
        · rw [List.length_cons, List.length_append]
          omega
      simp [hin]
    · rename_i hpre
      have hout : ¬pat <+: c :: (a ++ pat.dropLast) := by
        intro hin
        refine hpre (List.isPrefixOf_iff_prefix.2 (hin.trans ?_))
        rw [List.cons_prefix_cons, List.prefix_append_right_inj]
        exact ⟨rfl, (List.dropLast_prefix pat).trans (List.prefix_append pat b)⟩
      rw [Option.map_eq_some_iff]
      simp only [hout, false_or, ← ih]
      constructor
      · rintro ⟨t, ht, he⟩
        obtain ⟨-, rfl⟩ := List.cons.inj he
        exact ht
      · exact fun h => ⟨a, h, rfl⟩

/-! ## The last separator -/

/-- The texts before and after the last separator. -/
def splitLast (sep : α) (s : List α) : Option (List α × List α) :=
  if sep ∈ s then some ((s.rdropWhile (· ≠ sep)).dropLast, s.rtakeWhile (· ≠ sep)) else none

variable {sep : α}

theorem rtakeWhile_append_cons (hb : sep ∉ b) :
    (a ++ sep :: b).rtakeWhile (· ≠ sep) = b := by
  have hall : ∀ c ∈ b.reverse, decide (c ≠ sep) = true := fun c hc => by
    rw [decide_eq_true_eq]
    rintro rfl
    exact hb (List.mem_reverse.1 hc)
  rw [List.rtakeWhile, List.reverse_append, List.reverse_cons, List.append_assoc,
    List.takeWhile_append_of_pos hall, List.singleton_append,
    List.takeWhile_cons_of_neg (by simp), List.append_nil, List.reverse_reverse]

theorem rdropWhile_append_cons (hb : sep ∉ b) :
    (a ++ sep :: b).rdropWhile (· ≠ sep) = a ++ [sep] := by
  have hsplit := List.rdropWhile_append_rtakeWhile (p := fun c : α => decide (c ≠ sep))
    (l := a ++ sep :: b)
  rw [rtakeWhile_append_cons hb] at hsplit
  exact List.append_cancel_right (hsplit.trans (List.append_cons a sep b))

theorem splitLast_append_cons (hb : sep ∉ b) : splitLast sep (a ++ sep :: b) = some (a, b) := by
  rw [splitLast, if_pos (by simp), rdropWhile_append_cons hb, rtakeWhile_append_cons hb,
    List.dropLast_concat]

theorem splitLast_eq_none : splitLast sep s = none ↔ sep ∉ s := by
  rw [splitLast]
  split <;> simp [*]

theorem splitLast_eq_some :
    splitLast sep s = some (a, b) ↔ s = a ++ sep :: b ∧ sep ∉ b := by
  constructor
  · intro h
    have hmem : sep ∈ s := by
      by_contra hn
      rw [splitLast_eq_none.2 hn] at h
      cases h
    obtain ⟨c, d, hrev, hc⟩ := List.eq_append_cons_of_mem (List.mem_reverse.2 hmem)
    obtain rfl : s = d.reverse ++ sep :: c.reverse := by simpa using congrArg List.reverse hrev
    have hc : sep ∉ c.reverse := by simpa using hc
    rw [splitLast_append_cons hc] at h
    obtain ⟨rfl, rfl⟩ := Prod.mk.inj (Option.some.inj h)
    exact ⟨rfl, hc⟩
  · rintro ⟨rfl, hb⟩
    exact splitLast_append_cons hb

/-- The last separator is not before one that is given. -/
theorem prefix_of_splitLast {c d : List α} (h : splitLast sep (a ++ sep :: b) = some (c, d)) :
    a <+: c ∧ d.length ≤ b.length := by
  cases hb : splitLast sep b with
  | none =>
    rw [splitLast_append_cons (splitLast_eq_none.1 hb)] at h
    obtain ⟨rfl, rfl⟩ := Prod.mk.inj (Option.some.inj h)
    exact ⟨List.prefix_rfl, le_rfl⟩
  | some p =>
    obtain ⟨rfl, hlast⟩ := splitLast_eq_some.1 hb
    have hassoc : a ++ sep :: (p.1 ++ sep :: p.2) = (a ++ sep :: p.1) ++ sep :: p.2 := by simp
    rw [hassoc, splitLast_append_cons hlast] at h
    obtain ⟨rfl, rfl⟩ := Prod.mk.inj (Option.some.inj h)
    refine ⟨List.prefix_append _ _, ?_⟩
    rw [List.length_append, List.length_cons]
    omega

end Foundations.Search

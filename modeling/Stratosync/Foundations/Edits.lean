import Mathlib.Data.List.GetD
import Mathlib.Order.Lattice

/-!
# Truncations and overwrites

The two edits of a file, which is a list of bytes: `resize` cuts it or extends it with `d`, and
`overwrite` puts bytes at an offset and fills a gap before them with `d`. The byte at a place past
the end counts as `d` (`List.getD`); by length and bytes the edits are known (`getD_resize`,
`getD_overwrite`), and so is when an edit makes two files one (`resize_eq_iff`,
`overwrite_eq_iff`).
-/

namespace Foundations.Edits

variable {α : Type*} (d : α)

def resize (l : List α) (n : ℕ) : List α := l.take n ++ List.replicate (n - l.length) d

/-- Writing nothing leaves the file as it is. -/
def overwrite (l : List α) (offset : ℕ) (new : List α) : List α :=
  if new = [] then l else resize d l offset ++ new ++ l.drop (offset + new.length)

variable {d} {l l' new : List α} {n offset : ℕ}

/-- Files are one when their lengths and bytes are. -/
theorem ext_getD (hlen : l.length = l'.length) (h : ∀ k, l.getD k d = l'.getD k d) : l = l' := by
  refine List.ext_getElem hlen fun k hk hk' => ?_
  have hk'' := h k
  rwa [List.getD_eq_getElem _ _ hk, List.getD_eq_getElem _ _ hk'] at hk''

@[simp] theorem length_resize : (resize d l n).length = n := by
  rw [resize, List.length_append, List.length_take, List.length_replicate]
  omega

theorem getD_resize (k : ℕ) : (resize d l n).getD k d = if k < n then l.getD k d else d := by
  rw [resize]
  by_cases hk : k < (l.take n).length
  · rw [List.getD_append _ _ _ _ hk]
    rw [List.length_take] at hk
    rw [if_pos (by omega), List.getD_eq_getElem _ _ (by simp; omega), List.getElem_take,
      List.getD_eq_getElem _ _ (by omega)]
  · rw [List.getD_append_right _ _ _ _ (not_lt.1 hk), List.getD_eq_getElem?_getD,
      List.getElem?_getD_replicate_default_eq]
    rw [List.length_take] at hk
    split
    · rw [List.getD_eq_default _ _ (by omega)]
    · rfl

/-- **A truncation makes two files one** when they agree on what it keeps. -/
theorem resize_eq_iff : resize d l n = resize d l' n ↔ ∀ k < n, l.getD k d = l'.getD k d := by
  constructor
  · intro h k hk
    have hget := congrArg (fun l => List.getD l k d) h
    simpa only [getD_resize, if_pos hk] using hget
  · intro h
    refine ext_getD (d := d) (by rw [length_resize, length_resize]) fun k => ?_
    rw [getD_resize, getD_resize]
    split
    · exact h k ‹_›
    · rfl

@[simp] theorem overwrite_nil : overwrite d l offset [] = l := if_pos rfl

theorem length_overwrite (hnew : new ≠ []) :
    (overwrite d l offset new).length = max l.length (offset + new.length) := by
  rw [overwrite, if_neg hnew, List.length_append, List.length_append, length_resize,
    List.length_drop]
  omega

theorem getD_overwrite (k : ℕ) :
    (overwrite d l offset new).getD k d =
      if offset ≤ k ∧ k < offset + new.length then new.getD (k - offset) d else l.getD k d := by
  by_cases hnew : new = []
  · subst hnew
    rw [overwrite_nil, if_neg (by simp)]
  · rw [overwrite, if_neg hnew]
    have hlen : (resize d l offset ++ new).length = offset + new.length := by
      rw [List.length_append, length_resize]
    by_cases hk : k < offset + new.length
    · rw [List.getD_append _ _ _ _ (hlen ▸ hk)]
      by_cases hk' : k < offset
      · rw [List.getD_append _ _ _ _ (by rwa [length_resize]), getD_resize, if_pos hk',
          if_neg (by omega)]
      · rw [List.getD_append_right _ _ _ _ (by rw [length_resize]; omega), length_resize,
          if_pos ⟨not_lt.1 hk', hk⟩]
    · rw [List.getD_append_right _ _ _ _ (by omega), hlen, if_neg (by omega)]
      by_cases hin : k < l.length
      · rw [List.getD_eq_getElem _ _ (by rw [List.length_drop]; omega), List.getElem_drop,
          List.getD_eq_getElem _ _ hin]
        congr 1
        omega
      · rw [List.getD_eq_default _ _ (by rw [List.length_drop]; omega),
          List.getD_eq_default _ _ (not_lt.1 hin)]

/-- **An overwrite makes two files one** when they agree on what it keeps, and have one length or
are both no longer than it. -/
theorem overwrite_eq_iff (hnew : new ≠ []) :
    overwrite d l offset new = overwrite d l' offset new ↔
      max l.length (offset + new.length) = max l'.length (offset + new.length) ∧
        ∀ k, k < offset ∨ offset + new.length ≤ k → l.getD k d = l'.getD k d := by
  constructor
  · intro h
    refine ⟨by rw [← length_overwrite hnew, ← length_overwrite hnew, h], fun k hk => ?_⟩
    have hget := congrArg (fun l => List.getD l k d) h
    simpa only [getD_overwrite, if_neg (show ¬(offset ≤ k ∧ k < offset + new.length) by omega)]
      using hget
  · rintro ⟨hlen, h⟩
    refine ext_getD (d := d) (by rw [length_overwrite hnew, length_overwrite hnew, hlen])
      fun k => ?_
    rw [getD_overwrite, getD_overwrite]
    split
    · rfl
    · exact h k (by omega)

end Foundations.Edits

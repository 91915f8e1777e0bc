import Mathlib.Data.List.Sort

/-!
# The first elements of a list in an order

`top r k l` has the first `k` elements of `l` in the order `r`, and `rest r k l` the others. A list
that has the elements of `l` without those of `rest r k l` is `top r k l` when it is put in order
(`insertionSort_eq_top`).
-/

namespace Foundations.Ranking

variable {α : Type*} (r : α → α → Prop) [DecidableRel r] {k : ℕ} {l l' : List α} {a b : α}

/-- The first `k` elements, in their order. -/
def top (k : ℕ) (l : List α) : List α := (l.insertionSort r).take k

/-- The elements after the first `k`. -/
def rest (k : ℕ) (l : List α) : List α := (l.insertionSort r).drop k

theorem top_append_rest (k : ℕ) (l : List α) : top r k l ++ rest r k l = l.insertionSort r :=
  List.take_append_drop _ _

variable {r}

theorem mem_iff : a ∈ l ↔ a ∈ top r k l ∨ a ∈ rest r k l := by
  rw [← List.mem_insertionSort r, ← top_append_rest r k, List.mem_append]

theorem nodup_append (hl : l.Nodup) : (top r k l ++ rest r k l).Nodup := by
  rw [top_append_rest]
  exact (List.perm_insertionSort r l).nodup_iff.2 hl

theorem mem_top_iff (hl : l.Nodup) : a ∈ top r k l ↔ a ∈ l ∧ a ∉ rest r k l := by
  have hdisjoint := (List.nodup_append'.1 (nodup_append (r := r) (k := k) hl)).2.2
  constructor
  · intro ha
    exact ⟨mem_iff.2 (.inl ha), fun hb => hdisjoint ha hb⟩
  · rintro ⟨ha, hb⟩
    exact (mem_iff.1 ha).resolve_right hb

section

variable [Std.Total r] [IsTrans α r]

/-- The first elements come before the others. -/
theorem rel_of_mem (ha : a ∈ top r k l) (hb : b ∈ rest r k l) : r a b := by
  have hsorted := List.pairwise_insertionSort r l
  rw [← top_append_rest r k, List.pairwise_append] at hsorted
  exact hsorted.2.2 a ha b hb

/-- **Without the rest, the top is left**, if no two elements of the list come before each other. -/
theorem insertionSort_eq_top (hl : l.Nodup) (hl' : l'.Nodup)
    (hanti : ∀ a ∈ l, ∀ b ∈ l, r a b → r b a → a = b)
    (hmem : ∀ a, a ∈ l' ↔ a ∈ l ∧ a ∉ rest r k l) : l'.insertionSort r = top r k l := by
  have hperm : (l'.insertionSort r).Perm (top r k l) := by
    refine (List.perm_insertionSort r l').trans ((List.perm_ext_iff_of_nodup hl' ?_).2 fun a => ?_)
    · exact (nodup_append hl).of_append_left
    · rw [hmem, mem_top_iff hl]
  have hsorted : (top r k l).Pairwise r := (List.pairwise_insertionSort r l).take
  refine hperm.eq_of_pairwise (fun a b ha hb => ?_) (List.pairwise_insertionSort r l') hsorted
  refine hanti a ?_ b (mem_iff.2 (.inl hb))
  exact ((hmem a).1 ((List.mem_insertionSort r).1 ha)).1

end

end Foundations.Ranking

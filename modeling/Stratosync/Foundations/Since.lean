import Mathlib.Data.List.DropRight

/-!
# Since the last reset

A register that some events reset and the others update is a fold over the log of the events, and
depends only on what has happened since the last reset: `foldl_reset`. Three registers are read off
the log directly: the number of events (`foldl_tally`), the first (`foldl_first`) and the last
(`foldl_last`).
-/

namespace Foundations.Since

variable {α β : Type*} {reset reset' : α → Bool} {l : List α}

/-- What the log holds after the last event that resets. -/
def since (reset : α → Bool) (l : List α) : List α := l.rtakeWhile fun x => !reset x

theorem since_concat (l : List α) (x : α) :
    since reset (l ++ [x]) = if reset x then [] else since reset l ++ [x] := by
  rw [since, since, List.rtakeWhile_concat]
  cases reset x <;> rfl

@[simp] theorem since_concat_reset {x : α} (h : reset x = true) : since reset (l ++ [x]) = [] := by
  rw [since_concat, if_pos h]

@[simp] theorem since_concat_of_not {x : α} (h : reset x = false) :
    since reset (l ++ [x]) = since reset l ++ [x] := by
  rw [since_concat, if_neg (by simp [h])]

theorem since_suffix (reset : α → Bool) (l : List α) : since reset l <:+ l :=
  List.rtakeWhile_suffix _ l

/-- With more resets less is left. -/
theorem since_suffix_since (h : ∀ x, reset x = true → reset' x = true) :
    since reset' l <:+ since reset l := by
  induction l using List.reverseRecOn with
  | nil => exact List.suffix_rfl
  | append_singleton l x ih =>
    cases hx : reset' x with
    | true =>
      rw [since_concat_reset hx]
      exact List.nil_suffix
    | false =>
      have hx' : reset x = false := by
        by_contra hne
        rw [h x (Bool.not_eq_false _ ▸ hne)] at hx
        cases hx
      rw [since_concat_of_not hx, since_concat_of_not hx']
      obtain ⟨t, ht⟩ := ih
      exact ⟨t, by rw [← ht, List.append_assoc]⟩

/-- **A register that resets** depends only on what has happened since. -/
theorem foldl_reset (reset : α → Bool) (f : β → α → β) (b : β) (l : List α) :
    l.foldl (fun c x => if reset x then b else f c x) b = (since reset l).foldl f b := by
  induction l using List.reverseRecOn with
  | nil => rfl
  | append_singleton l x ih =>
    rw [List.foldl_concat, ih]
    cases hx : reset x with
    | true => rw [since_concat_reset hx, List.foldl_nil, if_pos rfl]
    | false => rw [since_concat_of_not hx, List.foldl_concat, if_neg Bool.false_ne_true]

/-- The register of the last value. -/
theorem foldl_last (g : α → Option β) (l : List α) (b : Option β) :
    l.foldl (fun c x => (g x).or c) b = (l.filterMap g).getLast?.or b := by
  induction l using List.reverseRecOn with
  | nil => rfl
  | append_singleton l x ih =>
    rw [List.foldl_concat, ih, List.filterMap_append]
    cases hx : g x with
    | none => simp [hx]
    | some v => simp [hx]

/-- The register of the first value. -/
theorem foldl_first (g : α → Option β) (l : List α) (b : Option β) :
    l.foldl (fun c x => c.or (g x)) b = b.or (l.filterMap g).head? := by
  induction l generalizing b with
  | nil => rw [List.foldl_nil, List.filterMap_nil, List.head?_nil, Option.or_none]
  | cons x l ih =>
    rw [List.foldl_cons, ih, Option.or_assoc]
    cases hx : g x with
    | none => simp [hx]
    | some v => simp [hx]

/-- The register that counts modulo a number, and is absent before. -/
theorem foldl_tally (p : α → Bool) (m : ℕ) (l : List α) :
    l.foldl (fun c x => if p x then some ((c.getD 0 + 1) % m) else c) none =
      if l.countP p = 0 then none else some (l.countP p % m) := by
  induction l using List.reverseRecOn with
  | nil => rfl
  | append_singleton l x ih =>
    rw [List.foldl_concat, ih, List.countP_append, List.countP_singleton]
    cases p x with
    | false => rfl
    | true =>
      rw [if_pos rfl, if_pos rfl, if_neg (Nat.succ_ne_zero _)]
      split
      · rename_i hnone
        rw [hnone, Option.getD_none]
      · rw [Option.getD_some, Nat.mod_add_mod]

end Foundations.Since

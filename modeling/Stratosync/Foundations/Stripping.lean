import Mathlib.Data.List.Basic

/-!
# Stripping from the top

Elements are taken out of a list one after the other, each only when nothing else of the list is
above it. When what is above an element comes before it, those go above which there is nothing but
what is to go (`mem_strip`).
-/

namespace Foundations.Stripping

variable {α : Type*} [DecidableEq α] (above : α → α → Prop) [DecidableRel above] (may : α → Bool)

/-- `a` is taken out when it may and nothing else is above it. -/
def stripOne (l : List α) (a : α) : List α :=
  if may a = true ∧ ∀ b ∈ l, above a b → b = a then l.filter (· ≠ a) else l

def strip (l as : List α) : List α := as.foldl (stripOne above may) l

variable {above may} {l as : List α} {a x : α}

theorem strip_cons :
    strip above may l (a :: as) = strip above may (stripOne above may l a) as := rfl

/-- `x` and all that is above it are to go. -/
def Goes (above : α → α → Prop) (may : α → Bool) (l as : List α) (x : α) : Prop :=
  ∀ y ∈ l, above x y → y ∈ as ∧ may y = true

/-- What goes after `a` has been tried is what goes, but for `a`. -/
theorem goes_stripOne_iff (htrans : ∀ x y z, above x y → above y z → above x z)
    (ha : ∀ b ∈ as, ¬above a b) (hx : x ≠ a ∨ stripOne above may l a = l) :
    Goes above may (stripOne above may l a) as x ↔ Goes above may l (a :: as) x := by
  rw [stripOne] at hx ⊢
  split
  · rename_i hout
    rw [if_pos hout] at hx
    constructor
    · intro h y hy hxy
      by_cases hya : y = a
      · exact ⟨hya ▸ List.mem_cons_self, hya ▸ hout.1⟩
      · obtain ⟨hmem, hmay⟩ := h y (List.mem_filter.2 ⟨hy, decide_eq_true hya⟩) hxy
        exact ⟨List.mem_cons_of_mem a hmem, hmay⟩
    · intro h y hy hxy
      obtain ⟨hy, hya⟩ := List.mem_filter.1 hy
      obtain ⟨hmem, hmay⟩ := h y hy hxy
      exact ⟨(List.mem_cons.1 hmem).resolve_left (of_decide_eq_true hya), hmay⟩
  · rename_i hstays
    refine ⟨fun h y hy hxy => (h y hy hxy).imp (List.mem_cons_of_mem a) id,
      fun h y hy hxy => ?_⟩
    obtain ⟨hmem, hmay⟩ := h y hy hxy
    obtain rfl | hmem := List.mem_cons.1 hmem
    · -- what is above `a` and has kept it in comes later, which it must not
      refine absurd ⟨hmay, fun b hb hab => ?_⟩ hstays
      obtain ⟨hmemb, -⟩ := h b hb (htrans x y b hxy hab)
      exact (List.mem_cons.1 hmemb).resolve_right fun hin => ha b hin hab
    · exact ⟨hmem, hmay⟩

/-- **What stripping leaves.** -/
theorem mem_strip (hrefl : ∀ x, above x x) (htrans : ∀ x y z, above x y → above y z → above x z)
    (has : as.Pairwise fun a b => ¬above a b) :
    x ∈ strip above may l as ↔ x ∈ l ∧ ¬Goes above may l as x := by
  induction as generalizing l with
  | nil =>
    refine (and_iff_left_of_imp fun hx h => ?_).symm
    exact List.not_mem_nil (h x hx (hrefl x)).1
  | cons a as ih =>
    obtain ⟨ha, has⟩ := List.pairwise_cons.1 has
    have hgoes := @goes_stripOne_iff α _ above _ may l as a x htrans ha
    rw [strip_cons, ih has]
    by_cases hout : may a = true ∧ ∀ b ∈ l, above a b → b = a
    · have hone : stripOne above may l a = l.filter (· ≠ a) := if_pos hout
      have hself : Goes above may l (a :: as) a := by
        intro y hy hay
        obtain rfl := hout.2 y hy hay
        exact ⟨List.mem_cons_self, hout.1⟩
      have hmem : x ∈ stripOne above may l a ↔ x ∈ l ∧ x ≠ a := by
        rw [hone, List.mem_filter, decide_eq_true_eq]
      rw [hmem, and_assoc]
      refine and_congr_right fun _ => ?_
      constructor
      · rintro ⟨hxa, hnot⟩
        exact fun h => hnot ((hgoes (.inl hxa)).2 h)
      · intro hnot
        have hxa : x ≠ a := fun h => hnot (h ▸ hself)
        exact ⟨hxa, fun h => hnot ((hgoes (.inl hxa)).1 h)⟩
    · have hone : stripOne above may l a = l := if_neg hout
      rw [hgoes (.inr hone), hone]

end Foundations.Stripping

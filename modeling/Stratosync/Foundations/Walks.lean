import Mathlib.Data.List.Basic
import Mathlib.Logic.Relation
import Mathlib.Order.RelClasses

/-!
# Walks with a stack

A walk takes an element from a stack, puts its children on the stack, and goes on until the stack is
empty. `visit` says which elements it takes. When no chain of children goes on for ever the walk
ends (`exists_visit`), and it has taken what can be reached from the stack (`mem_visit`). Where no
two have a child in common it has taken nothing twice (`nodup_visit`).
-/

namespace Foundations.Walks

open Relation

variable {α : Type*} (children : α → List α)

/-- The elements that are taken, in their order; `none` when there are more than `n`. -/
def visit : ℕ → List α → Option (List α)
  | _, [] => some []
  | 0, _ :: _ => none
  | n + 1, a :: stack => (visit n (children a ++ stack)).map (a :: ·)

/-- The second is a child of the first. -/
def Child (a b : α) : Prop := b ∈ children a

variable {children} {n k : ℕ} {a b : α} {stack rest visited more : List α}

@[simp] theorem visit_nil : visit children n [] = some [] := by
  cases n <;> rfl

theorem visit_cons :
    visit children (n + 1) (a :: stack) =
      (visit children n (children a ++ stack)).map (a :: ·) :=
  rfl

/-- A walk that ends within `n` elements does so within more. -/
theorem visit_mono (hk : n ≤ k) (h : visit children n stack = some visited) :
    visit children k stack = some visited := by
  induction n generalizing k stack visited with
  | zero =>
    cases stack with
    | nil => rwa [visit_nil] at h ⊢
    | cons => cases h
  | succ n ih =>
    cases stack with
    | nil => rwa [visit_nil] at h ⊢
    | cons a stack =>
      obtain ⟨k, rfl⟩ := Nat.exists_eq_add_of_le' hk
      rw [visit_cons] at h
      obtain ⟨visited, hv, rfl⟩ := Option.map_eq_some_iff.1 h
      rw [← Nat.add_assoc, visit_cons, ih (Nat.le_add_left n k) hv, Option.map_some]

/-- A walk over a longer stack goes on where the one over its upper part ends. -/
theorem visit_append (h : visit children n stack = some visited)
    (h' : visit children k rest = some more) :
    visit children (n + k) (stack ++ rest) = some (visited ++ more) := by
  induction n generalizing stack visited with
  | zero =>
    cases stack with
    | nil =>
      obtain rfl := Option.some.inj h
      rwa [Nat.zero_add]
    | cons => cases h
  | succ n ih =>
    cases stack with
    | nil =>
      rw [visit_nil] at h
      obtain rfl := Option.some.inj h
      exact visit_mono (Nat.le_add_left k (n + 1)) h'
    | cons a stack =>
      rw [visit_cons] at h
      obtain ⟨visited, hv, rfl⟩ := Option.map_eq_some_iff.1 h
      rw [Nat.add_right_comm, List.cons_append, visit_cons, ← List.append_assoc, ih hv,
        Option.map_some, List.cons_append]

/-- **A walk ends** when no chain of children goes on for ever. -/
theorem exists_visit (hwf : WellFounded fun b a => Child children a b) (stack : List α) :
    ∃ n visited, visit children n stack = some visited := by
  have hall : ∀ stack : List α, (∀ a ∈ stack, ∃ n visited, visit children n [a] = some visited) →
      ∃ n visited, visit children n stack = some visited := by
    intro stack heach
    induction stack with
    | nil => exact ⟨0, [], rfl⟩
    | cons a stack ih =>
      obtain ⟨n, visited, hn⟩ := heach a List.mem_cons_self
      obtain ⟨k, more, hk⟩ := ih fun b hb => heach b (List.mem_cons_of_mem a hb)
      exact ⟨n + k, visited ++ more, visit_append hn hk⟩
  have hone : ∀ a, ∃ n visited, visit children n [a] = some visited := by
    intro a
    induction a using hwf.induction with
    | _ a ih =>
      obtain ⟨n, visited, hn⟩ := hall (children a) fun b hb => ih b hb
      refine ⟨n + 1, a :: visited, ?_⟩
      rw [visit_cons, List.append_nil, hn, Option.map_some]
  exact hall stack fun a _ => hone a

/-- **What a walk takes** is what can be reached from its stack. -/
theorem mem_visit (h : visit children n stack = some visited) :
    b ∈ visited ↔ ∃ a ∈ stack, ReflTransGen (Child children) a b := by
  induction n generalizing stack visited with
  | zero =>
    cases stack with
    | nil =>
      obtain rfl := Option.some.inj h
      simp
    | cons => cases h
  | succ n ih =>
    cases stack with
    | nil =>
      rw [visit_nil] at h
      obtain rfl := Option.some.inj h
      simp
    | cons a stack =>
      rw [visit_cons] at h
      obtain ⟨visited, hv, rfl⟩ := Option.map_eq_some_iff.1 h
      rw [List.mem_cons, ih hv]
      constructor
      · rintro (rfl | ⟨c, hc, hreach⟩)
        · exact ⟨b, List.mem_cons_self, .refl⟩
        · obtain hc | hc := List.mem_append.1 hc
          · exact ⟨a, List.mem_cons_self, .head hc hreach⟩
          · exact ⟨c, List.mem_cons_of_mem a hc, hreach⟩
      · rintro ⟨c, hc, hreach⟩
        obtain rfl | hc := List.mem_cons.1 hc
        · obtain rfl | ⟨d, hd, hreach⟩ := ReflTransGen.cases_head hreach
          · exact .inl rfl
          · exact .inr ⟨d, List.mem_append_left _ hd, hreach⟩
        · exact .inr ⟨c, List.mem_append_right _ hc, hreach⟩

/-- No element can be reached from its own children. -/
theorem not_child_loop (hwf : WellFounded fun b a => Child children a b)
    (hchild : Child children a b) : ¬ReflTransGen (Child children) b a := by
  intro hreach
  have hloop : TransGen (Child children) a a := .head' hchild hreach
  exact hwf.transGen.asymmetric a a (transGen_swap.2 hloop) (transGen_swap.2 hloop)

/-- No element of the stack is there twice, or can be reached from another. -/
def Apart (children : α → List α) (stack : List α) : Prop :=
  stack.Nodup ∧ ∀ a ∈ stack, ∀ b ∈ stack, ReflTransGen (Child children) a b → a = b

/-- The children of an element are apart where it is, in its place. -/
theorem apart_children (hwf : WellFounded fun b a => Child children a b)
    (honce : ∀ a, (children a).Nodup) (hone : ∀ a a' b, Child children a b → Child children a' b →
      a = a') (h : Apart children (a :: stack)) : Apart children (children a ++ stack) := by
  obtain ⟨hnodup, hapart⟩ := h
  obtain ⟨hnot, hnodup⟩ := List.nodup_cons.1 hnodup
  -- a child is reached through its parent
  have hup : ∀ {b c}, Child children a c → ReflTransGen (Child children) b c → b ≠ c →
      ReflTransGen (Child children) b a := by
    intro b c hc hreach hne
    obtain rfl | ⟨d, hreach, hd⟩ := ReflTransGen.cases_tail hreach
    · exact absurd rfl hne
    · exact hone d a c hd hc ▸ hreach
  refine ⟨List.nodup_append.2 ⟨honce a, hnodup, fun c hc b hb hcb => ?_⟩, ?_⟩
  · obtain rfl := hapart a List.mem_cons_self c (hcb ▸ List.mem_cons_of_mem a hb) (.single hc)
    exact not_child_loop hwf hc .refl
  · intro b hb c hc hreach
    by_contra hne
    obtain hb | hin := List.mem_append.1 hb
    · obtain hc | hc := List.mem_append.1 hc
      · exact not_child_loop hwf hb (hup hc hreach hne)
      · obtain rfl := hapart a List.mem_cons_self c (List.mem_cons_of_mem a hc) (.head hb hreach)
        exact hnot hc
    · obtain hc | hc := List.mem_append.1 hc
      · obtain rfl := hapart b (List.mem_cons_of_mem a hin) a List.mem_cons_self
          (hup hc hreach hne)
        exact hnot hin
      · exact hne (hapart b (List.mem_cons_of_mem a hin) c (List.mem_cons_of_mem a hc) hreach)

/-- **A walk takes nothing twice** when each element is the child of one at most. -/
theorem nodup_visit (hwf : WellFounded fun b a => Child children a b)
    (honce : ∀ a, (children a).Nodup)
    (hone : ∀ a a' b, Child children a b → Child children a' b → a = a')
    (hapart : Apart children stack) (h : visit children n stack = some visited) :
    visited.Nodup := by
  induction n generalizing stack visited with
  | zero =>
    cases stack with
    | nil =>
      obtain rfl := Option.some.inj h
      exact List.nodup_nil
    | cons => cases h
  | succ n ih =>
    cases stack with
    | nil =>
      rw [visit_nil] at h
      obtain rfl := Option.some.inj h
      exact List.nodup_nil
    | cons a stack =>
      rw [visit_cons] at h
      obtain ⟨visited, hv, rfl⟩ := Option.map_eq_some_iff.1 h
      have hchildren := apart_children hwf honce hone hapart
      refine List.nodup_cons.2 ⟨fun ha => ?_, ih hchildren hv⟩
      obtain ⟨b, hb, hreach⟩ := (mem_visit hv).1 ha
      obtain hb | hin := List.mem_append.1 hb
      · exact not_child_loop hwf hb hreach
      · obtain rfl := hapart.2 b (List.mem_cons_of_mem a hin) a List.mem_cons_self hreach
        exact (List.nodup_cons.1 hapart.1).1 hin

end Foundations.Walks

import Mathlib.Data.Set.Insert

/-!
# Reclaiming shared objects

Rows name objects of a store, and several rows may name one. A task that enters a row first makes
the object or finds it there; a task that reclaims objects first condemns one and removes it later.
In between, others take steps.

`Safe` is what keeps the named objects in the store: an object that is found or made is there, and
one that is condemned is named by no row but those about to be dropped, and is not one that another
task has found. Each kind of step keeps it; `find`, `make` and `condemn` are those that have to look
at what the other tasks are about to do.
-/

namespace Foundations.Reclaim

variable {ρ α : Type*}

/-- `names` has the rows with the objects they name, `found` the objects that a row is about to be
entered for, `condemned` those about to be removed, each with the rows to be dropped before. -/
structure Safe (present : Set α) (names : Set (ρ × α)) (found : Set α)
    (condemned : Set (Set ρ × α)) : Prop where
  named : ∀ r a, (r, a) ∈ names → a ∈ present
  kept : found ⊆ present
  spared : ∀ X a, (X, a) ∈ condemned → ∀ r, (r, a) ∈ names → r ∈ X
  apart : ∀ X a, (X, a) ∈ condemned → a ∉ found

variable {p p' : Set α} {n n' : Set (ρ × α)} {f f' : Set α} {c c' : Set (Set ρ × α)} {a : α}

/-- More objects, and less of everything else. -/
theorem Safe.mono (h : Safe p n f c) (hp : p ⊆ p') (hn : n' ⊆ n) (hf : f' ⊆ f) (hc : c' ⊆ c) :
    Safe p' n' f' c' where
  named r a hr := hp (h.named r a (hn hr))
  kept := (hf.trans h.kept).trans hp
  spared X a hX r hr := h.spared X a (hc hX) r (hn hr)
  apart X a hX ha := h.apart X a (hc hX) (hf ha)

/-- An object is found that no task is about to remove. -/
theorem Safe.find (h : Safe p n f c) (ha : a ∈ p) (hc : ∀ X, (X, a) ∉ c) :
    Safe p n (insert a f) c where
  named := h.named
  kept := Set.insert_subset ha h.kept
  spared := h.spared
  apart X b hX hb := by
    obtain rfl | hb := hb
    · exact hc X hX
    · exact h.apart X b hX hb

/-- An object is made that no task is about to remove. -/
theorem Safe.make (h : Safe p n f c) (hc : ∀ X, (X, a) ∉ c) : Safe (insert a p) n (insert a f) c :=
  (h.mono (Set.subset_insert a p) subset_rfl subset_rfl subset_rfl).find (Set.mem_insert a p) hc

/-- A row is entered for an object that was found. -/
theorem Safe.enter (h : Safe p n f c) (ha : a ∈ f) {r : ρ} (hn : n' ⊆ insert (r, a) n) :
    Safe p n' f c where
  named s b hs := by
    obtain hsb | hs := hn hs
    · obtain ⟨-, rfl⟩ := Prod.mk.inj hsb
      exact h.kept ha
    · exact h.named s b hs
  kept := h.kept
  spared X b hX s hs := by
    obtain hsb | hs := hn hs
    · obtain ⟨-, rfl⟩ := Prod.mk.inj hsb
      exact absurd ha (h.apart X b hX)
    · exact h.spared X b hX s hs
  apart := h.apart

/-- Objects are condemned that only the rows to be dropped name and no task has found. -/
theorem Safe.condemn (h : Safe p n f c) {X : Set ρ} {A : Set α}
    (hX : ∀ a ∈ A, ∀ r, (r, a) ∈ n → r ∈ X) (hA : ∀ a ∈ A, a ∉ f) :
    Safe p n f (c ∪ {x | x.1 = X ∧ x.2 ∈ A}) where
  named := h.named
  kept := h.kept
  spared Y b hY := by
    obtain hY | ⟨rfl, hb⟩ := hY
    · exact h.spared Y b hY
    · exact hX b hb
  apart Y b hY := by
    obtain hY | ⟨-, hb⟩ := hY
    · exact h.apart Y b hY
    · exact hA b hb

/-- The rows to be dropped are dropped. -/
theorem Safe.drop (h : Safe p n f c) {X : Set ρ} (hX : (X, a) ∈ c) (hn : n' ⊆ n)
    (hdrop : ∀ r ∈ X, (r, a) ∉ n') : Safe p n' f (c ∪ {x | x.1 = ∅ ∧ x.2 ∈ ({a} : Set α)}) := by
  refine (h.mono subset_rfl hn subset_rfl subset_rfl).condemn ?_ ?_
  · rintro b rfl r hr
    exact absurd hr (hdrop r (h.spared X b hX r (hn hr)))
  · rintro b rfl
    exact h.apart X b hX

/-- A condemned object that no row is to be dropped for is removed. -/
theorem Safe.remove (h : Safe p n f c) (ha : (∅, a) ∈ c) (hp : p \ {a} ⊆ p') : Safe p' n f c where
  named r b hr := by
    refine hp ⟨h.named r b hr, ?_⟩
    rintro rfl
    exact h.spared ∅ b ha r hr
  kept b hb := by
    refine hp ⟨h.kept hb, ?_⟩
    rintro rfl
    exact h.apart ∅ b ha hb
  spared := h.spared
  apart := h.apart

end Foundations.Reclaim

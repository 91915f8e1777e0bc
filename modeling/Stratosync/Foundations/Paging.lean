import Mathlib.Data.List.Sort
import Mathlib.Data.Set.Insert

/-!
# Paging through a list that changes

A client reads a sorted list a page at a time. It remembers how many items it has come past, and
the next page starts at that position of the list as it is then. `Clean` is what a client expects:
no item is returned twice, and the items that were there all the time are returned when the client
comes past them. `clean_page_iff` says when a page keeps this: none of those items has moved from
behind the last item returned to before the position, and none on the page was returned already.
-/

namespace Foundations.Paging

variable {α : Type*}

/-- The client: its position, what it was given, and the items that were there all the time. -/
structure Client (α : Type*) where
  pos : ℕ
  returned : List α
  present : Set α

namespace Client

variable (c : Client α)

/-- A page of at most `n` items of the list. -/
def page (l : List α) (n : ℕ) : List α := (l.drop c.pos).take n

/-- The client after a page. -/
def turn (l : List α) (n : ℕ) : Client α :=
  { c with pos := c.pos + (c.page l n).length, returned := c.returned ++ c.page l n }

/-- The client after the list has become `l`. -/
def see (l : List α) : Client α := { c with present := {a ∈ c.present | a ∈ l} }

/-- Nothing was returned twice, and what the client has come past in the list and was there all the
time was returned. -/
structure Clean (l : List α) : Prop where
  nodup : c.returned.Nodup
  passed : ∀ a ∈ l.take c.pos, a ∈ c.present → a ∈ c.returned

variable {c} {l : List α} {n : ℕ}

theorem take_turn : l.take (c.turn l n).pos = l.take c.pos ++ c.page l n := by
  rw [turn, List.take_add]
  congr 1
  rw [page, List.length_take, List.take_eq_take_min, min_eq_left (min_le_right _ _)]
  exact (List.take_eq_take_min ..).symm

theorem page_sublist : (c.page l n).Sublist l :=
  (List.take_sublist _ _).trans (List.drop_sublist _ _)

/-- A client that has come past the whole list was given all items that were there all the time. -/
theorem Clean.complete (h : c.Clean l) (hpos : l.length ≤ c.pos) {a : α} (ha : a ∈ c.present)
    (hl : a ∈ l) : a ∈ c.returned :=
  h.passed a (by rwa [List.take_of_length_le hpos]) ha

section LinearOrder

variable [LinearOrder α]

/-- No item that was there all the time has come before the position from behind the items
returned, and no item of the page was returned. -/
structure Aligned (c : Client α) (l : List α) (n : ℕ) : Prop where
  before : ∀ a ∈ l.take c.pos, a ∈ c.present → ∃ b ∈ c.returned, a ≤ b
  fresh : ∀ a ∈ c.page l n, a ∉ c.returned

/-- What a client that was given clean pages knows of its items. -/
structure Inv (c : Client α) : Prop where
  nodup : c.returned.Nodup
  below : ∀ a ∈ c.present, ∀ b ∈ c.returned, a ≤ b → a ∈ c.returned

/-- In a sorted list, what is below an item of its first part is in this part. -/
theorem mem_take_of_le (hl : l.Pairwise (· < ·)) {k : ℕ} {a b : α} (hb : b ∈ l.take k)
    (ha : a ∈ l) (hab : a ≤ b) : a ∈ l.take k := by
  rw [← List.take_append_drop k l] at hl ha
  obtain ha | ha := List.mem_append.1 ha
  · exact ha
  · exact absurd ((List.pairwise_append.1 hl).2.2 b hb a ha) hab.not_gt

/-- **A page is clean** if and only if it is aligned. -/
theorem clean_page_iff (hl : l.Pairwise (· < ·)) (hc : c.Inv) :
    (c.turn l n).Clean l ↔ c.Aligned l n := by
  constructor
  · rintro ⟨hnodup, hpassed⟩
    obtain ⟨-, -, hdisjoint⟩ := List.nodup_append.1 hnodup
    refine ⟨fun a ha hp => ?_, fun a ha hr => hdisjoint a hr a ha rfl⟩
    have hr := hpassed a (take_turn ▸ List.mem_append_left _ ha) hp
    obtain hr | hpage := List.mem_append.1 hr
    · exact ⟨a, hr, le_rfl⟩
    · have hdrop := List.mem_of_mem_take hpage
      rw [← List.take_append_drop c.pos l] at hl
      exact absurd ((List.pairwise_append.1 hl).2.2 a ha a hdrop) (lt_irrefl a)
  · rintro ⟨hbefore, hfresh⟩
    have hpage : (c.page l n).Nodup := (hl.imp fun h => h.ne).sublist page_sublist
    constructor
    · refine List.nodup_append.2 ⟨hc.nodup, hpage, ?_⟩
      rintro a hr b hp rfl
      exact hfresh a hp hr
    · intro a ha hp
      rw [take_turn] at ha
      obtain ha | ha := List.mem_append.1 ha
      · obtain ⟨b, hb, hab⟩ := hbefore a ha hp
        exact List.mem_append_left _ (hc.below a hp b hb hab)
      · exact List.mem_append_right _ ha

/-- A clean page leaves the client with what it knows. -/
theorem Inv.turn (hl : l.Pairwise (· < ·)) (hc : c.Inv) (hp : ∀ a ∈ c.present, a ∈ l)
    (h : (c.turn l n).Clean l) : (c.turn l n).Inv := by
  refine ⟨h.nodup, fun a ha b hb hab => ?_⟩
  obtain hb | hb := List.mem_append.1 hb
  · exact List.mem_append_left _ (hc.below a ha b hb hab)
  · have htake : b ∈ l.take (c.turn l n).pos := take_turn ▸ List.mem_append_right _ hb
    exact h.passed a (mem_take_of_le hl htake (hp a ha) hab) ha

theorem Inv.see (hc : c.Inv) : (c.see l).Inv :=
  ⟨hc.nodup, fun a ha => hc.below a ha.1⟩

end LinearOrder

end Client

end Foundations.Paging

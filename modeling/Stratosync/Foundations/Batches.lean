import Mathlib.Algebra.GroupWithZero.Nat
import Mathlib.Algebra.Order.BigOperators.Group.List
import Mathlib.Data.List.Infix

/-!
# Draining a queue in batches

A loop takes items from the front of a queue until what it gains reaches a goal. It looks at a
batch of the queue at a time; a pass over the batch that gains nothing ends the loop, and so does a
batch it cannot read. `Drains gain readable b goal l rest` is such a loop, which started with the
queue `l` and leaves `rest`.

`drains_iff` says when it does what it is for: it reaches the goal or leaves no wanted item, if and
only if no batch that it comes to has ended it with a wanted item behind.
-/

namespace Foundations.Batches

variable {α : Type*}

/-- What the items of a list gain. -/
def total (gain : α → ℕ) (l : List α) : ℕ := (l.map gain).sum

/-- The number of items a pass takes from the front. -/
def cut (gain : α → ℕ) : ℕ → List α → ℕ
  | _, [] => 0
  | 0, _ :: _ => 0
  | goal + 1, a :: l => cut gain (goal + 1 - gain a) l + 1

/-- The loop, from a queue to what it leaves of it. -/
inductive Drains (gain : α → ℕ) (readable : α → Prop) (b : ℕ) : ℕ → List α → List α → Prop
  | reached {l} : Drains gain readable b 0 l l
  | empty {goal} : Drains gain readable b goal [] []
  | unreadable {goal l} (hg : 0 < goal) (hr : ¬∀ a ∈ l.take b, readable a) :
      Drains gain readable b goal l l
  | stuck {goal l} (hg : 0 < goal) (hr : ∀ a ∈ l.take b, readable a)
      (h0 : total gain (l.take b) = 0) : Drains gain readable b goal l (l.drop b)
  | pass {goal l rest} (hg : 0 < goal) (hr : ∀ a ∈ l.take b, readable a) {n : ℕ}
      (hn : n = cut gain goal (l.take b)) (hpos : 0 < total gain (l.take n))
      (h : Drains gain readable b (goal - total gain (l.take n)) (l.drop n) rest) :
      Drains gain readable b goal l rest

/-- Where the batches before it have not reached the goal, a batch has no wanted item at it or
behind, or it can be read and gains something, unless there is no wanted item behind it. -/
def Free (gain : α → ℕ) (readable wanted : α → Prop) (b goal : ℕ) (l : List α) : Prop :=
  ∀ k, total gain (l.take (b * k)) < goal →
    (∀ a ∈ l.drop (b * k), ¬wanted a) ∨
      (∀ a ∈ (l.drop (b * k)).take b, readable a) ∧
        (0 < total gain ((l.drop (b * k)).take b) ∨ ∀ a ∈ l.drop (b * (k + 1)), ¬wanted a)

variable {gain : α → ℕ} {readable wanted : α → Prop} {b goal : ℕ} {l rest : List α}

/-! ## What is gained -/

@[simp] theorem total_nil : total gain [] = 0 := rfl

@[simp] theorem total_cons (a : α) (l : List α) : total gain (a :: l) = gain a + total gain l := by
  simp [total]

theorem total_append (l l' : List α) : total gain (l ++ l') = total gain l + total gain l' := by
  simp [total]

theorem total_take_add_drop (n : ℕ) (l : List α) :
    total gain (l.take n) + total gain (l.drop n) = total gain l := by
  rw [← total_append, List.take_append_drop]

theorem total_take_add (m n : ℕ) (l : List α) :
    total gain (l.take (m + n)) = total gain (l.take m) + total gain ((l.drop m).take n) := by
  rw [List.take_add, total_append]

theorem total_take_le {m n : ℕ} (h : m ≤ n) (l : List α) :
    total gain (l.take m) ≤ total gain (l.take n) := by
  obtain ⟨k, rfl⟩ := Nat.exists_eq_add_of_le h
  rw [total_take_add]
  exact Nat.le_add_right _ _

@[simp] theorem cut_zero (l : List α) : cut gain 0 l = 0 := by
  cases l <;> rfl

theorem cut_le (goal : ℕ) (l : List α) : cut gain goal l ≤ l.length := by
  induction l generalizing goal with
  | nil => exact Nat.zero_le _
  | cons a l ih =>
    cases goal with
    | zero => exact Nat.zero_le _
    | succ goal => exact Nat.succ_le_succ (ih _)

/-- A pass takes the whole list or reaches the goal. -/
theorem cut_eq_length (goal : ℕ) (l : List α) (h : total gain (l.take (cut gain goal l)) < goal) :
    cut gain goal l = l.length := by
  induction l generalizing goal with
  | nil => rfl
  | cons a l ih =>
    cases goal with
    | zero => exact absurd h (Nat.not_lt_zero _)
    | succ goal =>
      rw [cut, List.take_succ_cons, total_cons] at h
      rw [cut, List.length_cons, ih _ (by omega)]

theorem cut_take_le : cut gain goal (l.take b) ≤ b := (cut_le _ _).trans (List.length_take_le _ _)

theorem take_cut :
    (l.take b).take (cut gain goal (l.take b)) = l.take (cut gain goal (l.take b)) := by
  rw [List.take_take, min_eq_left cut_take_le]

theorem drop_cut :
    (l.take b).drop (cut gain goal (l.take b)) ++ l.drop b =
      l.drop (cut gain goal (l.take b)) := by
  rw [← List.drop_append_of_le_length (cut_le _ _), List.take_append_drop]

/-- A pass that does not reach the goal takes its batch. -/
theorem batch_of_lt (h : total gain (l.take (cut gain goal (l.take b))) < goal) :
    l.take (cut gain goal (l.take b)) = l.take b ∧
      l.drop (cut gain goal (l.take b)) = l.drop b := by
  have hfull := cut_eq_length goal (l.take b) (by rwa [take_cut])
  constructor
  · rw [← take_cut, hfull, List.take_length]
  · rw [← drop_cut, hfull, List.drop_length, List.nil_append]

/-! ## The end of the loop -/

theorem Drains.total_le (h : Drains gain readable b goal l rest) :
    total gain rest ≤ total gain l := by
  induction h with
  | reached | empty | unreadable => exact le_rfl
  | @stuck goal l hg hr h0 =>
    rw [← total_take_add_drop b l]
    exact Nat.le_add_left _ _
  | @pass goal l rest hg hr n hn hpos _ ih =>
    rw [← total_take_add_drop n l]
    exact ih.trans (Nat.le_add_left _ _)

theorem forall_mem_drop {p : α → Prop} {m n : ℕ} (h : ∀ a ∈ l.drop m, p a) (hmn : m ≤ n) :
    ∀ a ∈ l.drop n, p a := by
  obtain ⟨k, rfl⟩ := Nat.exists_eq_add_of_le hmn
  rw [← List.drop_drop]
  exact fun a ha => h a (List.mem_of_mem_drop ha)

/-- With no wanted item behind the first batch, it is enough to look at that batch. -/
theorem free_of_drop (hg : 0 < goal) (hw : ∀ a ∈ l.drop b, ¬wanted a) :
    Free gain readable wanted b goal l ↔
      (∀ a ∈ l, ¬wanted a) ∨ ∀ a ∈ l.take b, readable a := by
  constructor
  · intro h
    simpa [hw] using (h 0 (by simpa using hg)).imp id And.left
  · intro h k hk
    cases k with
    | zero =>
      have hnext : ∀ a ∈ l.drop (b * (0 + 1)), ¬wanted a := by simpa using hw
      exact (h.imp (by simp) fun hr => ⟨by simpa using hr, .inr hnext⟩)
    | succ k => exact .inl (forall_mem_drop hw (Nat.le_mul_of_pos_right b (Nat.succ_pos k)))

/-- After a batch that does not reach the goal, the rest is what matters. -/
theorem free_drop_iff (hr : ∀ a ∈ l.take b, readable a) (hpos : 0 < total gain (l.take b)) :
    Free gain readable wanted b goal l ↔
      Free gain readable wanted b (goal - total gain (l.take b)) (l.drop b) := by
  have hmul : ∀ k, b * (k + 1) = b + b * k := fun k => by rw [Nat.mul_succ, Nat.add_comm]
  constructor
  · intro h k hk
    have hk' : total gain (l.take (b * (k + 1))) < goal := by
      rw [hmul, total_take_add]
      omega
    simpa only [List.drop_drop, ← hmul] using h (k + 1) hk'
  · intro h k hk
    cases k with
    | zero => exact .inr ⟨by simpa using hr, .inl (by simpa using hpos)⟩
    | succ k =>
      rw [hmul, total_take_add] at hk
      simpa only [List.drop_drop, ← hmul] using h k (by omega)

/-- **The loop reaches the goal or leaves no wanted item** if and only if no batch has stopped it
with a wanted item behind. -/
theorem drains_iff (h : Drains gain readable b goal l rest) :
    (goal + total gain rest ≤ total gain l ∨ ∀ a ∈ rest, ¬wanted a) ↔
      Free gain readable wanted b goal l := by
  induction h with
  | reached => exact iff_of_true (.inl (by simp)) fun k hk => absurd hk (Nat.not_lt_zero _)
  | empty => exact iff_of_true (.inr (by simp)) fun k hk => .inl (by simp)
  | @unreadable goal l hg hr =>
    rw [or_iff_right (by omega)]
    constructor
    · exact fun hw k _ => .inl fun a ha => hw a (List.mem_of_mem_drop ha)
    · intro hf
      obtain hw | ⟨hread, -⟩ := hf 0 (by simpa using hg)
      · simpa using hw
      · exact absurd (by simpa using hread) hr
  | @stuck goal l hg hr h0 =>
    have hsum : total gain (l.take b) + total gain (l.drop b) = total gain l :=
      total_take_add_drop b l
    rw [or_iff_right (by omega)]
    constructor
    · exact fun hw => (free_of_drop hg hw).2 (.inr hr)
    · intro hf
      obtain hw | ⟨-, hpos | hw⟩ := hf 0 (by simpa using hg)
      · exact fun a ha => hw a (by simpa using List.mem_of_mem_drop ha)
      · simp [h0] at hpos
      · simpa using hw
  | @pass goal l rest hg hr n hn hpos h ih =>
    have hnb : n ≤ b := hn ▸ cut_take_le
    have hsum : total gain (l.take n) + total gain (l.drop n) = total gain l :=
      total_take_add_drop n l
    by_cases hreach : goal ≤ total gain (l.take n)
    · have htotal := h.total_le
      refine iff_of_true (.inl (by omega)) fun k hk => ?_
      cases k with
      | zero =>
        refine .inr ⟨by simpa using hr, .inl ?_⟩
        simpa using hpos.trans_le (total_take_le hnb l)
      | succ k =>
        have hmono : total gain (l.take n) ≤ total gain (l.take (b * (k + 1))) :=
          total_take_le (hnb.trans (Nat.le_mul_of_pos_right b (Nat.succ_pos k))) l
        omega
    · obtain ⟨hbatch, hdrop⟩ : l.take n = l.take b ∧ l.drop n = l.drop b := by
        subst hn
        exact batch_of_lt (Nat.not_le.1 hreach)
      rw [hbatch, hdrop] at ih
      rw [hbatch] at hpos hsum hreach
      rw [hdrop] at hsum
      rw [free_drop_iff hr hpos, ← ih]
      exact or_congr_left (by omega)

end Foundations.Batches

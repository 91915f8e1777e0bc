import Stratosync.Foundations.Search

/-!
# Cutting marked-up text

Text that is cut at every occurrence of a pattern (`pieces`). A mark is a pattern that begins with
a delimiter and has it nowhere else, as a tag does: it occurs in a text that is put together from
parts exactly when it occurs in one of them, if the parts begin with the delimiter
(`infix_append_iff`) or do not have it at all (`infix_append_of_notMem`).
-/

namespace Foundations.Markup

open Foundations.Search

variable {α : Type*} {d e : α} {pat a b s t : List α}

/-! ## Marks -/

/-- The pattern begins with the delimiter and has it nowhere else. -/
def Mark (d : α) (pat : List α) : Prop := ∃ t, pat = d :: t ∧ d ∉ t

theorem Mark.ne_nil (h : Mark d pat) : pat ≠ [] := by
  obtain ⟨t, rfl, -⟩ := h
  exact List.cons_ne_nil d t

/-- A mark does not occur in text without the delimiter. -/
theorem infix_append_of_notMem (hpat : Mark d pat) (ha : d ∉ a) :
    pat <:+: a ++ s ↔ pat <:+: s := by
  obtain ⟨t, rfl, -⟩ := hpat
  induction a with
  | nil => rfl
  | cons c a ih =>
    obtain ⟨hc, ha⟩ := not_or.1 (mt List.mem_cons.2 ha)
    rw [List.cons_append, List.infix_cons_iff, List.cons_prefix_cons, ih ha]
    exact or_iff_right fun h => hc h.1

theorem not_infix_of_notMem (hpat : Mark d pat) (ha : d ∉ a) : ¬pat <:+: a := by
  obtain ⟨t, rfl, -⟩ := hpat
  exact fun h => ha (h.subset List.mem_cons_self)

/-- A mark does not go on into text that begins with the delimiter. -/
theorem prefix_append_iff (hpat : Mark d pat) (ha : a ≠ []) (hs : s = [] ∨ ∃ u, s = d :: u) :
    pat <+: a ++ s ↔ pat <+: a := by
  refine ⟨fun h => ?_, fun h => h.trans (List.prefix_append a s)⟩
  rcases hs with rfl | ⟨u, rfl⟩
  · simpa using h
  rcases List.prefix_or_prefix_of_prefix h (List.prefix_append a (d :: u)) with h' | ⟨r, rfl⟩
  · exact h'
  -- what is left of the mark would begin with the delimiter
  obtain ⟨t, ht, hd⟩ := hpat
  rw [List.prefix_append_right_inj] at h
  cases r with
  | nil => simp
  | cons c r =>
    obtain ⟨rfl, -⟩ := List.cons_prefix_cons.1 h
    cases a with
    | nil => exact absurd rfl ha
    | cons x a =>
      obtain ⟨-, rfl⟩ := List.cons.inj ht
      simp at hd

/-- So it occurs in a part or not at all. -/
theorem infix_append_iff (hpat : Mark d pat) (hs : s = [] ∨ ∃ u, s = d :: u) :
    pat <:+: a ++ s ↔ pat <:+: a ∨ pat <:+: s := by
  induction a with
  | nil => simp [hpat.ne_nil]
  | cons c a ih =>
    rw [List.infix_cons_iff, or_assoc, ← ih, List.cons_append, List.infix_cons_iff,
      ← List.cons_append, prefix_append_iff hpat (List.cons_ne_nil c a) hs]

/-- A mark occurs at a part's beginning, or in what follows the part. -/
theorem infix_cons_append_iff (hpat : Mark d pat) (ha : d ∉ a) :
    pat <:+: d :: a ++ s ↔ pat <+: d :: a ++ s ∨ pat <:+: s := by
  rw [List.cons_append, List.infix_cons_iff, infix_append_of_notMem hpat ha]

/-- Names that end with the same sign, which neither has, are the same if one begins the other. -/
theorem concat_prefix_append_iff (ha : e ∉ a) (hb : e ∉ b) :
    a ++ [e] <+: b ++ e :: s ↔ a = b := by
  induction a generalizing b with
  | nil =>
    cases b with
    | nil => simp
    | cons y b =>
      have hy : e ≠ y := fun h => hb (h ▸ List.mem_cons_self)
      simp [hy]
  | cons x a ih =>
    cases b with
    | nil =>
      have hx : x ≠ e := fun h => ha (h ▸ List.mem_cons_self)
      simp [hx]
    | cons y b =>
      rw [List.cons_append, List.cons_append, List.cons_prefix_cons, List.cons.injEq,
        ih (fun h => ha (List.mem_cons_of_mem x h)) fun h => hb (List.mem_cons_of_mem y h)]

/-- A name that ends where another goes on does not begin it. -/
theorem not_concat_prefix_append {w : α} (hw : w ∉ a) (hb : e ∉ b) (he : e ≠ w) :
    ¬a ++ [e] <+: b ++ w :: s := by
  induction a generalizing b with
  | nil =>
    cases b with
    | nil => simp [he]
    | cons y b =>
      have hy : e ≠ y := fun h => hb (h ▸ List.mem_cons_self)
      simp [hy]
  | cons x a ih =>
    obtain ⟨hx, hw⟩ := not_or.1 (mt List.mem_cons.2 hw)
    cases b with
    | nil => simp [Ne.symm hx]
    | cons y b =>
      rw [List.cons_append, List.cons_append, List.cons_prefix_cons]
      exact fun h => ih hw (fun h => hb (List.mem_cons_of_mem y h)) h.2

/-! ## Pieces -/

section

variable [DecidableEq α]

/-- `pieces`, for as many cuts as the fuel allows. -/
def cut (pat : List α) : ℕ → List α → List (List α)
  | 0, s => [s]
  | fuel + 1, s =>
    match before pat s with
    | none => [s]
    | some a => a :: cut pat fuel (s.drop (a.length + pat.length))

/-- What is before, between and after the occurrences of the pattern. -/
def pieces (pat s : List α) : List (List α) := cut pat s.length s

theorem length_before (h : before pat s = some a) : a.length + pat.length ≤ s.length := by
  have := (before_spec h).length_le
  rwa [List.length_append] at this

/-- More fuel than the text is long changes nothing. -/
theorem cut_eq (hpat : pat ≠ []) {fuel : ℕ} (h : s.length ≤ fuel) :
    cut pat fuel s = pieces pat s := by
  have hpos := List.length_pos_iff.2 hpat
  have hcut : ∀ (n m : ℕ) (s : List α), s.length ≤ n → s.length ≤ m →
      cut pat n s = cut pat m s := by
    intro n
    induction n with
    | zero =>
      intro m s hn hm
      obtain rfl := List.length_eq_zero_iff.1 (Nat.le_zero.1 hn)
      cases m with
      | zero => rfl
      | succ m => rw [cut, cut, before, if_neg hpat]
    | succ n ih =>
      intro m s hn hm
      cases m with
      | zero =>
        obtain rfl := List.length_eq_zero_iff.1 (Nat.le_zero.1 hm)
        rw [cut, cut, before, if_neg hpat]
      | succ m =>
        rw [cut, cut]
        cases hb : before pat s with
        | none => rfl
        | some a =>
          have hlen := length_before hb
          refine congrArg (a :: ·) (ih m _ ?_ ?_) <;> rw [List.length_drop] <;> omega
  exact hcut fuel s.length s h le_rfl

theorem pieces_of_not_infix (h : ¬pat <:+: s) : pieces pat s = [s] := by
  rw [pieces]
  cases s.length with
  | zero => rfl
  | succ n => rw [cut, before_eq_none.2 h]

/-- The text before the first occurrence of a mark. -/
theorem before_mark (hpat : Mark d pat) (ha : ¬pat <:+: a) :
    before pat (a ++ (pat ++ s)) = some a := by
  refine (before_append_iff hpat.ne_nil).2 fun h => ?_
  have hstart : pat.dropLast = [] ∨ ∃ u, pat.dropLast = d :: u := by
    obtain ⟨t, rfl, -⟩ := hpat
    cases t with
    | nil => exact .inl rfl
    | cons c t => exact .inr ⟨_, rfl⟩
  have hshort : ¬pat <:+: pat.dropLast := by
    intro h
    have hle := h.length_le
    have hpos := List.length_pos_iff.2 hpat.ne_nil
    rw [List.length_dropLast] at hle
    omega
  exact ((infix_append_iff hpat hstart).1 h).elim ha hshort

/-- A text is cut at a mark. -/
theorem pieces_mark (hpat : Mark d pat) (ha : ¬pat <:+: a) :
    pieces pat (a ++ (pat ++ s)) = a :: pieces pat s := by
  have hpos := List.length_pos_iff.2 hpat.ne_nil
  have hlen : (a ++ (pat ++ s)).length = (a.length + pat.length - 1 + s.length) + 1 := by
    simp only [List.length_append]
    omega
  rw [pieces, hlen, cut, before_mark hpat ha]
  dsimp only
  rw [← List.length_append, ← List.append_assoc, List.drop_left, cut_eq hpat.ne_nil (by omega)]

end

end Foundations.Markup

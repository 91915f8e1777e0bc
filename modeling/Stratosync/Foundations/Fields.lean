import Mathlib.Data.List.Infix

/-!
# Fields of separated text

The non-empty fields of a text whose fields are separated by `sep`, as a path has its components.
A text `r` that begins a longer one need not end a field there. `fields_append_of_begins`: it does
when the fields of `r` begin those of the longer text.

`fields_append_iff`: what it is for two texts that their fields are those of the text they make.

`infix_intercalate_iff`: what has no separator in it occurs in joined fields if and only if it
occurs in one of them. `concat_prefix_intercalate_iff`: a field with a separator behind it begins
joined fields if and only if it is the first of them and not the only one.
-/

namespace Foundations.Fields

/-! ## Joined fields -/

section Join

variable {α : Type*} {sep : α} {w a b : List α} {fs : List (List α)}

/-- What has no separator in it begins a text before the first separator or not at all. -/
theorem prefix_append_cons_iff (hw : sep ∉ w) : w <+: a ++ sep :: b ↔ w <+: a := by
  refine ⟨fun h => ?_, fun h => h.trans (List.prefix_append _ _)⟩
  obtain hwa | ⟨t, rfl⟩ := List.prefix_or_prefix_of_prefix h (List.prefix_append a (sep :: b))
  · exact hwa
  rw [List.prefix_append_right_inj] at h
  cases t with
  | nil => simp
  | cons c t =>
    obtain ⟨rfl, -⟩ := List.cons_prefix_cons.1 h
    simp at hw

theorem infix_append_cons_iff (hw : sep ∉ w) (hne : w ≠ []) :
    w <:+: a ++ sep :: b ↔ w <:+: a ∨ w <:+: b := by
  induction a with
  | nil =>
    have hpre : ¬w <+: sep :: b := by
      rw [← List.nil_append (sep :: b), prefix_append_cons_iff hw]
      simpa using hne
    rw [List.nil_append, List.infix_cons_iff, or_iff_right hpre, List.infix_nil, or_iff_right hne]
  | cons c a ih =>
    rw [List.cons_append, List.infix_cons_iff, ih, List.infix_cons_iff, ← List.cons_append,
      prefix_append_cons_iff hw, or_assoc]

theorem infix_intercalate_iff (hw : sep ∉ w) (hne : w ≠ []) :
    w <:+: [sep].intercalate fs ↔ ∃ f ∈ fs, w <:+: f := by
  induction fs with
  | nil => simpa using hne
  | cons f fs ih =>
    by_cases hfs : fs = []
    · simp [hfs]
    · rw [List.intercalate_cons_of_ne_nil hfs, List.append_assoc, List.singleton_append,
        infix_append_cons_iff hw hne, ih, List.exists_mem_cons_iff]

theorem concat_prefix_append_cons_iff (hw : sep ∉ w) (ha : sep ∉ a) :
    w ++ [sep] <+: a ++ sep :: b ↔ w = a := by
  constructor
  · intro h
    have hwa := (prefix_append_cons_iff hw).1 ((List.prefix_append w [sep]).trans h)
    obtain ⟨t, rfl⟩ := hwa
    rw [List.append_assoc, List.prefix_append_right_inj] at h
    cases t with
    | nil => simp
    | cons c t =>
      obtain ⟨rfl, -⟩ := List.cons_prefix_cons.1 h
      simp at ha
  · rintro rfl
    exact (List.prefix_append_right_inj w).2 (List.cons_prefix_cons.2 ⟨rfl, List.nil_prefix⟩)

theorem concat_prefix_intercalate_iff (hw : sep ∉ w) (ha : sep ∉ a) :
    w ++ [sep] <+: [sep].intercalate (a :: fs) ↔ w = a ∧ fs ≠ [] := by
  by_cases hfs : fs = []
  · have hno : ¬w ++ [sep] <+: a := fun h => ha (h.subset (by simp))
    simpa [hfs] using hno
  · rw [List.intercalate_cons_of_ne_nil hfs, List.append_assoc, List.singleton_append,
      concat_prefix_append_cons_iff hw ha, and_iff_left hfs]

theorem intercalate_append_of_ne_nil {gs : List (List α)} (hfs : fs ≠ []) (hgs : gs ≠ []) :
    [sep].intercalate (fs ++ gs) = [sep].intercalate fs ++ sep :: [sep].intercalate gs := by
  induction fs with
  | nil => exact absurd rfl hfs
  | cons f fs ih =>
    by_cases hnil : fs = []
    · rw [hnil, List.singleton_append, List.intercalate_cons_of_ne_nil hgs, List.append_assoc,
        List.singleton_append, List.intercalate_singleton]
    · have hne : fs ++ gs ≠ [] := List.append_ne_nil_of_right_ne_nil fs hgs
      rw [List.cons_append, List.intercalate_cons_of_ne_nil hne, ih hnil,
        List.intercalate_cons_of_ne_nil hnil, List.append_assoc _ _ (sep :: _)]

end Join

/-! ## The fields of a text -/

variable {α : Type*} [DecidableEq α] (sep : α)

/-- The non-empty fields. -/
def fields (s : List α) : List (List α) := (s.splitOn sep).filter (· ≠ [])

@[simp] theorem fields_nil : fields sep [] = [] := by
  simp [fields]

theorem fields_append_cons (r s : List α) :
    fields sep (r ++ sep :: s) = fields sep r ++ fields sep s := by
  rw [fields, List.splitOn_append_cons_self, List.filter_append]
  rfl

@[simp] theorem fields_cons_self (s : List α) : fields sep (sep :: s) = fields sep s := by
  simpa using fields_append_cons sep [] s

variable {sep} {r s : List α}

theorem not_mem_of_mem_splitOn {f : List α} (hf : f ∈ s.splitOn sep) : sep ∉ f := by
  induction s generalizing f with
  | nil =>
    rw [List.splitOn_nil, List.mem_singleton] at hf
    exact hf ▸ List.not_mem_nil
  | cons c s ih =>
    rw [List.splitOn_cons_eq_if_modifyHead] at hf
    split at hf
    · obtain rfl | hf := List.mem_cons.1 hf
      · exact List.not_mem_nil
      · exact ih hf
    · rename_i hc
      obtain ⟨g, gs, hsplit⟩ := List.exists_cons_of_ne_nil (List.splitOn_ne_nil sep s)
      rw [hsplit] at hf ih
      obtain rfl | hf := List.mem_cons.1 hf
      · have hg : sep ∉ g := ih List.mem_cons_self
        rintro (_ | ⟨_, hmem⟩)
        · exact hc BEq.rfl
        · exact hg hmem
      · exact ih (List.mem_cons_of_mem _ hf)

theorem not_mem_of_mem_fields {f : List α} (hf : f ∈ fields sep s) : sep ∉ f :=
  not_mem_of_mem_splitOn (List.mem_filter.1 hf).1

theorem fields_of_not_mem (h : sep ∉ s) : fields sep s = if s = [] then [] else [s] := by
  rw [fields, List.splitOn_eq_singleton h]
  split <;> simp [*]

/-- A text without an empty field has all of them for its fields. -/
theorem fields_eq_splitOn (h : [] ∉ s.splitOn sep) : fields sep s = s.splitOn sep := by
  rw [fields, List.filter_eq_self]
  intro f hf
  simp only [decide_eq_true_eq]
  rintro rfl
  exact h hf

/-- Separators before the first field do not count. -/
theorem fields_dropWhile (s : List α) : fields sep (s.dropWhile (· = sep)) = fields sep s := by
  induction s with
  | nil => rfl
  | cons a s ih =>
    by_cases ha : a = sep
    · subst ha
      rw [List.dropWhile_cons_of_pos (by simp), ih, fields_cons_self]
    · rw [List.dropWhile_cons_of_neg (by simpa using ha)]

/-- A single field that begins a text begins its fields only if it is the first of them. -/
theorem fields_append_of_not_mem (hr : sep ∉ r) (h : fields sep r <+: fields sep (r ++ s)) :
    fields sep (r ++ s) = fields sep r ++ fields sep s := by
  by_cases hnil : r = []
  · simp [hnil]
  -- the first field of the longer text is `r` and what follows up to a separator
  have hfirst : ∀ t rest, sep ∉ t → fields sep r <+: fields sep (r ++ t) ++ rest → t = [] := by
    intro t rest ht hpre
    rw [fields_of_not_mem hr, fields_of_not_mem (s := r ++ t) (by simp [hr, ht]), if_neg hnil,
      if_neg (by simp [hnil]), List.cons_append, List.cons_prefix_cons] at hpre
    simpa using hpre.1
  by_cases hs : sep ∈ s
  · obtain ⟨t, b, rfl, ht⟩ := List.eq_append_cons_of_mem hs
    rw [← List.append_assoc, fields_append_cons] at h ⊢
    obtain rfl := hfirst t _ ht h
    simp
  · obtain rfl := hfirst s [] hs (by simpa using h)
    simp

/-- **A text that begins with the fields of `r`, and with `r`, ends a field there.** -/
theorem fields_append_of_begins (h : fields sep r <+: fields sep (r ++ s)) :
    fields sep (r ++ s) = fields sep r ++ fields sep s := by
  by_cases hr : sep ∈ r
  · -- the last separator of `r`
    obtain ⟨c, a, hrev, hc⟩ := List.eq_append_cons_of_mem (List.mem_reverse.2 hr)
    obtain rfl : r = a.reverse ++ sep :: c.reverse := by
      simpa using congrArg List.reverse hrev
    simp only [List.append_assoc, List.cons_append, fields_append_cons] at h ⊢
    rw [List.prefix_append_right_inj] at h
    rw [fields_append_of_not_mem (by simpa using hc) h]
  · exact fields_append_of_not_mem hr h

/-! ## Where a text may be cut -/

/-- No field of the text `r ++ s` goes over the place where `r` ends. -/
def Cut (sep : α) (r s : List α) : Prop :=
  r = [] ∨ s = [] ∨ r.getLast? = some sep ∨ s.head? = some sep

instance (r s : List α) : Decidable (Cut sep r s) := inferInstanceAs (Decidable (_ ∨ _ ∨ _ ∨ _))

/-- Whatever follows a text that ends inside of a field, the field goes on. -/
theorem fields_append_of_getLast (hr : r ≠ []) (hlast : r.getLast? ≠ some sep) :
    ∃ fs w, w ≠ [] ∧ sep ∉ w ∧ ∀ t, fields sep (r ++ t) = fs ++ fields sep (w ++ t) := by
  by_cases hmem : sep ∈ r
  · obtain ⟨c, a, hrev, hc⟩ := List.eq_append_cons_of_mem (List.mem_reverse.2 hmem)
    obtain rfl : r = a.reverse ++ sep :: c.reverse := by
      simpa using congrArg List.reverse hrev
    refine ⟨fields sep a.reverse, c.reverse, ?_, by simpa using hc, fun t => ?_⟩
    · intro hnil
      simp [hnil] at hlast
    · rw [List.append_assoc, List.cons_append, fields_append_cons]
  · exact ⟨[], r, hr, hmem, fun t => rfl⟩

/-- Whatever precedes a text that begins inside of a field belongs to the field. -/
theorem fields_append_of_head (hs : s ≠ []) (hhead : s.head? ≠ some sep) :
    ∃ v fs, v ≠ [] ∧ sep ∉ v ∧ ∀ t, fields sep (t ++ s) = fields sep (t ++ v) ++ fs := by
  by_cases hmem : sep ∈ s
  · obtain ⟨v, b, rfl, hv⟩ := List.eq_append_cons_of_mem hmem
    refine ⟨v, fields sep b, ?_, hv, fun t => ?_⟩
    · rintro rfl
      simp at hhead
    · rw [← List.append_assoc, fields_append_cons]
  · exact ⟨s, [], hs, hmem, fun t => (List.append_nil _).symm⟩

/-- **The fields of a text are those of its parts** exactly when no field goes over the cut. -/
theorem fields_append_iff : fields sep (r ++ s) = fields sep r ++ fields sep s ↔ Cut sep r s := by
  constructor
  · intro h
    by_contra hcut
    simp only [Cut, not_or] at hcut
    obtain ⟨hr, hs, hlast, hhead⟩ := hcut
    obtain ⟨fs, w, hw, hsepw, hleft⟩ := fields_append_of_getLast hr hlast
    obtain ⟨v, gs, hv, hsepv, hright⟩ := fields_append_of_head hs hhead
    have hall : fields sep (r ++ s) = fs ++ [w ++ v] ++ gs := by
      rw [hleft, hright, fields_of_not_mem (by simp [hsepw, hsepv]), if_neg (by simp [hw]),
        List.append_assoc]
    have hpartr : fields sep r = fs ++ [w] := by
      have := hleft []
      rwa [List.append_nil, List.append_nil, fields_of_not_mem hsepw, if_neg hw] at this
    have hparts : fields sep s = [v] ++ gs := by
      have := hright []
      rwa [List.nil_append, List.nil_append, fields_of_not_mem hsepv, if_neg hv] at this
    have hlen := congrArg List.length h
    rw [hall, hpartr, hparts] at hlen
    simp only [List.length_append, List.length_singleton] at hlen
    omega
  · rintro (rfl | rfl | hlast | hhead)
    · simp
    · simp
    · obtain ⟨r, rfl⟩ := List.getLast?_eq_some_iff.1 hlast
      rw [List.append_assoc, List.singleton_append, fields_append_cons, fields_append_cons,
        fields_nil, List.append_nil]
    · obtain ⟨s, rfl⟩ := List.head?_eq_some_iff.1 hhead
      rw [fields_append_cons, fields_cons_self]

theorem fields_eq_nil_iff : fields sep s = [] ↔ ∀ c ∈ s, c = sep := by
  induction s with
  | nil => simp
  | cons c s ih =>
    by_cases hc : c = sep
    · simp [hc, ih]
    · obtain ⟨v, fs, hv, hsep, hfields⟩ :=
        fields_append_of_head (List.cons_ne_nil c s) (by simpa using hc)
      have := hfields []
      rw [List.nil_append, List.nil_append, fields_of_not_mem hsep, if_neg hv] at this
      simp [this, hc]

end Foundations.Fields

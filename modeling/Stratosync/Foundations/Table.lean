import Mathlib.Data.List.Nodup
import Mathlib.Data.List.Pairwise
import Mathlib.Data.Option.Basic

/-!
# Tables with constraints

A table of a relational database: a list of rows that satisfies the table's constraints, which
the structure carries, so that a table violating them cannot be built. A statement computes new
rows from old ones and commits them when they satisfy the constraints; otherwise it fails
(`none`) and the table stays as it was. Statements are `update` (`UPDATE .. WHERE ..`), `delete`
and `insert`.

When the constraints make a column a key, the table is a partial map from keys to rows (`get`),
and each statement has one lemma saying which map it leaves (`get_update`, `get_delete`,
`get_insert`). Proofs about a program over such a table use these and never look at the list.
-/

namespace Foundations

/-- A list of rows that satisfies the constraints `C`. -/
structure Table (ρ : Type*) (C : List ρ → Prop) where
  rows : List ρ
  ok : C rows

namespace Table

variable {ρ κ : Type*} {C : List ρ → Prop}

section Statements

variable [DecidablePred C]

/-- The table with the rows `l`, when they satisfy the constraints. -/
def commit (l : List ρ) : Option (Table ρ C) :=
  if h : C l then some ⟨l, h⟩ else none

theorem commit_eq_some {l : List ρ} {t : Table ρ C} : commit l = some t ↔ t.rows = l := by
  obtain ⟨l', h'⟩ := t
  rw [commit]
  split
  · simp [eq_comm]
  · rename_i h
    simp only [reduceCtorEq, false_iff]
    rintro rfl
    exact h h'

theorem commit_isSome {l : List ρ} : (commit l : Option (Table ρ C)).isSome ↔ C l := by
  rw [commit]
  split <;> simp [*]

/-- `UPDATE .. WHERE p`: apply `f` to the rows that satisfy `p`. -/
def update (t : Table ρ C) (p : ρ → Bool) (f : ρ → ρ) : Option (Table ρ C) :=
  commit (t.rows.map fun r => if p r then f r else r)

/-- `DELETE .. WHERE p`. -/
def delete (t : Table ρ C) (p : ρ → Bool) : Option (Table ρ C) :=
  commit (t.rows.filter fun r => !p r)

/-- `INSERT` of the row `r`. -/
def insert (t : Table ρ C) (r : ρ) : Option (Table ρ C) :=
  commit (t.rows ++ [r])

end Statements

/-- Two rows that a unique index does not tell apart are one. -/
theorem eq_of_unique {P : ρ → ρ → Prop} (hP : ∀ {a b}, P a b → P b a) {l : List ρ}
    (hl : l.Pairwise fun a b => ¬P a b) {a b : ρ} (ha : a ∈ l) (hb : b ∈ l) (h : P a b) :
    a = b := by
  have : Std.Symm fun a b => ¬P a b := ⟨fun _ _ hab hba => hab (hP hba)⟩
  by_contra hne
  exact hl.forall ha hb hne h

/-! ## A key column -/

section Key

variable [DecidableEq κ] (key : ρ → κ)

/-- The row with the key `k`. -/
def get (t : Table ρ C) (k : κ) : Option ρ := t.rows.find? fun r => key r = k

/-- The constraints make the column a key. -/
def IsKey (key : ρ → κ) (C : List ρ → Prop) : Prop := ∀ l, C l → (l.map key).Nodup

variable {key}

theorem key_of_get {t : Table ρ C} {k : κ} {r : ρ} (h : t.get key k = some r) : key r = k := by
  have := List.find?_some h
  simpa using this

theorem mem_of_get {t : Table ρ C} {k : κ} {r : ρ} (h : t.get key k = some r) : r ∈ t.rows :=
  List.mem_of_find?_eq_some h

/-- In a list whose keys are distinct, a member is what a search for its key finds. -/
theorem find?_key_of_mem {l : List ρ} (hl : (l.map key).Nodup) {r : ρ} (hr : r ∈ l) :
    (l.find? fun x => key x = key r) = some r := by
  induction l with
  | nil => simp at hr
  | cons a l ih =>
    rw [List.map_cons, List.nodup_cons] at hl
    rcases List.mem_cons.1 hr with rfl | hr
    · simp
    · have hne : key a ≠ key r := fun e => hl.1 (e ▸ List.mem_map_of_mem hr)
      rw [List.find?_cons_of_neg (by simpa using hne)]
      exact ih hl.2 hr

theorem mem_rows_iff (hk : IsKey key C) {t : Table ρ C} {r : ρ} :
    r ∈ t.rows ↔ t.get key (key r) = some r :=
  ⟨fun h => find?_key_of_mem (hk _ t.ok) h, mem_of_get⟩

variable [DecidablePred C]

/-- Updating rows in place, keys unchanged, updates what a search finds. -/
theorem find?_map_key {f : ρ → ρ} (hf : ∀ r, key (f r) = key r) (l : List ρ) (k : κ) :
    ((l.map f).find? fun r => key r = k) = (l.find? fun r => key r = k).map f := by
  rw [List.find?_map]
  exact congrArg _ (congrArg (fun p => l.find? p) (funext fun r => by simp [hf]))

/-- What an update that leaves keys alone does to the map of the table. -/
theorem get_update {t t' : Table ρ C} {p : ρ → Bool} {f : ρ → ρ} (hf : ∀ r, key (f r) = key r)
    (h : t.update p f = some t') (k : κ) :
    t'.get key k = (t.get key k).map fun r => if p r then f r else r := by
  rw [get, commit_eq_some.1 h]
  exact find?_map_key (fun r => by split <;> simp [hf]) t.rows k

theorem find?_filter_key {l : List ρ} (hl : (l.map key).Nodup) (q : ρ → Bool) (k : κ) :
    ((l.filter q).find? fun r => key r = k) = (l.find? fun r => key r = k).filter q := by
  induction l with
  | nil => rfl
  | cons a l ih =>
    rw [List.map_cons, List.nodup_cons] at hl
    by_cases hka : key a = k
    · -- `a` is the only row with the key, so dropping it leaves none
      have hnone : (l.find? fun r => key r = k) = none := by
        refine List.find?_eq_none.2 fun r hr => ?_
        have : key r ≠ k := fun e => hl.1 (hka ▸ e ▸ List.mem_map_of_mem hr)
        simpa using this
      by_cases hq : q a
      · rw [List.filter_cons_of_pos hq, List.find?_cons_of_pos (by simpa using hka),
          List.find?_cons_of_pos (by simpa using hka)]
        simp [Option.filter, hq]
      · rw [List.filter_cons_of_neg hq, ih hl.2, hnone, List.find?_cons_of_pos (by simpa using hka)]
        simp [Option.filter, hq]
    · rw [List.find?_cons_of_neg (by simpa using hka)]
      by_cases hq : q a
      · rw [List.filter_cons_of_pos hq, List.find?_cons_of_neg (by simpa using hka)]
        exact ih hl.2
      · rw [List.filter_cons_of_neg hq]
        exact ih hl.2

/-- What a deletion does to the map of the table. -/
theorem get_delete (hk : IsKey key C) {t t' : Table ρ C} {p : ρ → Bool}
    (h : t.delete p = some t') (k : κ) :
    t'.get key k = (t.get key k).filter fun r => !p r := by
  rw [get, commit_eq_some.1 h]
  exact find?_filter_key (hk _ t.ok) _ k

/-- What an insertion does to the map of the table. -/
theorem get_insert (hk : IsKey key C) {t t' : Table ρ C} {r : ρ} (h : t.insert r = some t')
    (k : κ) : t'.get key k = if k = key r then some r else t.get key k := by
  have hrows : t'.rows = t.rows ++ [r] := commit_eq_some.1 h
  split
  · rename_i hkr
    subst hkr
    exact (mem_rows_iff hk).1 (by rw [hrows]; simp)
  · rename_i hkr
    rw [get, hrows, List.find?_append, List.find?_cons_of_neg (by simpa using Ne.symm hkr)]
    simp [get]

/-- An inserted row has a key no row had. -/
theorem get_of_insert (hk : IsKey key C) {t t' : Table ρ C} {r : ρ} (h : t.insert r = some t') :
    t.get key (key r) = none := by
  have hrows : t'.rows = t.rows ++ [r] := commit_eq_some.1 h
  have hn := hk _ t'.ok
  rw [hrows, List.map_append, List.nodup_append] at hn
  refine List.find?_eq_none.2 fun x hx => ?_
  have := hn.2.2 (key x) (List.mem_map_of_mem hx) (key r) (by simp)
  simpa using this

/-- A relation between the rows lasts through an update of one row, when its new version is in it
with every other row. -/
theorem pairwise_update {R : ρ → ρ → Prop} {l : List ρ} (hk : (l.map key).Nodup)
    (h : l.Pairwise R) (hR : ∀ {a b}, R a b → R b a) {k : κ} {f : ρ → ρ}
    (hf : ∀ r ∈ l, key r = k → ∀ c ∈ l, key c ≠ k → R c (f r)) :
    (l.map fun r => if key r = k then f r else r).Pairwise R := by
  rw [List.pairwise_map]
  have hne : l.Pairwise fun a b => key a ≠ key b := List.pairwise_map.1 hk
  refine (hne.and h).imp_of_mem ?_
  rintro a b ha hb ⟨hne, hab⟩
  by_cases hak : key a = k
  · have hbk : key b ≠ k := fun hbk => hne (hak.trans hbk.symm)
    rw [if_pos hak, if_neg hbk]
    exact hR (hf a ha hak b hb hbk)
  · by_cases hbk : key b = k
    · rw [if_neg hak, if_pos hbk]
      exact hf b hb hbk a ha hak
    · rw [if_neg hak, if_neg hbk]
      exact hab

end Key

end Table

end Foundations

import Stratosync.State.Types
import Mathlib.Data.List.MinMax
import Mathlib.Data.List.Perm.Basic
import Mathlib.Logic.Function.Basic

/-!
# Merging duplicate rows

Migration 0006. Rows of `file_index` that have mount, parent and name in common are duplicates of
the one with the least inode. The first statement moves the children of duplicates to this row, the
second deletes the duplicates, the third makes the three columns a unique index. The statements
are not one transaction; a foreign key is checked at the end of each.

An `UPDATE` first selects its rows and then visits them one by one, and what it computes for one
row sees what it has written to the rows before it. In which order it visits them is up to SQLite.
-/

namespace Stratosync

/-- A row of `file_index`, but for its parent and the columns that no statement reads. -/
structure IndexRow where
  inode : Inode
  mountId : ℕ
  name : Str
  remotePath : Str
  kind : FileKind
  deriving DecidableEq, Repr

/-- The rows and their column `parent_inode`. -/
structure FileIndex where
  rows : List IndexRow
  parentOf : Inode → Option Inode

namespace FileIndex

variable (x : FileIndex)

/-- `g.mount_id = f.mount_id AND g.parent_inode = f.parent_inode AND g.name = f.name`. -/
def Namesake (f g : IndexRow) : Prop :=
  (x.parentOf f.inode).isSome = true ∧ g.mountId = f.mountId ∧
    x.parentOf g.inode = x.parentOf f.inode ∧ g.name = f.name

instance instDecidableNamesake (f g : IndexRow) : Decidable (x.Namesake f g) :=
  inferInstanceAs (Decidable (_ ∧ _ ∧ _ ∧ _))

/-- `SELECT MIN(g.inode) FROM file_index g` over the namesakes of `f`. -/
def keeper (f : IndexRow) : Option Inode :=
  ((x.rows.filter fun g => x.Namesake f g).map IndexRow.inode).min?

/-- `f.parent_inode IS NOT NULL AND f.inode > (SELECT MIN(g.inode) ...)`. -/
def IsDuplicate (f : IndexRow) : Prop := ∃ k ∈ x.keeper f, k < f.inode

instance instDecidableIsDuplicate (f : IndexRow) : Decidable (x.IsDuplicate f) :=
  decidable_of_iff ((x.keeper f).any (· < f.inode) = true)
    (by simp [IsDuplicate, Option.any_eq_true])

/-! ## The statements -/

/-- The rows that the `UPDATE` selects: the children of duplicates. -/
def selected : List Inode :=
  (x.rows.filter fun r =>
    x.rows.any fun f => x.IsDuplicate f ∧ x.parentOf r.inode = some f.inode).map IndexRow.inode

/-- The parent that the `UPDATE` computes for a row. -/
def newParent (i : Inode) : Option Inode :=
  (x.parentOf i).bind fun p => (x.rows.find? fun d => d.inode = p).bind x.keeper

def reparent (i : Inode) : FileIndex :=
  { x with parentOf := Function.update x.parentOf i (x.newParent i) }

/-- The `UPDATE`, which visits the rows in this order. -/
def reparentAll (order : List Inode) : FileIndex := order.foldl reparent x

/-- The `DELETE`. -/
def dedupe : FileIndex := { x with rows := x.rows.filter fun f => ¬x.IsDuplicate f }

/-- The foreign key of `parent_inode`. -/
def ParentsExist : Prop :=
  ∀ r ∈ x.rows, ∀ p ∈ x.parentOf r.inode, ∃ q ∈ x.rows, q.inode = p

instance instDecidableParentsExist : Decidable x.ParentsExist :=
  inferInstanceAs (Decidable (∀ r ∈ x.rows, ∀ p ∈ x.parentOf r.inode, ∃ q ∈ x.rows, q.inode = p))

/-- The unique index of the third statement. -/
def UniqueNames : Prop := ∀ f ∈ x.rows, ∀ g ∈ x.rows, x.Namesake f g → g = f

instance instDecidableUniqueNames : Decidable x.UniqueNames :=
  inferInstanceAs (Decidable (∀ f ∈ x.rows, ∀ g ∈ x.rows, x.Namesake f g → g = f))

/-- Migration 0006. A statement that breaks a constraint fails. -/
def migrate (order : List Inode) : Option FileIndex :=
  let x₁ := x.reparentAll order
  if ¬x₁.ParentsExist then none
  else if ¬x₁.dedupe.ParentsExist then none
  else if ¬x₁.dedupe.UniqueNames then none
  else some x₁.dedupe

/-! ## Namesakes -/

variable {x}

theorem Namesake.refl {f : IndexRow} (h : (x.parentOf f.inode).isSome = true) : x.Namesake f f :=
  ⟨h, rfl, rfl, rfl⟩

theorem Namesake.symm {f g : IndexRow} (h : x.Namesake f g) : x.Namesake g f :=
  ⟨h.2.2.1.symm ▸ h.1, h.2.1.symm, h.2.2.1.symm, h.2.2.2.symm⟩

theorem Namesake.trans {e f g : IndexRow} (h : x.Namesake e f) (h' : x.Namesake f g) :
    x.Namesake e g :=
  ⟨h.1, h'.2.1.trans h.2.1, h'.2.2.1.trans h.2.2.1, h'.2.2.2.trans h.2.2.2⟩

theorem keeper_congr {f g : IndexRow} (h : x.Namesake f g) : x.keeper f = x.keeper g := by
  have hiff : ∀ e, x.Namesake f e ↔ x.Namesake g e := fun e => ⟨h.symm.trans, h.trans⟩
  simp only [keeper, hiff]

/-- The keeper is the least of the namesakes. -/
theorem keeper_eq_some {f : IndexRow} {i : Inode} (h : x.keeper f = some i) :
    ∃ k ∈ x.rows, k.inode = i ∧ x.Namesake f k ∧
      ∀ g ∈ x.rows, x.Namesake f g → i ≤ g.inode := by
  obtain ⟨hmem, hle⟩ := List.min?_eq_some_iff.1 h
  obtain ⟨k, hk, rfl⟩ := List.mem_map.1 hmem
  obtain ⟨hk, hfk⟩ := List.mem_filter.1 hk
  refine ⟨k, hk, rfl, by simpa using hfk, fun g hg hfg => hle _ (List.mem_map_of_mem ?_)⟩
  exact List.mem_filter.2 ⟨hg, by simpa using hfg⟩

theorem keeper_eq_of {f k : IndexRow} (hk : k ∈ x.rows) (hfk : x.Namesake f k)
    (hle : ∀ g ∈ x.rows, x.Namesake f g → k.inode ≤ g.inode) : x.keeper f = some k.inode := by
  refine List.min?_eq_some_iff.2 ⟨List.mem_map_of_mem (List.mem_filter.2 ⟨hk, by simpa using hfk⟩),
    fun i hi => ?_⟩
  obtain ⟨g, hg, rfl⟩ := List.mem_map.1 hi
  obtain ⟨hg, hfg⟩ := List.mem_filter.1 hg
  exact hle g hg (by simpa using hfg)

/-- A row with a parent has a keeper. -/
theorem exists_keeper {f : IndexRow} (hf : f ∈ x.rows)
    (h : (x.parentOf f.inode).isSome = true) : ∃ i, x.keeper f = some i := by
  cases hk : x.keeper f with
  | some i => exact ⟨i, rfl⟩
  | none =>
    rw [keeper, List.min?_eq_none_iff, List.map_eq_nil_iff, List.filter_eq_nil_iff] at hk
    exact absurd (by simpa using Namesake.refl h) (hk f hf)

theorem isDuplicate_iff {f : IndexRow} :
    x.IsDuplicate f ↔ ∃ g ∈ x.rows, x.Namesake f g ∧ g.inode < f.inode := by
  constructor
  · rintro ⟨i, hi, hlt⟩
    obtain ⟨k, hk, rfl, hfk, -⟩ := keeper_eq_some hi
    exact ⟨k, hk, hfk, hlt⟩
  · rintro ⟨g, hg, hfg, hlt⟩
    obtain ⟨i, hi⟩ := exists_keeper hg hfg.symm.1
    obtain ⟨k, -, rfl, -, hle⟩ := keeper_eq_some hi
    have hkg := hle g hg (Namesake.refl hfg.symm.1)
    exact ⟨k.inode, (keeper_congr hfg).trans hi, lt_of_le_of_lt hkg hlt⟩

theorem mem_selected {i : Inode} :
    i ∈ x.selected ↔ ∃ r ∈ x.rows, r.inode = i ∧
      ∃ f ∈ x.rows, x.IsDuplicate f ∧ x.parentOf i = some f.inode := by
  simp only [selected, List.mem_map, List.mem_filter, List.any_eq_true, decide_eq_true_eq]
  constructor
  · rintro ⟨r, ⟨hr, f, hf, hdup, hp⟩, rfl⟩
    exact ⟨r, hr, rfl, f, hf, hdup, hp⟩
  · rintro ⟨r, hr, rfl, f, hf, hdup, hp⟩
    exact ⟨r, ⟨hr, f, hf, hdup, hp⟩, rfl⟩

/-! ## What the statements leave alone -/

@[simp] theorem rows_reparent (i : Inode) : (x.reparent i).rows = x.rows := rfl

@[simp] theorem rows_reparentAll (order : List Inode) : (x.reparentAll order).rows = x.rows := by
  induction order generalizing x with
  | nil => rfl
  | cons i order ih =>
    have h := ih (x := x.reparent i)
    rwa [rows_reparent] at h

theorem parentOf_reparent (i j : Inode) :
    (x.reparent i).parentOf j = if j = i then x.newParent i else x.parentOf j :=
  Function.update_apply _ _ _ _

theorem reparentAll_concat (x : FileIndex) (order : List Inode) (j : Inode) :
    x.reparentAll (order ++ [j]) = (x.reparentAll order).reparent j := by
  rw [reparentAll, List.foldl_append]
  rfl

/-- A row that is not visited keeps its parent. -/
theorem parentOf_reparentAll_of_notMem {order : List Inode} {j : Inode} (hj : j ∉ order) :
    (x.reparentAll order).parentOf j = x.parentOf j := by
  induction order generalizing x with
  | nil => rfl
  | cons i order ih =>
    obtain ⟨hji, hj⟩ := not_or.1 (mt List.mem_cons.2 hj)
    have h := ih (x := x.reparent i) hj
    rw [parentOf_reparent, if_neg hji] at h
    exact h

end FileIndex

/-- What a database holds that migrations 0001 to 0005 made: the inode is the primary key, parents
exist, mount and path are unique, and the rows are a forest. -/
structure IndexContent extends FileIndex where
  inodes_nodup : (rows.map IndexRow.inode).Nodup
  parents_exist : toFileIndex.ParentsExist
  paths_nodup : (rows.map fun r => (r.mountId, r.remotePath)).Nodup
  rank : Inode → ℕ
  rank_lt : ∀ r ∈ rows, ∀ p ∈ parentOf r.inode, rank p < rank r.inode

namespace IndexContent

open FileIndex

variable {c : IndexContent} {p q r f g k : IndexRow} {order : List Inode} {y : FileIndex}

theorem row_ext (hf : f ∈ c.rows) (hg : g ∈ c.rows) (h : f.inode = g.inode) : f = g :=
  List.inj_on_of_nodup_map c.inodes_nodup hf hg h

theorem find_row (hq : q ∈ c.rows) : (c.rows.find? fun d => d.inode = q.inode) = some q := by
  cases h : c.rows.find? fun d => d.inode = q.inode with
  | none =>
    rw [List.find?_eq_none] at h
    exact absurd (decide_eq_true rfl) (h q hq)
  | some d =>
    have hd : d.inode = q.inode := by simpa using List.find?_some h
    rw [row_ext (List.mem_of_find?_eq_some h) hq hd]

/-- A row moves to the keeper of its parent. -/
theorem newParent_eq {x : FileIndex} (hrows : x.rows = c.rows) (hq : q ∈ c.rows) {i : Inode}
    (hi : x.parentOf i = some q.inode) : x.newParent i = x.keeper q := by
  rw [newParent, hi, Option.bind_some, hrows, find_row hq, Option.bind_some]

/-- **If the migration succeeds, no duplicate has a child when the `DELETE` is run.** -/
theorem childless_of_migrate (h : c.migrate order = some y) (hf : f ∈ c.rows)
    (hdup : (c.reparentAll order).IsDuplicate f) (hr : r ∈ c.rows) :
    (c.reparentAll order).parentOf r.inode ≠ some f.inode := by
  intro hp
  have hexist : (c.reparentAll order).dedupe.ParentsExist := by
    by_contra hn
    rw [migrate] at h
    simp [hn] at h
  -- the least namesake of the child is not deleted
  have hr₁ : r ∈ (c.reparentAll order).rows := by rwa [rows_reparentAll]
  obtain ⟨i, hi⟩ := exists_keeper hr₁ (by rw [hp]; rfl)
  obtain ⟨k, hk, rfl, hrk, -⟩ := keeper_eq_some hi
  have hkept : ¬(c.reparentAll order).IsDuplicate k := by
    rintro ⟨i, hi', hlt⟩
    rw [← keeper_congr hrk, hi] at hi'
    obtain rfl := Option.some.inj hi'
    exact lt_irrefl _ hlt
  have hkp : (c.reparentAll order).parentOf k.inode = some f.inode := hrk.2.2.1.trans hp
  obtain ⟨q, hq, hqf⟩ := hexist k (List.mem_filter.2 ⟨hk, by simpa using hkept⟩) _ hkp
  obtain ⟨hq, hnot⟩ := List.mem_filter.1 hq
  rw [rows_reparentAll] at hq
  obtain rfl := row_ext hq hf hqf
  simp [hdup] at hnot

/-! ## The merged tree -/

/-- Where the rows below a row go. -/
def home (c : IndexContent) (a : IndexRow) : Option Inode :=
  if c.IsDuplicate a then c.keeper a else some a.inode

theorem keeper_of_not_duplicate (hf : f ∈ c.rows) (h : (c.parentOf f.inode).isSome = true)
    (hnot : ¬c.IsDuplicate f) : c.keeper f = some f.inode := by
  obtain ⟨i, hi⟩ := exists_keeper hf h
  obtain ⟨k, hk, rfl, -, hle⟩ := keeper_eq_some hi
  have hkf := hle f hf (Namesake.refl h)
  have hfk : ¬k.inode < f.inode := fun hlt => hnot ⟨k.inode, hi, hlt⟩
  rw [hi, le_antisymm hkf (not_lt.1 hfk)]

theorem home_eq_keeper (hf : f ∈ c.rows) (h : (c.parentOf f.inode).isSome = true) :
    c.home f = c.keeper f := by
  rw [home]
  split
  · rfl
  · rename_i hnot
    exact (keeper_of_not_duplicate hf h hnot).symm

theorem home_eq_self (h : c.parentOf f.inode = none) : c.home f = some f.inode := by
  rw [home, if_neg]
  rw [isDuplicate_iff]
  rintro ⟨g, -, hfg, -⟩
  rw [Namesake, h] at hfg
  cases hfg.1

/-- Rows below two rows go to one place if the two are one, or namesakes. -/
theorem home_eq_iff (hf : f ∈ c.rows) (hg : g ∈ c.rows) :
    c.home f = c.home g ↔ f = g ∨ c.Namesake f g := by
  constructor
  · intro h
    cases hpf : c.parentOf f.inode with
    | none =>
      rw [home_eq_self hpf] at h
      cases hpg : c.parentOf g.inode with
      | none =>
        rw [home_eq_self hpg] at h
        exact .inl (row_ext hf hg (Option.some.inj h))
      | some b =>
        rw [home_eq_keeper hg (by rw [hpg]; rfl)] at h
        obtain ⟨k, hk, hkf, hgk, -⟩ := keeper_eq_some h.symm
        obtain rfl := row_ext hk hf hkf
        have := hgk.symm.1
        rw [hpf] at this
        cases this
    | some a =>
      have hsome : (c.parentOf f.inode).isSome = true := by rw [hpf]; rfl
      rw [home_eq_keeper hf hsome] at h
      cases hpg : c.parentOf g.inode with
      | none =>
        rw [home_eq_self hpg] at h
        obtain ⟨k, hk, hkg, hfk, -⟩ := keeper_eq_some h
        obtain rfl := row_ext hk hg hkg
        exact .inr hfk
      | some b =>
        rw [home_eq_keeper hg (by rw [hpg]; rfl)] at h
        obtain ⟨i, hi⟩ := exists_keeper hf hsome
        obtain ⟨k, hk, hki, hfk, -⟩ := keeper_eq_some hi
        obtain ⟨k', hk', hki', hgk', -⟩ := keeper_eq_some (h.symm.trans hi)
        obtain rfl := row_ext hk hk' (hki.trans hki'.symm)
        exact .inr (hfk.trans hgk'.symm)
  · rintro (rfl | h)
    · rfl
    · rw [home_eq_keeper hf h.1, home_eq_keeper hg h.symm.1, keeper_congr h]

/-- The parent that a row has after the `UPDATE`, if nothing it reads has changed before. -/
def snapshotParent (c : IndexContent) (i : Inode) : Option Inode :=
  if i ∈ c.selected then c.newParent i else c.parentOf i

theorem mem_selected_iff (hr : r ∈ c.rows) (hp : p ∈ c.rows)
    (h : c.parentOf r.inode = some p.inode) : r.inode ∈ c.selected ↔ c.IsDuplicate p := by
  rw [mem_selected]
  constructor
  · rintro ⟨-, -, -, q, hq, hdup, hrq⟩
    rwa [← row_ext hq hp (Option.some.inj (hrq.symm.trans h))]
  · exact fun hdup => ⟨r, hr, rfl, p, hp, hdup, h⟩

theorem snapshotParent_eq (hr : r ∈ c.rows) (hp : p ∈ c.rows)
    (h : c.parentOf r.inode = some p.inode) : c.snapshotParent r.inode = c.home p := by
  rw [snapshotParent, home, newParent_eq rfl hp h, h]
  exact if_congr (mem_selected_iff hr hp h) rfl rfl

end IndexContent

end Stratosync

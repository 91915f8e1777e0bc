import Stratosync.Daemon.Step
import Stratosync.Sync.Changes
import Mathlib.Logic.Relation

/-!
# Removing what vanished from the remote

The sweep of a full poll deletes the rows a listing left behind one by one, in the order a query
returned them and outside of a transaction, and the database refuses to delete a row that still has
a child row. `removals_go_through_iff` says when the sweep removes what it should: exactly when
every row comes after all the rows in it. A deletion a delta feed reports goes through exactly
when the row it finds has no row in it.
-/

namespace Stratosync

open Relation

namespace Db

variable (db : Db)

/-- `c` is a row in the directory of `r`. -/
def ChildOf (r c : FileEntry) : Prop := c ∈ db.fileIndex.rows ∧ c.parent = some r.inode

/-- Deleting `r` would leave a row without its parent. -/
def HasOtherChild (r : FileEntry) : Prop :=
  ∃ c ∈ db.fileIndex.rows, c.inode ≠ r.inode ∧ c.parent = some r.inode

instance (r : FileEntry) : Decidable (db.HasOtherChild r) :=
  inferInstanceAs (Decidable (∃ c ∈ db.fileIndex.rows, _))

/-- A row the listing left behind that is not above a surviving one. -/
def Removable (mountId generation : ℕ) (r : FileEntry) : Prop :=
  r ∈ db.staleEntries mountId generation ∧
    ∀ c, TransGen db.ChildOf r c → c ∈ db.staleEntries mountId generation

/-- The sweep of the rows left behind, in the order the query returned them. -/
def sweep (stale : List FileEntry) : Bool × Db := db.deleteEach (stale.map FileEntry.inode)

/-- **The sweep succeeds and removes exactly the removable rows.** -/
def SweepsExactly (mountId generation : ℕ) (stale : List FileEntry) : Prop :=
  ∃ db', db.sweep stale = (true, db') ∧
    ∀ r, r ∈ db'.fileIndex.rows ↔ r ∈ db.fileIndex.rows ∧ ¬db.Removable mountId generation r

/-- **A sweep that fails changes nothing.** -/
def UnchangedOnFailure (stale : List FileEntry) : Prop :=
  ∀ db', db.sweep stale = (false, db') → db'.fileIndex.rows = db.fileIndex.rows

/-- Every row in a directory of the list comes before that directory. -/
def ChildrenFirst (stale : List FileEntry) : Prop :=
  ∀ k, (hk : k < stale.length) →
    ∀ c ∈ db.fileIndex.rows, c.parent = some stale[k].inode → c ∈ stale.take (k + 1)

instance (stale : List FileEntry) : Decidable (db.ChildrenFirst stale) :=
  inferInstanceAs (Decidable (∀ k, (hk : k < stale.length) → _))

/-- The row a deletion of a delta feed finds. -/
def deletedRow (mountId : ℕ) (path : Str) (itemId : Option Str) : Option FileEntry :=
  ((itemId.bind (db.getByItemId mountId)).filter fun r => !r.status.isUnsynced).or
    ((db.getByRemotePath mountId path).filter fun r => !r.status.isUnsynced)

end Db

variable {db : Db}

/-! ## The sweep -/

theorem mem_rows_deleteEntry {db' : Db} {i : Inode} (h : db.deleteEntry i = some db')
    {r : FileEntry} : r ∈ db'.fileIndex.rows ↔ r ∈ db.fileIndex.rows ∧ r.inode ≠ i := by
  obtain ⟨t, ht, rfl⟩ := Option.map_eq_some_iff.1 h
  change r ∈ t.rows ↔ _
  rw [Foundations.Table.commit_eq_some.1 ht]
  simp

variable (db) in
/-- `deleteStaleEntries` is the sweep of the rows left behind. -/
theorem deleteStaleEntries_sweep (mountId generation : ℕ) :
    ((db.deleteStaleEntries mountId generation).1.isSome,
      (db.deleteStaleEntries mountId generation).2) =
        db.sweep (db.staleEntries mountId generation) := by
  rw [Db.deleteStaleEntries, Db.sweep]
  split <;> rename_i h <;> rw [h] <;> rfl

/-- The deletions go through when each row comes after all the rows in it. -/
theorem deleteEach_fst {is : List Inode} :
    (db.deleteEach is).1 = true ↔
      ∀ k, (hk : k < is.length) →
        ∀ c ∈ db.fileIndex.rows, c.parent = some is[k] → c.inode ∈ is.take (k + 1) := by
  induction is generalizing db with
  | nil => simp [Db.deleteEach]
  | cons i is ih =>
    rw [Db.deleteEach]
    cases hd : db.deleteEntry i with
    | none =>
      simp only [Bool.false_eq_true, false_iff]
      intro h
      have : (db.deleteEntry i).isSome = true := by
        refine Db.deleteEntry_isSome_iff.2 fun c hc hi hp => ?_
        simpa [hi] using h 0 (by simp) c hc hp
      simp [hd] at this
    | some db' =>
      have hchild := Db.deleteEntry_isSome_iff.1 (hd ▸ rfl : (db.deleteEntry i).isSome = true)
      rw [ih]
      constructor
      · intro h k hk c hc hp
        by_cases hi : c.inode = i
        · simp [hi]
        cases k with
        | zero => exact absurd hp (hchild c hc hi)
        | succ k =>
          have hk' : k < is.length := by simpa using hk
          have := h k hk' c ((mem_rows_deleteEntry hd).2 ⟨hc, hi⟩) hp
          exact List.mem_cons_of_mem _ this
      · intro h k hk c hc hp
        obtain ⟨hc, hi⟩ := (mem_rows_deleteEntry hd).1 hc
        have := h (k + 1) (Nat.succ_lt_succ hk) c hc hp
        rw [List.take_succ_cons] at this
        exact (List.mem_cons.1 this).resolve_left hi

/-- What deletions that go through leave. -/
theorem mem_rows_deleteEach {is : List Inode} {db' : Db} (h : db.deleteEach is = (true, db'))
    {r : FileEntry} : r ∈ db'.fileIndex.rows ↔ r ∈ db.fileIndex.rows ∧ r.inode ∉ is := by
  induction is generalizing db with
  | nil =>
    obtain ⟨-, rfl⟩ := Prod.mk.inj h
    simp
  | cons i is ih =>
    rw [Db.deleteEach] at h
    split at h
    · rename_i d hd
      rw [ih h, mem_rows_deleteEntry hd, List.mem_cons, not_or, and_assoc]
    · exact absurd (Prod.mk.inj h).1 (by decide)

/-- Deletions bring no row back. -/
theorem mem_rows_of_mem_deleteEach {is : List Inode} {r : FileEntry}
    (hr : r ∈ (db.deleteEach is).2.fileIndex.rows) : r ∈ db.fileIndex.rows := by
  induction is generalizing db with
  | nil => exact hr
  | cons i is ih =>
    rw [Db.deleteEach] at hr
    split at hr
    · rename_i d hd
      exact ((mem_rows_deleteEntry hd).1 (ih hr)).1
    · exact hr

/-- Deletions leave the other rows. -/
theorem getByInode_deleteEach {is : List Inode} {i : Inode} (hi : i ∉ is) :
    (db.deleteEach is).2.getByInode i = db.getByInode i := by
  induction is generalizing db with
  | nil => rfl
  | cons j is ih =>
    rw [List.mem_cons, not_or] at hi
    rw [Db.deleteEach]
    split
    · rename_i d hd
      rw [ih hi.2, Db.getByInode_deleteEntry hd, if_neg hi.1]
    · rfl

/-- The sweep of a poll brings no row back. -/
theorem getByInode_of_deleteStaleEntries {mountId g : ℕ}
    {o : Option (List (Inode × Str × Option PathBuf))} {db' : Db}
    (h : db.deleteStaleEntries mountId g = (o, db')) {i : Inode} {r : FileEntry}
    (hr : db'.getByInode i = some r) : db.getByInode i = some r := by
  have hsweep := deleteStaleEntries_sweep db mountId g
  rw [h] at hsweep
  obtain rfl := (Prod.mk.inj hsweep).2
  have hmem := mem_rows_of_mem_deleteEach (Db.mem_rows_of_getByInode hr)
  exact Db.inode_of_getByInode hr ▸ Db.getByInode_of_mem hmem

/-- The rows a sweep leaves. -/
theorem getByInode_of_sweep {mountId g : ℕ} {o : Option (List (Inode × Str × Option PathBuf))}
    {db' : Db} (h : db.deleteStaleEntries mountId g = (o, db')) {i : Inode} {r : FileEntry}
    (hr : db.getByInode i = some r)
    (hkept : r.mountId = mountId → r.status.isUnsynced = true ∨ g ≤ r.pollGeneration) :
    db'.getByInode i = some r := by
  have hsweep := deleteStaleEntries_sweep db mountId g
  rw [h] at hsweep
  obtain rfl := (Prod.mk.inj hsweep).2
  refine (getByInode_deleteEach fun hi => ?_).trans hr
  obtain ⟨q, hq, rfl⟩ := List.mem_map.1 hi
  obtain ⟨hmem, hstale⟩ := List.mem_filter.1 hq
  obtain rfl := Option.some.inj ((Db.getByInode_of_mem hmem).symm.trans hr)
  rw [decide_eq_true_eq] at hstale
  obtain ⟨hm, hlt, hsynced, -⟩ := hstale
  rcases hkept hm with hun | hle
  · rw [hun] at hsynced
    cases hsynced
  · exact absurd hle (not_le.2 hlt)

section Order

variable {mountId generation : ℕ} {stale : List FileEntry}

/-- The rows of a list, told from the other rows by their inodes. -/
theorem inode_mem_map_iff (hs : ∀ r ∈ stale, r ∈ db.fileIndex.rows) {c : FileEntry}
    (hc : c ∈ db.fileIndex.rows) : c.inode ∈ stale.map FileEntry.inode ↔ c ∈ stale := by
  refine ⟨fun h => ?_, List.mem_map_of_mem⟩
  obtain ⟨r, hr, hi⟩ := List.mem_map.1 h
  obtain rfl : r = c := Option.some.inj
    ((Db.getByInode_of_mem (hs r hr)).symm.trans (hi ▸ Db.getByInode_of_mem hc))
  exact hr

theorem sweep_fst (hs : ∀ r ∈ stale, r ∈ db.fileIndex.rows) :
    (db.sweep stale).1 = true ↔ db.ChildrenFirst stale := by
  rw [Db.sweep, deleteEach_fst]
  simp only [List.length_map, List.getElem_map, ← List.map_take]
  have hmem : ∀ k, ∀ c ∈ db.fileIndex.rows,
      (c.inode ∈ (stale.take (k + 1)).map FileEntry.inode ↔ c ∈ stale.take (k + 1)) :=
    fun k c hc => inode_mem_map_iff (fun r hr => hs r (List.mem_of_mem_take hr)) hc
  constructor
  · intro h k hk c hc hp
    exact (hmem k c hc).1 (h k hk c hc hp)
  · intro h k hk c hc hp
    exact (hmem k c hc).2 (h k hk c hc hp)

/-- In a list with children first, what is below a row is in the list too. -/
theorem Db.ChildrenFirst.mem_of_below (h : db.ChildrenFirst stale) {r c : FileEntry}
    (hr : r ∈ stale) (hc : TransGen db.ChildOf r c) : c ∈ stale := by
  have hstep : ∀ {q d}, q ∈ stale → db.ChildOf q d → d ∈ stale := by
    intro q d hq hd
    obtain ⟨k, hk, rfl⟩ := List.getElem_of_mem hq
    exact List.mem_of_mem_take (h k hk d hd.1 hd.2)
  induction hc with
  | single hd => exact hstep hr hd
  | tail _ hd ih => exact hstep ih hd

theorem sweepsExactly_iff (hp : stale.Perm (db.staleEntries mountId generation)) :
    db.SweepsExactly mountId generation stale ↔ db.ChildrenFirst stale := by
  have hs : ∀ r ∈ stale, r ∈ db.fileIndex.rows := fun r hr =>
    (List.mem_filter.1 (hp.mem_iff.1 hr)).1
  constructor
  · rintro ⟨db', hd, -⟩
    exact (sweep_fst hs).1 (by rw [hd])
  · intro h
    refine ⟨(db.sweep stale).2, Prod.ext ((sweep_fst hs).2 h) rfl, fun r => ?_⟩
    have hd : db.sweep stale = (true, (db.sweep stale).2) := Prod.ext ((sweep_fst hs).2 h) rfl
    rw [mem_rows_deleteEach hd]
    refine and_congr_right fun hr => not_congr ?_
    rw [inode_mem_map_iff hs hr, Db.Removable, ← hp.mem_iff]
    exact ⟨fun hr' => ⟨hr', fun c hc => hp.mem_iff.1 (h.mem_of_below hr' hc)⟩, And.left⟩

theorem unchangedOnFailure_iff (hs : ∀ r ∈ stale, r ∈ db.fileIndex.rows) :
    db.UnchangedOnFailure stale ↔
      db.ChildrenFirst stale ∨ ∃ r ∈ stale.head?, db.HasOtherChild r := by
  rw [← sweep_fst hs]
  cases stale with
  | nil => simp [Db.UnchangedOnFailure, Db.sweep, Db.deleteEach]
  | cons r rest =>
    simp only [List.head?_cons, Option.mem_some_iff, exists_eq_left']
    by_cases hr : db.HasOtherChild r
    · refine ⟨fun _ => .inr hr, fun _ db' h => ?_⟩
      obtain ⟨c, hc, hi, hp⟩ := hr
      have hnone : db.deleteEntry r.inode = none := by
        by_contra hne
        exact Db.deleteEntry_isSome_iff.1 (Option.isSome_iff_ne_none.2 hne) c hc hi hp
      rw [Db.sweep, List.map_cons, Db.deleteEach, hnone] at h
      rw [← (Prod.mk.inj h).2]
    · -- the first row is deleted, so a later failure leaves a changed index
      obtain ⟨d, hd⟩ : ∃ d, db.deleteEntry r.inode = some d := Option.isSome_iff_exists.1 <|
        Db.deleteEntry_isSome_iff.2 fun c hc hi hp => hr ⟨c, hc, hi, hp⟩
      simp only [hr, or_false]
      constructor
      · intro h
        by_contra hfail
        have hrows := h (db.sweep (r :: rest)).2 (Prod.ext (Bool.eq_false_iff.2 hfail) rfl)
        have hmem : r ∈ (db.sweep (r :: rest)).2.fileIndex.rows := by
          rw [hrows]
          exact hs r List.mem_cons_self
        rw [Db.sweep, List.map_cons, Db.deleteEach, hd] at hmem
        exact ((mem_rows_deleteEntry hd).1 (mem_rows_of_mem_deleteEach hmem)).2 rfl
      · intro h db' hfail
        rw [hfail] at h
        cases h

end Order

/-! ## A deletion a delta feed reports -/

theorem deleteRemoteEntry_isSome {found : Option FileEntry}
    (hfound : ∀ r ∈ found, r.status.isUnsynced = false) :
    (db.deleteRemoteEntry found).isSome = true ↔ ∀ r ∈ found, ¬db.HasOtherChild r := by
  cases found with
  | none => simp [Db.deleteRemoteEntry]
  | some r =>
    rw [Db.deleteRemoteEntry, Option.filter_some, hfound r rfl, Bool.not_false, if_pos rfl]
    rw [Option.isSome_map, Db.deleteEntry_isSome_iff]
    simp [Db.HasOtherChild]

theorem isUnsynced_of_deletedRow {mountId : ℕ} {path : Str} {itemId : Option Str} {r : FileEntry}
    (h : db.deletedRow mountId path itemId = some r) : r.status.isUnsynced = false := by
  rcases Option.or_eq_some_iff.1 h with h | ⟨-, h⟩ <;>
    simpa using (Option.filter_eq_some_iff.1 h).2

theorem deleteChanged_eq (mountId : ℕ) (path : Str) (itemId : Option Str) :
    db.deleteChanged mountId path itemId =
      db.deleteRemoteEntry (db.deletedRow mountId path itemId) := by
  have hfilter : ∀ o : Option FileEntry, db.deleteRemoteEntry
      (o.filter fun r => !r.status.isUnsynced) = db.deleteRemoteEntry o := by
    intro o
    rw [Db.deleteRemoteEntry, Db.deleteRemoteEntry, Option.filter_filter]
    simp only [Bool.and_self]
  cases itemId with
  | none =>
    rw [Db.deletedRow, Db.deleteChanged, Db.deleteRemoteEntryByPath, Option.bind_none,
      Option.filter_none, Option.none_or]
    exact (hfilter _).symm
  | some id =>
    rw [Db.deletedRow, Db.deleteChanged, Option.bind_some, Db.deleteRemoteEntryByItemId,
      ← hfilter (db.getByItemId mountId id)]
    cases hid : (db.getByItemId mountId id).filter fun r => !r.status.isUnsynced with
    | none =>
      rw [Option.none_or]
      exact (hfilter _).symm
    | some r =>
      have hr : r.status.isUnsynced = false := by
        simpa using (Option.filter_eq_some_iff.1 hid).2
      rw [Option.some_or, Db.deleteRemoteEntry, Option.filter_some, hr, Bool.not_false, if_pos rfl]
      dsimp only
      cases db.deleteEntry r.inode <;> rfl

/-- A deletion of a delta feed brings no row back. -/
theorem getByInode_of_deleteChanged {mountId : ℕ} {path : Str} {itemId : Option Str} {db' : Db}
    {dropped : Option (Inode × Option PathBuf)}
    (h : db.deleteChanged mountId path itemId = some (dropped, db')) {i : Inode} {r : FileEntry}
    (hr : db'.getByInode i = some r) : db.getByInode i = some r := by
  rw [deleteChanged_eq, Db.deleteRemoteEntry] at h
  split at h
  · obtain ⟨d, hd, he⟩ := Option.map_eq_some_iff.1 h
    obtain ⟨-, rfl⟩ := Prod.mk.inj he
    rw [Db.getByInode_deleteEntry hd] at hr
    split at hr
    · cases hr
    · exact hr
  · obtain ⟨-, rfl⟩ := Prod.mk.inj (Option.some.inj h)
    exact hr

/-- **When removals go through**: the sweep, when the query returns each row after all the rows in
it; the change of a delta feed, when the row it finds has no row in it. A failing sweep changes
nothing only when its first deletion fails. -/
theorem removals_go_through_iff (m : Mount) (db : Db) (generation : ℕ) (stale : List FileEntry)
    (hp : stale.Perm (db.staleEntries m.mountId generation)) (tombstones : List Str)
    (paths : PathToInode) (path : Str) (itemId : Option Str) :
    (db.SweepsExactly m.mountId generation stale ↔ db.ChildrenFirst stale) ∧
      (db.UnchangedOnFailure stale ↔
        db.ChildrenFirst stale ∨ ∃ r ∈ stale.head?, db.HasOtherChild r) ∧
      ((applyChange m tombstones db paths (.deleted path itemId)).1.isSome = true ↔
        ∀ r ∈ db.deletedRow m.mountId path itemId, ¬db.HasOtherChild r) := by
  refine ⟨sweepsExactly_iff hp, unchangedOnFailure_iff fun r hr =>
    (List.mem_filter.1 (hp.mem_iff.1 hr)).1, ?_⟩
  have happly : (applyChange m tombstones db paths (.deleted path itemId)).1.isSome =
      (db.deleteChanged m.mountId path itemId).isSome := by
    rw [applyChange]
    cases db.deleteChanged m.mountId path itemId <;> rfl
  rw [happly, deleteChanged_eq, deleteRemoteEntry_isSome fun r hr => isUnsynced_of_deletedRow hr]

/-- A directory and a file in it that a poll of generation 1 listed. -/
def listedDirectory : Db :=
  ((Db.empty 1 0).applyRemote (.upsert 1
      { parent := fuseRootInode, name := ['d'], remotePath := ['d'], kind := .directory, size := 0
        mtime := 0, etag := none, pollGeneration := 1 } none)).applyRemote (.upsert 1
      { parent := 2, name := ['x'], remotePath := ['d', '/', 'x'], kind := .file, size := 1
        mtime := 0, etag := some ['v'], pollGeneration := 1 } none)

/-- With the file returned before the directory, both go. -/
theorem removals_go_through_listedDirectory :
    listedDirectory.SweepsExactly 1 2 (listedDirectory.staleEntries 1 2).reverse :=
  (removals_go_through_iff sampleMount listedDirectory 2 _ (List.reverse_perm _) [] (fun _ => none)
    ['d'] none).1.2 (by decide)

theorem not_removals_go_through_listedDirectory :
    ¬∀ (m : Mount) (db : Db) (generation : ℕ) (stale : List FileEntry),
      stale.Perm (db.staleEntries m.mountId generation) →
        ∀ (tombstones : List Str) (paths : PathToInode) (path : Str) (itemId : Option Str),
          db.SweepsExactly m.mountId generation stale ∧ db.UnchangedOnFailure stale ∧
            (applyChange m tombstones db paths (.deleted path itemId)).1.isSome = true := by
  intro h
  have hall := h sampleMount listedDirectory 2 _ (.refl _) [] (fun _ => none) ['d'] none
  -- the directory comes first
  obtain ⟨db', hd, -⟩ := hall.1
  have hfail : (listedDirectory.sweep (listedDirectory.staleEntries 1 2)).1 = false := by decide
  rw [show listedDirectory.sweep (listedDirectory.staleEntries 1 2) = (true, db') from hd] at hfail
  cases hfail

end Stratosync

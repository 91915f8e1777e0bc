import Stratosync.State.Upserts
import Stratosync.Sync.RemovedDirs
import Stratosync.Sync.Changes

/-!
# The tree, stored twice

A row says where it is by its parent and its name, and says it again by its remote path.
`Db.PathsAgree` is that the two agree. `TreeStep` lists what a statement may do to the rows for
the agreement to last: leave a row in its place, put it where its path says, and change the path
of a row only when no row is in it. The statements that write a place come with the condition
under which they are such steps.
-/

namespace Stratosync

namespace Db

/-- The row is in the directory its path names. -/
def Placed (db : Db) (r : FileEntry) : Prop :=
  ∃ p q, r.parent = some p ∧ db.getByInode p = some q ∧
    r.remotePath = joinRemote q.remotePath r.name

/-- **The parents and the paths agree**, except for the root and in the conflict namespace. -/
def PathsAgree (db : Db) : Prop :=
  ∀ i r, db.getByInode i = some r → i ≠ fuseRootInode →
    inConflictNamespace r.remotePath = false → db.Placed r

/-- A row outside of the conflict namespace is in the directory. -/
def hasRowsIn (db : Db) (i : Inode) : Bool :=
  db.fileIndex.rows.any fun c =>
    c.parent = some i ∧ c.inode ≠ fuseRootInode ∧ inConflictNamespace c.remotePath = false

/-- The row is at the path, or it can move there alone: nothing is in it, itself included. -/
def mayMove (db : Db) (r : FileEntry) (parent : Inode) (path : Str) : Bool :=
  r.remotePath = path || !db.hasRowsIn r.inode && parent ≠ r.inode

/-- The directory, when it has a row, has the path that the path of an entry names. -/
def inDirectory (db : Db) (parent : Inode) (name path : Str) : Bool :=
  (db.getByInode parent).all fun q => joinRemote q.remotePath name = path

/-- The index of a mount whose parents and paths agree. -/
structure TreeOk (db : Db) : Prop where
  agree : db.PathsAgree
  /-- Every row has an inode that was given out. -/
  bounded : ∀ i r, db.getByInode i = some r → i ≤ db.seq

/-- The two rows are in one place. -/
def SamePlace (r r' : FileEntry) : Prop :=
  r'.parent = r.parent ∧ r'.name = r.name ∧ r'.remotePath = r.remotePath

/-- A statement that keeps the tree. -/
structure TreeStep (db db' : Db) : Prop where
  seq : db.seq ≤ db'.seq
  rows : ∀ i r', db'.getByInode i = some r' →
    (∃ r, db.getByInode i = some r ∧ SamePlace r r') ∨
      (db'.Placed r' ∧ (db.getByInode i = none → i ≤ db'.seq))
  moved : ∀ i r r', db.getByInode i = some r → db'.getByInode i = some r' →
    r'.remotePath ≠ r.remotePath → db.hasRowsIn i = false

variable {db db' : Db} {i : Inode} {r : FileEntry}

theorem SamePlace.refl (r : FileEntry) : SamePlace r r := ⟨rfl, rfl, rfl⟩

theorem hasRowsIn_of_child {p : Inode} (hr : db.getByInode i = some r) (hp : r.parent = some p)
    (hi : i ≠ fuseRootInode) (hc : inConflictNamespace r.remotePath = false) :
    db.hasRowsIn p = true :=
  List.any_eq_true.2 ⟨r, mem_rows_of_getByInode hr, by simp [hp, inode_of_getByInode hr, hi, hc]⟩

/-- The parent of a row has a row. -/
theorem exists_parent {p : Inode} (hr : db.getByInode i = some r) (hp : r.parent = some p) :
    ∃ q, db.getByInode p = some q := by
  obtain ⟨q, hq, rfl⟩ := db.fileIndex.ok.parentExists r (mem_rows_of_getByInode hr) p hp
  exact ⟨q, getByInode_of_mem hq⟩

/-- **Such a statement keeps the tree.** -/
theorem TreeStep.treeOk (hs : TreeStep db db') (h : TreeOk db) : TreeOk db' := by
  constructor
  · intro i r' hr' hi hc
    rcases hs.rows i r' hr' with ⟨r, hr, hparent, hname, hpath⟩ | ⟨hplaced, -⟩
    · rw [hpath] at hc
      obtain ⟨p, q, hp, hq, hjoin⟩ := h.agree i r hr hi hc
      obtain ⟨q', hq'⟩ := exists_parent hr' (hparent.trans hp)
      -- the parent did not move, since the row is in it
      have hq'path : q'.remotePath = q.remotePath := by
        by_contra hne
        have hin := hasRowsIn_of_child hr hp hi hc
        rw [hs.moved p q q' hq hq' hne] at hin
        cases hin
      exact ⟨p, q', hparent.trans hp, hq', by rw [hpath, hname, hq'path, hjoin]⟩
    · exact hplaced
  · intro i r' hr'
    cases hr : db.getByInode i with
    | some r => exact (h.bounded i r hr).trans hs.seq
    | none =>
      rcases hs.rows i r' hr' with ⟨r, hr₀, -⟩ | ⟨-, hle⟩
      · rw [hr] at hr₀
        cases hr₀
      · exact hle hr

/-! ## Statements that write no place -/

theorem treeStep_of_samePlace (hseq : db.seq ≤ db'.seq)
    (h : ∀ i r', db'.getByInode i = some r' → ∃ r, db.getByInode i = some r ∧ SamePlace r r') :
    TreeStep db db' := by
  refine ⟨hseq, fun i r' hr' => .inl (h i r' hr'), fun i r r' hr hr' hne => ?_⟩
  obtain ⟨r₀, hr₀, -, -, hpath⟩ := h i r' hr'
  obtain rfl := Option.some.inj (hr.symm.trans hr₀)
  exact absurd hpath hne

theorem TreeStep.refl (db : Db) : TreeStep db db :=
  treeStep_of_samePlace le_rfl fun _ r hr => ⟨r, hr, .refl r⟩

theorem treeStep_of_rowMapped {f : FileEntry → FileEntry} (h : RowMapped db db' i f)
    (hf : ∀ r, SamePlace r (f r)) : TreeStep db db' := by
  refine treeStep_of_samePlace h.seq.ge fun j r' hr' => ?_
  obtain ⟨r, hr, ⟨-, rfl⟩ | ⟨-, rfl⟩⟩ := h.inv hr'
  · exact ⟨r, hr, hf r⟩
  · exact ⟨r', hr, .refl r'⟩

/-- What a statement does to the other tables is of no account. -/
theorem TreeStep.trans_same {db'' : Db} (h : TreeStep db db') (hs : SameRows db' db'') :
    TreeStep db db'' := by
  refine ⟨hs.seq ▸ h.seq, fun j r' hr' => ?_, fun j r r' hr hr' => ?_⟩
  · rw [hs.rows] at hr'
    refine (h.rows j r' hr').imp id fun hplaced => ?_
    obtain ⟨⟨p, q, hp, hq, hjoin⟩, hle⟩ := hplaced
    exact ⟨⟨p, q, hp, (hs.rows p).trans hq, hjoin⟩, hs.seq ▸ hle⟩
  · rw [hs.rows] at hr'
    exact h.moved j r r' hr hr'

/-- Deletions keep the tree. -/
theorem treeStep_of_deleteRows {p : FileEntry → Bool} (h : db.deleteRows p = some db') :
    TreeStep db db' := by
  refine treeStep_of_samePlace (seq_deleteRows h).ge fun j r' hr' => ?_
  rw [getByInode_deleteRows h] at hr'
  exact ⟨r', (Option.filter_eq_some_iff.1 hr').1, .refl r'⟩

/-! ## Statements that write a place -/

section Place

variable {parent : Inode} {name path : Str}

/-- A row is put in a directory that keeps its path. -/
theorem placed_of_inDirectory {r' : FileEntry} (hat : db.inDirectory parent name path = true)
    (hr' : db'.getByInode i = some r') (hparent : r'.parent = some parent)
    (hname : r'.name = name) (hpath : r'.remotePath = path)
    (hkept : ∀ q', db'.getByInode parent = some q' →
      ∃ q, db.getByInode parent = some q ∧ q'.remotePath = q.remotePath) : db'.Placed r' := by
  obtain ⟨q', hq'⟩ := exists_parent hr' hparent
  obtain ⟨q, hq, hqpath⟩ := hkept q' hq'
  have hjoin : joinRemote q.remotePath name = path := by
    simpa [inDirectory, hq] using hat
  exact ⟨parent, q', hparent, hq', by rw [hpath, hname, hqpath, hjoin]⟩

/-- A row is added in a directory at the path its own names. -/
theorem treeStep_of_inserted {r' : FileEntry} (hat : db.inDirectory parent name path = true)
    (hx : parent ≤ db.seq) (hlt : db.seq < i) (hle : i ≤ db'.seq)
    (hparent : r'.parent = some parent) (hname : r'.name = name) (hpath : r'.remotePath = path)
    (hnew : db.getByInode i = none)
    (hrows : ∀ j, db'.getByInode j = if j = i then some r' else db.getByInode j) :
    TreeStep db db' := by
  refine ⟨hlt.le.trans hle, fun j q' hq' => ?_, fun j q q' hq hq' hne => ?_⟩
  · have hq := hq'
    rw [hrows j] at hq
    split at hq
    · rename_i hj
      obtain rfl := Option.some.inj hq
      refine .inr ⟨placed_of_inDirectory hat hq' hparent hname hpath fun q' hq' => ?_,
        fun _ => hj ▸ hle⟩
      rw [hrows, if_neg (hx.trans_lt hlt).ne] at hq'
      exact ⟨q', hq', rfl⟩
    · exact .inl ⟨q', hq, .refl q'⟩
  · rw [hrows j] at hq'
    split at hq'
    · rename_i hj
      rw [hj, hnew] at hq
      cases hq
    · obtain rfl := Option.some.inj (hq.symm.trans hq')
      exact absurd rfl hne

/-- A row moves to a directory at the path its own names; other rows may go. -/
theorem treeStep_of_put {r' : FileEntry} (hat : db.inDirectory parent name path = true)
    (hmove : db.mayMove r parent path = true) (hseq : db.seq ≤ db'.seq)
    (hr : db.getByInode i = some r) (hr' : db'.getByInode i = some r')
    (hparent : r'.parent = some parent) (hname : r'.name = name) (hpath : r'.remotePath = path)
    (hothers : ∀ j q, j ≠ i → db'.getByInode j = some q → db.getByInode j = some q) :
    TreeStep db db' := by
  have hi := inode_of_getByInode hr
  have hmove : r.remotePath = path ∨ (db.hasRowsIn i = false ∧ parent ≠ i) := by
    simpa [mayMove, hi] using hmove
  refine ⟨hseq, fun j q' hq' => ?_, fun j q q' hq hq' hne => ?_⟩
  · by_cases hj : j = i
    · subst hj
      obtain rfl := Option.some.inj (hr'.symm.trans hq')
      refine .inr ⟨placed_of_inDirectory hat hr' hparent hname hpath fun p' hp' => ?_, fun hn => ?_⟩
      · by_cases hself : parent = j
        · -- in itself, which is where it was
          subst hself
          obtain rfl := Option.some.inj (hr'.symm.trans hp')
          exact ⟨r, hr, hpath.trans (hmove.resolve_right fun h => h.2 rfl).symm⟩
        · exact ⟨p', hothers parent p' hself hp', rfl⟩
      · rw [hr] at hn
        cases hn
    · exact .inl ⟨q', hothers j q' hj hq', .refl q'⟩
  · by_cases hj : j = i
    · subst hj
      obtain rfl := Option.some.inj (hr.symm.trans hq)
      obtain rfl := Option.some.inj (hr'.symm.trans hq')
      exact (hmove.resolve_left fun h => hne (hpath.trans h.symm)).1
    · obtain rfl := Option.some.inj (hq.symm.trans (hothers j q' hj hq'))
      exact absurd rfl hne

end Place

/-! ## Upserts -/

variable {mountId : ℕ} {x : Refresh} {itemId : Option Str}

/-- An upsert by path under a directory at the path its entry names. -/
theorem treeStep_of_upsertByPath
    (hat : db.inDirectory x.parent x.name x.remotePath = true) (hx : x.parent ≤ db.seq)
    (h : db.upsertByPath mountId x itemId = some db') : TreeStep db db' := by
  have hseq : db.seq ≤ db'.seq ∧ (db.getByRemotePath mountId x.remotePath = none →
      db.nextInode ≤ db'.seq) := by
    rw [upsertByPath] at h
    split at h
    · rename_i r hr
      refine ⟨(rowMapped_of_updateRow h fun _ => rfl).seq.ge, fun hnone => ?_⟩
      cases hr.symm.trans hnone
    · have hs := seq_insertRow h
      exact ⟨hs ▸ db.seq_lt_nextInode.le, fun _ => hs.ge⟩
  rcases upsertByPath_cases h with ⟨r, hr, hmap⟩ | ⟨hnone, hnew, hrows⟩
  · obtain ⟨hri, -, hrp⟩ := getByRemotePath_spec hr
    have hself := hmap.self
    rw [hri, Option.map_some] at hself
    refine treeStep_of_put hat ?_ hseq.1 hri hself rfl rfl rfl fun j q hj hq => ?_
    · simp [mayMove, hrp]
    · rwa [hmap.of_ne hj] at hq
  · exact treeStep_of_inserted hat hx db.seq_lt_nextInode (hseq.2 hnone) rfl rfl rfl hnew hrows

/-- A new file or directory, put in a directory at the path its own names. -/
theorem treeStep_of_insertFile {e : NewFileEntry}
    (hat : db.inDirectory e.parent e.name e.remotePath = true) (hx : e.parent ≤ db.seq)
    (h : db.insertFile e = some (i, db')) : TreeStep db db' := by
  obtain ⟨db₁, h₁, he⟩ := Option.map_eq_some_iff.1 h
  obtain ⟨rfl, rfl⟩ := Prod.mk.inj he
  exact treeStep_of_inserted hat hx db.seq_lt_nextInode (seq_insertRow h₁).ge rfl rfl rfl
    (getByInode_of_insertRow h₁) (getByInode_insertRow h₁)

/-- An upsert by path leaves every path. -/
theorem remotePath_of_upsertByPath (h : db.upsertByPath mountId x itemId = some db')
    (hi : i ≤ db.seq) {q' : FileEntry} (hq' : db'.getByInode i = some q') :
    ∃ q, db.getByInode i = some q ∧ q'.remotePath = q.remotePath := by
  rcases upsertByPath_cases h with ⟨r, hr, hmap⟩ | ⟨-, -, hrows⟩
  · obtain ⟨hri, -, hrp⟩ := getByRemotePath_spec hr
    obtain ⟨q, hq, ⟨rfl, rfl⟩ | ⟨-, rfl⟩⟩ := hmap.inv hq'
    · obtain rfl := Option.some.inj (hri.symm.trans hq)
      exact ⟨r, hri, hrp.symm⟩
    · exact ⟨q', hq, rfl⟩
  · rw [hrows, if_neg (hi.trans_lt db.seq_lt_nextInode).ne] at hq'
    exact ⟨q', hq', rfl⟩

/-- An upsert by item id or path. The row it finds at another path may move. -/
theorem treeStep_of_upsert {o : Option Inode}
    (hat : db.inDirectory x.parent x.name x.remotePath = true) (hx : x.parent ≤ db.seq)
    (hmove : ∀ r, itemId.bind (db.getByItemId mountId) = some r →
      db.mayMove r x.parent x.remotePath = true)
    (h : db.upsertRemoteFileByIdOrPath mountId x itemId = (o, db')) : TreeStep db db' := by
  have hrefreshed := rowsRefreshed_applyRemote (.upsert mountId x itemId) db
  rw [applyRemote, h] at hrefreshed
  cases o with
  | some i =>
    cases upsert_outcome h with
    | inserted hid hpath hnew hrows =>
      refine treeStep_of_inserted hat hx db.seq_lt_nextInode ?_ rfl rfl rfl hnew hrows
      rcases hrefreshed.rows _ _ ((hrows _).trans (if_pos rfl)) with ⟨r, hr, -⟩ | ⟨-, -, -, hle⟩
      · rw [hnew] at hr
        cases hr
      · exact hle
    | @refreshed r hid hpath hrows =>
      obtain ⟨hri, -, hrp⟩ := getByRemotePath_spec hpath
      refine treeStep_of_put hat ?_ hrefreshed.seq hri ((hrows _).trans (if_pos rfl)) rfl rfl rfl
        fun j q hj hq => ?_
      · simp [mayMove, hrp]
      · rwa [hrows j, if_neg hj] at hq
    | @moved r hid hrows =>
      refine treeStep_of_put hat (hmove r hid) hrefreshed.seq (foundById hid).1
        ((hrows _).trans (if_pos rfl)) rfl rfl rfl fun j q hj hq => ?_
      rw [hrows j, if_neg hj] at hq
      exact (Option.filter_eq_some_iff.1 hq).1
  | none =>
    exact treeStep_of_samePlace hrefreshed.seq fun j q hq =>
      ⟨q, of_refused h hq, .refl q⟩

/-- One transaction of a listing of a directory that is at the path the entries were joined to. -/
theorem treeOk_of_upsertChunk {dir : Inode} {g : ℕ} {chunk : List ListedEntry}
    (hdir : ∀ e ∈ chunk, db.inDirectory dir e.name e.remotePath = true) (hx : dir ≤ db.seq)
    (hok : TreeOk db) (h : db.upsertChunk mountId dir g chunk = some db') :
    TreeOk db' ∧ db.seq ≤ db'.seq := by
  induction chunk generalizing db with
  | nil =>
    obtain rfl := Option.some.inj h
    exact ⟨hok, le_rfl⟩
  | cons e chunk ih =>
    rw [upsertChunk, List.foldlM_cons] at h
    obtain ⟨d, hd, h⟩ := Option.bind_eq_some_iff.1 h
    have hs : TreeStep db d :=
      treeStep_of_upsertByPath (hdir e List.mem_cons_self) hx hd
    have hdir' : ∀ e' ∈ chunk, d.inDirectory dir e'.name e'.remotePath = true := by
      intro e' he'
      have hat := hdir e' (List.mem_cons_of_mem _ he')
      rw [inDirectory] at hat ⊢
      cases hq : d.getByInode dir with
      | none => rfl
      | some q' =>
        obtain ⟨q, hq₀, hpath⟩ := remotePath_of_upsertByPath hd hx hq
        simpa [hq₀, hpath] using hat
    obtain ⟨hok', hle⟩ := ih hdir' (hx.trans hs.seq) (hs.treeOk hok) h
    exact ⟨hok', hs.seq.trans hle⟩

/-! ## Deletions and marks -/

variable (db mountId) in
theorem treeStep_of_deleteStaleEntries (g : ℕ) :
    TreeStep db (db.deleteStaleEntries mountId g).2 := by
  refine treeStep_of_samePlace (rowsRefreshed_applyRemote (.deleteStale mountId g) db).seq
    fun j r hr => ⟨r, getByInode_of_deleteStaleEntries rfl hr, .refl r⟩

theorem treeStep_of_deleteChanged {path : Str} {dropped : Option (Inode × Option PathBuf)}
    (h : db.deleteChanged mountId path itemId = some (dropped, db')) : TreeStep db db' := by
  rw [deleteChanged_eq, deleteRemoteEntry] at h
  split at h
  · obtain ⟨d, hd, he⟩ := Option.map_eq_some_iff.1 h
    obtain ⟨-, rfl⟩ := Prod.mk.inj he
    exact treeStep_of_deleteRows hd
  · obtain ⟨-, rfl⟩ := Prod.mk.inj (Option.some.inj h)
    exact .refl db

theorem treeStep_of_markGeneration {g : ℕ} {chunk : List Inode}
    (h : db.markGeneration g chunk = some db') : TreeStep db db' := by
  have hseq : db'.seq = db.seq := by
    induction chunk generalizing db with
    | nil => exact congrArg seq (Option.some.inj h).symm
    | cons i chunk ih =>
      rw [markGeneration, List.foldlM_cons] at h
      obtain ⟨d, hd, h⟩ := Option.bind_eq_some_iff.1 h
      exact (ih h).trans (rowMapped_of_updateRow hd fun _ => rfl).seq
  refine treeStep_of_samePlace hseq.ge fun j r' hr' => ?_
  rw [markGeneration_rows h] at hr'
  obtain ⟨r, hr, rfl⟩ := Option.map_eq_some_iff.1 hr'
  refine ⟨r, hr, ?_⟩
  split <;> exact .refl r

theorem treeStep_of_cleaned (h : db' = db ∨ db' = db.cleanupExpiredTombstones) :
    TreeStep db db' := by
  rcases h with rfl | rfl
  · exact .refl db'
  · exact (TreeStep.refl db).trans_same ⟨rfl, fun _ => rfl⟩

theorem treeStep_of_batchMarkDirsListed (h : db.batchMarkDirsListed mountId = some db') :
    TreeStep db db' := by
  have hseq : db'.seq = db.seq := by
    obtain ⟨t, -, rfl⟩ := Option.map_eq_some_iff.1 h
    rfl
  refine treeStep_of_samePlace hseq.ge fun j r' hr' => ?_
  rw [batchMarkDirsListed_rows h] at hr'
  obtain ⟨r, hr, rfl⟩ := Option.map_eq_some_iff.1 hr'
  refine ⟨r, hr, ?_⟩
  split <;> exact .refl r

end Db

end Stratosync

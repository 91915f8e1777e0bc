import Stratosync.State.Renumbered
import Stratosync.Sync.Parents

/-!
# A batch and its crashes

A delta poll applies its changes one after the other and stores its token after the last one. The
state of a batch is the index and the map of known paths (`changeStep`); its history the cache files
the deletions dropped. A crash leaves the index as the changes made it so far (`Crashed`), and each
row of it as the last upsert of its path wrote it (`written_of_crashed`).
-/

namespace Stratosync

open Foundations Foundations.Runs

/-- The index a batch starts with, and its map of paths. -/
def startOf (m : Mount) (db : Db) : Db × PathToInode :=
  (db, fun path => (db.snapshotRemoteIndex m.mountId path).map RemoteSnapshot.inode)

/-- The cache file a change drops. -/
def droppedFile (m : Mount) (tombstones : List Str) (s : Db × PathToInode) (c : RemoteChange) :
    Option PathBuf :=
  (applyChange m tombstones s.1 s.2 c).1.bind Applied.dropped

/-- The history of a batch: the cache files it has dropped. -/
def noteDropped (m : Mount) (tombstones : List Str) (s : Db × PathToInode) (c : RemoteChange)
    (_ : Db × PathToInode) (files : List PathBuf) : List PathBuf :=
  (droppedFile m tombstones s c).toList ++ files

abbrev batchStep (m : Mount) (tombstones : List Str) :
    (Db × PathToInode) × List PathBuf → RemoteChange →
      Option ((Db × PathToInode) × List PathBuf) :=
  withHistory (changeStep m tombstones) (noteDropped m tombstones)

/-- The index a crash leaves when these changes are still to come: before the next of them, or
inside it, where it moves a row and has only deleted the one at the new path. -/
inductive Crashed (m : Mount) (tombstones : List Str) (s : Db × PathToInode) :
    List RemoteChange → Db → Prop
  | between (rest : List RemoteChange) : Crashed m tombstones s rest s.1
  | moving {c : RemoteChange} {rest : List RemoteChange} {x : RemoteMetadata} {r : FileEntry}
      {db : Db} (hx : c.metadata = some x) (hadm : admitted m tombstones x = true)
      (hr : x.itemId.bind (s.1.getByItemId m.mountId) = some r) (hp : r.remotePath ≠ x.path)
      (hdel : s.1.deleteRows (fun q =>
        q.mountId = m.mountId ∧ q.remotePath = x.path ∧ q.inode ≠ r.inode) = some db) :
      Crashed m tombstones s (c :: rest) db

/-- The entry a change upserts, if it passes the filters. -/
def RemoteChange.admittedEntry (m : Mount) (tombstones : List Str) (c : RemoteChange) :
    Option RemoteMetadata :=
  c.metadata.filter (admitted m tombstones)

/-- One of the changes upserts the path. -/
def UpsertsPath (m : Mount) (tombstones : List Str) (cs : List RemoteChange) (path : Str) : Prop :=
  ∃ c ∈ cs, ∃ x ∈ c.admittedEntry m tombstones, x.path = path

instance (m : Mount) (tombstones : List Str) (cs : List RemoteChange) (path : Str) :
    Decidable (UpsertsPath m tombstones cs path) :=
  inferInstanceAs (Decidable (∃ c ∈ cs, ∃ x ∈ c.admittedEntry m tombstones, _))

variable {m : Mount} {tombstones : List Str}

theorem admittedEntry_eq_some {c : RemoteChange} {x : RemoteMetadata} :
    c.admittedEntry m tombstones = some x ↔ c.metadata = some x ∧ admitted m tombstones x = true :=
  Option.filter_eq_some_iff

theorem upsertsPath_cons {c : RemoteChange} {cs : List RemoteChange} {path : Str} :
    UpsertsPath m tombstones (c :: cs) path ↔
      (∃ x ∈ c.admittedEntry m tombstones, x.path = path) ∨ UpsertsPath m tombstones cs path := by
  simp [UpsertsPath]

/-! ## What a change does -/

theorem batchStep_eq_some {s t : (Db × PathToInode) × List PathBuf} {c : RemoteChange} :
    batchStep m tombstones s c = some t ↔
      ∃ a, applyChange m tombstones s.1.1 s.1.2 c = (some a, t.1.1) ∧ t.1.2 = a.paths ∧
        t.2 = a.dropped.toList ++ s.2 := by
  obtain ⟨⟨db, paths⟩, files⟩ := s
  obtain ⟨⟨db', paths'⟩, files'⟩ := t
  rw [withHistory_eq_some, noteDropped, droppedFile, changeStep]
  dsimp only
  cases hcall : applyChange m tombstones db paths c with
  | mk o d =>
    cases o with
    | none => simp
    | some a =>
      simp only [Option.some.injEq, Prod.mk.injEq, Option.bind_some]
      constructor
      · rintro ⟨⟨rfl, rfl⟩, rfl⟩
        exact ⟨a, ⟨rfl, rfl⟩, rfl, rfl⟩
      · rintro ⟨_, ⟨rfl, rfl⟩, rfl, rfl⟩
        exact ⟨⟨rfl, rfl⟩, rfl⟩

/-- What a change of a batch does: nothing, an upsert, or a deletion. -/
inductive BatchStep (m : Mount) (tombstones : List Str) (s : (Db × PathToInode) × List PathBuf)
    (c : RemoteChange) : (Db × PathToInode) × List PathBuf → Prop
  | skip {x : RemoteMetadata} (hx : c.metadata = some x) (hadm : admitted m tombstones x = false) :
      BatchStep m tombstones s c s
  | upsert {x : RemoteMetadata} {i : Inode} {db : Db} (hx : c.admittedEntry m tombstones = some x)
      (hup : upsertEntry m s.1.2 0 s.1.1 x = (some i, db)) :
      BatchStep m tombstones s c ((db, Function.update s.1.2 x.path (some i)), s.2)
  | delete {path : Str} {itemId : Option Str} {found : Option (Inode × Option PathBuf)} {db : Db}
      (hc : c = .deleted path itemId)
      (hdel : s.1.1.deleteRemoteEntry (s.1.1.deletedRow m.mountId path itemId) =
        some (found, db)) :
      BatchStep m tombstones s c ((db, s.1.2), (found.bind Prod.snd).toList ++ s.2)

/-- **A step of a batch is one of the three.** -/
theorem batchStep_iff {s t : (Db × PathToInode) × List PathBuf} {c : RemoteChange} :
    batchStep m tombstones s c = some t ↔ BatchStep m tombstones s c t := by
  rw [batchStep_eq_some]
  constructor
  · obtain ⟨⟨db', paths⟩, files⟩ := t
    rintro ⟨a, hcall, rfl, rfl⟩
    dsimp only at hcall ⊢
    cases hx : c.metadata with
    | some x =>
      rw [applyChange_of_metadata hx] at hcall
      by_cases hadm : admitted m tombstones x = true
      · rw [if_pos hadm] at hcall
        cases hup : upsertEntry m s.1.2 0 s.1.1 x with
        | mk o db =>
          rw [hup] at hcall
          cases o with
          | none => cases (Prod.mk.inj hcall).1
          | some i =>
            obtain ⟨ha, rfl⟩ := Prod.mk.inj hcall
            obtain rfl := Option.some.inj ha
            exact .upsert (admittedEntry_eq_some.2 ⟨hx, hadm⟩) hup
      · rw [if_neg hadm] at hcall
        obtain ⟨ha, rfl⟩ := Prod.mk.inj hcall
        obtain rfl := Option.some.inj ha
        exact .skip hx (by simpa using hadm)
    | none =>
      cases c with
      | added x | modified x _ => cases hx
      | deleted path itemId =>
        rw [applyChange, deleteChanged_eq] at hcall
        cases hdel : s.1.1.deleteRemoteEntry (s.1.1.deletedRow m.mountId path itemId) with
        | none =>
          rw [hdel] at hcall
          cases (Prod.mk.inj hcall).1
        | some found =>
          obtain ⟨found, db⟩ := found
          rw [hdel] at hcall
          obtain ⟨ha, rfl⟩ := Prod.mk.inj hcall
          obtain rfl := Option.some.inj ha
          exact .delete rfl hdel
  · rintro (⟨hx, hadm⟩ | @⟨x, i, db, hx, hup⟩ |
      @⟨path, itemId, found, db, rfl, hdel⟩)
    · refine ⟨⟨s.1.2, none, none⟩, ?_, rfl, rfl⟩
      rw [applyChange_of_metadata hx, if_neg (by rw [hadm]; exact Bool.false_ne_true)]
    · obtain ⟨hx, hadm⟩ := admittedEntry_eq_some.1 hx
      refine ⟨⟨Function.update s.1.2 x.path (some i), some i, none⟩, ?_, rfl, rfl⟩
      rw [applyChange_of_metadata hx, if_pos hadm, hup]
    · refine ⟨⟨s.1.2, found.map Prod.fst, found.bind Prod.snd⟩, ?_, rfl, rfl⟩
      rw [applyChange, deleteChanged_eq, hdel]

namespace Db

variable {db db' : Db} {mountId : ℕ} {x : Refresh} {itemId : Option Str} {i : Inode}

/-- The inodes of the rows have all been given out. -/
structure Sequenced (db : Db) : Prop where
  root : fuseRootInode ≤ db.seq
  rows : ∀ r ∈ db.fileIndex.rows, r.inode ≤ db.seq

theorem sequenced_empty (mountId now : ℕ) : (Db.empty mountId now).Sequenced :=
  ⟨le_rfl, fun _ hr => (List.mem_singleton.1 hr) ▸ le_rfl⟩

theorem Sequenced.nextInode_eq (h : db.Sequenced) : db.nextInode = db.seq + 1 := by
  have hfold : ∀ l : List ℕ, (∀ n ∈ l, n ≤ db.seq) → l.foldl max db.seq = db.seq := by
    intro l hl
    induction l with
    | nil => rfl
    | cons n l ih =>
      rw [List.foldl_cons, max_eq_left (hl n List.mem_cons_self)]
      exact ih fun k hk => hl k (List.mem_cons_of_mem _ hk)
  rw [nextInode, hfold _ fun n hn => ?_]
  obtain ⟨r, hr, rfl⟩ := List.mem_map.1 hn
  exact h.rows r hr

/-- The parent of a row has been given out. -/
theorem Sequenced.parent_le (h : db.Sequenced) {r : FileEntry} (hr : r ∈ db.fileIndex.rows)
    {p : Inode} (hp : r.parent = some p) : p ≤ db.seq := by
  obtain ⟨q, hq, rfl⟩ := db.fileIndex.ok.parentExists r hr p hp
  exact h.rows q hq

theorem Sequenced.upsert (h : db.Sequenced) :
    (db.upsertRemoteFileByIdOrPath mountId x itemId).2.Sequenced := by
  have hrows := rowsListed_applyRemote (.upsert mountId x itemId) db
  refine ⟨h.root.trans hrows.seq, fun r hr => ?_⟩
  rcases hrows.rows _ r (getByInode_of_mem hr) with ⟨q, hq, -⟩ | ⟨-, -, hle⟩
  · rw [← inode_of_getByInode hq]
    exact (h.rows q (mem_rows_of_getByInode hq)).trans hrows.seq
  · exact hle

theorem Sequenced.deleteRows {p : FileEntry → Bool} (h : db.Sequenced)
    (hdel : db.deleteRows p = some db') : db'.Sequenced := by
  refine ⟨h.root.trans (seq_deleteRows hdel).ge, fun r hr => ?_⟩
  rw [seq_deleteRows hdel]
  exact h.rows r ((mem_rows_deleteRows hdel).1 hr).1

theorem seq_deleteRemoteEntry {found : Option FileEntry} {dropped : Option (Inode × Option PathBuf)}
    (h : db.deleteRemoteEntry found = some (dropped, db')) :
    (db.Sequenced → db'.Sequenced) ∧ db'.seq = db.seq := by
  rw [deleteRemoteEntry] at h
  split at h
  · obtain ⟨d, hd, he⟩ := Option.map_eq_some_iff.1 h
    obtain ⟨-, rfl⟩ := Prod.mk.inj he
    exact ⟨fun hs => hs.deleteRows hd, seq_deleteRows hd⟩
  · obtain ⟨-, rfl⟩ := Prod.mk.inj (Option.some.inj h)
    exact ⟨id, rfl⟩

/-- The rows that make way for the one found by item id: those at the new path, of which there is
none when the row is there already. -/
theorem rows_of_makeWay {d : Db} {r : FileEntry}
    (hfound : itemId.bind (db.getByItemId mountId) = some r)
    (hd : (if r.remotePath = x.remotePath then some db
      else db.deleteRows fun q =>
        q.mountId = mountId ∧ q.remotePath = x.remotePath ∧ q.inode ≠ r.inode) = some d) :
    d.fileIndex.rows = (db.fileIndex.rows.filter fun q =>
        !(q.mountId = mountId ∧ q.remotePath = x.remotePath ∧ q.inode ≠ r.inode)) ∧
      d.seq = db.seq := by
  obtain ⟨hri, hrm, -⟩ := foundById hfound
  split at hd
  · rename_i hp
    obtain rfl := Option.some.inj hd
    refine ⟨(List.filter_eq_self.2 fun q hq => ?_).symm, rfl⟩
    rw [Bool.not_eq_true', decide_eq_false_iff_not]
    rintro ⟨hm, hqp, hne⟩
    have hself := getByRemotePath_self (getByInode_of_mem hq)
    rw [hm, hqp, ← hp, ← hrm, getByRemotePath_self hri] at hself
    exact hne (congrArg FileEntry.inode (Option.some.inj hself).symm)
  · have hseq := seq_deleteRows hd
    obtain ⟨t, ht, rfl⟩ := Option.map_eq_some_iff.1 hd
    exact ⟨Table.commit_eq_some.1 ht, hseq⟩

/-- An upsert of a row that is found by item id. -/
theorem rows_of_upsertById {r : FileEntry}
    (hfound : itemId.bind (db.getByItemId mountId) = some r)
    (h : db.upsertRemoteFileByIdOrPath mountId x itemId = (some i, db')) :
    i = r.inode ∧ db'.seq = db.seq ∧
      db'.fileIndex.rows = (db.fileIndex.rows.filter fun q =>
        !(q.mountId = mountId ∧ q.remotePath = x.remotePath ∧ q.inode ≠ r.inode)).map fun q =>
          if q.inode = r.inode then refreshByPath x itemId q else q := by
  obtain ⟨hri, -, hrid⟩ := foundById hfound
  rw [upsertRemoteFileByIdOrPath, hfound] at h
  dsimp only at h
  split at h
  · cases (Prod.mk.inj h).1
  rename_i d hd
  obtain ⟨hdrows, hdseq⟩ := rows_of_makeWay hfound hd
  cases hup : d.updateRow r.inode (refreshRow x) with
  | none =>
    rw [hup] at h
    cases (Prod.mk.inj h).1
  | some d' =>
    rw [hup] at h
    obtain ⟨hi, rfl⟩ := Prod.mk.inj h
    obtain ⟨t, ht, rfl⟩ := Option.map_eq_some_iff.1 hup
    refine ⟨(Option.some.inj hi).symm, hdseq, ?_⟩
    change t.rows = _
    rw [Table.commit_eq_some.1 ht, hdrows]
    refine List.map_congr_left fun q hq => ?_
    simp only [decide_eq_true_eq]
    split
    · rename_i hqr
      have hq := getByInode_of_mem (List.mem_of_mem_filter hq)
      obtain rfl := Option.some.inj ((hqr ▸ hq).symm.trans hri)
      rw [refreshByPath, hrid]
      obtain ⟨id, rfl, -⟩ := Option.bind_eq_some_iff.1 hfound
      exact congrArg (fun id => { refreshRow x q with remoteItemId := id }) hrid
    · rfl

/-- An upsert by path refreshes the row at the path, or adds one. -/
theorem rows_of_upsertByPath (h : db.upsertByPath mountId x itemId = some db') :
    (∃ r, db.getByRemotePath mountId x.remotePath = some r ∧ db'.seq = db.seq ∧
      db'.fileIndex.rows = (db.fileIndex.rows.filter fun q =>
        !(q.mountId = mountId ∧ q.remotePath = x.remotePath ∧ q.inode ≠ r.inode)).map fun q =>
          if q.inode = r.inode then refreshByPath x itemId q else q) ∨
    (db.getByRemotePath mountId x.remotePath = none ∧ db'.seq = db.nextInode ∧
      db'.fileIndex.rows = db.fileIndex.rows ++ [db.insertedRow mountId x itemId]) := by
  rw [upsertByPath] at h
  cases hr : db.getByRemotePath mountId x.remotePath with
  | some r =>
    rw [hr] at h
    dsimp only at h
    obtain ⟨t, ht, rfl⟩ := Option.map_eq_some_iff.1 h
    refine .inl ⟨r, rfl, rfl, ?_⟩
    change t.rows = _
    rw [Table.commit_eq_some.1 ht, List.filter_eq_self.2 fun q hq => ?_]
    · simp only [decide_eq_true_eq]
    · rw [Bool.not_eq_true', decide_eq_false_iff_not]
      rintro ⟨hm, hqp, hne⟩
      exact hne (congrArg FileEntry.inode (eq_of_remotePath hq hm (hqp ▸ hr)))
  | none =>
    rw [hr] at h
    dsimp only at h
    refine .inr ⟨rfl, seq_insertRow h, ?_⟩
    obtain ⟨t, ht, rfl⟩ := Option.map_eq_some_iff.1 h
    exact Table.commit_eq_some.1 ht

/-- What an upsert that goes through makes of the list of rows: it updates the row it finds, in
place of any other at the path, or adds one. -/
theorem upsert_rows (h : db.upsertRemoteFileByIdOrPath mountId x itemId = (some i, db')) :
    (∃ t, db.upsertTarget mountId x itemId = some t ∧ i = t.inode ∧ db'.seq = db.seq ∧
      db'.fileIndex.rows = (db.fileIndex.rows.filter fun q =>
        !(q.mountId = mountId ∧ q.remotePath = x.remotePath ∧ q.inode ≠ t.inode)).map fun r =>
          if r.inode = t.inode then refreshByPath x itemId r else r) ∨
    (db.upsertTarget mountId x itemId = none ∧ i = db.nextInode ∧ db'.seq = db.nextInode ∧
      db'.fileIndex.rows = db.fileIndex.rows ++ [db.insertedRow mountId x itemId]) := by
  have hout := upsert_outcome h
  cases hfound : itemId.bind (db.getByItemId mountId) with
  | some r =>
    rw [upsertTarget, hfound, Option.some_or]
    exact .inl ⟨r, rfl, rows_of_upsertById hfound h⟩
  | none =>
    rw [upsertRemoteFileByIdOrPath, hfound] at h
    dsimp only at h
    rw [upsertTarget, hfound, Option.none_or]
    cases hput : db.upsertByPath mountId x itemId with
    | none =>
      rw [hput] at h
      cases (Prod.mk.inj h).1
    | some d =>
      rw [hput] at h
      obtain ⟨-, rfl⟩ := Prod.mk.inj h
      rcases rows_of_upsertByPath hput with ⟨r, hr, hseq, hrows⟩ | ⟨hr, hseq, hrows⟩
      · refine .inl ⟨r, hr, ?_, hseq, hrows⟩
        cases hout with
        | inserted _ hnone => exact absurd (hnone.symm.trans hr) (by simp)
        | refreshed _ hq => rw [Option.some.inj (hq.symm.trans hr)]
        | moved hq => exact absurd (hfound.symm.trans hq) (by simp)
      · refine .inr ⟨hr, ?_, hseq, hrows⟩
        cases hout with
        | inserted => rfl
        | refreshed _ hq => exact absurd (hr.symm.trans hq) (by simp)
        | moved hq => exact absurd (hfound.symm.trans hq) (by simp)

end Db

/-! ## The rows a crash leaves -/

namespace Db

variable {db db' : Db} {mountId : ℕ} {x : Refresh} {itemId : Option Str}

theorem refreshRow_refreshRow (x y : Refresh) (r : FileEntry) :
    refreshRow x (refreshRow y r) = refreshRow x r := by
  simp [refreshRow]

/-- To repeat an upsert changes nothing but the status of a new row. -/
theorem UpsertOutcome.refreshRow_written {i : Inode} {r : FileEntry}
    (h : UpsertOutcome db mountId x itemId db' i) (hr : db'.getByInode i = some r) :
    (refreshRow x r).relisted = r.relisted := by
  cases h with
  | inserted _ _ _ hrows =>
    obtain rfl := Option.some.inj (hr.symm.trans ((hrows _).trans (if_pos rfl)))
    rfl
  | @refreshed q _ _ hrows =>
    obtain rfl := Option.some.inj (hr.symm.trans ((hrows _).trans (if_pos rfl)))
    simp [refreshByPath, refreshRow]
  | @moved q _ hrows =>
    obtain rfl := Option.some.inj (hr.symm.trans ((hrows _).trans (if_pos rfl)))
    rw [refreshRow_refreshRow]

end Db

/-- The row is as the upsert of `x` leaves it in the directory it is in. -/
def WrittenAs (x : RemoteMetadata) (r : FileEntry) : Prop :=
  ∀ p ∈ r.parent, (refreshRow (x.toRefresh p 0) r).relisted = r.relisted

section Rows

variable {s t : (Db × PathToInode) × List PathBuf} {c : RemoteChange} {cs : List RemoteChange}

/-- A row at a path that a change does not upsert was there before it. -/
theorem BatchStep.getByRemotePath (h : BatchStep m tombstones s c t) {path : Str}
    (hp : ¬∃ x ∈ c.admittedEntry m tombstones, x.path = path) {r : FileEntry}
    (hr : t.1.1.getByRemotePath m.mountId path = some r) :
    s.1.1.getByRemotePath m.mountId path = some r := by
  cases h with
  | skip => exact hr
  | @upsert x i db hx hup =>
    have hne : path ≠ x.path := fun he => hp ⟨x, hx, he.symm⟩
    rw [upsertEntry] at hup
    rw [(Db.upsert_outcome hup).getByRemotePath_of_ne hne] at hr
    exact (Option.filter_eq_some_iff.1 hr).1
  | delete _ hdel =>
    obtain ⟨hri, hrm, hrp⟩ := Db.getByRemotePath_eq_some.1 hr
    rw [deleteRemoteEntry_rows hdel fun _ hq => isUnsynced_of_deletedRow hq] at hri
    split at hri
    · cases hri
    · exact Db.getByRemotePath_eq_some.2 ⟨hri, hrm, hrp⟩

/-- A row at a path that is not upserted any more was there before. -/
theorem getByRemotePath_of_run (h : run (batchStep m tombstones) s cs = some t) {path : Str}
    (hp : ¬UpsertsPath m tombstones cs path) {r : FileEntry}
    (hr : t.1.1.getByRemotePath m.mountId path = some r) :
    s.1.1.getByRemotePath m.mountId path = some r := by
  induction cs generalizing s with
  | nil =>
    obtain rfl := Option.some.inj h
    exact hr
  | cons c cs ih =>
    obtain ⟨u, hu, hrest⟩ := run_cons_eq_some.1 h
    rw [upsertsPath_cons, not_or] at hp
    exact (batchStep_iff.1 hu).getByRemotePath hp.1 (ih hrest hp.2)

/-- **A row is as the last upsert of its path wrote it.** -/
theorem written_of_run {pre later : List RemoteChange} {x : RemoteMetadata}
    (h : run (batchStep m tombstones) s (pre ++ c :: later) = some t)
    (hx : c.admittedEntry m tombstones = some x) (hlast : ¬UpsertsPath m tombstones later x.path)
    {r : FileEntry} (hr : t.1.1.getByRemotePath m.mountId x.path = some r) : WrittenAs x r := by
  rw [run_append] at h
  obtain ⟨u, -, h⟩ := Option.bind_eq_some_iff.1 h
  obtain ⟨v, hv, h⟩ := run_cons_eq_some.1 h
  have hr := getByRemotePath_of_run h hlast hr
  intro p hp
  cases batchStep_iff.1 hv with
  | skip hy hadm =>
    obtain ⟨hx, hadm'⟩ := admittedEntry_eq_some.1 hx
    obtain rfl := Option.some.inj (hx.symm.trans hy)
    rw [hadm] at hadm'
    cases hadm'
  | @upsert y i db hy hup =>
    obtain rfl := Option.some.inj (hx.symm.trans hy)
    rw [upsertEntry] at hup
    have hout := Db.upsert_outcome hup
    obtain ⟨w, hwi, hw⟩ := hout.getByRemotePath_written
    obtain rfl := Option.some.inj (hr.symm.trans hw)
    obtain ⟨q, hq, -, -, hqp, -⟩ := hout.written
    obtain rfl := Option.some.inj (hwi.symm.trans hq)
    obtain rfl := Option.some.inj (hp.symm.trans hqp)
    exact hout.refreshRow_written hwi
  | delete hc =>
    subst hc
    cases hx

/-- The map of paths has every path that was upserted. -/
theorem isSome_paths_of_run (h : run (batchStep m tombstones) s cs = some t) {path : Str}
    (hp : (s.1.2 path).isSome = true ∨ UpsertsPath m tombstones cs path) :
    (t.1.2 path).isSome = true := by
  induction cs generalizing s with
  | nil =>
    obtain rfl := Option.some.inj h
    exact hp.resolve_right (by rintro ⟨_, hc, -⟩; cases hc)
  | cons c cs ih =>
    obtain ⟨u, hu, hrest⟩ := run_cons_eq_some.1 h
    refine ih hrest ?_
    rw [upsertsPath_cons] at hp
    cases batchStep_iff.1 hu with
    | skip hx hadm =>
      rcases hp with hp | ⟨x, hx', -⟩ | hp
      · exact .inl hp
      · obtain ⟨hx', hadm'⟩ := admittedEntry_eq_some.1 hx'
        obtain rfl := Option.some.inj (hx'.symm.trans hx)
        rw [hadm] at hadm'
        cases hadm'
      · exact .inr hp
    | @upsert y i db hy _ =>
      rcases hp with hp | ⟨x, hx, rfl⟩ | hp
      · left
        dsimp only
        by_cases he : path = y.path
        · rw [he, Function.update_self, Option.isSome_some]
        · rwa [Function.update_of_ne he]
      · obtain rfl := Option.some.inj (hx.symm.trans hy)
        left
        dsimp only
        rw [Function.update_self, Option.isSome_some]
      · exact .inr hp
    | delete hc =>
      subst hc
      rcases hp with hp | ⟨x, hx, -⟩ | hp
      · exact .inl hp
      · cases hx
      · exact .inr hp

theorem BatchStep.sequenced (h : BatchStep m tombstones s c t) (hs : s.1.1.Sequenced) :
    t.1.1.Sequenced ∧ s.1.1.seq ≤ t.1.1.seq := by
  cases h with
  | skip => exact ⟨hs, le_rfl⟩
  | @upsert x i db _ hup =>
    rw [upsertEntry] at hup
    have hup' := congrArg Prod.snd hup
    dsimp only at hup' ⊢
    rw [← hup']
    exact ⟨hs.upsert, (rowsListed_applyRemote (.upsert ..) s.1.1).seq⟩
  | delete _ hdel =>
    obtain ⟨hdb, hseq⟩ := Db.seq_deleteRemoteEntry hdel
    exact ⟨hdb hs, hseq.ge⟩

end Rows

section Crash

variable {s : Db × PathToInode} {c : RemoteChange} {rest : List RemoteChange} {db : Db}

theorem Crashed.rows_subset (h : Crashed m tombstones s rest db) {r : FileEntry}
    (hr : r ∈ db.fileIndex.rows) : r ∈ s.1.fileIndex.rows := by
  cases h with
  | between => exact hr
  | moving _ _ _ _ hdel => exact ((Db.mem_rows_deleteRows hdel).1 hr).1

theorem Crashed.getByRemotePath (h : Crashed m tombstones s rest db) {path : Str} {r : FileEntry}
    (hr : db.getByRemotePath m.mountId path = some r) :
    s.1.getByRemotePath m.mountId path = some r := by
  obtain ⟨hri, hrm, hrp⟩ := Db.getByRemotePath_eq_some.1 hr
  have hmem := h.rows_subset (Db.mem_rows_of_getByInode hri)
  exact Db.getByRemotePath_eq_some.2 ⟨Db.getByInode_of_mem hmem, hrm, hrp⟩

theorem Crashed.sequenced (h : Crashed m tombstones s rest db) (hs : s.1.Sequenced) :
    db.Sequenced ∧ db.seq = s.1.seq := by
  cases h with
  | between => exact ⟨hs, rfl⟩
  | moving _ _ _ _ hdel => exact ⟨hs.deleteRows hdel, Db.seq_deleteRows hdel⟩

/-- A change that was cut short goes on where it stopped. -/
theorem applyChange_of_crashed (h : Crashed m tombstones s (c :: rest) db) :
    applyChange m tombstones db s.2 c = applyChange m tombstones s.1 s.2 c := by
  cases h with
  | between => rfl
  | @moving _ _ x r _ hx hadm hr hp hdel =>
    obtain ⟨hri, hrm, hrid⟩ := Db.foundById hr
    have hkept : r ∈ db.fileIndex.rows :=
      (Db.mem_rows_deleteRows hdel).2 ⟨Db.mem_rows_of_getByInode hri, by simp⟩
    have hagain : x.itemId.bind (db.getByItemId m.mountId) = some r := by
      obtain ⟨id, hid, -⟩ := Option.bind_eq_some_iff.1 hr
      rw [hid, Option.bind_some]
      rw [hid] at hrid
      cases hq : db.getByItemId m.mountId id with
      | none => simpa [hrm, hrid] using List.find?_eq_none.1 hq r hkept
      | some q =>
        obtain ⟨hqi, hqm, hqid⟩ := Db.getByItemId_spec hq
        rw [Db.UpsertOutcome.eq_of_itemId (Db.mem_rows_of_getByInode hqi) hkept
          (hqm.trans hrm.symm) (hqid ▸ rfl) (hqid.trans hrid.symm)]
    have hgone : db.deleteRows (fun q =>
        q.mountId = m.mountId ∧ q.remotePath = x.path ∧ q.inode ≠ r.inode) = some db :=
      Db.deleteRows_of_none fun q hq => ((Db.mem_rows_deleteRows hdel).1 hq).2
    have hp : ¬r.remotePath = (x.toRefresh (resolveParent s.2 x.path) 0).remotePath := hp
    have hupsert : upsertEntry m s.2 0 db x = upsertEntry m s.2 0 s.1 x := by
      rw [upsertEntry, upsertEntry, Db.upsertRemoteFileByIdOrPath, Db.upsertRemoteFileByIdOrPath,
        hr, hagain]
      dsimp only
      rw [if_neg hp, if_neg hp]
      rw [show db.deleteRows (fun q => q.mountId = m.mountId ∧
          q.remotePath = (x.toRefresh (resolveParent s.2 x.path) 0).remotePath ∧
            q.inode ≠ r.inode) = some db from hgone,
        show s.1.deleteRows (fun q => q.mountId = m.mountId ∧
          q.remotePath = (x.toRefresh (resolveParent s.2 x.path) 0).remotePath ∧
            q.inode ≠ r.inode) = some db from hdel]
    rw [applyChange_of_metadata hx, applyChange_of_metadata hx, hupsert, if_pos hadm, if_pos hadm]

/-- The poll that was not interrupted could as well have gone on from the crash. -/
theorem resumed (h : Crashed m tombstones s rest db) (files : List PathBuf) :
    run (batchStep m tombstones) ((db, s.2), files) rest =
      run (batchStep m tombstones) (s, files) rest := by
  cases rest with
  | nil =>
    cases h
    rfl
  | cons c rest =>
    have hstep : batchStep m tombstones ((db, s.2), files) c =
        batchStep m tombstones (s, files) c := by
      ext u
      rw [batchStep_eq_some, batchStep_eq_some]
      simp only [applyChange_of_crashed h]
    rw [run_cons, run_cons, hstep]

end Crash

end Stratosync

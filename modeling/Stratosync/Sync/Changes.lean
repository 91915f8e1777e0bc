import Stratosync.Daemon.World

/-!
# Applying a listing or a change feed

What the poller does with one entry: the filters it passes, the comparison of a full poll with
the rows it has, the parent an entry is put under, and the arms of a delta poll for an upsert and
for a deletion. The process that runs them is in `Sync.Poller`.
-/

namespace Stratosync

/-- A change a delta feed reports. -/
inductive RemoteChange
  | added (x : RemoteMetadata)
  | modified (x : RemoteMetadata) (oldEtag : Option Str)
  | deleted (path : Str) (itemId : Option Str)
  deriving DecidableEq, Repr

/-- What a full poll compares with the remote of a row. -/
structure RemoteSnapshot where
  inode : Inode
  etag : Option Str
  size : ℕ
  deriving DecidableEq, Repr

/-- The rows a poll has, by remote path. -/
abbrev Snapshot := Str → Option RemoteSnapshot

/-- The inodes a poll has, by remote path. -/
abbrev PathToInode := Str → Option Inode

namespace Db

variable (db : Db)

def snapshotRemoteIndex (mountId : ℕ) : Snapshot := fun path =>
  (db.getByRemotePath mountId path).map fun r => ⟨r.inode, r.etag, r.size⟩

/-- One transaction of `batch_mark_generation`. -/
def markGeneration (generation : ℕ) (chunk : List Inode) : Option Db :=
  chunk.foldlM (fun d i => d.updateRow i fun r => { r with pollGeneration := generation }) db

def cleanupExpiredTombstones : Db :=
  { db with tombstones := db.tombstones.filter fun t => db.now < t.expiresAt }

/-- `UPDATE file_index SET dir_listed WHERE kind = 'dir' AND dir_listed IS NULL`. -/
def batchMarkDirsListed (mountId : ℕ) : Option Db :=
  (db.fileIndex.update
    (fun r => r.mountId = mountId ∧ r.kind = .directory ∧ r.dirListed = none)
    fun r => { r with dirListed := some db.now }).map fun t => { db with fileIndex := t }

/-- The arm of a delta poll for a deletion: by item id where the feed has one and it finds a row,
else by path. -/
def deleteChanged (mountId : ℕ) (path : Str) :
    Option Str → Option (Option (Inode × Option PathBuf) × Db)
  | some id =>
    (db.deleteRemoteEntryByItemId mountId id).bind fun byId =>
      if byId.1.isSome then some byId else byId.2.deleteRemoteEntryByPath mountId path
  | none => db.deleteRemoteEntryByPath mountId path

end Db

theorem markGeneration_rows {db db' : Db} {g : ℕ} {chunk : List Inode}
    (h : db.markGeneration g chunk = some db') (j : Inode) :
    db'.getByInode j = (db.getByInode j).map fun r =>
      if j ∈ chunk then { r with pollGeneration := g } else r := by
  induction chunk generalizing db with
  | nil =>
    obtain rfl := Option.some.inj h
    simp
  | cons i chunk ih =>
    rw [Db.markGeneration, List.foldlM_cons] at h
    obtain ⟨d, hd, h⟩ := Option.bind_eq_some_iff.1 h
    rw [ih h, (Db.rowMapped_of_updateRow hd fun _ => rfl).rows j]
    cases db.getByInode j with
    | none => simp
    | some r =>
      by_cases hj : j = i
      · by_cases hc : j ∈ chunk <;> simp [hj]
      · simp [hj]

theorem batchMarkDirsListed_rows {db db' : Db} {mountId : ℕ}
    (h : db.batchMarkDirsListed mountId = some db') (i : Inode) :
    db'.getByInode i = (db.getByInode i).map fun r =>
      if r.mountId = mountId ∧ r.kind = .directory ∧ r.dirListed = none then
        { r with dirListed := some db.now }
      else r := by
  obtain ⟨t, ht, rfl⟩ := Option.map_eq_some_iff.1 h
  have hinode (r : FileEntry) : { r with dirListed := some db.now }.inode = r.inode := rfl
  have hget := Foundations.Table.get_update hinode ht i
  simp only [decide_eq_true_eq] at hget
  exact hget

/-! ## Filters -/

/-- The safety check of the poller: path traversal, a null byte, or a slash in the name. -/
def unsafeEntry (x : RemoteMetadata) : Bool :=
  containsDotDot x.path || x.path.contains '\x00' || x.name.contains '/'

def inConflictNamespace (path : Str) : Bool := conflictPrefix.isPrefixOf path

/-- Some tombstone covers the path. -/
def tombstoned (tombstones : List Str) (path : Str) : Bool := tombstones.any (atOrBelow · path)

/-- The entries a delta poll upserts. -/
def admitted (m : Mount) (tombstones : List Str) (x : RemoteMetadata) : Bool :=
  !(inConflictNamespace x.path || tombstoned tombstones x.path || unsafeEntry x ||
    m.ignore x.path)

/-- What a full poll does with a listed entry. -/
inductive Verdict
  | skip
  /-- Only the generation of the row is bumped. -/
  | unchanged (inode : Inode)
  | upsert
  deriving DecidableEq, Repr

def verdict (m : Mount) (tombstones : List Str) (snap : Snapshot) (x : RemoteMetadata) : Verdict :=
  if unsafeEntry x then .skip
  else if inConflictNamespace x.path then .skip
  else if tombstoned tombstones x.path then .skip
  -- an ignored entry is never indexed, and a row it has is left in place
  else if m.ignore x.path then
    match snap x.path with
    | some s => .unchanged s.inode
    | none => .skip
  else
    match snap x.path with
    | some s => if s.etag = x.etag ∧ s.size = x.size then .unchanged s.inode else .upsert
    | none => .upsert

/-- `s.len()`, in bytes. -/
def utf8Length (s : Str) : ℕ := (s.map fun c => c.utf8Size).sum

/-- The listed entries to upsert, shorter paths first. -/
def toUpsert (m : Mount) (tombstones : List Str) (snap : Snapshot) (listing : List RemoteMetadata) :
    List RemoteMetadata :=
  (listing.filter fun x => verdict m tombstones snap x = .upsert).insertionSort
    fun x y => utf8Length x.path ≤ utf8Length y.path

def unchangedInodes (m : Mount) (tombstones : List Str) (snap : Snapshot)
    (listing : List RemoteMetadata) : List Inode :=
  listing.filterMap fun x =>
    match verdict m tombstones snap x with
    | .unchanged i => some i
    | _ => none

/-! ## Upserts -/

/-- The part of a path before its last slash. -/
def parentPath (path : Str) : Option Str :=
  if path.contains '/' then some (path.rdropWhile (· ≠ '/')).dropLast else none

/-- The row an entry is put under; the root where the parent's path is not known. -/
def resolveParent (paths : PathToInode) (path : Str) : Inode :=
  match parentPath path with
  | some p => (paths p).getD fuseRootInode
  | none => fuseRootInode

def RemoteMetadata.kind (x : RemoteMetadata) : FileKind := if x.isDir then .directory else .file

def RemoteMetadata.toRefresh (x : RemoteMetadata) (parent : Inode) (generation : ℕ) : Refresh :=
  { parent, name := x.name, remotePath := x.path, kind := x.kind, size := x.size, mtime := x.mtime
    etag := x.etag, pollGeneration := generation }

/-- The upsert a poll makes of an entry. Returns the inode and the state it leaves. -/
def upsertEntry (m : Mount) (paths : PathToInode) (generation : ℕ) (db : Db) (x : RemoteMetadata) :
    Option Inode × Db :=
  db.upsertRemoteFileByIdOrPath m.mountId (x.toRefresh (resolveParent paths x.path) generation)
    x.itemId

/-- The metadata of a change that is not a deletion. -/
def RemoteChange.metadata : RemoteChange → Option RemoteMetadata
  | .added x | .modified x _ => some x
  | .deleted .. => none

/-- What the application of a change yields beside the database. -/
structure Applied where
  paths : PathToInode
  /-- The row that was upserted or deleted. -/
  touched : Option Inode
  /-- The cache file of a deleted row. -/
  dropped : Option PathBuf

/-- One round of the loop of a delta poll. The first component is `none` when a call failed; the
second is the state the round leaves. -/
def applyChange (m : Mount) (tombstones : List Str) (db : Db) (paths : PathToInode) :
    RemoteChange → Option Applied × Db
  | .added x | .modified x _ =>
    if admitted m tombstones x then
      match upsertEntry m paths 0 db x with
      | (some i, db') => (some ⟨Function.update paths x.path (some i), some i, none⟩, db')
      | (none, db') => (none, db')
    else (some ⟨paths, none, none⟩, db)
  | .deleted path itemId =>
    match db.deleteChanged m.mountId path itemId with
    | some (found, db') => (some ⟨paths, found.map Prod.fst, found.bind Prod.snd⟩, db')
    | none => (none, db)

/-- An addition and a modification are applied alike. -/
theorem applyChange_of_metadata {m : Mount} {tombstones : List Str} {db : Db} {paths : PathToInode}
    {c : RemoteChange} {x : RemoteMetadata} (h : c.metadata = some x) :
    applyChange m tombstones db paths c =
      if admitted m tombstones x then
        match upsertEntry m paths 0 db x with
        | (some i, db') => (some ⟨Function.update paths x.path (some i), some i, none⟩, db')
        | (none, db') => (none, db')
      else (some ⟨paths, none, none⟩, db) := by
  cases c with
  | added y | modified y _ =>
    obtain rfl := Option.some.inj h
    rfl
  | deleted => cases h

end Stratosync

import Stratosync.State.Types
import Mathlib.Algebra.GroupWithZero.Nat
import Mathlib.Data.List.Sort

/-!
# The state database

The `file_index` table with the constraints of migrations 0001, 0006, 0008 and 0010, the
`cache_lru` and `delete_tombstones` tables, and the methods of `StateDb` the daemon's local
operations use. A method whose statements the database refuses returns `none`, and the state is
then what it was. The statements that apply remote changes are in `State.RemoteOps`.

Almost every method updates one row, found by its inode: `updateRow`, with `getByInode_updateRow`
for what it leaves. The `mounts` table is not here: a mount id is one the daemon has registered.
-/

namespace Stratosync

open Foundations

/-! ## Tables -/

/-- Status values that claim content on disk. -/
def SyncStatus.claimsCacheFile : SyncStatus → Bool
  | .cached | .dirty | .uploading => true
  | _ => false

/-- **The constraints on `file_index`**: its primary key, its unique indexes, the reference of a
row to its parent, and the trigger that ties a file's status to its cache path. -/
structure IndexConstraints (rows : List FileEntry) : Prop where
  inodeUnique : (rows.map FileEntry.inode).Nodup
  pathUnique : rows.Pairwise fun a b => ¬(a.mountId = b.mountId ∧ a.remotePath = b.remotePath)
  nameUnique : rows.Pairwise fun a b =>
    ¬(a.mountId = b.mountId ∧ a.parent.isSome ∧ a.parent = b.parent ∧ a.name = b.name)
  itemIdUnique : rows.Pairwise fun a b =>
    ¬(a.mountId = b.mountId ∧ a.remoteItemId.isSome ∧ a.remoteItemId = b.remoteItemId)
  parentExists : ∀ r ∈ rows, ∀ p ∈ r.parent, ∃ q ∈ rows, q.inode = p
  cachePathRecorded : ∀ r ∈ rows,
    r.kind = .file → r.status.claimsCacheFile = true → r.cachePath.isSome = true

theorem indexConstraints_iff (rows : List FileEntry) :
    ((rows.map FileEntry.inode).Nodup ∧
      (rows.Pairwise fun a b => ¬(a.mountId = b.mountId ∧ a.remotePath = b.remotePath)) ∧
      (rows.Pairwise fun a b =>
        ¬(a.mountId = b.mountId ∧ a.parent.isSome ∧ a.parent = b.parent ∧ a.name = b.name)) ∧
      (rows.Pairwise fun a b =>
        ¬(a.mountId = b.mountId ∧ a.remoteItemId.isSome ∧ a.remoteItemId = b.remoteItemId)) ∧
      (∀ r ∈ rows, ∀ p ∈ r.parent, ∃ q ∈ rows, q.inode = p) ∧
      (∀ r ∈ rows, r.kind = .file → r.status.claimsCacheFile = true →
        r.cachePath.isSome = true)) ↔
    IndexConstraints rows :=
  ⟨fun ⟨h₁, h₂, h₃, h₄, h₅, h₆⟩ => ⟨h₁, h₂, h₃, h₄, h₅, h₆⟩,
    fun h => ⟨h.1, h.2, h.3, h.4, h.5, h.6⟩⟩

instance : DecidablePred IndexConstraints := fun rows =>
  decidable_of_iff _ (indexConstraints_iff rows)

/-- A row of `cache_lru`. -/
structure LruEntry where
  inode : Inode
  lastAccess : ℕ
  pinned : Bool
  deriving DecidableEq, Repr

/-- A row of `delete_tombstones`. -/
structure Tombstone where
  mountId : ℕ
  remotePath : Str
  expiresAt : ℕ
  deriving DecidableEq, Repr

/-- The database. `seq` is the largest inode ever given out (`sqlite_sequence`), `now` the clock
`unixepoch()` reads. -/
structure Db where
  fileIndex : Table FileEntry IndexConstraints
  seq : ℕ
  cacheLru : List LruEntry
  tombstones : List Tombstone
  now : ℕ

/-- The root directory of a mount, as `insert_root` enters it. -/
def rootEntry (mountId : ℕ) : FileEntry :=
  { inode := fuseRootInode, mountId, parent := none, name := ['/'], remotePath := ['/']
    kind := .directory, size := 0, mtime := 0, etag := none, status := .remote
    cachePath := none, cacheSize := none, dirListed := none, pollGeneration := 0
    remoteItemId := none }

theorem indexConstraints_root (mountId : ℕ) : IndexConstraints [rootEntry mountId] := by
  constructor <;> simp [rootEntry]

/-- The database of a mount with nothing indexed but its root. -/
def Db.empty (mountId now : ℕ) : Db :=
  { fileIndex := ⟨[rootEntry mountId], indexConstraints_root mountId⟩
    seq := fuseRootInode, cacheLru := [], tombstones := [], now }

/-- The columns an `INSERT` gives. -/
structure NewFileEntry where
  mountId : ℕ
  parent : Inode
  name : Str
  remotePath : Str
  kind : FileKind
  size : ℕ
  mtime : ℕ
  etag : Option Str
  status : SyncStatus
  cachePath : Option PathBuf
  cacheSize : Option ℕ
  deriving DecidableEq, Repr

/-- A row the eviction may drop. -/
structure EvictionCandidate where
  inode : Inode
  cachePath : PathBuf
  cacheSize : ℕ
  deriving DecidableEq, Repr

namespace Db

variable (db : Db)

/-! ## Reads -/

def getByInode (i : Inode) : Option FileEntry := db.fileIndex.get FileEntry.inode i

def getByParentName (mountId : ℕ) (parent : Inode) (name : Str) : Option FileEntry :=
  db.fileIndex.rows.find? fun r =>
    r.mountId = mountId ∧ r.parent = some parent ∧ r.name = name

def getByRemotePath (mountId : ℕ) (remotePath : Str) : Option FileEntry :=
  db.fileIndex.rows.find? fun r => r.mountId = mountId ∧ r.remotePath = remotePath

def listChildren (mountId : ℕ) (parent : Inode) : List FileEntry :=
  (db.fileIndex.rows.filter fun r => r.mountId = mountId ∧ r.parent = some parent).insertionSort
    fun a b => a.inode ≤ b.inode

def totalCacheBytes (mountId : ℕ) : ℕ :=
  ((db.fileIndex.rows.filter fun r => r.mountId = mountId).filterMap FileEntry.cacheSize).sum

/-- Unpinned rows with status `cached`, least recently used first. -/
def lruEvictionCandidates (mountId limit : ℕ) : Option (List EvictionCandidate) :=
  let unpinned := db.cacheLru.filter fun l => !l.pinned
  let sorted := unpinned.insertionSort fun a b => a.lastAccess ≤ b.lastAccess
  let rows := sorted.filterMap fun l =>
    (db.getByInode l.inode).filter fun r => r.mountId = mountId ∧ r.status = .cached
  (rows.take limit).mapM fun r =>
    r.cachePath.bind fun p => r.cacheSize.map fun n => ⟨r.inode, p, n⟩

/-- The file rows to upload again after a restart. -/
def getPendingUploads (mountId : ℕ) : List FileEntry :=
  db.fileIndex.rows.filter fun r =>
    r.mountId = mountId ∧ r.status.isUnsynced ∧ r.kind = .file ∧ r.cachePath.isSome

/-- The cache paths the rows of a mount name. -/
def allCachePaths (mountId : ℕ) : List PathBuf :=
  (db.fileIndex.rows.filter fun r => r.mountId = mountId).filterMap FileEntry.cachePath

/-- The paths the poller and a directory listing skip. -/
def activeTombstones (mountId : ℕ) : List Str :=
  (db.tombstones.filter fun t => t.mountId = mountId ∧ db.now < t.expiresAt).map
    Tombstone.remotePath

/-! ## Updates of one row -/

/-- `UPDATE file_index SET .. WHERE inode = i`. -/
def updateRow (i : Inode) (f : FileEntry → FileEntry) : Option Db :=
  (db.fileIndex.update (fun r => r.inode = i) f).map fun t => { db with fileIndex := t }

/-- `INSERT INTO cache_lru .. ON CONFLICT(inode) DO UPDATE`; the reference to `file_index` makes
it fail for an inode without a row. -/
def touchLru (i : Inode) : Option Db :=
  if (db.getByInode i).isNone then none
  else if db.cacheLru.any fun l => l.inode = i then
    some { db with cacheLru := db.cacheLru.map fun l =>
      if l.inode = i then { l with lastAccess := db.now } else l }
  else some { db with cacheLru := db.cacheLru ++ [⟨i, db.now, false⟩] }

def setPinned (i : Inode) (pinned : Bool) : Option Db :=
  if (db.getByInode i).isNone then none
  else if db.cacheLru.any fun l => l.inode = i then
    some { db with cacheLru := db.cacheLru.map fun l =>
      if l.inode = i then { l with pinned } else l }
  else some { db with cacheLru := db.cacheLru ++ [⟨i, db.now, pinned⟩] }

/-- `DELETE FROM cache_lru WHERE inode = i`. -/
def dropLru (i : Inode) : Db := { db with cacheLru := db.cacheLru.filter fun l => l.inode ≠ i }

def setStatus (i : Inode) (status : SyncStatus) : Option Db :=
  db.updateRow i fun r => { r with status := status }

/-- Mark a file as dirty and update its size. -/
def setDirtySize (i : Inode) (size : ℕ) : Option Db :=
  db.updateRow i fun r => { r with status := .dirty, size := size, cacheSize := some size }

/-- Mark a file as dirty and record its size and its cache path. -/
def setDirtyWithCachePath (i : Inode) (cachePath : PathBuf) (size : ℕ) : Option Db :=
  db.updateRow i fun r =>
    { r with status := .dirty, size := size, cacheSize := some size, cachePath := some cachePath }

def setCached (i : Inode) (cachePath : PathBuf) (cacheSize : ℕ) (etag : Option Str)
    (mtime size : ℕ) : Option Db :=
  (db.updateRow i fun r =>
    { r with
      status := .cached, cachePath := some cachePath, cacheSize := some cacheSize
      etag := etag, mtime := mtime, size := size }).bind fun db' => db'.touchLru i

/-- Mark a file as cached after an upload; the cache path stays as the row has it. -/
def setUploaded (i : Inode) (cacheSize : ℕ) (etag : Option Str) (mtime size : ℕ) : Option Db :=
  (db.updateRow i fun r =>
    { r with
      status := .cached, cacheSize := some cacheSize
      etag := etag, mtime := mtime, size := size }).bind fun db' => db'.touchLru i

def setEvicted (i : Inode) : Option Db :=
  (db.updateRow i fun r =>
    { r with status := .remote, cachePath := none, cacheSize := none }).map fun db' => db'.dropLru i

/-- The rows `revertDirtyWithMissingCache` reverts. -/
def isDirtyAt (cachePath : PathBuf) (r : FileEntry) : Bool :=
  r.kind = .file ∧ r.status.isUnsynced ∧ r.cachePath = some cachePath

/-- Revert an unsynced file row whose cache file has vanished, provided that it still records
`expected`. Says whether it did. -/
def revertDirtyWithMissingCache (i : Inode) (expected : PathBuf) : Option (Bool × Db) :=
  if (db.getByInode i).any (isDirtyAt expected) then
    (db.updateRow i fun r =>
      { r with status := .remote, cachePath := none, cacheSize := none }).map
      fun db' => (true, db'.dropLru i)
  else some (false, db)

def markDirListed (i : Inode) : Option Db :=
  db.updateRow i fun r => { r with dirListed := some db.now }

/-- The `sync_queue` row this also updates is one the daemon never inserts. -/
def failQueueJobByInode (i : Inode) : Option Db := db.setStatus i .dirty

def renameEntry (i newParent : Inode) (newName newRemote : Str)
    (newCachePath : Option PathBuf) : Option Db :=
  db.updateRow i fun r =>
    { r with
      parent := some newParent, name := newName, remotePath := newRemote
      cachePath := newCachePath }

/-- Fill in the item id of a row that has none. -/
def setItemIdIfAbsent (i : Inode) (itemId : Str) : Option Db :=
  db.updateRow i fun r => { r with remoteItemId := r.remoteItemId <|> some itemId }

/-! ## Recovery on restart -/

/-- `UPDATE file_index SET .. WHERE p`. -/
def updateWhere (p : FileEntry → Bool) (f : FileEntry → FileEntry) : Option Db :=
  (db.fileIndex.update p f).map fun t => { db with fileIndex := t }

/-- Reset all hydrating rows. -/
def resetHydrating : Option Db :=
  db.updateWhere (fun r => r.status = .hydrating) fun r =>
    { r with status := .remote, cachePath := none, cacheSize := none }

/-- Reset directories that are marked as dirty or uploading. -/
def resetStuckDirtyDirectories : Option Db :=
  db.updateWhere (fun r => r.kind = .directory && r.status.isUnsynced) fun r =>
    { r with status := .cached }

/-- Reset files that are marked as dirty or uploading and have no cache path. The health of the
mount, which this also clears, is not here. -/
def resetStuckDirtyFilesWithoutCachePath : Option Db :=
  db.updateWhere (fun r => r.kind = .file && r.status.isUnsynced && r.cachePath.isNone) fun r =>
    { r with status := .remote }

/-! ## Insertion and deletion -/

/-- `AUTOINCREMENT`: an inode no row has had. -/
def nextInode : Inode := (db.fileIndex.rows.map FileEntry.inode).foldl max db.seq + 1

/-- Insert a row; its inode is `nextInode`. -/
def insertRow (r : FileEntry) : Option Db :=
  (db.fileIndex.insert r).map fun t => { db with fileIndex := t, seq := r.inode }

/-- Insert a new file entry. Returns the new inode. -/
def insertFile (e : NewFileEntry) : Option (Inode × Db) :=
  let r : FileEntry :=
    { inode := db.nextInode, mountId := e.mountId, parent := some e.parent, name := e.name
      remotePath := e.remotePath, kind := e.kind, size := e.size, mtime := e.mtime
      etag := e.etag, status := e.status, cachePath := e.cachePath, cacheSize := e.cacheSize
      dirListed := none, pollGeneration := 0, remoteItemId := none }
  (db.insertRow r).map fun db' => (r.inode, db')

/-- `DELETE FROM file_index WHERE p`, which drops the rows of `cache_lru` with it. -/
def deleteRows (p : FileEntry → Bool) : Option Db :=
  (db.fileIndex.delete p).map fun t =>
    { db with
      fileIndex := t
      cacheLru := db.cacheLru.filter fun l => !(db.getByInode l.inode).any p }

def deleteEntry (i : Inode) : Option Db := db.deleteRows fun r => r.inode = i

/-! ## Tombstones -/

/-- Record a tombstone, replacing one at the same path. -/
def insertTombstone (mountId : ℕ) (remotePath : Str) (ttlSecs : ℕ) : Db :=
  { db with
    tombstones :=
      (db.tombstones.filter fun t => ¬(t.mountId = mountId ∧ t.remotePath = remotePath)) ++
        [⟨mountId, remotePath, db.now + ttlSecs⟩] }

def removeTombstone (mountId : ℕ) (remotePath : Str) : Db :=
  { db with
    tombstones :=
      db.tombstones.filter fun t => ¬(t.mountId = mountId ∧ t.remotePath = remotePath) }

/-! ## What a statement leaves -/

theorem isKey_inode : Table.IsKey FileEntry.inode IndexConstraints := fun _ h => h.inodeUnique

variable {db} {db' : Db} {i j : Inode} {r r' : FileEntry}

theorem inode_of_getByInode (h : db.getByInode i = some r) : r.inode = i := Table.key_of_get h

theorem mem_rows_of_getByInode (h : db.getByInode i = some r) : r ∈ db.fileIndex.rows :=
  Table.mem_of_get h

theorem getByInode_of_mem (h : r ∈ db.fileIndex.rows) : db.getByInode r.inode = some r :=
  (Table.mem_rows_iff isKey_inode).1 h

theorem mem_listChildren {mountId : ℕ} {parent : Inode} :
    r ∈ db.listChildren mountId parent ↔
      r ∈ db.fileIndex.rows ∧ r.mountId = mountId ∧ r.parent = some parent := by
  simp [listChildren]

theorem getByParentName_spec {mountId : ℕ} {parent : Inode} {name : Str}
    (h : db.getByParentName mountId parent name = some r) :
    db.getByInode r.inode = some r ∧ r.mountId = mountId ∧ r.parent = some parent ∧
      r.name = name :=
  ⟨getByInode_of_mem (List.mem_of_find?_eq_some h), by simpa using List.find?_some h⟩

theorem getByRemotePath_spec {mountId : ℕ} {path : Str}
    (h : db.getByRemotePath mountId path = some r) :
    db.getByInode r.inode = some r ∧ r.mountId = mountId ∧ r.remotePath = path :=
  ⟨getByInode_of_mem (List.mem_of_find?_eq_some h), by simpa using List.find?_some h⟩

/-- A row is what a search for its remote path finds. -/
theorem getByRemotePath_self (h : db.getByInode i = some r) :
    db.getByRemotePath r.mountId r.remotePath = some r := by
  have hr := mem_rows_of_getByInode h
  cases hq : db.getByRemotePath r.mountId r.remotePath with
  | none => simpa using List.find?_eq_none.1 hq r hr
  | some q =>
    exact congrArg some (Table.eq_of_unique (fun h => ⟨h.1.symm, h.2.symm⟩)
      db.fileIndex.ok.pathUnique (List.mem_of_find?_eq_some hq) hr
      (by simpa using List.find?_some hq))

/-- A row with a name in a directory is what a search for it finds. -/
theorem getByParentName_self {p : Inode} (hr : db.getByInode i = some r)
    (hp : r.parent = some p) : db.getByParentName r.mountId p r.name = some r := by
  have hmem := mem_rows_of_getByInode hr
  cases hq : db.getByParentName r.mountId p r.name with
  | none => simpa [hp] using List.find?_eq_none.1 hq r hmem
  | some q =>
    obtain ⟨hqi, hqm, hqp, hqn⟩ := getByParentName_spec hq
    exact congrArg some (Table.eq_of_unique
      (fun h => ⟨h.1.symm, h.2.2.1 ▸ h.2.1, h.2.2.1.symm, h.2.2.2.symm⟩)
      db.fileIndex.ok.nameUnique (mem_rows_of_getByInode hqi) hmem
      ⟨hqm, by rw [hqp]; rfl, hqp.trans hp.symm, hqn⟩)

/-- `db'` has the rows of `db`, with `f` applied to the one with inode `i`. -/
structure RowMapped (db db' : Db) (i : Inode) (f : FileEntry → FileEntry) : Prop where
  seq : db'.seq = db.seq
  rows : ∀ j, db'.getByInode j = if j = i then (db.getByInode j).map f else db.getByInode j

/-- `db'` has the rows of `db`. -/
structure SameRows (db db' : Db) : Prop where
  seq : db'.seq = db.seq
  rows : ∀ j, db'.getByInode j = db.getByInode j

theorem RowMapped.of_ne {f : FileEntry → FileEntry} (h : RowMapped db db' i f) (hj : j ≠ i) :
    db'.getByInode j = db.getByInode j := by
  rw [h.rows j, if_neg hj]

theorem RowMapped.self {f : FileEntry → FileEntry} (h : RowMapped db db' i f) :
    db'.getByInode i = (db.getByInode i).map f := by
  rw [h.rows i, if_pos rfl]

/-- The rows of `db'` come from rows of `db`. -/
theorem RowMapped.inv {f : FileEntry → FileEntry} (h : RowMapped db db' i f)
    (hr : db'.getByInode j = some r) :
    ∃ r₀, db.getByInode j = some r₀ ∧ ((j = i ∧ r = f r₀) ∨ (j ≠ i ∧ r = r₀)) := by
  rw [h.rows j] at hr
  split at hr
  · obtain ⟨r₀, h₀, rfl⟩ := Option.map_eq_some_iff.1 hr
    exact ⟨r₀, h₀, .inl ⟨‹_›, rfl⟩⟩
  · exact ⟨r, hr, .inr ⟨‹_›, rfl⟩⟩

theorem rowMapped_of_updateRow {f : FileEntry → FileEntry} (h : db.updateRow i f = some db')
    (hf : ∀ r, (f r).inode = r.inode) : RowMapped db db' i f := by
  obtain ⟨t, ht, rfl⟩ := Option.map_eq_some_iff.1 h
  refine ⟨rfl, fun j => ?_⟩
  change t.get FileEntry.inode j = _
  rw [Table.get_update hf ht]
  cases hj : db.fileIndex.get FileEntry.inode j with
  | none => simp [getByInode, hj]
  | some r =>
    have hr : r.inode = j := Table.key_of_get hj
    simp only [getByInode, hj, Option.map_some, hr, decide_eq_true_eq]
    split <;> rfl

theorem getByInode_updateWhere {p : FileEntry → Bool} {f : FileEntry → FileEntry}
    (h : db.updateWhere p f = some db') (hf : ∀ r, (f r).inode = r.inode) (j : Inode) :
    db'.getByInode j = (db.getByInode j).map fun r => if p r then f r else r := by
  obtain ⟨t, ht, rfl⟩ := Option.map_eq_some_iff.1 h
  exact Table.get_update hf ht j

/-- Two rows agree on the columns of the unique indexes and of the reference to the parent. -/
def SameKeys (r r' : FileEntry) : Prop :=
  r'.inode = r.inode ∧ r'.mountId = r.mountId ∧ r'.parent = r.parent ∧ r'.name = r.name ∧
    r'.remotePath = r.remotePath ∧ r'.remoteItemId = r.remoteItemId

/-- The database accepts an update of the other columns that leaves a row its cache path where its
status claims one. -/
theorem updateWhere_isSome {p : FileEntry → Bool} {f : FileEntry → FileEntry}
    (hk : ∀ r, SameKeys r (f r))
    (hc : ∀ r, db.getByInode r.inode = some r → p r = true → (f r).kind = .file →
      (f r).status.claimsCacheFile = true → (f r).cachePath.isSome = true) :
    (db.updateWhere p f).isSome = true := by
  have hg : ∀ r, SameKeys r (if p r then f r else r) := by
    intro r
    split
    · exact hk r
    · exact ⟨rfl, rfl, rfl, rfl, rfl, rfl⟩
  rw [updateWhere, Option.isSome_map, Table.update, Table.commit_isSome]
  have ok := db.fileIndex.ok
  constructor
  · have hmap : (db.fileIndex.rows.map fun r => (if p r then f r else r).inode) =
        db.fileIndex.rows.map FileEntry.inode := List.map_congr_left fun r _ => (hg r).1
    rw [List.map_map]
    exact hmap ▸ ok.inodeUnique
  · refine ok.pathUnique.map _ fun a b h => ?_
    obtain ⟨-, ha, -, -, hpa, -⟩ := hg a
    obtain ⟨-, hb, -, -, hpb, -⟩ := hg b
    rwa [ha, hb, hpa, hpb]
  · refine ok.nameUnique.map _ fun a b h => ?_
    obtain ⟨-, ha, hpa, hna, -⟩ := hg a
    obtain ⟨-, hb, hpb, hnb, -⟩ := hg b
    rwa [ha, hb, hpa, hpb, hna, hnb]
  · refine ok.itemIdUnique.map _ fun a b h => ?_
    obtain ⟨-, ha, -, -, -, hia⟩ := hg a
    obtain ⟨-, hb, -, -, -, hib⟩ := hg b
    rwa [ha, hb, hia, hib]
  · intro r' hr' q hq
    obtain ⟨r, hr, rfl⟩ := List.mem_map.1 hr'
    rw [(hg r).2.2.1] at hq
    obtain ⟨s, hs, hsq⟩ := ok.parentExists r hr q hq
    exact ⟨_, List.mem_map_of_mem hs, (hg s).1.trans hsq⟩
  · intro r' hr'
    obtain ⟨r, hr, rfl⟩ := List.mem_map.1 hr'
    split
    · exact hc r (getByInode_of_mem hr) ‹_›
    · exact ok.cachePathRecorded r hr

theorem updateRow_isSome {f : FileEntry → FileEntry} (hk : ∀ r, SameKeys r (f r))
    (hc : ∀ r, db.getByInode i = some r → (f r).kind = .file →
      (f r).status.claimsCacheFile = true → (f r).cachePath.isSome = true) :
    (db.updateRow i f).isSome = true :=
  updateWhere_isSome hk fun r hr hi => hc r (of_decide_eq_true hi ▸ hr)

/-- The start-up can always reset what was hydrating. -/
theorem resetHydrating_isSome (db : Db) : db.resetHydrating.isSome = true :=
  updateWhere_isSome (fun _ => ⟨rfl, rfl, rfl, rfl, rfl, rfl⟩) fun _ _ _ _ hc => by cases hc

/-- A status that claims no content on disk is accepted for every row. -/
theorem setStatus_isSome (db : Db) (i : Inode) {s : SyncStatus} (hs : s.claimsCacheFile = false) :
    (db.setStatus i s).isSome = true :=
  updateRow_isSome (fun _ => ⟨rfl, rfl, rfl, rfl, rfl, rfl⟩) fun _ _ _ hc => by
    rw [hs] at hc
    cases hc

/-- Marking a row as dirty fails only for one without a cache path. -/
theorem setDirtySize_isSome {n : ℕ} (hr : ∀ r, db.getByInode i = some r → r.cachePath.isSome) :
    (db.setDirtySize i n).isSome = true :=
  updateRow_isSome (fun _ => ⟨rfl, rfl, rfl, rfl, rfl, rfl⟩) fun r hi _ _ => hr r hi

theorem setDirtyWithCachePath_isSome {p : PathBuf} {n : ℕ} :
    (db.setDirtyWithCachePath i p n).isSome = true :=
  updateRow_isSome (fun _ => ⟨rfl, rfl, rfl, rfl, rfl, rfl⟩) fun _ _ _ _ => rfl

theorem sameRows_of_touchLru (h : db.touchLru i = some db') : SameRows db db' := by
  rw [touchLru] at h
  split at h
  · cases h
  · split at h <;> rw [← Option.some.inj h] <;> exact ⟨rfl, fun _ => rfl⟩

theorem sameRows_dropLru : SameRows db (db.dropLru i) := ⟨rfl, fun _ => rfl⟩

theorem RowMapped.trans_same {f : FileEntry → FileEntry} {db'' : Db} (h : RowMapped db db' i f)
    (h' : SameRows db' db'') : RowMapped db db'' i f :=
  ⟨h'.seq.trans h.seq, fun j => (h'.rows j).trans (h.rows j)⟩

theorem setStatus_rows {s : SyncStatus} (h : db.setStatus i s = some db') :
    RowMapped db db' i fun r => { r with status := s } :=
  rowMapped_of_updateRow h fun _ => rfl

theorem setDirtySize_rows {n : ℕ} (h : db.setDirtySize i n = some db') :
    RowMapped db db' i fun r => { r with status := .dirty, size := n, cacheSize := some n } :=
  rowMapped_of_updateRow h fun _ => rfl

theorem setDirtyWithCachePath_rows {p : PathBuf} {n : ℕ}
    (h : db.setDirtyWithCachePath i p n = some db') :
    RowMapped db db' i fun r =>
      { r with status := .dirty, size := n, cacheSize := some n, cachePath := some p } :=
  rowMapped_of_updateRow h fun _ => rfl

theorem setCached_rows {p : PathBuf} {n m k : ℕ} {e : Option Str}
    (h : db.setCached i p n e m k = some db') :
    RowMapped db db' i fun r =>
      { r with
        status := .cached, cachePath := some p, cacheSize := some n
        etag := e, mtime := m, size := k } := by
  obtain ⟨db₁, h₁, h₂⟩ := Option.bind_eq_some_iff.1 h
  exact (rowMapped_of_updateRow h₁ fun _ => rfl).trans_same (sameRows_of_touchLru h₂)

theorem setUploaded_rows {n m k : ℕ} {e : Option Str} (h : db.setUploaded i n e m k = some db') :
    RowMapped db db' i fun r =>
      { r with status := .cached, cacheSize := some n, etag := e, mtime := m, size := k } := by
  obtain ⟨db₁, h₁, h₂⟩ := Option.bind_eq_some_iff.1 h
  exact (rowMapped_of_updateRow h₁ fun _ => rfl).trans_same (sameRows_of_touchLru h₂)

theorem setEvicted_rows (h : db.setEvicted i = some db') :
    RowMapped db db' i fun r =>
      { r with status := .remote, cachePath := none, cacheSize := none } := by
  obtain ⟨db₁, h₁, rfl⟩ := Option.map_eq_some_iff.1 h
  exact (rowMapped_of_updateRow h₁ fun _ => rfl).trans_same sameRows_dropLru

/-- A revert leaves the rows alone or clears one that was unsynced at the expected path. -/
theorem revertDirtyWithMissingCache_rows {p : PathBuf} {b : Bool}
    (h : db.revertDirtyWithMissingCache i p = some (b, db')) :
    (b = false ∧ db' = db) ∨
      (b = true ∧ (db.getByInode i).any (isDirtyAt p) = true ∧
        RowMapped db db' i fun r =>
          { r with status := .remote, cachePath := none, cacheSize := none }) := by
  rw [revertDirtyWithMissingCache] at h
  split at h
  · rename_i hd
    obtain ⟨db₁, h₁, he⟩ := Option.map_eq_some_iff.1 h
    obtain ⟨rfl, rfl⟩ := Prod.mk.inj he
    exact .inr ⟨rfl, hd, (rowMapped_of_updateRow h₁ fun _ => rfl).trans_same sameRows_dropLru⟩
  · obtain ⟨rfl, rfl⟩ := Prod.mk.inj (Option.some.inj h)
    exact .inl ⟨rfl, rfl⟩

theorem markDirListed_rows (h : db.markDirListed i = some db') :
    RowMapped db db' i fun r => { r with dirListed := some db.now } :=
  rowMapped_of_updateRow h fun _ => rfl

theorem renameEntry_rows {q : Inode} {n p : Str} {c : Option PathBuf}
    (h : db.renameEntry i q n p c = some db') :
    RowMapped db db' i fun r =>
      { r with parent := some q, name := n, remotePath := p, cachePath := c } :=
  rowMapped_of_updateRow h fun _ => rfl

theorem setItemIdIfAbsent_rows {id : Str} (h : db.setItemIdIfAbsent i id = some db') :
    RowMapped db db' i fun r => { r with remoteItemId := r.remoteItemId <|> some id } :=
  rowMapped_of_updateRow h fun _ => rfl

theorem getByInode_insertRow (h : db.insertRow r = some db') (j : Inode) :
    db'.getByInode j = if j = r.inode then some r else db.getByInode j := by
  obtain ⟨t, ht, rfl⟩ := Option.map_eq_some_iff.1 h
  exact Table.get_insert isKey_inode ht j

/-- An inserted row has an inode no row had. -/
theorem getByInode_of_insertRow (h : db.insertRow r = some db') : db.getByInode r.inode = none := by
  obtain ⟨t, ht, rfl⟩ := Option.map_eq_some_iff.1 h
  exact Table.get_of_insert isKey_inode ht

theorem seq_insertRow (h : db.insertRow r = some db') : db'.seq = r.inode := by
  obtain ⟨t, -, rfl⟩ := Option.map_eq_some_iff.1 h
  rfl

theorem le_foldl_max (l : List ℕ) (n : ℕ) : n ≤ l.foldl max n := by
  induction l generalizing n with
  | nil => exact le_rfl
  | cons a l ih => exact (Nat.le_max_left n a).trans (ih _)

theorem le_foldl_max_of_mem {l : List ℕ} {a : ℕ} (h : a ∈ l) (n : ℕ) : a ≤ l.foldl max n := by
  induction l generalizing n with
  | nil => cases h
  | cons b l ih =>
    rcases List.mem_cons.1 h with rfl | h
    · exact (Nat.le_max_right n a).trans (le_foldl_max l _)
    · exact ih h _

/-- The next inode is one that was never given out. -/
theorem seq_lt_nextInode (db : Db) : db.seq < db.nextInode :=
  Nat.lt_succ_of_le (le_foldl_max _ _)

/-- The next inode is one that no row has. -/
theorem inode_lt_nextInode (h : r ∈ db.fileIndex.rows) : r.inode < db.nextInode :=
  Nat.lt_succ_of_le (le_foldl_max_of_mem (List.mem_map_of_mem h) _)

theorem insertFile_spec {e : NewFileEntry} (h : db.insertFile e = some (i, db')) :
    ∃ r, r.inode = i ∧ r.parent = some e.parent ∧ r.remotePath = e.remotePath ∧
      r.kind = e.kind ∧ r.etag = e.etag ∧ r.status = e.status ∧ r.cachePath = e.cachePath ∧
      i = db.nextInode ∧ db.getByInode i = none ∧ db'.seq = i ∧
      ∀ j, db'.getByInode j = if j = i then some r else db.getByInode j := by
  obtain ⟨db₁, h₁, he⟩ := Option.map_eq_some_iff.1 h
  obtain ⟨rfl, rfl⟩ := Prod.mk.inj he
  exact ⟨_, rfl, rfl, rfl, rfl, rfl, rfl, rfl, rfl, getByInode_of_insertRow h₁, seq_insertRow h₁,
    getByInode_insertRow h₁⟩

theorem getByInode_deleteRows {p : FileEntry → Bool} (h : db.deleteRows p = some db') (j : Inode) :
    db'.getByInode j = (db.getByInode j).filter fun r => !p r := by
  obtain ⟨t, ht, rfl⟩ := Option.map_eq_some_iff.1 h
  exact Table.get_delete isKey_inode ht j

theorem seq_deleteRows {p : FileEntry → Bool} (h : db.deleteRows p = some db') :
    db'.seq = db.seq := by
  obtain ⟨t, -, rfl⟩ := Option.map_eq_some_iff.1 h
  rfl

/-- A row can be deleted when no other row is in it. -/
theorem deleteEntry_isSome_iff :
    (db.deleteEntry i).isSome = true ↔
      ∀ c ∈ db.fileIndex.rows, c.inode ≠ i → c.parent ≠ some i := by
  have ok := db.fileIndex.ok
  rw [deleteEntry, deleteRows, Option.isSome_map, Table.delete, Table.commit_isSome]
  constructor
  · intro h c hc hi hp
    obtain ⟨q, hq, hqi⟩ := h.parentExists c (List.mem_filter.2 ⟨hc, by simpa using hi⟩) i hp
    simp [hqi] at hq
  · intro h
    refine ⟨ok.inodeUnique.sublist (List.filter_sublist.map _), ok.pathUnique.filter _,
      ok.nameUnique.filter _, ok.itemIdUnique.filter _, fun r hr q hq => ?_, fun r hr =>
        ok.cachePathRecorded r (List.mem_filter.1 hr).1⟩
    obtain ⟨hr, hi⟩ := List.mem_filter.1 hr
    obtain ⟨d, hd, hdq⟩ := ok.parentExists r hr q hq
    refine ⟨d, List.mem_filter.2 ⟨hd, ?_⟩, hdq⟩
    have hne : r.parent ≠ some i := h r hr (by simpa using hi)
    have : d.inode ≠ i := fun hdi => hne (by rw [← hdi, hdq]; exact hq)
    simpa using this

theorem getByInode_deleteEntry (h : db.deleteEntry i = some db') (j : Inode) :
    db'.getByInode j = if j = i then none else db.getByInode j := by
  rw [getByInode_deleteRows h]
  cases hj : db.getByInode j with
  | none => simp
  | some r =>
    have hr := inode_of_getByInode hj
    split <;> simp_all [Option.filter]

end Db

end Stratosync

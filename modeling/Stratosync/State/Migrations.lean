import Stratosync.Conflict.Names
import Stratosync.State.MergedRows
import Stratosync.Foundations.Scripts

/-!
# The migrations

`run_migrations` and the eleven scripts. When the database is opened, each script whose version is
not in `schema_migrations` is sent as a batch, and then its version is inserted. Neither is inside a
transaction, so each statement is committed when it is done, and the daemon may stop between any
two.

A statement acts on the schema, the tables, indexes, columns and triggers that exist, and on the
data. Of the data there are the columns that some statement reads or writes; the columns of
`file_index` that are not in `FileIndex` are functions of the inode.
-/

namespace Stratosync

open Foundations.Scripts

/-! ## The schema -/

inductive TableName
  | schemaMigrations
  | mounts
  | fileIndex
  | syncQueue
  | changeTokens
  | cacheLru
  | xattrStore
  | deleteTombstones
  | baseVersions
  | versionHistory
  | mountHealth
  deriving DecidableEq, Repr

inductive IndexName
  | fileIndexParent
  | fileIndexStatus
  | fileIndexMount
  | syncQueueDue
  | cacheLruAccess
  | tombstonesMountPath
  | tombstonesExpires
  | fileIndexGeneration
  | baseVersionsHash
  | baseVersionsAge
  | versionHistoryInode
  | versionHistoryHash
  | fileIndexParentNameUnique
  | fileIndexMountItemId
  deriving DecidableEq, Repr

/-- The columns that are added to a table. -/
inductive ColumnName
  | pollGeneration
  | remoteItemId
  | consecutiveUploadFailures
  | lastUploadError
  | lastUploadFailureUnix
  deriving DecidableEq, Repr

inductive TriggerName
  | dirtyRequiresCachePathInsert
  | dirtyRequiresCachePathUpdate
  deriving DecidableEq, Repr

inductive SchemaObject
  | table (t : TableName)
  | index (i : IndexName)
  | column (c : ColumnName)
  | trigger (t : TriggerName)
  deriving DecidableEq, Repr

/-! ## The statements -/

/-- The statements of the scripts; the last four are the `UPDATE` and the `DELETE` of 0006 and the
`UPDATE` of 0010 and of 0011. -/
inductive Statement
  | createTable (t : TableName)
  | createIndex (i : IndexName) (on : TableName)
  | addColumn (t : TableName) (c : ColumnName)
  | createTrigger (t : TriggerName) (on : TableName)
  | reparentChildren
  | deleteDuplicates
  | resetUncached
  | clearUploadHealth
  deriving DecidableEq, Repr

namespace Statement

/-- What the statement makes. -/
def makes : Statement → Option SchemaObject
  | createTable t => some (.table t)
  | createIndex i _ => some (.index i)
  | addColumn _ c => some (.column c)
  | createTrigger t _ => some (.trigger t)
  | reparentChildren | deleteDuplicates | resetUncached | clearUploadHealth => none

/-- The table that the statement works on, which must exist. -/
def onTable : Statement → Option TableName
  | createTable _ => none
  | createIndex _ t | addColumn t _ | createTrigger _ t => some t
  | reparentChildren | deleteDuplicates | resetUncached => some .fileIndex
  | clearUploadHealth => some .mountHealth

/-- `CREATE` and `ALTER TABLE ... ADD COLUMN` fail where the object exists: no script says
`IF NOT EXISTS`. -/
def define (s : Statement) (schema : List SchemaObject) : Option (List SchemaObject) :=
  if ∀ t ∈ s.onTable, .table t ∈ schema then
    match s.makes with
    | none => some schema
    | some o => if o ∈ schema then none else some (schema ++ [o])
  else none

end Statement

/-! ## The data -/

/-- A row of another table, with its column `inode`, which refers to `file_index` with
`ON DELETE CASCADE`. -/
structure Dependent where
  table : TableName
  inode : Option Inode
  deriving DecidableEq, Repr

/-- A row of `mount_health`. -/
structure MountHealth where
  mountId : ℕ
  consecutiveUploadFailures : ℕ
  lastUploadError : Option Str
  lastUploadFailureUnix : Option ℕ
  deriving DecidableEq, Repr

/-- The rows, by the columns that statements use. -/
structure Content where
  index : FileIndex
  statusOf : Inode → SyncStatus
  cachePathOf : Inode → Option PathBuf
  pollGenerationOf : Inode → ℕ
  itemIdOf : Inode → Option Str
  dependents : List Dependent
  health : List MountHealth

/-- In which order the `UPDATE` of 0006 visits the rows that it selects. -/
structure Visits where
  order : FileIndex → List Inode
  perm : ∀ x, (order x).Perm x.selected

namespace Content

/-- The `UPDATE` of 0006, if each parent exists. -/
def reparentChildren (v : Visits) (d : Content) : Option Content :=
  let index := d.index.reparentAll (v.order d.index)
  if index.ParentsExist then some { d with index } else none

/-- The `DELETE` of 0006, which takes dependent rows along. -/
def deleteDuplicates (d : Content) : Option Content :=
  let index := d.index.dedupe
  let dependents := d.dependents.filter fun e =>
    d.index.rows.all fun f => ¬(d.index.IsDuplicate f ∧ e.inode = some f.inode)
  if index.ParentsExist then some { d with index, dependents } else none

/-- No two rows of a mount have one item id. -/
def UniqueItemIds (d : Content) : Prop :=
  ∀ f ∈ d.index.rows, ∀ g ∈ d.index.rows, f.mountId = g.mountId →
    d.itemIdOf f.inode = d.itemIdOf g.inode → d.itemIdOf f.inode ≠ none → f = g

instance instDecidableUniqueItemIds (d : Content) : Decidable d.UniqueItemIds :=
  inferInstanceAs (Decidable (∀ f ∈ d.index.rows, ∀ g ∈ d.index.rows, f.mountId = g.mountId →
    d.itemIdOf f.inode = d.itemIdOf g.inode → d.itemIdOf f.inode ≠ none → f = g))

/-- The rows satisfy the index, if it is a unique one. -/
def createIndex (d : Content) : IndexName → Option Content
  | .fileIndexParentNameUnique => if d.index.UniqueNames then some d else none
  | .fileIndexMountItemId => if d.UniqueItemIds then some d else none
  | _ => some d

/-- A new column has its default in each row. -/
def addColumn (d : Content) : ColumnName → Content
  | .pollGeneration => { d with pollGenerationOf := fun _ => 0 }
  | .remoteItemId => { d with itemIdOf := fun _ => none }
  | .consecutiveUploadFailures =>
    { d with health := d.health.map fun h => { h with consecutiveUploadFailures := 0 } }
  | .lastUploadError =>
    { d with health := d.health.map fun h => { h with lastUploadError := none } }
  | .lastUploadFailureUnix =>
    { d with health := d.health.map fun h => { h with lastUploadFailureUnix := none } }

/-- `status IN ('cached','dirty','uploading')`. -/
def claimsCache : SyncStatus → Bool
  | .cached | .dirty | .uploading => true
  | _ => false

/-- The `UPDATE` of 0010: a file that should be cached and has no cache path is remote. -/
def resetUncached (d : Content) : Content :=
  { d with
    statusOf := fun i =>
      if d.index.rows.any (fun f => f.inode = i ∧ f.kind = .file) ∧ claimsCache (d.statusOf i) ∧
          d.cachePathOf i = none then .remote
      else d.statusOf i }

/-- The `UPDATE` of 0011. -/
def clearUploadHealth (d : Content) : Content :=
  { d with
    health := d.health.map fun h =>
      if h.lastUploadError.any (like "%dirty but no cache_path%".toList) then
        { h with
          consecutiveUploadFailures := 0, lastUploadError := none, lastUploadFailureUnix := none }
      else h }

end Content

/-- What the statement does to the rows. -/
def Statement.rewrite (v : Visits) (s : Statement) (d : Content) : Option Content :=
  match s with
  | createTable _ | createTrigger _ _ => some d
  | createIndex i _ => d.createIndex i
  | addColumn _ c => some (d.addColumn c)
  | reparentChildren => d.reparentChildren v
  | deleteDuplicates => d.deleteDuplicates
  | resetUncached => some d.resetUncached
  | clearUploadHealth => some d.clearUploadHealth

/-! ## The scripts -/

open Statement

def migrations : List (Script Statement ℕ) :=
  [⟨1, [createTable .mounts, createTable .fileIndex,
      createIndex .fileIndexParent .fileIndex, createIndex .fileIndexStatus .fileIndex,
      createIndex .fileIndexMount .fileIndex, createTable .syncQueue,
      createIndex .syncQueueDue .syncQueue, createTable .changeTokens, createTable .cacheLru,
      createIndex .cacheLruAccess .cacheLru, createTable .xattrStore]⟩,
    ⟨2, [createTable .deleteTombstones, createIndex .tombstonesMountPath .deleteTombstones,
      createIndex .tombstonesExpires .deleteTombstones]⟩,
    ⟨3, [addColumn .fileIndex .pollGeneration, createIndex .fileIndexGeneration .fileIndex]⟩,
    ⟨4, [createTable .baseVersions, createIndex .baseVersionsHash .baseVersions,
      createIndex .baseVersionsAge .baseVersions]⟩,
    ⟨5, [createTable .versionHistory, createIndex .versionHistoryInode .versionHistory,
      createIndex .versionHistoryHash .versionHistory]⟩,
    ⟨6, [reparentChildren, deleteDuplicates,
      createIndex .fileIndexParentNameUnique .fileIndex]⟩,
    ⟨7, [createTable .mountHealth]⟩,
    ⟨8, [addColumn .fileIndex .remoteItemId, createIndex .fileIndexMountItemId .fileIndex]⟩,
    ⟨9, [addColumn .mountHealth .consecutiveUploadFailures,
      addColumn .mountHealth .lastUploadError, addColumn .mountHealth .lastUploadFailureUnix]⟩,
    ⟨10, [resetUncached, createTrigger .dirtyRequiresCachePathInsert .fileIndex,
      createTrigger .dirtyRequiresCachePathUpdate .fileIndex]⟩,
    ⟨11, [clearUploadHealth]⟩]

/-! ## Running them -/

/-- The schema, the rows, and the versions in `schema_migrations`. -/
structure Database where
  schema : List SchemaObject
  content : Content
  versions : List ℕ

namespace Database

/-- `CREATE TABLE IF NOT EXISTS schema_migrations`. -/
def ensureVersions (x : Database) : Database :=
  if .table .schemaMigrations ∈ x.schema then x
  else { x with schema := x.schema ++ [.table .schemaMigrations] }

/-- The connection, to which `run_migrations` sends statements. -/
def engine (v : Visits) : Engine Database Statement ℕ where
  exec s x := (s.define x.schema).bind fun schema =>
    (s.rewrite v x.content).map fun content => { x with schema, content }
  recorded n x := x.versions.contains n
  record n x := { x with versions := x.versions ++ [n] }
  recorded_exec n h := by
    obtain ⟨schema, -, h⟩ := Option.bind_eq_some_iff.1 h
    obtain ⟨content, -, rfl⟩ := Option.map_eq_some_iff.1 h
    rfl
  recorded_record := by simp [or_comm]

def runMigrations (v : Visits) (x : Database) : Option Database :=
  (engine v).runAll migrations x.ensureVersions

end Database

end Stratosync

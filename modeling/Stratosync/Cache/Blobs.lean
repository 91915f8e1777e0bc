import Stratosync.Foundations.Pool
import Stratosync.State.Versions

/-!
# The blobs of the base store

`capture` records a version of a file, a task of its own records the base of one after a transfer,
and `evict_stale_bases` drops old bases. Each stores or removes blobs by their hash, one call at a
time, and they run beside each other.
-/

namespace Stratosync

open Foundations Foundations.Pool

/-! ## The tasks -/

structure BlobConfig where
  mountId : ℕ
  /-- SHA-256 in hex. -/
  sha256 : Bytes → Str
  maxSize : ℕ
  retention : ℕ
  retentionDays : ℕ

/-- Where a `store_base` is. -/
inductive StorePc
  /-- About to read the file for its hash. -/
  | read
  /-- About to look whether there is a blob of that hash. -/
  | look (hash : Str)
  | copy (hash : Str)
  | rename (hash : Str)
  deriving DecidableEq, Repr

inductive CapturePc
  | check
  | store (pc : StorePc)
  | insert (hash : Str)
  | prune
  /-- About to remove these blobs. -/
  | sweep (orphans : List Str)
  deriving DecidableEq, Repr

inductive BasePc
  | store (pc : StorePc)
  | record (hash : Str)
  deriving DecidableEq, Repr

/-- Where an `evict_stale_bases` is; `left` has the entries it has not come to. -/
inductive EvictPc
  | query
  | count (left : List (Inode × Str × ℕ))
  /-- About to remove the entry of a file; `last` when the blob is to be removed with it. -/
  | dropBase (inode : Inode) (hash : Str) (last : Bool) (left : List (Inode × Str × ℕ))
  | removeObject (hash : Str) (left : List (Inode × Str × ℕ))
  deriving DecidableEq, Repr

/-- What `capture` is called with. -/
structure VersionSnapshot where
  inode : Inode
  size : ℕ
  etag : Option Str
  source : VersionSource
  deriving DecidableEq, Repr

inductive BlobTask
  | capture (a : VersionSnapshot) (pc : CapturePc)
  | base (inode : Inode) (pc : BasePc)
  | evict (pc : EvictPc)
  deriving DecidableEq, Repr

/-- The tables, the blobs by hash, the temporary files of those that are copied, and the tasks. -/
structure BlobState where
  tables : VersionDb
  objects : Str → Option Bytes
  temps : Str → Option Bytes
  tasks : List BlobTask

/-- What a call meets: whether it fails, and what it reads from the cache file. -/
structure BlobEnv where
  fault : Bool
  content : Option Bytes
  deriving DecidableEq, Repr

inductive StoreNext
  | goto (pc : StorePc)
  | stored (hash : Str)
  | failed
  deriving DecidableEq, Repr

/-- How `capture` goes on. -/
def StoreNext.inCapture (a : VersionSnapshot) : StoreNext → Option BlobTask
  | .goto pc => some (.capture a (.store pc))
  | .stored hash => some (.capture a (.insert hash))
  | .failed => none

/-- How the task that records a base goes on. -/
def StoreNext.inBase (i : Inode) : StoreNext → Option BlobTask
  | .goto pc => some (.base i (.store pc))
  | .stored hash => some (.base i (.record hash))
  | .failed => none

section Ticks

variable (c : BlobConfig) (s : BlobState) (env : BlobEnv)

/-- The next call of `store_base`. -/
def StorePc.tick : StorePc → BlobState × StoreNext
  | .read =>
    match (if env.fault then none else env.content) with
    | none => (s, .failed)
    | some data => (s, .goto (.look (c.sha256 data)))
  | .look hash => (s, if (s.objects hash).isSome then .stored hash else .goto (.copy hash))
  | .copy hash =>
    -- a copy that breaks off leaves what it has written
    let temps := env.content.elim s.temps fun data => Function.update s.temps hash (some data)
    ({ s with temps },
      if env.fault || env.content.isNone then .failed else .goto (.rename hash))
  | .rename hash =>
    match (if env.fault then none else s.temps hash) with
    | none => (s, .failed)
    | some data =>
      ({ s with
        objects := Function.update s.objects hash (some data)
        temps := Function.update s.temps hash none }, .stored hash)

/-- The outcome of a call on the tables; the task ends when it fails. -/
def BlobState.tryTables (r : Option VersionDb) (next : BlobTask) : BlobState × Option BlobTask :=
  match (if env.fault then none else r) with
  | none => (s, none)
  | some tables => ({ s with tables }, some next)

def BlobState.removeObject (hash : Str) : BlobState :=
  { s with objects := Function.update s.objects hash none }

def CapturePc.tick (a : VersionSnapshot) : CapturePc → BlobState × Option BlobTask
  | .check =>
    (s, if c.retention = 0 || c.maxSize < a.size || env.content.isNone then none
      else some (.capture a (.store .read)))
  | .store pc =>
    let t := pc.tick c s env
    (t.1, t.2.inCapture a)
  | .insert hash =>
    s.tryTables env ((s.tables.insertVersionHistory a.inode c.mountId hash a.size a.etag
      a.source).map Prod.snd) (.capture a .prune)
  | .prune =>
    match (if env.fault then none else s.tables.pruneVersionHistory a.inode c.retention) with
    | none => (s, none)
    | some (orphans, tables) => ({ s with tables }, some (.capture a (.sweep orphans)))
  | .sweep [] => (s, none)
  | .sweep (hash :: orphans) =>
    (if env.fault then s else s.removeObject hash, some (.capture a (.sweep orphans)))

def BasePc.tick (i : Inode) : BasePc → BlobState × Option BlobTask
  | .store pc =>
    let t := pc.tick c s env
    (t.1, t.2.inBase i)
  | .record hash =>
    match (if env.fault then none else s.tables.setBaseHash i c.mountId hash 0) with
    | none => (s, none)
    | some tables => ({ s with tables }, none)

def EvictPc.tick : EvictPc → BlobState × Option BlobTask
  | .query =>
    (s, if env.fault then none
      else some (.evict (.count (s.tables.staleBaseEntries c.mountId c.retentionDays 500))))
  | .count [] => (s, none)
  | .count ((i, hash, _) :: left) =>
    (s, if env.fault then none
      else some (.evict (.dropBase i hash (s.tables.baseHashRefCount hash ≤ 1) left)))
  | .dropBase i hash last left =>
    s.tryTables env (s.tables.removeBaseHash i c.mountId)
      (.evict (if last then .removeObject hash left else .count left))
  | .removeObject hash left =>
    if env.fault then (s, none) else (s.removeObject hash, some (.evict (.count left)))

def BlobTask.tick : BlobTask → BlobState × Option BlobTask
  | .capture a pc => pc.tick c s env a
  | .base i pc => pc.tick c s env i
  | .evict pc => pc.tick c s env

end Ticks

/-! ## The system -/

/-- What is started. -/
inductive BlobJob
  | capture (a : VersionSnapshot)
  | base (inode : Inode)
  | evict
  deriving DecidableEq, Repr

def BlobJob.task : BlobJob → BlobTask
  | .capture a => .capture a .check
  | .base i => .base i (.store .read)
  | .evict => .evict .query

inductive BlobEvent
  | start (job : BlobJob)
  | tick (k : ℕ) (env : BlobEnv)
  /-- The rows of `file_index` change, or the clock. -/
  | files (db : Db)

def blobStep (c : BlobConfig) (s : BlobState) : BlobEvent → Option BlobState
  | .start job => some { s with tasks := s.tasks ++ [job.task] }
  | .tick k env => s.tasks[k]?.map fun task =>
    let t := task.tick c s env
    { t.1 with tasks := advance t.1.tasks k t.2 }
  | .files db => (s.tables.withFiles db).map fun tables => { s with tables }

/-- No blob and no row that names one. -/
def BlobState.init (db : Db) : BlobState :=
  { tables := { db, bases := ⟨[], List.nodup_nil⟩, history := ⟨[], List.nodup_nil⟩, seq := 0 }
    objects := fun _ => none, temps := fun _ => none, tasks := [] }

end Stratosync

import Stratosync.State.RemoteOps
import Stratosync.Cache.Files
import Stratosync.Backend

/-!
# The state of the daemon

Everything the parties of one mount share: the database, the cache directory, the remote, the
table of open files and the upload queue, and what is under way. The kernel's requests are served
one at a time (`fuse` is the one in progress between its steps); uploads, hydrations, reads,
the eviction and the remote operations spawned by the request handlers each advance on their own,
one call at a time, and any of them may be next.

Left out are the header prefetches' transport, the health counters, the version history and the
three-way merge bases, which none of these read back.
-/

namespace Stratosync

/-- The configuration of a mount. -/
structure Mount where
  mountId : ℕ
  cacheDir : PathBuf
  /-- The selective sync patterns. -/
  ignore : Str → Bool
  prefetchThreshold : ℕ
  headerPrefetchSize : ℕ
  autoHydrateMaxSize : Option ℕ
  /-- The number of bytes above which the eviction starts. -/
  highMark : ℕ
  /-- The number of bytes the eviction goes down to. -/
  lowMark : ℕ

/-- An entry of the table of open files. -/
structure OpenFile where
  inode : Inode
  cachePath : PathBuf
  remotePath : Str
  hydrating : Bool
  deriving DecidableEq, Repr

/-- A request whose file operation is done and which has yet to update the database. -/
inductive FuseCall
  | write (inode : Inode) (newSize : ℕ)
  | setattr (inode : Inode) (newSize : ℕ) (cachePath : Option PathBuf)
  deriving DecidableEq, Repr

/-- The inode a request in progress is about. -/
def FuseCall.inode : FuseCall → Inode
  | write i _ | setattr i _ _ => i

/-- Where a `run_upload` is. -/
inductive UploadPc
  /-- About to load the row. -/
  | load
  /-- About to give a row that cannot be uploaded this status. -/
  | reset (status : SyncStatus)
  /-- About to look whether the cache file exists. -/
  | check (entry : FileEntry) (cachePath : PathBuf)
  /-- The cache file is missing. -/
  | revert (cachePath : PathBuf)
  /-- About to mark the row as uploading. -/
  | mark (entry : FileEntry) (cachePath : PathBuf)
  /-- The backend is about to read the cache file. -/
  | read (entry : FileEntry) (cachePath : PathBuf)
  /-- The backend is about to write the object. -/
  | put (entry : FileEntry) (data : Bytes)
  /-- The backend is about to fetch the metadata of the result. -/
  | stat (entry : FileEntry)
  /-- About to record the upload. -/
  | record (metadata : RemoteMetadata)
  /-- Returned; the queue is about to handle the result. -/
  | finish (result : Except SyncError Unit)

/-- An upload in flight. -/
structure Upload where
  inode : Inode
  pc : UploadPc

/-- Where a hydration is. -/
inductive HydrationPc
  /-- `hydrate_if_needed`, about to read the row. -/
  | enter (attempt : ℕ)
  /-- The row is hydrating; about to register as a waiter. -/
  | register (attempt : ℕ)
  /-- Waiting for the hydration under way; `signal` is its result once it is known. -/
  | wait (attempt : ℕ) (signal : Option Bool)
  /-- About to mark the row as hydrating. -/
  | claim (entry : FileEntry)
  /-- The row is marked; about to read it. -/
  | reload
  /-- `do_hydrate`, about to derive the cache path. -/
  | begin_ (entry : FileEntry)
  /-- About to download to the temporary file. -/
  | download (entry : FileEntry) (cachePath : PathBuf)
  /-- Downloaded; about to rename the temporary file over the cache path. -/
  | install (entry : FileEntry) (cachePath : PathBuf) (data : Bytes)
  /-- About to record the cache file. -/
  | record (entry : FileEntry) (cachePath : PathBuf)
  /-- The download found nothing; about to look again. -/
  | verify (entry : FileEntry)
  /-- Nothing is there; about to drop the row. -/
  | prune (entry : FileEntry)
  /-- Something is there; about to fill in its item id. -/
  | backfill (entry : FileEntry) (itemId : Option Str)
  /-- About to roll the status back. -/
  | rollback (entry : FileEntry) (error : SyncError)
  /-- About to tell the waiters. -/
  | notify (result : Except SyncError Unit)

/-- A hydration, or a call that waits for one. `reader` is the read that called it. -/
structure Hydration where
  inode : Inode
  pc : HydrationPc
  reader : Option ℕ

/-- Where a read is. From `status` on it keeps the entry of its handle as it was at the start. -/
inductive ReadPc
  | start
  /-- The handle is hydrating; about to look at the row. -/
  | status (f : OpenFile)
  /-- About to mark the row as hydrating. -/
  | claim (f : OpenFile)
  /-- About to download the range. -/
  | range (f : OpenFile)
  /-- Waiting for a hydration; `signal` is its result once it is known. -/
  | await (f : OpenFile) (signal : Option (Except SyncError Unit))
  /-- About to take the cache path from the row. -/
  | retarget (f : OpenFile)
  /-- About to read the cache file. -/
  | cache

/-- The handle whose row a read is about to mark. -/
def ReadPc.claimed : ReadPc → Option OpenFile
  | .claim f => some f
  | _ => none

/-- A read in progress. -/
structure Read where
  id : ℕ
  fh : ℕ
  offset : ℕ
  size : ℕ
  pc : ReadPc

/-- Where the bytes of a reply come from. -/
inductive ReadSource
  | header (inode : Inode)
  | remote (path : Str)
  | cache (path : PathBuf)
  deriving DecidableEq, Repr

/-- Where the eviction is. `freed` and `passFreed` are its counters, `rest` the candidates of the
pass still to come. -/
inductive EvictionPc
  | query
  | recheck (rest : List EvictionCandidate) (passFreed : ℕ)
  | remove (c : EvictionCandidate) (rest : List EvictionCandidate) (passFreed : ℕ)
  | evicted (c : EvictionCandidate) (rest : List EvictionCandidate) (passFreed : ℕ)

/-- An eviction under way. -/
structure Eviction where
  toFree : ℕ
  freed : ℕ
  pc : EvictionPc

/-- A remote operation a request handler spawned. -/
inductive Background
  | mkdir (path : Str)
  | delete (path : Str)
  | rmdir (path : Str)
  /-- About to delete the object that was at the destination of a rename. -/
  | deleteDest (dest : Str) (move : Option (Str × Str))
  /-- About to move the renamed object. -/
  | move (old new : Str)
  | removeTombstone (path : Str)
  deriving DecidableEq, Repr

/-- The state of the daemon and of what it works on. -/
structure World where
  db : Db
  fs : CacheFs
  remote : Remote
  headers : Inode → Option Bytes
  openFiles : ℕ → Option OpenFile
  nextFh : ℕ
  nextRead : ℕ
  /-- The inodes whose upload waits for its time. -/
  pending : List Inode
  fuse : Option FuseCall
  uploads : List Upload
  hydrations : List Hydration
  reads : List Read
  eviction : Option Eviction
  background : List Background
  /-- The rows handed to the conflict resolver. -/
  conflicts : List FileEntry

/-- What a step takes from outside: whether its local call fails, the error of its backend call,
and the identifier and time the server gives a version it accepts. -/
structure Env where
  fault : Bool
  error : Option SyncError
  etag : Option Str
  mtime : ℕ
  deriving DecidableEq, Repr

/-- A step in which nothing fails. -/
def Env.fine : Env := { fault := false, error := none, etag := none, mtime := 0 }

namespace World

/-- The outcome of a database call: the new database, unless the call or the statement fails. -/
def tryDb (env : Env) (r : Option Db) : Option Db := if env.fault then none else r

/-- The world after a database call whose failure is only logged. -/
def logDb (w : World) (env : Env) (r : Option Db) : World :=
  { w with db := (tryDb env r).getD w.db }

/-- Hand a trigger to the upload queue. -/
def enqueue (w : World) (i : Inode) : World :=
  { w with pending := if w.pending.contains i then w.pending else w.pending ++ [i] }

end World

theorem mem_enqueue {w : World} {i j : Inode} :
    j ∈ (w.enqueue i).pending ↔ j = i ∨ j ∈ w.pending := by
  rw [World.enqueue]
  split
  · rename_i hin
    exact ⟨.inr, fun hj => hj.elim (fun hj => hj ▸ List.contains_iff_mem.1 hin) id⟩
  · rw [List.mem_append, List.mem_singleton, or_comm]

end Stratosync

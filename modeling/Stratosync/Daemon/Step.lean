import Stratosync.Foundations.Pool
import Stratosync.Sync.UploadQueue
import Stratosync.Fuse.Hydrate
import Stratosync.Cache.Evict

/-!
# The transition system

One step of the daemon and its surroundings: the kernel sends a request or the request in progress
moves on, the queue launches an upload, one of the tasks makes its next call, the poller applies a
change it learned of, another client edits the remote, or time passes. A run is a sequence of
events; its order is the interleaving.
-/

namespace Stratosync

open Foundations.Pool

/-- A request of the kernel. -/
inductive Request
  | write (fh offset : ℕ) (data : Bytes)
  | setattr (inode : Inode) (newSize : ℕ)
  | open_ (inode : Inode)
  | release (fh : ℕ)
  | fsync (fh : ℕ)
  | read (fh offset size : ℕ)
  | create (parent : Inode) (name : Str)
  | mkdir (parent : Inode) (name : Str)
  | unlink (parent : Inode) (name : Str)
  | rmdir (parent : Inode) (name : Str)
  | rename (parent : Inode) (name : Str) (newParent : Inode) (newName : Str)
  deriving DecidableEq, Repr

/-- A change another client makes to the remote. -/
inductive ForeignEdit
  | put (path : Str) (o : RemoteObject)
  | remove (path : Str)
  deriving DecidableEq, Repr

def ForeignEdit.apply (r : Remote) : ForeignEdit → Remote
  | put path o => r.put path o
  | remove path => Function.update r path none

inductive Event
  | request (r : Request)
  | fuse (env : Env)
  | launch (inode : Inode)
  | upload (k : ℕ) (env : Env)
  | hydration (k : ℕ) (env : Env)
  | read (k : ℕ) (env : Env)
  | startEviction
  | eviction (env : Env)
  | background (k : ℕ) (env : Env)
  | prefetch (parent : Inode)
  | poll (op : RemoteOp)
  | foreign (e : ForeignEdit)
  | clock (seconds : ℕ)
  deriving DecidableEq, Repr

section

variable (m : Mount) (w : World)

/-- The first step of a request. -/
def serve : Request → World
  | .write fh offset data => (handleWrite w fh offset data).2
  | .setattr i n => (handleSetattr m w i n).2
  | .open_ i => (handleOpen m w i).2
  | .release fh => handleRelease w fh
  | .fsync fh => (handleFsync w fh).2
  | .read fh offset size => handleRead w fh offset size
  | .create parent name => (handleCreate m w parent name).2
  | .mkdir parent name => (handleMkdir m w parent name).2
  | .unlink parent name => (handleUnlink m w parent name).2
  | .rmdir parent name => (handleRmdir m w parent name).2
  | .rename parent name newParent newName => (handleRename m w parent name newParent newName).2

/-- The cache files of the rows an operation deletes, which the poller removes. -/
def Db.cacheFilesDropped (db : Db) : RemoteOp → List PathBuf
  | .deleteByPath mountId path =>
    (((db.deleteRemoteEntryByPath mountId path).bind Prod.fst).bind Prod.snd).toList
  | .deleteByItemId mountId id =>
    (((db.deleteRemoteEntryByItemId mountId id).bind Prod.fst).bind Prod.snd).toList
  | .deleteStale mountId generation =>
    ((db.deleteStaleEntries mountId generation).1.getD []).filterMap fun x => x.2.2
  | _ => []

/-- The poller applies a remote change. -/
def World.poll (op : RemoteOp) : World :=
  { w with
    db := w.db.applyRemote op
    fs := (w.db.cacheFilesDropped op).foldl (fun fs p => fs.removeIfPresent (some p)) w.fs }

/-- Give the result of a hydration to the read that called it. -/
def World.deliver (reader : Option ℕ) (result : Except SyncError Unit) : World :=
  { w with reads := w.reads.map fun r =>
      match r.pc with
      | .await f none =>
        if some r.id = reader then { r with pc := .await f (some result) } else r
      | _ => r }

/-- The step of the upload at position `k`. -/
def uploadStep (k : ℕ) (env : Env) : Option World :=
  w.uploads[k]?.map fun u =>
    let t := Upload.tick w u.inode env u.pc
    { t.1 with uploads := advance t.1.uploads k (t.2.map fun pc => { u with pc }) }

/-- The step of the hydration at position `k`. -/
def hydrationStep (k : ℕ) (env : Env) : Option World :=
  w.hydrations[k]?.map fun h =>
    let t := Hydration.tick m w h.inode env h.pc
    match t.2 with
    | .goto pc => { t.1 with hydrations := advance t.1.hydrations k (some { h with pc }) }
    | .finish result =>
      { t.1 with hydrations := advance t.1.hydrations k none }.deliver h.reader result

/-- The step of the read at position `k`. -/
def readStep (k : ℕ) (env : Env) : Option World :=
  w.reads[k]?.map fun r =>
    let t := Read.tick m w env r
    match t.2 with
    | .goto pc => { t.1 with reads := advance t.1.reads k (some { r with pc }) }
    | .reply _ => { t.1 with reads := advance t.1.reads k none }

/-- The step of the eviction. -/
def evictionStep (env : Env) : Option World :=
  w.eviction.map fun ev =>
    let t := ev.tick m w env
    { t.1 with eviction := t.2 }

/-- The step of the spawned remote operation at position `k`. -/
def backgroundStep (k : ℕ) (env : Env) : Option World :=
  w.background[k]?.map fun b =>
    let t := Background.tick m w env b
    { t.1 with background := advance t.1.background k t.2 }

/-- **One step of the system**; `none` when the event is not enabled. -/
def step : Event → Option World
  | .request r => if w.fuse.isSome then none else some (serve m w r)
  | .fuse env => w.fuse.map fun c => c.tick w env
  | .launch i => w.launch i
  | .upload k env => uploadStep w k env
  | .hydration k env => hydrationStep m w k env
  | .read k env => readStep m w k env
  | .startEviction =>
    if w.eviction.isSome then none
    else (startEviction m w).map fun ev => { w with eviction := some ev }
  | .eviction env => evictionStep m w env
  | .background k env => backgroundStep m w k env
  | .prefetch parent => some (prefetchSmallFiles m w parent)
  | .poll op => some (w.poll op)
  | .foreign e => some { w with remote := e.apply w.remote }
  | .clock n => some { w with db := { w.db with now := w.db.now + n } }

end

/-- An upload the backend accepts: of which row, as it was loaded, with which content, and the etag
the server gives the new version. -/
structure Accepted where
  inode : Inode
  entry : FileEntry
  data : Bytes
  etag : Option Str

/-- The upload the backend accepts in a step. -/
def acceptedUpload (w : World) : Event → Option Accepted
  | .upload k env =>
    match w.uploads[k]? with
    | some ⟨i, .put entry data⟩ =>
      match env.error, w.remote.upload entry.remotePath entry.etag data env.etag env.mtime with
      | none, .ok _ => some ⟨i, entry, data, env.etag⟩
      | _, _ => none
    | _ => none
  | _ => none

theorem acceptedUpload_eq_some {w : World} {ev : Event} {a : Accepted}
    (h : acceptedUpload w ev = some a) :
    ∃ k env r, ev = .upload k env ∧ w.uploads[k]? = some ⟨a.inode, .put a.entry a.data⟩ ∧
      env.error = none ∧ a.etag = env.etag ∧
      w.remote.upload a.entry.remotePath a.entry.etag a.data env.etag env.mtime = .ok r := by
  cases ev with
  | upload k env =>
    simp only [acceptedUpload] at h
    split at h
    · rename_i hu
      split at h
      · rename_i he hr
        obtain rfl := Option.some.inj h
        exact ⟨k, env, _, rfl, hu, he, rfl, hr⟩
      · cases h
    · cases h
  | _ => cases h

/-- A daemon with an empty index and nothing under way. -/
def World.init (m : Mount) (now : ℕ) : World :=
  { db := Db.empty m.mountId now, fs := ⟨fun _ => none, m.cacheDir.inits⟩, remote := fun _ => none
    headers := fun _ => none, openFiles := fun _ => none, nextFh := 1, nextRead := 0
    pending := [], fuse := none, uploads := [], hydrations := [], reads := [], eviction := none
    background := [], conflicts := [] }

/-- A small mount, for runs on fixed inputs. -/
def sampleMount : Mount :=
  { mountId := 1, cacheDir := [['c']], ignore := fun _ => false, prefetchThreshold := 0
    headerPrefetchSize := 0, autoHydrateMaxSize := none, highMark := 0, lowMark := 0 }

/-- A file the remote reports at the top of the mount. -/
def reportedFile (name : Str) (size : ℕ) (etag : Str) : RemoteOp :=
  .upsert 1
    { parent := fuseRootInode, name, remotePath := name, kind := .file, size, mtime := 0
      etag := some etag, pollGeneration := 0 } none

/-- Another client's version of a file. -/
def foreignVersion (name : Str) (data : Bytes) (etag : Str) : Event :=
  .foreign (.put name ⟨data, some etag, 0, none⟩)

/-- A backend call the server answers by giving the new version this etag. -/
def Env.accepted (etag : Str) : Env := { Env.fine with etag := some etag }

/-- A new file, written and uploaded; the server gives it etag `v`. -/
def uploadFirst : List Event :=
  [.request (.create fuseRootInode ['a']), .request (.write 1 0 [7]), .fuse .fine, .launch 2,
    .upload 0 .fine, .upload 0 .fine, .upload 0 .fine, .upload 0 .fine,
    .upload 0 (.accepted ['v']), .upload 0 .fine, .upload 0 .fine, .upload 0 .fine]

end Stratosync

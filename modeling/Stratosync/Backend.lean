import Stratosync.Foundations.Versions
import Stratosync.Paths
import Mathlib.Logic.Function.Basic

/-!
# The remote tree and the backend's operations

The remote of one mount, a map from paths to directories and objects, and what the calls of the
rclone backend do to it. A conditional upload is honoured: an object whose etag differs from the
expected one is not replaced. `check_if_match` lets an upload through where there is no object
yet and where the object has no etag to compare.

The outcome of a call is a `SyncError` or the new tree. Errors of the transport are not here: a
caller's step takes them from its environment.
-/

namespace Stratosync

/-- An object of the remote: one version of a file. -/
structure RemoteObject where
  data : Bytes
  etag : Option Str
  mtime : ℕ
  itemId : Option Str
  deriving DecidableEq, Repr

/-- What is at a remote path. -/
inductive RemoteNode
  | dir
  | file (o : RemoteObject)
  deriving DecidableEq, Repr

/-- The remote tree. -/
abbrev Remote := Str → Option RemoteNode

/-- The last component of a remote path. -/
def fileName (path : Str) : Str := (path.splitOn '/').getLast?.getD []

namespace Remote

variable (r : Remote)

/-- The object at a path. -/
def object (path : Str) : Option RemoteObject :=
  match r path with
  | some (.file o) => some o
  | _ => none

def stat (path : Str) : Option RemoteMetadata :=
  match r path with
  | some (.file o) => some
      { path, name := fileName path, size := o.data.length, mtime := o.mtime, isDir := false
        etag := o.etag, itemId := o.itemId }
  | some .dir => some
      { path, name := fileName path, size := 0, mtime := 0, isDir := true, etag := none
        itemId := none }
  | none => none

/-- `check_if_match`: the object at the path may be replaced by one based on `expected`. -/
def checkIfMatch (path expected : Str) : Bool :=
  (r.object path).all fun o => o.etag.all (· = expected)

/-- The tree with an object at the path. -/
def put (path : Str) (o : RemoteObject) : Remote := Function.update r path (some (.file o))

/-- A conditional upload of `data`. The server gives the new version `etag` and `mtime`; an object
that is replaced keeps its item id. -/
def upload (path : Str) (ifMatch : Option Str) (data : Bytes) (etag : Option Str) (mtime : ℕ) :
    Except SyncError Remote :=
  if r path = some .dir then .error .fatal
  else if ifMatch.all (r.checkIfMatch path) then
    .ok (r.put path ⟨data, etag, mtime, (r.object path).bind RemoteObject.itemId⟩)
  else .error .conflict

/-- `rclone deletefile`. -/
def delete (path : Str) : Except SyncError Remote :=
  match r path with
  | some (.file _) => .ok (Function.update r path none)
  | some .dir => .error .fatal
  | none => .error .notFound

/-- `rclone purge`: the directory and everything below it. -/
def rmdir (path : Str) : Except SyncError Remote :=
  match r path with
  | some .dir => .ok fun q => if atOrBelow path q then none else r q
  | some (.file _) => .error .fatal
  | none => .error .notFound

/-- `rclone moveto`: what is at or below `old` takes the same place under `new`. -/
def rename (old new : Str) : Except SyncError Remote :=
  if (r old).isNone then .error .notFound
  else .ok fun q =>
    let moved := if atOrBelow new q then r (old ++ q.drop new.length) else none
    moved <|> if atOrBelow old q then none else r q

/-- `rclone mkdir`. -/
def mkdir (path : Str) : Except SyncError Remote :=
  match r path with
  | some (.file _) => .error .fatal
  | _ => .ok (Function.update r path (some .dir))

/-- The bytes `[offset, offset + len)` of the object at a path. -/
def downloadRange (path : Str) (offset len : ℕ) : Option Bytes :=
  (r.object path).map fun o => (o.data.drop offset).take len

/-! ## What a call leaves at a path -/

variable {r} {r' : Remote} {path : Str} {ifMatch etag : Option Str} {data : Bytes} {mtime : ℕ}

theorem object_put (q : Str) (o : RemoteObject) :
    (r.put path o).object q = if q = path then some o else r.object q := by
  by_cases hq : q = path <;> simp [object, put, hq]

/-- An accepted upload leaves the data at the path and replaced nothing but a version it was
based on, or one without an etag. -/
theorem upload_ok (h : r.upload path ifMatch data etag mtime = .ok r') :
    (∃ id, r' = r.put path ⟨data, etag, mtime, id⟩) ∧
      ∀ o ∈ r.object path, ∀ v ∈ o.etag, ∀ v' ∈ ifMatch, v = v' := by
  rw [upload] at h
  split at h
  · cases h
  split at h
  · rename_i hm
    refine ⟨⟨_, (Except.ok.inj h).symm⟩, ?_⟩
    intro o ho v hv v' hv'
    rw [Option.mem_def.1 hv'] at hm
    simp only [Option.all_some, checkIfMatch, Option.mem_def.1 ho, Option.mem_def.1 hv,
      decide_eq_true_eq] at hm
    exact hm
  · cases h

end Remote

/-! ## The versions of the objects -/

open Foundations.Versions

/-- The versions each path of the remote has had. -/
abbrev ObjectVersions := Str → List RemoteObject

/-- The versions after the remote went from `r` to `r'`. -/
def ObjectVersions.next (r r' : Remote) (H : ObjectVersions) : ObjectVersions := fun path =>
  record (H path) (r.object path) (r'.object path)

@[simp] theorem ObjectVersions.next_self (r : Remote) (H : ObjectVersions) : H.next r r = H :=
  funext fun _ => record_self _ _

/-- The last version of each path is the object there. -/
def ObjectVersions.UpToDate (H : ObjectVersions) (r : Remote) : Prop :=
  ∀ path, Current (H path) (r.object path)

theorem ObjectVersions.UpToDate.next {H : ObjectVersions} {r r' : Remote} (h : H.UpToDate r) :
    (H.next r r').UpToDate r' :=
  fun path => (h path).record

end Stratosync

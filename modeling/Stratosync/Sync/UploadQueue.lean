import Stratosync.Daemon.World

/-!
# The upload queue

`run_upload`, one call at a time, and how the queue handles its result. A pending inode is
launched at some time after its trigger: the debounce windows, the transfer window and the limit
on concurrent uploads only choose the time. Nothing keeps two uploads of one inode apart.

The handling of a conflict ends with handing the row to the resolver.
-/

namespace Stratosync

namespace UploadPc

/-- The row an upload works on, once it is loaded. -/
def entry : UploadPc → Option FileEntry
  | check e _ | mark e _ | read e _ | put e _ | stat e => some e
  | _ => none

end UploadPc

/-- The next call of an upload of inode `i`: the state it leaves and where the upload is then. -/
def Upload.tick (w : World) (i : Inode) (env : Env) : UploadPc → World × Option UploadPc
  | .load =>
    if env.fault then (w, some (.finish (.error .fatal)))
    else
      match w.db.getByInode i with
      | none => (w, some (.finish (.error .notFound)))
      | some entry =>
        -- conflict files are not re-uploaded through the normal path
        if entry.status = .conflict then (w, some (.finish (.ok ())))
        else if entry.kind ≠ .file then (w, some (.reset .cached))
        else
          match entry.cachePath with
          | none => (w, some (.reset .remote))
          | some cachePath => (w, some (.check entry cachePath))
  | .reset status => (w.logDb env (w.db.setStatus i status), some (.finish (.ok ())))
  | .check entry cachePath =>
    (w, some (if w.fs.exists_ cachePath then .mark entry cachePath else .revert cachePath))
  | .revert cachePath =>
    match (if env.fault then none else w.db.revertDirtyWithMissingCache i cachePath) with
    | none => (w, some (.finish (.error .fatal)))
    | some (true, db) => ({ w with db }, some (.finish (.ok ())))
    | some (false, db) => ({ w with db }, some (.finish (.error .transient)))
  | .mark entry cachePath =>
    match World.tryDb env (w.db.setStatus i .uploading) with
    | none => (w, some (.finish (.error .fatal)))
    | some db => ({ w with db }, some (.read entry cachePath))
  | .read entry cachePath =>
    match env.error, w.fs.files cachePath with
    | some e, _ => (w, some (.finish (.error e)))
    | none, none => (w, some (.finish (.error .fatal)))
    | none, some data => (w, some (.put entry data))
  | .put entry data =>
    match env.error with
    | some e => (w, some (.finish (.error e)))
    | none =>
      match w.remote.upload entry.remotePath entry.etag data env.etag env.mtime with
      | .error e => (w, some (.finish (.error e)))
      | .ok remote => ({ w with remote }, some (.stat entry))
  | .stat entry =>
    match env.error, w.remote.stat entry.remotePath with
    | some e, _ => (w, some (.finish (.error e)))
    | none, none => (w, some (.finish (.error .notFound)))
    | none, some metadata => (w, some (.record metadata))
  | .record metadata =>
    match World.tryDb env
      (w.db.setUploaded i metadata.size metadata.etag metadata.mtime metadata.size) with
    | none => (w, some (.finish (.error .fatal)))
    | some db => ({ w with db }, some (.finish (.ok ())))
  | .finish (.ok ()) => (w, none)
  | .finish (.error .conflict) =>
    match (if env.fault then none else w.db.getByInode i) with
    | none => (w, none)
    | some entry => ({ w with conflicts := w.conflicts ++ [entry] }, none)
  | .finish (.error e) =>
    if e.isRetryable then
      ((w.logDb env (w.db.failQueueJobByInode i)).enqueue i, none)
    else (w.logDb env (w.db.setStatus i .dirty), none)

/-- Launch the upload of a pending inode. -/
def World.launch (w : World) (i : Inode) : Option World :=
  if w.pending.contains i then
    some { w with
      pending := w.pending.filter (· ≠ i), uploads := w.uploads ++ [⟨i, .load⟩] }
  else none

end Stratosync

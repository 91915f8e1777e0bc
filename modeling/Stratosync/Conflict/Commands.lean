import Stratosync.Conflict.Resolve

/-!
# The command line program

`conflicts keep-local`, `keep-remote` and `merge`, and the pinning of a file, one call at a time.
The program opens the database and the base store of the mount by itself, beside the daemon. A
command works on the row it found for the path it was given and, if there is one, on the row of the
conflict file that goes with it.
-/

namespace Stratosync

open Foundations.Tasks

/-! ## Finding the rows -/

/-- What `resolve_path` gives a command. -/
structure ResolveContext where
  entry : FileEntry
  conflictSibling : Option FileEntry
  deriving DecidableEq

/-- `normalize_conflict_roles`: the results it may have. -/
def normalizeConflictRoles (db : Db) (mountId : ℕ) (entry : FileEntry) : List ResolveContext :=
  match canonicalName entry.name, findConflictSibling db mountId entry with
  | some _, canonical => canonical.map fun c => ⟨c, some entry⟩
  | none, [] => [⟨entry, none⟩]
  | none, siblings => siblings.map fun s => ⟨entry, some s⟩

/-- `resolve_path` of a path below the mount point: the contexts it may give. -/
def resolvePath (db : Db) (mountId : ℕ) (rel : Str) : List ResolveContext :=
  let rel := trimStartSlash rel
  match db.getByRemotePath mountId ('/' :: rel) <|> db.getByRemotePath mountId rel with
  | some entry => normalizeConflictRoles db mountId entry
  | none =>
    -- the path of a conflict file under the mount point is not its remote path
    let name := (lastComponent rel).getD rel
    if (Foundations.Search.before conflictMarker name).isSome then
      (db.fileIndex.rows.filter fun r => r.mountId = mountId ∧ r.name = name).flatMap
        (normalizeConflictRoles db mountId)
    else []

theorem sibling_of_normalizeConflictRoles {db : Db} {mountId : ℕ} {entry : FileEntry}
    {ctx : ResolveContext} (hmem : entry ∈ db.fileIndex.rows) (hmount : entry.mountId = mountId)
    (h : ctx ∈ normalizeConflictRoles db mountId entry) :
    ∀ f ∈ ctx.conflictSibling, f ∈ db.fileIndex.rows ∧ f.mountId = mountId := by
  intro f hf
  rw [normalizeConflictRoles] at h
  split at h
  · obtain ⟨c, -, rfl⟩ := List.mem_map.1 h
    obtain rfl := Option.some.inj hf
    exact ⟨hmem, hmount⟩
  · rw [List.mem_singleton.1 h] at hf
    cases hf
  · obtain ⟨s, hs, rfl⟩ := List.mem_map.1 h
    obtain rfl := Option.some.inj hf
    exact mem_of_findConflictSibling hs

/-- The conflict file a command finds is a row of the mount. -/
theorem sibling_of_resolvePath {db : Db} {mountId : ℕ} {rel : Str} {ctx : ResolveContext}
    (h : ctx ∈ resolvePath db mountId rel) :
    ∀ f ∈ ctx.conflictSibling, f ∈ db.fileIndex.rows ∧ f.mountId = mountId := by
  rw [resolvePath] at h
  dsimp only at h
  split at h
  · rename_i entry hentry
    cases hslash : db.getByRemotePath mountId ('/' :: trimStartSlash rel) with
    | some q =>
      rw [hslash] at hentry
      obtain rfl := Option.some.inj hentry
      obtain ⟨hq, hm, -⟩ := Db.getByRemotePath_spec hslash
      exact sibling_of_normalizeConflictRoles (Db.mem_rows_of_getByInode hq) hm h
    | none =>
      rw [hslash] at hentry
      obtain ⟨hq, hm, -⟩ := Db.getByRemotePath_spec hentry
      exact sibling_of_normalizeConflictRoles (Db.mem_rows_of_getByInode hq) hm h
  · split at h
    · obtain ⟨entry, hentry, h⟩ := List.mem_flatMap.1 h
      obtain ⟨hmem, hrow⟩ := List.mem_filter.1 hentry
      simp only [decide_eq_true_eq] at hrow
      exact sibling_of_normalizeConflictRoles hmem hrow.1 h
    · cases h

/-! ## The commands -/

inductive Command
  | keepLocal
  | keepRemote
  | merge
  /-- `pin_single_file`. -/
  | pin
  deriving DecidableEq, Repr

/-- The temporary file of `conflicts merge`. -/
def mergeRemote (cachePath : PathBuf) : PathBuf :=
  withExtension cachePath "stratosync-merge-remote".toList

/-- The cache path a command works with; `none` where it needs one and the row has none. -/
def Command.cachePath (m : Mount) (entry : FileEntry) : Command → Option PathBuf
  | .keepLocal | .merge => entry.cachePath
  | .keepRemote => some (entry.cachePath.getD (m.derivedPath entry))
  | .pin => some (m.derivedPath entry)

/-- Where a command is. -/
inductive CommandPc
  | start
  /-- The backend is about to read the cache file for an upload. -/
  | readLocal
  | putLocal (data : Bytes)
  | statUploaded
  /-- About to download the remote version: to the cache file, or for a merge with the base of
  this hash to the temporary file. -/
  | fetchRemote (hash : Option Str)
  | saveRemote (hash : Option Str) (data : Bytes)
  | merge (hash : Str)
  | writeMerged (text : Bytes) (clean : Bool)
  /-- `finalize_resolution`, about to delete the conflict file. -/
  | deleteSibling
  | deleteRow (sibling : Inode)
  | statCanonical
  | record (metadata : RemoteMetadata)
  /-- `conflicts merge`, about to store its result as the base. -/
  | storeBase (pc : BaseTaskPc)
  | setPinned

/-- What a command does after a call. -/
abbrev CommandNext := Next CommandPc Unit

/-- A command at work on these rows. -/
structure CommandRun where
  command : Command
  context : ResolveContext
  cachePath : PathBuf

namespace CommandRun

variable (t : MergeTools) (r : CommandRun) (h : Holdings) (env : ResolveEnv)

def entry : FileEntry := r.context.entry

/-- The file a download of the command goes to. -/
def target : PathBuf :=
  match r.command with
  | .merge => mergeRemote r.cachePath
  | _ => r.cachePath

/-- The first step: the checks of each command. -/
def begin_ : Holdings × CommandNext :=
  match r.command with
  | .keepLocal => (h, if h.world.fs.exists_ r.cachePath then .goto .readLocal else .err)
  | .keepRemote => createDir (.fetchRemote none)
  | .merge =>
    if env.fault || !t.hasGit then (h, .err)
    else
      match (h.getBaseHash r.entry.inode).filter fun hash => (h.objects hash).isSome with
      | some hash => (h, .goto (.fetchRemote (some hash)))
      | none => (h, .err)
  | .pin =>
    if r.entry.status.needsHydration then createDir (.fetchRemote none)
    else (h, .goto .setPinned)
where
  /-- Create the directory of the cache file. -/
  createDir (pc : CommandPc) : Holdings × CommandNext :=
    match (if env.fault then none else h.world.fs.createDirAll r.cachePath.dropLast) with
    | some fs => (h.withFs fs, .goto pc)
    | none => (h, .err)

/-- The next call of a command. -/
def tick : CommandPc → Holdings × CommandNext
  | .start => begin_ t r h env
  | .readLocal =>
    match env.error, h.world.fs.files r.cachePath with
    | none, some data => (h, .goto (.putLocal data))
    | _, _ => (h, .err)
  | .putLocal data =>
    match env.error, h.world.remote.upload r.entry.remotePath none data env.etag env.mtime with
    | none, .ok remote => (h.withRemote remote, .goto .statUploaded)
    | _, _ => (h, .err)
  | .statUploaded =>
    match env.error, h.world.remote.stat r.entry.remotePath with
    | none, some _ => (h, .goto .deleteSibling)
    | _, _ => (h, .err)
  | .fetchRemote hash =>
    match env.error, h.world.remote.object r.entry.remotePath with
    | none, some o => (h, .goto (.saveRemote hash o.data))
    | _, _ => (h, .err)
  | .saveRemote hash data =>
    match (if env.fault then none else h.save r.target data), hash, r.command with
    | some h', some hash, _ => (h', .goto (.merge hash))
    | some h', none, .pin => (h', .goto .statCanonical)
    | some h', none, _ => (h', .goto .deleteSibling)
    | none, _, _ => (h, .err)
  | .merge hash =>
    match (if env.fault then .failed else tryThreeWayMerge t (h.objects hash)
      (h.world.fs.files r.cachePath) (h.world.fs.files r.target)) with
    | .clean text => (h, .goto (.writeMerged text true))
    | .conflictMarkers text => (h, .goto (.writeMerged text false))
    | .failed => (h.withFs (h.world.fs.removeIfPresent (some r.target)), .err)
  | .writeMerged text clean =>
    match h.write env r.cachePath text with
    | (false, h') => (h', .err)
    | (true, h') =>
      let h'' := h'.withFs (h'.world.fs.removeIfPresent (some r.target))
      -- the markers are left to the user
      (h'', if clean then .goto .readLocal else .ok ())
  | .deleteSibling =>
    match r.context.conflictSibling with
    | none => (h, .goto .statCanonical)
    | some sibling =>
      match (match env.error with
        | some e => .error e
        | none => h.world.remote.delete sibling.remotePath : Except SyncError Remote) with
      | .ok remote => (h.withRemote remote, .goto (.deleteRow sibling.inode))
      | .error .notFound => (h, .goto (.deleteRow sibling.inode))
      | .error _ => (h, .err)
  | .deleteRow sibling =>
    match World.tryDb env.toEnv (h.world.db.deleteEntry sibling) with
    | some db => (h.withDb db, .goto .statCanonical)
    | none => (h, .err)
  | .statCanonical =>
    match env.error, h.world.remote.stat r.entry.remotePath with
    | none, some metadata => (h, .goto (.record metadata))
    | _, _ => (h, .err)
  | .record metadata =>
    match World.tryDb env.toEnv (h.world.db.setCached r.entry.inode r.cachePath metadata.size
      metadata.etag metadata.mtime metadata.size), r.command with
    | some db, .pin => (h.withDb db, .goto .setPinned)
    | some db, .merge => (h.withDb db, .goto (.storeBase .hash))
    | some db, _ => (h.withDb db, .ok ())
    | none, _ => (h, .err)
  | .storeBase pc =>
    match BaseTask.tick t h env.toEnv ⟨r.entry.inode, r.cachePath, pc⟩ with
    | (h', some pc') => (h', .goto (.storeBase pc'))
    | (h', none) => (h', .ok ())
  | .setPinned =>
    match World.tryDb env.toEnv (h.world.db.setPinned r.entry.inode true) with
    | some db => (h.withDb db, .ok ())
    | none => (h, .err)

end CommandRun

/-- A command up to the last of these steps, or to its end. -/
def commandFrom (t : MergeTools) (r : CommandRun) :
    Holdings → CommandPc → List ResolveEnv → Holdings × CommandNext :=
  runFrom fun h env pc => r.tick t h env pc

end Stratosync

import Stratosync.Daemon.Step

/-!
# Crash and restart

A crash leaves the database and the cache directory as they are. It may come between two steps of
the system or inside a request; `CrashPoint.disk` is what it leaves there. The start-up resets the
rows that were hydrating, removes the files of the cache directory no row names and what is left of
downloads, resets rows that cannot be uploaded, and queues the others that are to be.
-/

namespace Stratosync

/-! ## The crash -/

/-- Where a crash finds the daemon. -/
inductive CrashPoint
  /-- Between two steps of the system. -/
  | between
  /-- In `handle_create`, before the file is made or before its row is inserted. -/
  | create (parent : Inode) (name : Str) (made : Bool)
  /-- In `setattr` of a file without a cache path, before one is made or before it has its size. -/
  | setattr (inode : Inode) (made : Bool)
  /-- In `handle_rename`, before the cache file is moved or before the row is entered at its new
  place. -/
  | rename (parent : Inode) (name : Str) (newParent : Inode) (newName : Str) (moved : Bool)
  deriving DecidableEq, Repr

section Disk

variable (m : Mount) (w : World)

/-- An empty file at the path, or the directories for it. -/
def diskOfMade (cachePath : PathBuf) (made : Bool) : Option (Db × CacheFs) :=
  (w.fs.createDirAll cachePath.dropLast).bind fun fs₁ =>
    (if made then fs₁.create cachePath else some fs₁).map fun fs => (w.db, fs)

/-- What the crash leaves; `none` when the request does not come to this point. -/
def CrashPoint.disk : CrashPoint → Option (Db × CacheFs)
  | .between => some (w.db, w.fs)
  | .create parent name made =>
    if w.fuse.isSome || !validateFilename name then none
    else
      (w.db.getByInode parent).bind fun parentEntry =>
        let remotePath := joinRemote parentEntry.remotePath name
        if m.ignore remotePath then none
        else (safeCachePath w.fs m.cacheDir remotePath).bind fun cachePath =>
          diskOfMade w cachePath made
  | .setattr i made =>
    if w.fuse.isSome then none
    else
      (w.db.getByInode i).bind fun entry =>
        if entry.cachePath.isSome then none else diskOfMade w (m.derivedPath entry) made
  | .rename parent name newParent newName moved =>
    if w.fuse.isSome || !validateFilename newName then none
    else
      (w.db.getByParentName m.mountId parent name).bind fun entry =>
        (w.db.getByInode newParent).map fun _ =>
          ((dropDestination w.db m.mountId newParent newName).1,
            if moved then (moveCacheFile w.fs entry.cachePath newName).1 else w.fs)

end Disk

/-! ## The start-up -/

/-- What the start-up meets. -/
structure StartEnv where
  /-- A call fails at which it gives up. -/
  aborts : Bool
  /-- The cache paths cannot be loaded; nothing is removed. -/
  knownFault : Bool
  /-- The files that are not found, or cannot be removed. -/
  stays : PathBuf → Bool
  directoriesFault : Bool
  filesFault : Bool

/-- A start-up in which nothing fails. -/
def StartEnv.fine : StartEnv :=
  { aborts := false, knownFault := false, stays := fun _ => false, directoriesFault := false
    filesFault := false }

/-- The daemon's own directories, at the top of the cache directory. -/
def isReservedSubdir (path cacheRoot : PathBuf) : Bool :=
  path.parent = some cacheRoot &&
    (path.getLast? = some ".bases".toList || path.getLast? = some ".meta".toList)

/-- `walk_and_remove_orphans` comes to the file at the path. -/
def walksTo (cacheDir path : PathBuf) : Bool :=
  cacheDir.isPrefixOf path && path ≠ cacheDir &&
    path.dropLast.inits.all fun d => !isReservedSubdir d cacheDir

/-- The path is directly in `.meta/partial`, where downloads are made. -/
def isPartial (cacheDir path : PathBuf) : Bool :=
  path.parent = some (cacheDir ++ [".meta".toList, "partial".toList])

/-- `reconcile_orphans`: remove the files no row names, and what is left of downloads. -/
def reconcileOrphans (m : Mount) (env : StartEnv) (db : Db) (fs : CacheFs) : CacheFs :=
  if env.knownFault then fs
  else
    let known := db.allCachePaths m.mountId
    { fs with files := fun p =>
      if ((walksTo m.cacheDir p && !known.contains p) || isPartial m.cacheDir p) && !env.stays p
      then none else fs.files p }

/-- The daemon after a start on this database and this cache directory; `none` when it gives up. -/
def restart (m : Mount) (env : StartEnv) (remote : Remote) (disk : Db × CacheFs) : Option World :=
  if env.aborts then none
  else
    disk.1.resetHydrating.map fun db₁ =>
      let fs := reconcileOrphans m env db₁ disk.2
      let db₂ :=
        if env.directoriesFault then db₁ else db₁.resetStuckDirtyDirectories.getD db₁
      let db₃ :=
        if env.filesFault then db₂ else db₂.resetStuckDirtyFilesWithoutCachePath.getD db₂
      { World.init m db₃.now with
        db := db₃, fs, remote
        pending := (db₃.getPendingUploads m.mountId).map FileEntry.inode }

/-! ## What the crash leaves is on the way of the request -/

section OnTheWay

variable {m : Mount} {w : World} {disk : Db × CacheFs}

theorem disk_of_made {cp : PathBuf} {made : Bool} (h : diskOfMade w cp made = some disk) :
    disk.1 = w.db ∧ ∃ fs₁, w.fs.createDirAll cp.dropLast = some fs₁ ∧
      (made = false ∧ disk.2 = fs₁ ∨ made = true ∧ fs₁.create cp = some disk.2) := by
  obtain ⟨fs₁, h₁, h⟩ := Option.bind_eq_some_iff.1 h
  obtain ⟨fs, hfs, rfl⟩ := Option.map_eq_some_iff.1 h
  refine ⟨rfl, fs₁, h₁, ?_⟩
  cases made with
  | false => exact .inl ⟨rfl, (Option.some.inj hfs).symm⟩
  | true => exact .inr ⟨rfl, hfs⟩

/-- What a crash finds and leaves, point by point. -/
inductive CrashLeaves (m : Mount) (w : World) : CrashPoint → Db × CacheFs → Prop
  | between : CrashLeaves m w .between (w.db, w.fs)
  | create {parent : Inode} {name : Str} {made : Bool} {q : FileEntry} {cp : PathBuf}
      {disk : Db × CacheFs} (idle : w.fuse = none) (valid : validateFilename name = true)
      (hparent : w.db.getByInode parent = some q)
      (allowed : m.ignore (joinRemote q.remotePath name) = false)
      (hpath : safeCachePath w.fs m.cacheDir (joinRemote q.remotePath name) = some cp)
      (hmade : diskOfMade w cp made = some disk) : CrashLeaves m w (.create parent name made) disk
  | setattr {i : Inode} {made : Bool} {r : FileEntry} {disk : Db × CacheFs} (idle : w.fuse = none)
      (hrow : w.db.getByInode i = some r) (hnone : r.cachePath = none)
      (hmade : diskOfMade w (m.derivedPath r) made = some disk) :
      CrashLeaves m w (.setattr i made) disk
  | rename {parent newParent : Inode} {name newName : Str} {moved : Bool} {r q : FileEntry}
      (idle : w.fuse = none) (valid : validateFilename newName = true)
      (hrow : w.db.getByParentName m.mountId parent name = some r)
      (hparent : w.db.getByInode newParent = some q) :
      CrashLeaves m w (.rename parent name newParent newName moved)
        ((dropDestination w.db m.mountId newParent newName).1,
          if moved then (moveCacheFile w.fs r.cachePath newName).1 else w.fs)

theorem crashLeaves_of_disk {point : CrashPoint} (h : point.disk m w = some disk) :
    CrashLeaves m w point disk := by
  cases point with
  | between =>
    obtain rfl := Option.some.inj h
    exact .between
  | create parent name made =>
    rw [CrashPoint.disk] at h
    split at h
    · cases h
    rename_i hv
    rw [Bool.or_eq_true, not_or, Bool.not_eq_true, Option.isSome_eq_false_iff,
      Option.isNone_iff_eq_none, Bool.not_eq_true, Bool.not_eq_false'] at hv
    obtain ⟨q, hq, h⟩ := Option.bind_eq_some_iff.1 h
    dsimp only at h
    split at h
    · cases h
    rename_i hig
    obtain ⟨cp, hcp, h⟩ := Option.bind_eq_some_iff.1 h
    exact .create hv.1 hv.2 hq (Bool.eq_false_iff.2 hig) hcp h
  | setattr i made =>
    rw [CrashPoint.disk] at h
    split at h
    · cases h
    rename_i hidle
    obtain ⟨r, hr, h⟩ := Option.bind_eq_some_iff.1 h
    split at h
    · cases h
    rename_i hnone
    exact .setattr (by simpa using hidle) hr (by simpa using hnone) h
  | rename parent name newParent newName moved =>
    rw [CrashPoint.disk] at h
    split at h
    · cases h
    rename_i hv
    rw [Bool.or_eq_true, not_or, Bool.not_eq_true, Option.isSome_eq_false_iff,
      Option.isNone_iff_eq_none, Bool.not_eq_true, Bool.not_eq_false'] at hv
    obtain ⟨r, hr, h⟩ := Option.bind_eq_some_iff.1 h
    obtain ⟨q, hq, rfl⟩ := Option.map_eq_some_iff.1 h
    exact .rename hv.1 hv.2 hr hq

/-- A creation leaves the cache directory as it is before the row is inserted. -/
theorem fs_handleCreate_of_disk {parent : Inode} {name : Str}
    (h : (CrashPoint.create parent name true).disk m w = some disk) :
    (handleCreate m w parent name).2.fs = disk.2 ∧ w.db = disk.1 := by
  cases crashLeaves_of_disk h with
  | create _ hv hq hig hcp hmade =>
    obtain ⟨hdb, fs₁, h₁, ⟨hf, -⟩ | ⟨-, h₂⟩⟩ := disk_of_made hmade
    · cases hf
    · refine ⟨?_, hdb.symm⟩
      simp only [handleCreate, hv, Bool.not_true, Bool.false_eq_true, if_false, hq, hig, hcp, h₁,
        h₂, World.allocFh]
      split <;> rfl

/-- A rename that the database refuses leaves just what a crash after the move of the cache file
does; one that succeeds has the same cache directory. -/
theorem handleRename_of_disk {parent newParent : Inode} {name newName : Str}
    (h : (CrashPoint.rename parent name newParent newName true).disk m w = some disk) :
    (handleRename m w parent name newParent newName).2.fs = disk.2 ∧
      ((handleRename m w parent name newParent newName).1 = .error Errno.EIO →
        (handleRename m w parent name newParent newName).2.db = disk.1) := by
  cases crashLeaves_of_disk h with
  | rename _ hv hentry hq =>
    simp only [handleRename, hv, Bool.not_true, Bool.false_eq_true, if_false, hentry, hq, if_true]
    split
    · exact ⟨rfl, fun _ => rfl⟩
    · exact ⟨rfl, nofun⟩

/-- The start-up gives up only at a call that fails. -/
theorem restart_isSome {env : StartEnv} (remote : Remote) (henv : env.aborts = false) :
    (restart m env remote disk).isSome = true := by
  rw [restart, henv]
  simp only [Bool.false_eq_true, if_false, Option.isSome_map]
  exact Db.resetHydrating_isSome disk.1

end OnTheWay

end Stratosync

import Stratosync.Daemon.World

/-!
# The request handlers

The handlers of `fuse/write_ops.rs` and of the `Filesystem` implementation that change files or
the index. A handler returns its result with the world it leaves, which it may have changed before
failing. `handleWrite` and `handleSetattr` change a file and leave the database for a second step
(`FuseCall.tick`): background work can run between the two. The other handlers are one step.

A handler answers with the error code of the system call.
-/

namespace Stratosync

/-- Error codes. -/
inductive Errno
  | EBADF
  | ENOENT
  | EPERM
  | EIO
  | EINVAL
  | EACCES
  | ENOTDIR
  | ENOTEMPTY
  deriving DecidableEq, Repr

/-- The seconds for which a deleted or renamed path is kept from being added back. -/
def tombstoneTtl : ℕ := 300

/-- The cache path derived for a row that has none. -/
def Mount.derivedPath (m : Mount) (entry : FileEntry) : PathBuf :=
  m.cacheDir.join (trimStartSlash entry.remotePath)

section Handlers

variable (m : Mount) (w : World)

/-! ## Changing the content of a file -/

/-- The file part of `handle_write`. -/
def handleWrite (fh offset : ℕ) (data : Bytes) : Except Errno Unit × World :=
  match w.openFiles fh with
  | none => (.error .EBADF, w)
  | some entry =>
    match w.fs.write entry.cachePath fun old => writeAt old offset data with
    | none => (.error .ENOENT, w)
    | some fs =>
      let newSize := ((fs.files entry.cachePath).map List.length).getD 0
      (.ok (), { w with fs, fuse := some (.write entry.inode newSize) })

/-- The file part of `setattr` with a new size. A file without a cache path gets one. -/
def handleSetattr (i : Inode) (newSize : ℕ) : Except Errno Unit × World :=
  match w.db.getByInode i with
  | none => (.error Errno.EIO, w)
  | some entry =>
    match entry.cachePath with
    | some cp =>
      match w.fs.write cp fun old => setLen old newSize with
      | none => (.error Errno.EIO, w)
      | some fs => (.ok (), { w with fs, fuse := some (.setattr i newSize none) })
    | none =>
      let cp := m.derivedPath entry
      match w.fs.createDirAll cp.dropLast with
      | none => (.error Errno.EIO, w)
      | some fs₁ =>
        match fs₁.create cp with
        | none => (.error Errno.EIO, { w with fs := fs₁ })
        | some fs₂ =>
          (.ok (), { w with
            fs := fs₂.put cp (setLen [] newSize), fuse := some (.setattr i newSize (some cp)) })

/-- The database part of a request. A write is answered with success whether or not the row could
be marked; `setattr` fails, and enqueues nothing, when it could not. -/
def FuseCall.tick (env : Env) : FuseCall → World
  | .write i newSize =>
    ({ w with fuse := none }.logDb env (w.db.setDirtySize i newSize)).enqueue i
  | .setattr i newSize cachePath =>
    let update :=
      match cachePath with
      | none => w.db.setDirtySize i newSize
      | some cp => w.db.setDirtyWithCachePath i cp newSize
    match World.tryDb env update with
    | none => { w with fuse := none }
    | some db => { w with db, fuse := none }.enqueue i

/-! ## Open files -/

/-- Enter a file in the table of open files. -/
def World.allocFh (f : OpenFile) : ℕ × World :=
  (w.nextFh, { w with
    openFiles := Function.update w.openFiles w.nextFh (some f), nextFh := w.nextFh + 1 })

/-- `open`: a file that needs hydration is marked, and its hydration runs in the background. -/
def handleOpen (i : Inode) : Except Errno ℕ × World :=
  match w.db.getByInode i with
  | none => (.error .ENOENT, w)
  | some entry =>
    let needsHydration := entry.status.needsHydration
    let isHydrating := entry.status.isHydrating
    let autoHydrate := m.autoHydrateMaxSize.all fun cap => entry.size ≤ cap
    let f : OpenFile :=
      { inode := i, cachePath := entry.cachePath.getD (m.derivedPath entry)
        remotePath := entry.remotePath, hydrating := needsHydration || isHydrating }
    if needsHydration && autoHydrate then
      match w.db.setStatus i .hydrating with
      | none => (.error Errno.EIO, w)
      | some db =>
        let w₁ : World := { w with db, hydrations := w.hydrations ++ [⟨i, .reload, none⟩] }
        let (fh, w') := w₁.allocFh f
        (.ok fh, w')
    else
      let w₁ := if isHydrating then w else w.logDb .fine (w.db.touchLru i)
      let (fh, w') := w₁.allocFh f
      (.ok fh, w')

/-- `handle_release`: closing a dirty file triggers its upload. -/
def handleRelease (fh : ℕ) : World :=
  match w.openFiles fh with
  | none => w
  | some entry =>
    let w₁ := { w with openFiles := Function.update w.openFiles fh none }
    if (w.db.getByInode entry.inode).any fun r => r.status = .dirty then w₁.enqueue entry.inode
    else w₁

/-- `handle_fsync`: trigger an upload, whatever the status of the file. -/
def handleFsync (fh : ℕ) : Except Errno Unit × World :=
  match w.openFiles fh with
  | none => (.error .EBADF, w)
  | some entry => (.ok (), w.enqueue entry.inode)

/-- `read` runs in a task of its own. -/
def handleRead (fh offset size : ℕ) : World :=
  { w with
    reads := w.reads ++ [⟨w.nextRead, fh, offset, size, .start⟩], nextRead := w.nextRead + 1 }

/-! ## The tree -/

def handleCreate (parent : Inode) (name : Str) : Except Errno (Inode × ℕ) × World :=
  if !validateFilename name then (.error .EINVAL, w)
  else
    match w.db.getByInode parent with
    | none => (.error .ENOENT, w)
    | some parentEntry =>
      let remotePath := joinRemote parentEntry.remotePath name
      if m.ignore remotePath then (.error .EPERM, w)
      else
        match safeCachePath w.fs m.cacheDir remotePath with
        | none => (.error .EACCES, w)
        | some cachePath =>
          match w.fs.createDirAll cachePath.dropLast with
          | none => (.error Errno.EIO, w)
          | some fs₁ =>
            match fs₁.create cachePath with
            | none => (.error Errno.EIO, { w with fs := fs₁ })
            | some fs₂ =>
              match w.db.insertFile
                { mountId := m.mountId, parent, name, remotePath, kind := .file, size := 0
                  mtime := w.db.now, etag := none, status := .dirty
                  cachePath := some cachePath, cacheSize := some 0 } with
              | none => (.error Errno.EIO, { w with fs := fs₂ })
              | some (inode, db) =>
                let w₁ : World := { w with fs := fs₂, db }
                let (fh, w') := w₁.allocFh { inode, cachePath, remotePath, hydrating := false }
                (.ok (inode, fh), w')

def handleMkdir (parent : Inode) (name : Str) : Except Errno Inode × World :=
  if !validateFilename name then (.error .EINVAL, w)
  else
    match w.db.getByInode parent with
    | none => (.error .ENOENT, w)
    | some parentEntry =>
      let remotePath := joinRemote parentEntry.remotePath name
      if m.ignore remotePath then (.error .EPERM, w)
      else
        match w.db.insertFile
          { mountId := m.mountId, parent, name, remotePath, kind := .directory, size := 0
            mtime := w.db.now, etag := none, status := .cached
            cachePath := none, cacheSize := none } with
        | none => (.error Errno.EIO, w)
        | some (inode, db) =>
          (.ok inode, { w with db, background := w.background ++ [.mkdir remotePath] })

/-- Remove a cache file if it is there. -/
def CacheFs.removeIfPresent (fs : CacheFs) (p : Option PathBuf) : CacheFs :=
  (p.bind fs.remove).getD fs

def handleUnlink (parent : Inode) (name : Str) : Except Errno Unit × World :=
  match w.db.getByParentName m.mountId parent name with
  | none => (.error .ENOENT, w)
  | some entry =>
    let w₁ := { w with
      fs := w.fs.removeIfPresent entry.cachePath
      headers := Function.update w.headers entry.inode none }
    match w.db.deleteEntry entry.inode with
    | none => (.error Errno.EIO, w₁)
    | some db =>
      (.ok (), { w₁ with
        db := db.insertTombstone m.mountId entry.remotePath tombstoneTtl
        background := w.background ++ [.delete entry.remotePath] })

def handleRmdir (parent : Inode) (name : Str) : Except Errno Unit × World :=
  match w.db.getByParentName m.mountId parent name with
  | none => (.error .ENOENT, w)
  | some entry =>
    if entry.kind ≠ .directory then (.error .ENOTDIR, w)
    -- refuse to remove a directory the index has children of
    else if w.db.listChildren m.mountId entry.inode ≠ [] then (.error .ENOTEMPTY, w)
    else
      match w.db.deleteEntry entry.inode with
      | none => (.error Errno.EIO, w)
      | some db =>
        (.ok (), { w with
          db := db.insertTombstone m.mountId entry.remotePath tombstoneTtl
          background := w.background ++ [.rmdir entry.remotePath] })

/-- The status values for which a rename moves the remote object. -/
def needsRemoteRename : SyncStatus → Bool
  | .cached | .stale | .uploading | .conflict => true
  | _ => false

/-- The database without the row of the destination of a rename, and that row's remote path. -/
def dropDestination (db : Db) (mountId : ℕ) (newParent : Inode) (newName : Str) :
    Db × Option FileEntry :=
  match db.getByParentName mountId newParent newName with
  | none => (db, none)
  | some dest => ((db.deleteEntry dest.inode).getD db, some dest)

/-- Where the cache file of a renamed row goes: to the new name, in the directory it is in. -/
def movedCachePath (old : PathBuf) (newName : Str) : PathBuf :=
  match old.parent with
  | some p => p.join newName
  | none => components newName

/-- Move the cache file of a renamed row. The row keeps the old path when that fails. -/
def moveCacheFile (fs : CacheFs) (cachePath : Option PathBuf) (newName : Str) :
    CacheFs × Option PathBuf :=
  match cachePath with
  | none => (fs, none)
  | some old =>
    let new := movedCachePath old newName
    match fs.rename old new with
    | none => (fs, some old)
    | some fs' => (fs', some new)

/-- The remote operations of a rename. -/
def renameBackground (dest : Option FileEntry) (needsMove : Bool) (old new : Str) :
    List Background :=
  match dest with
  | some d => [.deleteDest d.remotePath (if needsMove then some (old, new) else none)]
  | none => if needsMove then [.move old new] else []

def handleRename (parent : Inode) (name : Str) (newParent : Inode) (newName : Str) :
    Except Errno Unit × World :=
  if !validateFilename newName then (.error .EINVAL, w)
  else
    match w.db.getByParentName m.mountId parent name with
    | none => (.error .ENOENT, w)
    | some entry =>
      match w.db.getByInode newParent with
      | none => (.error .ENOENT, w)
      | some newParentEntry =>
        let newRemote := joinRemote newParentEntry.remotePath newName
        let (db₁, dest) := dropDestination w.db m.mountId newParent newName
        let headers := match dest with
          | some d => Function.update w.headers d.inode none
          | none => w.headers
        let (fs, newCachePath) := moveCacheFile w.fs entry.cachePath newName
        match db₁.renameEntry entry.inode newParent newName newRemote newCachePath with
        | none => (.error Errno.EIO, { w with db := db₁, fs, headers })
        | some db₂ =>
          let needsMove := needsRemoteRename entry.status
          (.ok (), { w with
            db := if needsMove then db₂.insertTombstone m.mountId entry.remotePath tombstoneTtl
              else db₂
            fs, headers
            background := w.background ++
              renameBackground dest needsMove entry.remotePath newRemote })

end Handlers

/-! ## The remote operations the handlers spawn -/

/-- The next call of a spawned operation: the state it leaves and what remains to be done. A call
that fails is only logged. -/
def Background.tick (m : Mount) (w : World) (env : Env) : Background → World × Option Background
  | .mkdir path =>
    match env.error, w.remote.mkdir path with
    | none, .ok remote => ({ w with remote }, none)
    | _, _ => (w, none)
  | .delete path =>
    match env.error, w.remote.delete path with
    | none, .ok remote => ({ w with remote }, some (.removeTombstone path))
    | none, .error .notFound | some .notFound, _ => (w, some (.removeTombstone path))
    | _, _ => (w, none)
  | .rmdir path =>
    match env.error, w.remote.rmdir path with
    | none, .ok remote => ({ w with remote }, some (.removeTombstone path))
    | none, .error .notFound | some .notFound, _ => (w, some (.removeTombstone path))
    | _, _ => (w, none)
  | .deleteDest dest paths =>
    let next := paths.map fun p => Background.move p.1 p.2
    match env.error, w.remote.delete dest with
    | none, .ok remote => ({ w with remote }, next)
    | _, _ => (w, next)
  | .move old new =>
    match env.error, w.remote.rename old new with
    | none, .ok remote => ({ w with remote }, some (.removeTombstone old))
    | _, _ => (w, some (.removeTombstone old))
  | .removeTombstone path =>
    (if env.fault then w else { w with db := w.db.removeTombstone m.mountId path }, none)

end Stratosync

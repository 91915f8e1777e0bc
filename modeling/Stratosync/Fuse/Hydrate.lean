import Stratosync.Daemon.World

/-!
# Hydration and reads

`hydrate_if_needed` and `do_hydrate`, one call at a time. A hydration is started by an `open` or a
`read` that marked the row (`reload`), by a caller that waits for it (`enter`) and by the prefetch
of small files, which marks the row from an earlier listing (`claim`). A caller that finds a
hydration under way waits for it, and resets the row when it has waited too long.

`read` answers from the header cache, from the remote or from the cache file.
-/

namespace Stratosync

/-- The number of times a call waits for a hydration. -/
def maxRetries : ℕ := 3

/-- What a hydration does after a call. -/
inductive HydrationNext
  | goto (pc : HydrationPc)
  | finish (result : Except SyncError Unit)

/-- Tell the calls waiting for inode `i` how its hydration went. -/
def World.wake (w : World) (i : Inode) (ok : Bool) : World :=
  { w with hydrations := w.hydrations.map fun h =>
      match h.pc with
      | .wait attempt none => if h.inode = i then { h with pc := .wait attempt (some ok) } else h
      | _ => h }

/-- The next call of a hydration of inode `i`. -/
def Hydration.tick (m : Mount) (w : World) (i : Inode) (env : Env) :
    HydrationPc → World × HydrationNext
  | .enter attempt =>
    match (if env.fault then none else w.db.getByInode i) with
    | none => (w, .finish (.error .notFound))
    | some entry =>
      match entry.status with
      | .cached | .dirty | .uploading | .conflict => (w, .finish (.ok ()))
      | .remote | .stale => (w, .goto (.claim entry))
      | .hydrating => (w, .goto (.register attempt))
  | .register attempt => (w, .goto (.wait attempt none))
  | .wait attempt none =>
    -- the wait timed out
    let w' := w.logDb env (w.db.setStatus i .remote)
    if attempt + 1 ≥ maxRetries then (w', .finish (.error .transient))
    else (w', .goto (.enter (attempt + 1)))
  | .wait _ (some true) => (w, .finish (.ok ()))
  | .wait _ (some false) => (w, .finish (.error .transient))
  | .claim entry =>
    match World.tryDb env (w.db.setStatus i .hydrating) with
    | none => (w, .finish (.error .fatal))
    | some db => ({ w with db }, .goto (.begin_ entry))
  | .reload =>
    match (if env.fault then none else w.db.getByInode i) with
    | none => (w, .finish (.error .notFound))
    | some entry => (w, .goto (.begin_ entry))
  | .begin_ entry =>
    match safeCachePath w.fs m.cacheDir entry.remotePath with
    | none => (w, .finish (.error .fatal))
    | some cachePath => (w, .goto (.download entry cachePath))
  | .download entry cachePath =>
    match env.error, w.remote.object entry.remotePath with
    | none, some o => (w, .goto (.install entry cachePath o.data))
    | none, none | some .notFound, _ => (w, .goto (.verify entry))
    | some e, _ => (w, .goto (.rollback entry e))
  | .install entry cachePath data =>
    match (w.fs.createDirAll cachePath.dropLast).bind fun fs => fs.install cachePath data with
    | none => (w, .goto (.rollback entry .fatal))
    | some fs =>
      if env.fault then (w, .goto (.rollback entry .fatal))
      else ({ w with fs }, .goto (.record entry cachePath))
  | .record entry cachePath =>
    match w.fs.files cachePath with
    | none => (w, .goto (.rollback entry .fatal))
    | some data =>
      match World.tryDb env
        (w.db.setCached i cachePath data.length entry.etag entry.mtime entry.size) with
      | none => (w, .goto (.rollback entry .fatal))
      | some db => ({ w with db }, .goto (.notify (.ok ())))
  | .verify entry =>
    match env.error, w.remote.stat entry.remotePath with
    | none, none | some .notFound, _ => (w, .goto (.prune entry))
    | none, some metadata => (w, .goto (.backfill entry metadata.itemId))
    | some _, _ => (w, .goto (.rollback entry .notFound))
  | .prune entry =>
    match World.tryDb env (w.db.deleteEntry i) with
    | none => (w, .goto (.rollback entry .notFound))
    -- the row is gone, so there is no status to roll back
    | some db => ({ w with db }, .goto (.notify (.error .notFound)))
  | .backfill entry itemId =>
    (w.logDb env (itemId.bind fun id => w.db.setItemIdIfAbsent i id),
      .goto (.rollback entry .notFound))
  | .rollback _ e => (w.logDb env (w.db.setStatus i .remote), .goto (.notify (.error e)))
  | .notify result => (w.wake i result.isOk, .finish result)

/-- `spawn_prefetch_small_files`: hydrate the small files among the children of a directory, as
they are listed now. -/
def prefetchSmallFiles (m : Mount) (w : World) (parent : Inode) : World :=
  if m.prefetchThreshold = 0 then w
  else
    let children := (w.db.listChildren m.mountId parent).filter fun child =>
      child.kind = .file ∧ child.status.needsHydration ∧ child.size ≤ m.prefetchThreshold
    { w with
      hydrations := w.hydrations ++ children.map fun child => ⟨child.inode, .claim child, none⟩ }

/-- What a read does after a call. -/
inductive ReadNext
  | goto (pc : ReadPc)
  | reply (result : Except SyncError (ReadSource × Bytes))

/-- `read_header`: the header kept for an inode, when it covers the range. -/
def World.readHeader (w : World) (i : Inode) (offset len : ℕ) : Option Bytes :=
  if len = 0 then some []
  else
    match w.headers i with
    | some h => if offset + len ≤ h.length then some ((h.drop offset).take len) else none
    | none => none

/-- Take the cache path of an open file from its row. -/
def World.retarget (w : World) (fh : ℕ) : World :=
  { w with openFiles := Function.update w.openFiles fh <| (w.openFiles fh).map fun f => { f with
      cachePath := ((w.db.getByInode f.inode).bind FileEntry.cachePath).getD f.cachePath
      hydrating := false } }

/-- The next call of a read. -/
def Read.tick (m : Mount) (w : World) (env : Env) (r : Read) : World × ReadNext :=
  let withinHeader := 0 < m.headerPrefetchSize ∧ r.offset + r.size ≤ m.headerPrefetchSize
  match r.pc with
  | .start =>
    match w.openFiles r.fh with
    | none => (w, .reply (.error .fatal))
    | some f =>
      if !f.hydrating then (w, .goto .cache)
      else
        match (if withinHeader then w.readHeader f.inode r.offset r.size else none) with
        | some data => (w, .reply (.ok (.header f.inode, data)))
        | none => (w, .goto (.status f))
  | .status f =>
    match (if env.fault then none else w.db.getByInode f.inode) with
    | none => (w, .goto .cache)
    | some entry =>
      if entry.status.hasLocalData && !entry.status.isHydrating then
        ((w.retarget r.fh).logDb env (w.db.touchLru f.inode), .goto .cache)
      -- past the header this is an access to the content, which starts a deferred hydration
      else if ¬withinHeader ∧ entry.status = .remote then (w, .goto (.claim f))
      else (w, .goto (.range f))
  | .claim f =>
    match World.tryDb env (w.db.setStatus f.inode .hydrating) with
    | none => (w, .goto (.range f))
    | some db =>
      ({ w with db, hydrations := w.hydrations ++ [⟨f.inode, .reload, none⟩] }, .goto (.range f))
  | .range f =>
    match env.error, w.remote.downloadRange f.remotePath r.offset r.size with
    | none, some data =>
      let capture := withinHeader ∧ r.offset = 0 ∧ data ≠ [] ∧ (w.headers f.inode).isNone
      ((if capture then
          { w with headers := Function.update w.headers f.inode (some data) }
        else w), .reply (.ok (.remote f.remotePath, data)))
    | _, _ =>
      ({ w with hydrations := w.hydrations ++ [⟨f.inode, .enter 0, some r.id⟩] },
        .goto (.await f none))
  | .await f none => (w, .goto (.await f none))
  | .await f (some (.ok ())) => (w, .goto (.retarget f))
  | .await _ (some (.error e)) => (w, .reply (.error e))
  | .retarget f => ((w.retarget r.fh).logDb env (w.db.touchLru f.inode), .goto .cache)
  | .cache =>
    match w.openFiles r.fh with
    | none => (w, .reply (.error .fatal))
    | some f =>
      match w.fs.files f.cachePath with
      | none => (w, .reply (.error .fatal))
      | some data => (w, .reply (.ok (.cache f.cachePath, (data.drop r.offset).take r.size)))

end Stratosync

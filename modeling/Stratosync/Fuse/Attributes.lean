import Stratosync.Fuse.ContentCalls
import Stratosync.Daemon.Lives

/-!
# The size a file is reported with

`entry_to_attr` makes the attributes of a row from its two size columns, of which that of the cache
file comes first. `SizesMatch` says that the size is the length of what is read. The kernel asks
for attributes between its other requests, not while one is in progress.

`KeepsSizes` is the condition under which a step keeps the sizes. The row of a request in progress
is taken as the request will mark it (`marked`): whatever else happens to it meanwhile is
overwritten, except for its cache path.
-/

namespace Stratosync

open Foundations.Runs

/-! ## The attributes -/

/-- What the kernel is told about a file. The owner is the user the daemon runs as. -/
structure FileAttr where
  ino : Inode
  size : ℕ
  blocks : ℕ
  atime : ℕ
  mtime : ℕ
  ctime : ℕ
  crtime : ℕ
  kind : FileKind
  perm : ℕ
  nlink : ℕ
  rdev : ℕ
  blksize : ℕ
  flags : ℕ
  deriving DecidableEq, Repr

def entryToAttr (e : FileEntry) : FileAttr :=
  let size := if e.kind = .file then e.cacheSize.getD e.size else e.size
  { ino := e.inode, size, blocks := (size + 511) / 512
    atime := e.mtime, mtime := e.mtime, ctime := e.mtime, crtime := e.mtime, kind := e.kind
    perm := if e.kind = .directory then 0o755 else 0o644
    nlink := 1, rdev := 0, blksize := 4096, flags := 0 }

/-- The length of what a read serves: that of the cache file, or of the object as the row knows
it. -/
def ServesLength (fs : CacheFs) (r : FileEntry) (n : ℕ) : Prop :=
  if r.status.hasLocalData = true then ∀ p ∈ r.cachePath, ∀ b ∈ fs.files p, b.length = n
  else r.size = n

/-- **The size of a file is the length of what is read**, whenever the kernel may ask for it. -/
def World.SizesMatch (w : World) : Prop :=
  w.fuse = none → ∀ i r, w.db.getByInode i = some r → r.kind = .file →
    ServesLength w.fs r (entryToAttr r).size

/-! ## The condition -/

/-- What is at the path has this length. -/
def HasLength (fs : CacheFs) (path : Option PathBuf) (n : ℕ) : Prop :=
  ∀ p ∈ path, ∀ b ∈ fs.files p, b.length = n

/-- The column of the cache file's size, or of the object's when it is empty. -/
def FileEntry.recordedSize (r : FileEntry) : ℕ := r.cacheSize.getD r.size

/-- The two sizes of the row are one. -/
def FileEntry.OneSize (r : FileEntry) : Prop := ∀ n ∈ r.cacheSize, n = r.size

/-- The sizes of the row go with what it has. -/
def RowFits (fs : CacheFs) (r : FileEntry) : Prop :=
  if r.status.hasLocalData = true then HasLength fs r.cachePath r.recordedSize else r.OneSize

/-- The request in progress will mark the row. -/
def World.Marks (w : World) (r : FileEntry) : Prop :=
  ∃ c ∈ w.fuse, c.inode = r.inode ∧ (c.cachePath <|> r.cachePath).isSome = true

instance (w : World) (r : FileEntry) : Decidable (w.Marks r) :=
  inferInstanceAs (Decidable (∃ c ∈ w.fuse, c.inode = r.inode ∧ _ = true))

/-- A row with content at the path has this size. -/
def FileEntry.ShowsAt (r : FileEntry) (p : PathBuf) (n : ℕ) : Prop :=
  r.status.hasLocalData = true → r.cachePath = some p → r.recordedSize = n

/-- A request leaves the sizes of the row right, or leaves them to its update. -/
def RequestKeepsSize (m : Mount) (w : World) (r : FileEntry) : Request → Prop
  | .write fh offset data => ∀ f ∈ w.openFiles fh, ∀ old ∈ w.fs.files f.cachePath,
      if f.inode = r.inode then
        r.cachePath ≠ some f.cachePath →
          HasLength w.fs r.cachePath (writeAt old offset data).length
      else r.ShowsAt f.cachePath (writeAt old offset data).length
  | .setattr i n => i ≠ r.inode → ∀ q ∈ w.db.getByInode i,
      r.ShowsAt (q.cachePath.getD (m.derivedPath q)) n
  | .create p n => ∀ q ∈ w.db.getByInode p,
      ∀ cp ∈ safeCachePath w.fs m.cacheDir (joinRemote q.remotePath n), r.ShowsAt cp 0
  | .rename p n p' n' => ∀ q ∈ w.db.getByParentName m.mountId p n, q.inode ≠ r.inode →
      (w.db.getByParentName m.mountId p' n' = some r → (w.db.deleteEntry r.inode).isNone = true) →
        ∀ cp ∈ q.cachePath, ∀ data ∈ w.fs.files cp,
          r.ShowsAt (movedCachePath cp n') data.length
  | _ => True

/-- A row gets the status. -/
def StatusKeepsSize (fs : CacheFs) (r : FileEntry) (s : SyncStatus) : Prop :=
  if s.hasLocalData = true then
    r.status.hasLocalData = true ∨ HasLength fs r.cachePath r.recordedSize
  else r.status.hasLocalData = true → r.OneSize

def UploadKeepsSize (fs : CacheFs) (r : FileEntry) (env : Env) : UploadPc → Prop
  | .reset s => env.fault = false → StatusKeepsSize fs r s
  | .mark .. => StatusKeepsSize fs r .uploading
  | .record metadata => env.fault = false → HasLength fs r.cachePath metadata.size
  | .finish (.error _) => StatusKeepsSize fs r .dirty
  | _ => True

def HydrationKeepsSize (w : World) (r : FileEntry) : HydrationPc → Prop
  | .claim _ => ¬w.Marks r → StatusKeepsSize w.fs r .hydrating
  | .wait _ none | .rollback .. => ¬w.Marks r → StatusKeepsSize w.fs r .remote
  | .record _ cp => ∀ c ∈ w.fuse, c.inode = r.inode → c.cachePath = none →
      HasLength w.fs (some cp) c.newSize
  | _ => True

/-- The row as the request in progress will have marked it, if it marks it. -/
def World.marked (w : World) (r : FileEntry) : FileEntry :=
  match w.fuse with
  | some c =>
    if c.inode = r.inode ∧ (c.cachePath <|> r.cachePath).isSome = true then c.mark r else r
  | none => r

/-- An upsert gives the size to a row of a file, or to one that it makes the row of a file. -/
def UpsertKeepsSize (w : World) (r : FileEntry) (n : ℕ) : Prop :=
  if w.Marks r then r.kind = .file
  else if r.status.isUnsynced = true then HasLength w.fs r.cachePath (r.cacheSize.getD n)
  else ∀ k ∈ r.cacheSize, k = n

/-- **A step leaves the sizes of the row right.** -/
def KeepsSize (m : Mount) (w : World) (r : FileEntry) : Event → Prop
  | .request q => r.kind = .file → RequestKeepsSize m w r q
  | .fuse env => r.kind = .file → env.fault = true → w.Marks r → RowFits w.fs r
  | .upload k env => ∀ u ∈ w.uploads[k]?, r.kind = .file → u.inode = r.inode → ¬w.Marks r →
      UploadKeepsSize w.fs r env u.pc
  | .hydration k _ => ∀ x ∈ w.hydrations[k]?, r.kind = .file →
      (x.inode = r.inode → HydrationKeepsSize w r x.pc) ∧
        ∀ a ∈ x.pc.installs, (w.marked r).ShowsAt a.1 a.2.length
  | .read k env => ∀ x ∈ w.reads[k]?, ∀ f ∈ x.pc.claimed, r.kind = .file → f.inode = r.inode →
      env.fault = false → ¬w.Marks r → StatusKeepsSize w.fs r .hydrating
  | .poll op => ∀ u ∈ op.upserts, Matches u r → u.2.1.kind = .file →
      UpsertKeepsSize w r u.2.1.size
  | _ => True

/-- **The sizes of every row stay right.** A crash leaves them as a request that it cuts short has,
and no update comes for the row of the request that was in progress. -/
def KeepsSizes (m : Mount) (w : World) : LifeEvent → Prop
  | .daemon ev => ∀ r ∈ w.db.fileIndex.rows, KeepsSize m w r ev
  | .restart point _ => ∀ r ∈ w.db.fileIndex.rows, r.kind = .file →
      (w.Marks r → RowFits w.fs r) ∧ ∀ q ∈ point.request, RequestKeepsSize m w r q

section Decidable

variable (m : Mount) (w : World) (fs : CacheFs) (r : FileEntry)

instance (path : Option PathBuf) (n : ℕ) : Decidable (HasLength fs path n) :=
  inferInstanceAs (Decidable (∀ p ∈ path, ∀ b ∈ fs.files p, b.length = n))

instance : Decidable r.OneSize := inferInstanceAs (Decidable (∀ n ∈ r.cacheSize, n = r.size))

instance : Decidable (RowFits fs r) :=
  inferInstanceAs (Decidable (if r.status.hasLocalData = true then HasLength fs _ _ else r.OneSize))

instance (p : PathBuf) (n : ℕ) : Decidable (r.ShowsAt p n) :=
  inferInstanceAs (Decidable (_ → _ → r.recordedSize = n))

instance decidableRequestKeepsSize : (q : Request) → Decidable (RequestKeepsSize m w r q)
  | .write fh offset data => inferInstanceAs (Decidable (∀ f ∈ w.openFiles fh,
      ∀ old ∈ w.fs.files f.cachePath, if f.inode = r.inode then
        r.cachePath ≠ some f.cachePath →
          HasLength w.fs r.cachePath (writeAt old offset data).length
      else r.ShowsAt f.cachePath (writeAt old offset data).length))
  | .setattr i n => inferInstanceAs (Decidable (i ≠ r.inode → ∀ q ∈ w.db.getByInode i,
      r.ShowsAt (q.cachePath.getD (m.derivedPath q)) n))
  | .create p n => inferInstanceAs (Decidable (∀ q ∈ w.db.getByInode p,
      ∀ cp ∈ safeCachePath w.fs m.cacheDir (joinRemote q.remotePath n), r.ShowsAt cp 0))
  | .rename p n p' n' => inferInstanceAs (Decidable (∀ q ∈ w.db.getByParentName m.mountId p n,
      q.inode ≠ r.inode → (w.db.getByParentName m.mountId p' n' = some r →
        (w.db.deleteEntry r.inode).isNone = true) → ∀ cp ∈ q.cachePath, ∀ data ∈ w.fs.files cp,
          r.ShowsAt (movedCachePath cp n') data.length))
  | .open_ _ | .release _ | .fsync _ | .read .. | .mkdir .. | .unlink .. | .rmdir .. =>
    inferInstanceAs (Decidable True)

instance (s : SyncStatus) : Decidable (StatusKeepsSize fs r s) :=
  inferInstanceAs (Decidable (if s.hasLocalData = true then _ ∨ HasLength fs _ _ else
    _ → r.OneSize))

instance decidableUploadKeepsSize (env : Env) :
    (pc : UploadPc) → Decidable (UploadKeepsSize fs r env pc)
  | .reset s => inferInstanceAs (Decidable (_ → StatusKeepsSize fs r s))
  | .mark .. => inferInstanceAs (Decidable (StatusKeepsSize fs r .uploading))
  | .record metadata => inferInstanceAs (Decidable (_ → HasLength fs _ metadata.size))
  | .finish (.error _) => inferInstanceAs (Decidable (StatusKeepsSize fs r .dirty))
  | .load | .check .. | .revert _ | .read .. | .put .. | .stat _ | .finish (.ok _) =>
    inferInstanceAs (Decidable True)

instance decidableHydrationKeepsSize :
    (pc : HydrationPc) → Decidable (HydrationKeepsSize w r pc)
  | .claim _ => inferInstanceAs (Decidable (_ → StatusKeepsSize w.fs r .hydrating))
  | .wait _ none | .rollback .. => inferInstanceAs (Decidable (_ → StatusKeepsSize w.fs r .remote))
  | .record _ cp => inferInstanceAs (Decidable (∀ c ∈ w.fuse, _ → _ →
      HasLength w.fs (some cp) c.newSize))
  | .enter _ | .register _ | .wait _ (some _) | .reload | .begin_ _ | .download .. | .install ..
  | .verify _ | .prune _ | .backfill .. | .notify _ => inferInstanceAs (Decidable True)

instance (n : ℕ) : Decidable (UpsertKeepsSize w r n) :=
  inferInstanceAs (Decidable (if w.Marks r then r.kind = .file else if r.status.isUnsynced = true
    then HasLength w.fs r.cachePath (r.cacheSize.getD n) else ∀ k ∈ r.cacheSize, k = n))

instance decidableKeepsSize : (ev : Event) → Decidable (KeepsSize m w r ev)
  | .request q => inferInstanceAs (Decidable (_ → RequestKeepsSize m w r q))
  | .fuse _ => inferInstanceAs (Decidable (_ → _ → w.Marks r → RowFits w.fs r))
  | .upload k env => inferInstanceAs (Decidable (∀ u ∈ w.uploads[k]?, _ → _ → _ →
      UploadKeepsSize w.fs r env u.pc))
  | .hydration k _ => inferInstanceAs (Decidable (∀ x ∈ w.hydrations[k]?, _ →
      (_ → HydrationKeepsSize w r x.pc) ∧
        ∀ a ∈ x.pc.installs, (w.marked r).ShowsAt a.1 a.2.length))
  | .read k _ => inferInstanceAs (Decidable (∀ x ∈ w.reads[k]?, ∀ f ∈ x.pc.claimed, _ → _ → _ →
      _ → StatusKeepsSize w.fs r .hydrating))
  | .poll op => inferInstanceAs (Decidable (∀ u ∈ op.upserts, Matches u r → _ →
      UpsertKeepsSize w r u.2.1.size))
  | .launch _ | .startEviction | .eviction _ | .background .. | .prefetch _ | .foreign _
  | .clock _ => inferInstanceAs (Decidable True)

instance decidableKeepsSizes : (e : LifeEvent) → Decidable (KeepsSizes m w e)
  | .daemon ev => inferInstanceAs (Decidable (∀ r ∈ w.db.fileIndex.rows, KeepsSize m w r ev))
  | .restart point _ => inferInstanceAs (Decidable (∀ r ∈ w.db.fileIndex.rows, _ →
      (w.Marks r → RowFits w.fs r) ∧ ∀ q ∈ point.request, RequestKeepsSize m w r q))

end Decidable

end Stratosync

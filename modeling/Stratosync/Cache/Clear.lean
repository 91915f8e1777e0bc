import Stratosync.Daemon.Lives
import Stratosync.State.Lru

/-!
# Pins and cache clears

What the command line does to the cache of a mount: `clear_cache_for_mount` takes the content of
rows that need no upload and then removes their cache files, one by one, and `set_pinned` keeps a
file from that and from the eviction. Both may come at any time in the life of the daemon, with or
without it running.
-/

namespace Stratosync

/-- What a clear has done. `cachePaths` is for its caller, which removes these files. -/
structure CacheClearReport where
  filesCleared : ℕ
  bytesFreed : ℕ
  cachePaths : List PathBuf
  deriving DecidableEq, Repr

namespace Db

variable (db : Db)

/-- The rows a clear takes the content of: not those with local work or a download under way. -/
def clears (mountId : ℕ) (includePinned : Bool) (r : FileEntry) : Bool :=
  r.mountId = mountId && r.kind = .file && (r.status = .cached || r.status = .stale) &&
    r.cachePath.isSome && (includePinned || !db.isPinned r.inode)

def clearCacheForMount (mountId : ℕ) (includePinned : Bool) : Option (CacheClearReport × Db) :=
  let cleared := db.fileIndex.rows.filter (db.clears mountId includePinned)
  (db.updateWhere (db.clears mountId includePinned) FileEntry.evicted).map fun db' =>
    ({ filesCleared := cleared.length
       bytesFreed := (cleared.map fun r => r.cacheSize.getD 0).sum
       cachePaths := cleared.filterMap FileEntry.cachePath },
      cleared.foldl (fun d r => d.dropLru r.inode) db')

end Db

/-- The daemon, and the cache files that clears under way are about to remove. -/
structure CacheState where
  world : World
  unlinks : List PathBuf

def CacheState.init (m : Mount) (now : ℕ) : CacheState := ⟨World.init m now, []⟩

inductive CacheEvent
  | life (e : LifeEvent)
  | pin (i : Inode) (pinned : Bool)
  | clear (includePinned : Bool)
  | unlink (k : ℕ)

/-- A step of the daemon or of a command; `none` when it fails or is not enabled. -/
def cacheStep (m : Mount) (s : CacheState) : CacheEvent → Option CacheState
  | .life e => (lifeStep m s.world e).map fun w => { s with world := w }
  | .pin i pinned =>
    (s.world.db.setPinned i pinned).map fun db => { s with world := { s.world with db } }
  | .clear includePinned =>
    (s.world.db.clearCacheForMount m.mountId includePinned).map fun x =>
      { world := { s.world with db := x.2 }, unlinks := s.unlinks ++ x.1.cachePaths }
  | .unlink k =>
    s.unlinks[k]?.map fun p =>
      { world := { s.world with fs := s.world.fs.removeIfPresent (some p) }
        unlinks := s.unlinks.eraseIdx k }

/-! ## What the commands do to the index -/

variable {db db' : Db} {i : Inode}

theorem sameRows_of_setPinned {pinned : Bool} (h : db.setPinned i pinned = some db') :
    Db.SameRows db db' := by
  rw [Db.setPinned] at h
  split at h
  · cases h
  · split at h <;> rw [← Option.some.inj h] <;> exact ⟨rfl, fun _ => rfl⟩

theorem sameRows_foldl_dropLru (rows : List FileEntry) (db : Db) :
    Db.SameRows db (rows.foldl (fun d r => d.dropLru r.inode) db) := by
  induction rows generalizing db with
  | nil => exact ⟨rfl, fun _ => rfl⟩
  | cons r rows ih =>
    have h := ih (db.dropLru r.inode)
    exact ⟨h.seq, h.rows⟩

/-- **A clear leaves each row as it is, or takes its content.** -/
theorem getByInode_clearCacheForMount {mountId : ℕ} {includePinned : Bool}
    {report : CacheClearReport}
    (h : db.clearCacheForMount mountId includePinned = some (report, db')) (i : Inode) :
    db'.getByInode i = (db.getByInode i).map fun r =>
      if db.clears mountId includePinned r then r.evicted else r := by
  obtain ⟨db₁, h₁, he⟩ := Option.map_eq_some_iff.1 h
  rw [← (Prod.mk.inj he).2, (sameRows_foldl_dropLru _ db₁).rows,
    Db.getByInode_updateWhere h₁ fun _ => rfl]

end Stratosync

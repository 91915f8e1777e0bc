import Stratosync.Daemon.World
import Stratosync.Fuse.Listing

/-!
# Directory listings under way

`populate_directory`, which `lookup` and `readdir` call for a directory that was never listed, and
the prefetch of its child directories, call by call. A prefetch goes the same way as a listing,
except that it does not load the tombstones and does not look further.
-/

namespace Stratosync

/-- Where a directory listing is. -/
inductive PopulationPc
  /-- About to list the directory on the remote. -/
  | list
  /-- About to load the tombstones. -/
  | tombstones (children : List RemoteMetadata)
  /-- About to write the entries, one transaction at a time. -/
  | upsert (rest : List (List ListedEntry))
  /-- About to mark the directory as listed. -/
  | markListed (lookAhead : Bool)
  /-- About to start the listings of the child directories. -/
  | lookAhead

/-- The listing of a directory, whose row is as it was loaded. -/
structure Population where
  dir : FileEntry
  prefetch : Bool
  pc : PopulationPc

/-- The prefetches of the child directories that were never listed. -/
def childPrefetches (db : Db) (mountId : ℕ) (parent : Inode) : List Population :=
  ((db.listChildren mountId parent).filter fun r =>
    r.kind = .directory ∧ r.dirListed = none).map fun r => ⟨r, true, .list⟩

/-- The next call of a listing: the world it leaves, what remains to be done, and the listings it
starts. `listing` is what the backend answers. -/
def Population.tick (m : Mount) (w : World) (fault : Bool)
    (listing : Except SyncError (List RemoteMetadata)) (p : Population) :
    World × Option PopulationPc × List Population :=
  match p.pc with
  | .list =>
    match listing with
    | .ok children =>
      if p.prefetch then
        (w, some (.upsert (chunks 1000 (listedEntries [] p.dir children))), [])
      else (w, some (.tombstones children), [])
    | .error _ =>
      -- a directory that exists locally counts as empty when it cannot be listed
      if p.prefetch || p.dir.status.needsHydration then (w, none, [])
      else (w, some (.markListed false), [])
  | .tombstones children =>
    let tombstones := if fault then [] else w.db.activeTombstones m.mountId
    (w, some (.upsert (chunks 1000 (listedEntries tombstones p.dir children))), [])
  | .upsert [] => (w, some (.markListed !p.prefetch), [])
  | .upsert (chunk :: rest) =>
    if fault then (w, none, [])
    else
      match w.db.upsertChunk m.mountId p.dir.inode 0 chunk with
      | some db => ({ w with db }, some (.upsert rest), [])
      | none => (w, none, [])
  | .markListed lookAhead =>
    if fault then (w, none, [])
    else
      match w.db.markDirListed p.dir.inode with
      | some db => ({ w with db }, if lookAhead then some .lookAhead else none, [])
      | none => (w, none, [])
  | .lookAhead => (w, none, if fault then [] else childPrefetches w.db m.mountId p.dir.inode)

/-- What a call of a listing can do. -/
inductive PopulationStep (m : Mount) (w : World) (fault : Bool)
    (listing : Except SyncError (List RemoteMetadata)) (p : Population) :
    World → Option PopulationPc → List Population → Prop
  | stop : PopulationStep m w fault listing p w none []
  | listed {children : List RemoteMetadata} (hpc : p.pc = .list) (hp : p.prefetch = false)
      (h : listing = .ok children) :
      PopulationStep m w fault listing p w (some (.tombstones children)) []
  | prefetched {children : List RemoteMetadata} (hpc : p.pc = .list) (hp : p.prefetch = true)
      (h : listing = .ok children) :
      PopulationStep m w fault listing p w
        (some (.upsert (chunks 1000 (listedEntries [] p.dir children)))) []
  | unlistable (hpc : p.pc = .list) :
      PopulationStep m w fault listing p w (some (.markListed false)) []
  | filtered {children : List RemoteMetadata} (hpc : p.pc = .tombstones children) :
      PopulationStep m w fault listing p w
        (some (.upsert (chunks 1000 (listedEntries
          (if fault then [] else w.db.activeTombstones m.mountId) p.dir children)))) []
  | upsertsDone (hpc : p.pc = .upsert []) :
      PopulationStep m w fault listing p w (some (.markListed !p.prefetch)) []
  | upserted {chunk : List ListedEntry} {rest : List (List ListedEntry)} {db : Db}
      (hpc : p.pc = .upsert (chunk :: rest)) (hfault : fault = false)
      (h : w.db.upsertChunk m.mountId p.dir.inode 0 chunk = some db) :
      PopulationStep m w fault listing p { w with db } (some (.upsert rest)) []
  | marked {lookAhead : Bool} {db : Db} (hpc : p.pc = .markListed lookAhead)
      (h : w.db.markDirListed p.dir.inode = some db) :
      PopulationStep m w fault listing p { w with db }
        (if lookAhead then some .lookAhead else none) []
  | lookedAhead (hpc : p.pc = .lookAhead) :
      PopulationStep m w fault listing p w none (childPrefetches w.db m.mountId p.dir.inode)

theorem populationStep_tick (m : Mount) (w : World) (fault : Bool)
    (listing : Except SyncError (List RemoteMetadata)) (p : Population) :
    PopulationStep m w fault listing p (p.tick m w fault listing).1
      (p.tick m w fault listing).2.1 (p.tick m w fault listing).2.2 := by
  obtain ⟨dir, prefetch, pc⟩ := p
  cases pc with
  | list =>
    simp only [Population.tick]
    split
    · cases prefetch with
      | true => exact .prefetched rfl rfl rfl
      | false => exact .listed rfl rfl rfl
    · split
      · exact .stop
      · exact .unlistable rfl
  | tombstones children => exact .filtered rfl
  | upsert rest =>
    cases rest with
    | nil => exact .upsertsDone rfl
    | cons chunk rest =>
      simp only [Population.tick]
      split
      · exact .stop
      · split
        · exact .upserted rfl (Bool.eq_false_iff.2 ‹_›) ‹_›
        · exact .stop
  | markListed lookAhead =>
    simp only [Population.tick]
    split
    · exact .stop
    · split
      · exact .marked rfl ‹_›
      · exact .stop
  | lookAhead =>
    simp only [Population.tick]
    split
    · exact .stop
    · exact .lookedAhead rfl

end Stratosync

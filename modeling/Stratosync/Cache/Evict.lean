import Stratosync.Fuse.WriteOps

/-!
# Eviction

`maybe_evict`, one call at a time: candidates are queried a batch at a time, and each is looked at
again before its cache file is removed and its row updated.
-/

namespace Stratosync

/-- The number of candidates of one pass. -/
def evictionBatch : ℕ := 1000

/-- `maybe_evict`, when the cache is over its high-water mark. -/
def startEviction (m : Mount) (w : World) : Option Eviction :=
  let used := w.db.totalCacheBytes m.mountId
  if used ≤ m.highMark then none
  else some { toFree := used - m.lowMark, freed := 0, pc := .query }

/-- The end of a pass; one that freed nothing ends the eviction. -/
def Eviction.endPass (ev : Eviction) (passFreed : ℕ) : Option Eviction :=
  if passFreed = 0 then none else some { ev with freed := ev.freed + passFreed, pc := .query }

/-- The next call of an eviction: the state it leaves and where the eviction is then. -/
def Eviction.tick (m : Mount) (w : World) (env : Env) (ev : Eviction) : World × Option Eviction :=
  match ev.pc with
  | .query =>
    if ev.toFree ≤ ev.freed then (w, none)
    else
      match (if env.fault then none else w.db.lruEvictionCandidates m.mountId evictionBatch) with
      | none | some [] => (w, none)
      | some cs => (w, some { ev with pc := .recheck cs 0 })
  | .recheck [] passFreed => (w, ev.endPass passFreed)
  | .recheck (c :: rest) passFreed =>
    if ev.toFree ≤ ev.freed + passFreed then (w, ev.endPass passFreed)
    else if env.fault then (w, none)
    -- a write may have landed since the query
    else if (w.db.getByInode c.inode).any fun r => r.status = .cached then
      (w, some { ev with pc := .remove c rest passFreed })
    else (w, some { ev with pc := .recheck rest passFreed })
  | .remove c rest passFreed =>
    if env.fault then (w, some { ev with pc := .recheck rest passFreed })
    -- a file that is already gone counts as removed
    else ({ w with fs := w.fs.removeIfPresent (some c.cachePath) },
      some { ev with pc := .evicted c rest passFreed })
  | .evicted c rest passFreed =>
    match World.tryDb env (w.db.setEvicted c.inode) with
    | none => (w, none)
    | some db => ({ w with db }, some { ev with pc := .recheck rest (passFreed + c.cacheSize) })

end Stratosync

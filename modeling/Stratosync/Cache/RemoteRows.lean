import Stratosync.Cache.Clear
import Stratosync.Fuse.ReportedSizes

/-!
# Rows with status remote

What `total_cache_bytes` counts can be reclaimed, or is in use, provided that a row with status
`remote` has no cache path and no cache size. The eviction, a clear and a revert see to that. A
hydration that fails or is given up does not: it sets the status and leaves the cache columns,
which a stale row still has. `remoteOwnsNone_iff` is that these are the only ways to such a row.
-/

namespace Stratosync

open Foundations.Runs

/-- The row has no cache file. -/
def FileEntry.OwnsNone (r : FileEntry) : Prop := r.cachePath = none ∧ r.cacheSize = none

instance (r : FileEntry) : Decidable r.OwnsNone := inferInstanceAs (Decidable (_ ∧ _))

/-- What becomes of the cache file of a row with this status. -/
def SyncStatus.usesCache : SyncStatus → Bool
  -- an eviction or a clear can reclaim it
  | .cached => true
  -- it is unsynced
  | .dirty | .uploading | .conflict => true
  -- it is about to be replaced
  | .hydrating | .stale => true
  | .remote => false

namespace Db

/-- No row with status `remote` owns a cache file. -/
def RemoteOwnsNone (db : Db) : Prop :=
  ∀ r ∈ db.fileIndex.rows, r.status = .remote → r.OwnsNone

instance : DecidablePred RemoteOwnsNone := fun _ => inferInstanceAs (Decidable (∀ r ∈ _, _))

/-- The bytes of the rows whose cache file can be reclaimed or is in use. -/
def usedCacheBytes (db : Db) (mountId : ℕ) : ℕ :=
  ((db.fileIndex.rows.filter fun r => r.mountId = mountId && r.status.usesCache).filterMap
    FileEntry.cacheSize).sum

variable {db db' : Db}

theorem remoteOwnsNone_iff_getByInode :
    db.RemoteOwnsNone ↔ ∀ i r, db.getByInode i = some r → r.status = .remote → r.OwnsNone :=
  ⟨fun h _ r hr => h r (mem_rows_of_getByInode hr),
    fun h r hr => h r.inode r (getByInode_of_mem hr)⟩

/-- **Where a row with status `remote` owns nothing, the total counts what can be reclaimed or is
in use.** -/
theorem totalCacheBytes_eq_usedCacheBytes (h : db.RemoteOwnsNone) (mountId : ℕ) :
    db.totalCacheBytes mountId = db.usedCacheBytes mountId := by
  rw [totalCacheBytes, usedCacheBytes, List.filterMap_filter, List.filterMap_filter]
  refine congrArg List.sum (List.filterMap_congr fun r hr => ?_)
  have hnone : r.status.usesCache = false → r.cacheSize = none := by
    intro hs
    have hremote : r.status = .remote := by
      revert hs
      cases r.status <;> simp [SyncStatus.usesCache]
    exact (h r hr hremote).2
  cases hu : r.status.usesCache with
  | true => simp
  | false => simp [hnone hu]

/-- Rows that come from rows of `db`, or own nothing while their status is `remote`. -/
theorem RemoteOwnsNone.of_rows (h : db.RemoteOwnsNone)
    (hrows : ∀ i r', db'.getByInode i = some r' → r'.status = .remote →
      r'.OwnsNone ∨ ∃ r, db.getByInode i = some r ∧ r.status = .remote ∧
        (r.OwnsNone → r'.OwnsNone)) : db'.RemoteOwnsNone := by
  refine remoteOwnsNone_iff_getByInode.2 fun i r' hr' hs => ?_
  obtain hnone | ⟨r, hr, hrs, himp⟩ := hrows i r' hr' hs
  · exact hnone
  · exact himp (h r (mem_rows_of_getByInode hr) hrs)

end Db

/-! ## The steps that set the status alone -/

/-- The row that a step of the daemon gives status `remote` without a look at its cache file. -/
def World.resetRow (w : World) : Event → Option Inode
  | .hydration k env =>
    if env.fault then none
    else
      match w.hydrations[k]? with
      -- `hydrate_if_needed` gives up waiting
      | some ⟨i, .wait _ none, _⟩ => some i
      -- `do_hydrate` has failed
      | some ⟨i, .rollback _ _, _⟩ => some i
      | _ => none
  | .upload k env =>
    if env.fault then none
    else
      match w.uploads[k]? with
      -- `run_upload` finds a file without a cache path
      | some ⟨i, .reset .remote⟩ => some i
      | _ => none
  | _ => none

/-- The step sets the status of a row to `remote` only where the row has no cache file. -/
def CacheState.ResetsOwnNone (s : CacheState) : CacheEvent → Prop
  | .life (.daemon ev) => ∀ i ∈ s.world.resetRow ev, ∀ r ∈ s.world.db.getByInode i, r.OwnsNone
  | _ => True

section Steps

variable {m : Mount} {w w' : World} {ev : Event} {s s' : CacheState} {e : CacheEvent}

/-- A row that is evicted has no cache file. -/
theorem ownsNone_evicted {r : FileEntry} : r.evicted.OwnsNone := ⟨rfl, rfl⟩

/-- The step of a hydration that sets the status of its row to `remote`. -/
theorem db_of_hydrationStep {k : ℕ} {env : Env} {x : Hydration} (hx : w.hydrations[k]? = some x)
    (hpc : (∃ a, x.pc = .wait a none) ∨ ∃ entry er, x.pc = .rollback entry er)
    (h : step m w (.hydration k env) = some w') :
    w'.db = (w.logDb env (w.db.setStatus x.inode .remote)).db := by
  obtain ⟨y, hy, rfl⟩ := Option.map_eq_some_iff.1 h
  obtain rfl := Option.some.inj (hx.symm.trans hy)
  have htick : (Hydration.tick m w x.inode env x.pc).1.db =
      (w.logDb env (w.db.setStatus x.inode .remote)).db := by
    obtain ⟨a, ha⟩ | ⟨entry, er, he⟩ := hpc
    · rw [ha]
      simp only [Hydration.tick]
      split <;> rfl
    · rw [he]
      rfl
  rw [← htick]
  dsimp only
  split <;> rfl

theorem row_of_logDb {env : Env} {i : Inode} {s : SyncStatus} (hs : s.claimsCacheFile = false)
    (hf : env.fault = false) :
    (w.logDb env (w.db.setStatus i s)).db.getByInode i =
      (w.db.getByInode i).map fun r => { r with status := s } := by
  obtain ⟨db, hdb⟩ := Option.isSome_iff_exists.1 (w.db.setStatus_isSome i hs)
  have hlog : (w.logDb env (some db)).db = db := by simp [World.logDb, World.tryDb, hf]
  rw [hdb, hlog, (Db.setStatus_rows hdb).self]

/-- **A step that resets a row gives it status `remote` and leaves its cache columns.** -/
theorem row_of_resetRow {i : Inode} (h : step m w ev = some w') (hi : w.resetRow ev = some i) :
    w'.db.getByInode i = (w.db.getByInode i).map fun r => { r with status := .remote } := by
  cases ev with
  | hydration k env =>
    rw [World.resetRow] at hi
    split at hi
    · cases hi
    rename_i hf
    have hf : env.fault = false := by simpa using hf
    split at hi
    · rename_i hw
      obtain rfl := Option.some.inj hi
      rw [db_of_hydrationStep hw (.inl ⟨_, rfl⟩) h, row_of_logDb rfl hf]
    · rename_i hw
      obtain rfl := Option.some.inj hi
      rw [db_of_hydrationStep hw (.inr ⟨_, _, rfl⟩) h, row_of_logDb rfl hf]
    · cases hi
  | upload k env =>
    obtain ⟨u, hu, rfl⟩ := Option.map_eq_some_iff.1 h
    rw [World.resetRow] at hi
    split at hi
    · cases hi
    rename_i hf
    have hf : env.fault = false := by simpa using hf
    rw [hu] at hi
    split at hi
    · rename_i hw
      obtain rfl := Option.some.inj hw
      obtain rfl := Option.some.inj hi
      exact row_of_logDb rfl hf
    · cases hi
  | _ => cases hi

/-- A hydration whose step resets its row does so unless the call fails. -/
theorem row_of_hydration_resets {k : ℕ} {env : Env} {x : Hydration} {r r' : FileEntry}
    (h : step m w (.hydration k env) = some w') (hx : w.hydrations[k]? = some x)
    (hpc : (∃ a, x.pc = .wait a none) ∨ ∃ entry er, x.pc = .rollback entry er)
    (hr : w.db.getByInode x.inode = some r) (hr' : w'.db.getByInode x.inode = some r') :
    r' = r ∨ w.resetRow (.hydration k env) = some x.inode := by
  cases hf : env.fault with
  | true =>
    left
    rw [db_of_hydrationStep hx hpc h, World.logDb, World.tryDb, if_pos hf, Option.getD_none,
      hr] at hr'
    exact (Option.some.inj hr').symm
  | false =>
    right
    obtain ⟨i, pc, rd⟩ := x
    obtain ⟨a, ha⟩ | ⟨entry, er, he⟩ := hpc
    · obtain rfl : pc = _ := ha
      simp [World.resetRow, hf, hx]
    · obtain rfl : pc = _ := he
      simp [World.resetRow, hf, hx]

/-- **The rows with status `remote` own nothing after a step** that resets none that does. -/
theorem remoteOwnsNone_of_step (h : step m w ev = some w') (hw : w.db.RemoteOwnsNone)
    (hreset : ∀ i ∈ w.resetRow ev, ∀ r ∈ w.db.getByInode i, r.OwnsNone) :
    w'.db.RemoteOwnsNone := by
  refine hw.of_rows fun i r' hr' hs => ?_
  by_cases hi : w.resetRow ev = some i
  · rw [row_of_resetRow h hi] at hr'
    obtain ⟨r, hr, rfl⟩ := Option.map_eq_some_iff.1 hr'
    exact .inl (hreset i hi r hr)
  by_cases hpoll : ∃ op, ev = .poll op
  · obtain ⟨op, rfl⟩ := hpoll
    obtain rfl := Option.some.inj h
    obtain ⟨r, hr, rfl | ⟨u, -, -, id, rfl⟩⟩ | ⟨hl, -⟩ :=
      (rowsListed_applyRemote op w.db).rows i r' hr'
    · exact .inr ⟨r', hr, hs, fun hnone => hnone⟩
    · change r.status.refreshed = .remote at hs
      cases hrs : r.status <;> rw [hrs] at hs <;> cases hs
    · exact .inl ⟨hl.cachePath, hl.cacheSize⟩
  obtain ⟨r, hr, hrow⟩ | ⟨hnew, -⟩ := row_inv_of_step h hr'
  · cases hrow with
    | same => exact .inr ⟨r', hr, hs, fun hnone => hnone⟩
    | backfilled => exact .inr ⟨r, hr, hs, fun hnone => hnone⟩
    | reverted | evicted => exact .inl ownsNone_evicted
    | renamed =>
      refine .inr ⟨r, hr, hs, fun hnone => ⟨?_, hnone.2⟩⟩
      change (moveCacheFile w.fs _ _).2 = none
      rw [hnone.1]
      rfl
    | @reset k env _ _ s hu hf =>
      obtain rfl : s = .remote := hs
      exact absurd (by simp [World.resetRow, hf, hu]) hi
    | timedOut hh =>
      obtain heq | hset := row_of_hydration_resets h hh (.inl ⟨_, rfl⟩) hr hr'
      · exact .inr ⟨r, hr, heq ▸ hs, fun hnone => hnone⟩
      · exact absurd hset hi
    | rolledBack hh =>
      obtain heq | hset := row_of_hydration_resets h hh (.inr ⟨_, _, rfl⟩) hr hr'
      · exact .inr ⟨r, hr, heq ▸ hs, fun hnone => hnone⟩
      · exact absurd hset hi
    | dirtied | opened | marked | uploaded | failed | claimed | hydrated | claimedByRead => cases hs
    | refreshed | dropped => exact absurd ⟨_, rfl⟩ hpoll
  · cases hnew with
    | created _ _ _ _ _ _ _ hst => cases hst.symm.trans hs
    | made _ _ _ hst => cases hst.symm.trans hs
    | listed => exact absurd ⟨_, rfl⟩ hpoll

/-- The start-up clears the rows it gives status `remote`. -/
theorem remoteOwnsNone_of_restart {env : StartEnv} {remote : Remote} {disk : Db × CacheFs}
    (h : restart m env remote disk = some w') (hd : disk.1.RemoteOwnsNone) :
    w'.db.RemoteOwnsNone := by
  rw [restart] at h
  split at h
  · cases h
  obtain ⟨db₁, h₁, rfl⟩ := Option.map_eq_some_iff.1 h
  refine hd.of_rows fun i r' hr' hs => ?_
  have hr₂ := row_of_filesSweep hr'
  unfold Db.resetStuckDirtyDirectories at hr₂
  obtain ⟨r₁, hr₁, rfl | ⟨-, rfl⟩⟩ := row_of_sweep (by exact fun _ => rfl) hr₂
  · rw [Db.getByInode_updateWhere h₁ fun _ => rfl] at hr₁
    obtain ⟨r, hr, rfl⟩ := Option.map_eq_some_iff.1 hr₁
    by_cases hq : decide (r.status = .hydrating) = true
    · rw [if_pos hq]
      exact .inl ownsNone_evicted
    · rw [if_neg hq] at hs ⊢
      exact .inr ⟨r, hr, hs, fun hnone => hnone⟩
  · cases hs

/-- **The step lemma.** -/
theorem remoteOwnsNone_of_cacheStep (h : cacheStep m s e = some s')
    (hs : s.world.db.RemoteOwnsNone) (hreset : s.ResetsOwnNone e) :
    s'.world.db.RemoteOwnsNone := by
  cases e with
  | life e =>
    obtain ⟨w', hw', rfl⟩ := Option.map_eq_some_iff.1 h
    cases e with
    | daemon ev => exact remoteOwnsNone_of_step hw' hs hreset
    | restart point env =>
      obtain ⟨disk, hdisk, hstart⟩ := Option.bind_eq_some_iff.1 hw'
      exact remoteOwnsNone_of_restart hstart (hs.of_rows fun i r hr hrs =>
        .inr ⟨r, getByInode_of_disk hdisk hr, hrs, fun hnone => hnone⟩)
  | pin i pinned =>
    obtain ⟨db, hdb, rfl⟩ := Option.map_eq_some_iff.1 h
    exact hs.of_rows fun i r hr hrs =>
      .inr ⟨r, (sameRows_of_setPinned hdb).rows i ▸ hr, hrs, fun hnone => hnone⟩
  | clear includePinned =>
    obtain ⟨⟨report, db⟩, hx, rfl⟩ := Option.map_eq_some_iff.1 h
    refine hs.of_rows fun i r' hr' hrs => ?_
    rw [getByInode_clearCacheForMount hx] at hr'
    obtain ⟨r, hr, rfl⟩ := Option.map_eq_some_iff.1 hr'
    by_cases hq : s.world.db.clears m.mountId includePinned r = true
    · rw [if_pos hq]
      exact .inl ownsNone_evicted
    · rw [if_neg hq] at hrs ⊢
      exact .inr ⟨r, hr, hrs, fun hnone => hnone⟩
  | unlink k =>
    obtain ⟨p, -, rfl⟩ := Option.map_eq_some_iff.1 h
    exact hs

/-- A step that resets a row that has a cache file leaves such a row. -/
theorem resetsOwnNone_of_cacheStep (h : cacheStep m s e = some s')
    (hs' : s'.world.db.RemoteOwnsNone) : s.ResetsOwnNone e := by
  cases e with
  | life e =>
    obtain ⟨w', hw', rfl⟩ := Option.map_eq_some_iff.1 h
    cases e with
    | daemon ev =>
      intro i hi r hr
      have hr' := row_of_resetRow hw' hi
      rw [Option.mem_def.1 hr, Option.map_some] at hr'
      exact hs' { r with status := .remote } (Db.mem_rows_of_getByInode hr') rfl
    | restart => trivial
  | pin | clear | unlink => trivial

end Steps

/-- Rows with status `remote` own nothing, and the totals count what is used. -/
def CacheState.CountsUsed (s : CacheState) : Prop :=
  s.world.db.RemoteOwnsNone ∧
    ∀ mountId, s.world.db.totalCacheBytes mountId = s.world.db.usedCacheBytes mountId

/-- **A row with status `remote` owns no cache** in every state of a run if and only if each step
that sets this status alone sets it on a row that owns none. -/
theorem countsUsed_iff (m : Mount) (now : ℕ) (es : List CacheEvent) :
    Along (cacheStep m) (fun _ _ s' => s'.CountsUsed) (CacheState.init m now) es ↔
      Along (cacheStep m) (fun s e _ => s.ResetsOwnNone e) (CacheState.init m now) es := by
  refine along_congr_of_inv (I := fun s => s.world.db.RemoteOwnsNone) (fun s e s' hs h => ?_)
    (fun s e s' _ _ hq => hq.1) es ?_
  · constructor
    · exact fun hq => resetsOwnNone_of_cacheStep h hq.1
    · intro hreset
      have hs' := remoteOwnsNone_of_cacheStep h hs hreset
      exact ⟨hs', Db.totalCacheBytes_eq_usedCacheBytes hs'⟩
  · intro r hr hs
    obtain rfl : r = rootEntry m.mountId := List.mem_singleton.1 hr
    exact ⟨rfl, rfl⟩

/-- A hydrated file is stale after a poll, and the download of its new version fails. -/
def failRehydration : List CacheEvent :=
  (growHydrated ++ [LifeEvent.daemon (.poll (reportedFile ['a'] 3 ['w'])),
    .daemon (.request (.open_ 2)), .daemon (.hydration 1 .fine), .daemon (.hydration 1 .fine),
    .daemon (.hydration 1 { Env.fine with error := some .transient })]).map .life

/-- Its row becomes `remote` and keeps the old cache file, of one byte. -/
theorem not_countsUsed_failRehydration :
    ¬∀ (m : Mount) (now : ℕ) (es : List CacheEvent),
      Along (cacheStep m) (fun _ _ s' => s'.CountsUsed) (CacheState.init m now) es := by
  intro h
  obtain ⟨s, s', r, hrun, hstep, hr, hremote, hsize⟩ : ∃ s s' r,
      run (cacheStep sampleMount) (CacheState.init sampleMount 0) failRehydration = some s ∧
        cacheStep sampleMount s (.life (.daemon (.hydration 1 .fine))) = some s' ∧
        s'.world.db.getByInode 2 = some r ∧ r.status = .remote ∧ r.cacheSize = some 1 :=
    ⟨_, _, _, rfl, rfl, rfl, rfl, rfl⟩
  have hlast := (h sampleMount 0
    (failRehydration ++ [.life (.daemon (.hydration 1 .fine))])).drop hrun
  have hnone := ((hlast s' hstep).1.1 r (Db.mem_rows_of_getByInode hr) hremote).2
  rw [hsize] at hnone
  cases hnone

end Stratosync

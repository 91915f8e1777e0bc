import Stratosync.Daemon.Lives

/-!
# What a start makes good

The start-up sweeps the rows and the cache directory, and goes on when a sweep fails. What a sweep
does to a row it does not do again, and no sweep undoes another, so a start that failed halfway
leaves nothing a later one would do otherwise: a start in which nothing fails leaves the same after
any other as at once (`restart_of_restart`), and what it leaves is at rest (`restarted_of_restart`).

From one life to the next the counting of inodes goes on (`seq_le_of_lifeStep`), and a number that
was given out and has no row stays without one (`getByInode_eq_none_of_lifeStep`).
-/

namespace Stratosync

open Foundations Foundations.Runs Db

/-! ## The sweeps, row by row -/

namespace FileEntry

/-- A row after `reset_hydrating`. -/
def unhydrated (r : FileEntry) : FileEntry := if r.status = .hydrating then r.evicted else r

/-- A row after `reset_stuck_dirty_directories`. -/
def unstuckDirectory (r : FileEntry) : FileEntry :=
  if r.kind = .directory && r.status.isUnsynced then { r with status := .cached } else r

/-- A row after `reset_stuck_dirty_files_without_cache_path`. -/
def unstuckFile (r : FileEntry) : FileEntry :=
  if r.kind = .file && r.status.isUnsynced && r.cachePath.isNone then { r with status := .remote }
  else r

/-- A row after a start. -/
def started (env : StartEnv) (r : FileEntry) : FileEntry :=
  let r₂ := if env.directoriesFault then r.unhydrated else r.unhydrated.unstuckDirectory
  if env.filesFault then r₂ else r₂.unstuckFile

/-- **A sweep that was left out is made good by the next start**, and the others do no more. -/
theorem started_started (env : StartEnv) (r : FileEntry) :
    (r.started env).started .fine = r.started .fine := by
  obtain ⟨inode, mountId, parent, name, path, kind, size, mtime, etag, status, cachePath, cacheSize,
    dirListed, generation, itemId⟩ := r
  obtain ⟨aborts, knownFault, stays, directoriesFault, filesFault⟩ := env
  simp only [started, StartEnv.fine, unhydrated, unstuckDirectory, unstuckFile, evicted]
  cases directoriesFault <;> cases filesFault <;> cases kind <;> cases status <;>
    cases cachePath <;> rfl

/-- A start takes the cache path of no row but one that was hydrating. -/
theorem started_cachePath (env : StartEnv) (r : FileEntry) :
    (r.started env).cachePath = r.unhydrated.cachePath ∧ (r.started env).mountId = r.mountId := by
  simp only [started, unstuckDirectory, unstuckFile, unhydrated]
  repeat' split
  all_goals exact ⟨rfl, rfl⟩

/-- After a start in which nothing fails no row is hydrating, no directory is unsynced, and a file
that is has its content. -/
theorem started_fine_status (r : FileEntry) :
    (r.started .fine).status ≠ .hydrating ∧
      ((r.started .fine).status.isUnsynced = true → (r.started .fine).kind ≠ .directory ∧
        ((r.started .fine).kind = .file → (r.started .fine).cachePath.isSome = true)) := by
  obtain ⟨inode, mountId, parent, name, path, kind, size, mtime, etag, status, cachePath, cacheSize,
    dirListed, generation, itemId⟩ := r
  simp only [started, StartEnv.fine, unhydrated, unstuckDirectory, unstuckFile, evicted]
  cases kind <;> cases status <;> cases cachePath <;> simp [SyncStatus.isUnsynced]

end FileEntry

/-! ## The index after a start -/

variable {m : Mount} {env : StartEnv} {remote remote' : Remote} {disk : Db × CacheFs} {w w' : World}
  {db db' : Db}

/-- The two have the same tables but for `file_index`. -/
structure SameBut (db db' : Db) : Prop where
  seq : db'.seq = db.seq
  cacheLru : db'.cacheLru = db.cacheLru
  tombstones : db'.tombstones = db.tombstones
  now : db'.now = db.now

theorem db_ext (h : SameBut db db') (hrows : db'.fileIndex.rows = db.fileIndex.rows) :
    db' = db := by
  obtain ⟨⟨rows, ok⟩, seq, cacheLru, tombstones, now⟩ := db
  obtain ⟨⟨rows', ok'⟩, seq', cacheLru', tombstones', now'⟩ := db'
  obtain ⟨rfl, rfl, rfl, rfl⟩ := h
  dsimp only at hrows
  subst hrows
  rfl

theorem SameBut.trans {db'' : Db} (h : SameBut db db') (h' : SameBut db' db'') : SameBut db db'' :=
  ⟨h'.seq.trans h.seq, h'.cacheLru.trans h.cacheLru, h'.tombstones.trans h.tombstones,
    h'.now.trans h.now⟩

theorem rows_of_updateWhere {p : FileEntry → Bool} {f : FileEntry → FileEntry}
    (h : db.updateWhere p f = some db') : SameBut db db' ∧
      db'.fileIndex.rows = db.fileIndex.rows.map fun r => if p r then f r else r := by
  obtain ⟨t, ht, rfl⟩ := Option.map_eq_some_iff.1 h
  exact ⟨⟨rfl, rfl, rfl, rfl⟩, Table.commit_eq_some.1 ht⟩

/-- A sweep that cannot be refused. -/
theorem rows_of_sweep {p : FileEntry → Bool} {f : FileEntry → FileEntry} (fault : Bool)
    (h : (db.updateWhere p f).isSome = true) :
    SameBut db (if fault then db else (db.updateWhere p f).getD db) ∧
      (if fault then db else (db.updateWhere p f).getD db).fileIndex.rows =
        db.fileIndex.rows.map fun r => if fault then r else if p r then f r else r := by
  cases fault with
  | true => exact ⟨⟨rfl, rfl, rfl, rfl⟩, by simp⟩
  | false =>
    obtain ⟨db', hdb'⟩ := Option.isSome_iff_exists.1 h
    have hrows := rows_of_updateWhere hdb'
    simpa [hdb'] using hrows

theorem rows_of_resetHydrating (h : db.resetHydrating = some db') : SameBut db db' ∧
    db'.fileIndex.rows = db.fileIndex.rows.map FileEntry.unhydrated := by
  obtain ⟨hsame, hrows⟩ := rows_of_updateWhere h
  refine ⟨hsame, hrows.trans (List.map_congr_left fun r _ => ?_)⟩
  simp only [FileEntry.unhydrated, FileEntry.evicted, decide_eq_true_eq]

theorem rows_of_resetDirectories (db : Db) (fault : Bool) :
    SameBut db (if fault then db else db.resetStuckDirtyDirectories.getD db) ∧
      (if fault then db else db.resetStuckDirtyDirectories.getD db).fileIndex.rows =
        db.fileIndex.rows.map fun r => if fault then r else r.unstuckDirectory := by
  refine rows_of_sweep fault ?_
  refine updateWhere_isSome (fun _ => ⟨rfl, rfl, rfl, rfl, rfl, rfl⟩) fun r _ hp hk _ => ?_
  simp only [Bool.and_eq_true, decide_eq_true_eq] at hp
  have hk : r.kind = .file := hk
  rw [hp.1] at hk
  cases hk

theorem rows_of_resetFiles (db : Db) (fault : Bool) :
    SameBut db (if fault then db else db.resetStuckDirtyFilesWithoutCachePath.getD db) ∧
      (if fault then db else db.resetStuckDirtyFilesWithoutCachePath.getD db).fileIndex.rows =
        db.fileIndex.rows.map fun r => if fault then r else r.unstuckFile :=
  rows_of_sweep fault (updateWhere_isSome (fun _ => ⟨rfl, rfl, rfl, rfl, rfl, rfl⟩)
    fun _ _ _ _ hc => by cases hc)

theorem allCachePaths_of_rows {f : FileEntry → FileEntry} (mountId : ℕ)
    (h : db'.fileIndex.rows = db.fileIndex.rows.map f) (hf : ∀ r, (f r).mountId = r.mountId) :
    db'.allCachePaths mountId = (db.fileIndex.rows.filter fun r => r.mountId = mountId).filterMap
      fun r => (f r).cachePath := by
  rw [allCachePaths, h, List.filter_map, List.filterMap_map]
  have hmount : ((fun r : FileEntry => decide (r.mountId = mountId)) ∘ f) =
      fun r => decide (r.mountId = mountId) := by
    funext r
    simp only [Function.comp_apply, hf r]
  rw [hmount]
  rfl

/-- The cache paths after a start. -/
theorem allCachePaths_of_started (mountId : ℕ)
    (h : db'.fileIndex.rows = db.fileIndex.rows.map (FileEntry.started env)) :
    db'.allCachePaths mountId = (db.fileIndex.rows.filter fun r => r.mountId = mountId).filterMap
      fun r => r.unhydrated.cachePath := by
  rw [allCachePaths_of_rows mountId h fun r => (FileEntry.started_cachePath env r).2]
  exact congrArg (List.filterMap · _) (funext fun r => (FileEntry.started_cachePath env r).1)

/-- **What a start leaves.** -/
theorem eq_of_restart (h : restart m env remote disk = some w) :
    SameBut disk.1 w.db ∧
      w.db.fileIndex.rows = disk.1.fileIndex.rows.map (FileEntry.started env) ∧
      w = { World.init m w.db.now with
        db := w.db, fs := reconcileOrphans m env w.db disk.2, remote
        pending := (w.db.getPendingUploads m.mountId).map FileEntry.inode } := by
  rw [restart] at h
  split at h
  · cases h
  obtain ⟨db₁, h₁, hw⟩ := Option.map_eq_some_iff.1 h
  obtain ⟨hsame₁, hrows₁⟩ := rows_of_resetHydrating h₁
  obtain ⟨hsame₂, hrows₂⟩ := rows_of_resetDirectories db₁ env.directoriesFault
  dsimp only at hw
  generalize (if env.directoriesFault then db₁ else db₁.resetStuckDirtyDirectories.getD db₁) = db₂
    at hw hsame₂ hrows₂
  obtain ⟨hsame₃, hrows₃⟩ := rows_of_resetFiles db₂ env.filesFault
  generalize (if env.filesFault then db₂ else
    db₂.resetStuckDirtyFilesWithoutCachePath.getD db₂) = db₃ at hw hsame₃ hrows₃
  subst hw
  have hlater := hrows₃.trans (congrArg _ hrows₂)
  rw [List.map_map] at hlater
  refine ⟨(hsame₁.trans hsame₂).trans hsame₃, ?_, ?_⟩
  · rw [hlater, hrows₁, List.map_map]
    refine List.map_congr_left fun r _ => ?_
    simp only [Function.comp_apply, FileEntry.started]
  · -- the orphans are told by the cache paths, which the later sweeps keep
    have hpaths : db₃.allCachePaths m.mountId = db₁.allCachePaths m.mountId := by
      rw [allCachePaths_of_rows m.mountId hlater fun r => ?_, allCachePaths]
      · refine congrArg (List.filterMap · _) (funext fun r => ?_)
        simp only [Function.comp_apply, FileEntry.unstuckFile, FileEntry.unstuckDirectory]
        repeat' split
        all_goals rfl
      · simp only [Function.comp_apply, FileEntry.unstuckFile, FileEntry.unstuckDirectory]
        repeat' split
        all_goals rfl
    dsimp only
    rw [reconcileOrphans, reconcileOrphans, hpaths]

/-- What is left in the cache directory by one start after another is what the second leaves. -/
theorem reconcileOrphans_fine (h : db'.allCachePaths m.mountId = db.allCachePaths m.mountId)
    (fs : CacheFs) :
    reconcileOrphans m .fine db' (reconcileOrphans m env db fs) =
      reconcileOrphans m .fine db' fs := by
  simp only [reconcileOrphans, StartEnv.fine, h]
  cases hk : env.knownFault with
  | true => simp
  | false =>
    simp only [Bool.false_eq_true, if_false, Bool.not_false, Bool.and_true]
    congr 1
    funext p
    by_cases hp : (walksTo m.cacheDir p && !(db.allCachePaths m.mountId).contains p ||
        isPartial m.cacheDir p) = true
    · rw [if_pos hp, if_pos hp]
    · rw [if_neg hp, if_neg hp, if_neg]
      exact fun h => hp (Bool.and_eq_true_iff.1 h).1

/-- **A start makes good what another has left undone.** After a start in which sweeps have failed
and files have stayed, one in which nothing fails leaves just what it would have left at once. -/
theorem restart_of_restart (h : restart m env remote disk = some w) :
    restart m .fine remote' (w.db, w.fs) = restart m .fine remote' disk := by
  obtain ⟨hsame, hrows, hw⟩ := eq_of_restart h
  have hsome (d : Db × CacheFs) : ∃ v, restart m .fine remote' d = some v :=
    Option.isSome_iff_exists.1 (restart_isSome remote' rfl)
  obtain ⟨w₁, h₁⟩ := hsome (w.db, w.fs)
  obtain ⟨w₂, h₂⟩ := hsome disk
  obtain ⟨hsame₁, hrows₁, hw₁⟩ := eq_of_restart h₁
  obtain ⟨hsame₂, hrows₂, hw₂⟩ := eq_of_restart h₂
  have hrows₁ := hrows₁.trans (congrArg _ hrows)
  rw [List.map_map] at hrows₁
  have hdb : w₁.db = w₂.db := by
    refine db_ext ?_ ?_
    · have h₁ := hsame.trans hsame₁
      exact ⟨h₁.seq.trans hsame₂.seq.symm, h₁.cacheLru.trans hsame₂.cacheLru.symm,
        h₁.tombstones.trans hsame₂.tombstones.symm, h₁.now.trans hsame₂.now.symm⟩
    · rw [hrows₁, hrows₂]
      exact List.map_congr_left fun r _ => FileEntry.started_started env r
  have hpaths : w₁.db.allCachePaths m.mountId = w.db.allCachePaths m.mountId := by
    rw [hdb, allCachePaths_of_started m.mountId hrows₂, allCachePaths_of_started m.mountId hrows]
  have hfs : reconcileOrphans m .fine w₁.db w.fs = reconcileOrphans m .fine w₂.db disk.2 := by
    rw [congrArg World.fs hw, ← hdb]
    exact reconcileOrphans_fine hpaths disk.2
  rw [h₁, h₂, hw₁, hw₂]
  dsimp only
  rw [hfs, hdb]

/-! ## At rest -/

/-- **The daemon is at rest**: nothing is under way, no row is hydrating, what is unsynced waits
for its upload and has its content, and every file the walk comes to has a row. -/
structure Restarted (m : Mount) (w : World) : Prop where
  idle : w.fuse = none ∧ w.uploads = [] ∧ w.hydrations = [] ∧ w.reads = [] ∧ w.eviction = none ∧
    w.background = []
  hydrated : ∀ r ∈ w.db.fileIndex.rows, r.status ≠ .hydrating
  directories : ∀ r ∈ w.db.fileIndex.rows, r.kind = .directory → r.status.isUnsynced = false
  queued : ∀ r ∈ w.db.fileIndex.rows, r.mountId = m.mountId → r.kind = .file →
    (r.status.isUnsynced = true ↔ r.inode ∈ w.pending)
  files : ∀ p data, w.fs.files p = some data → walksTo m.cacheDir p = true →
    p ∈ w.db.allCachePaths m.mountId
  partials : ∀ p, isPartial m.cacheDir p = true → w.fs.files p = none

theorem restarted_of_restart (h : restart m .fine remote disk = some w) : Restarted m w := by
  obtain ⟨-, hrows, hw⟩ := eq_of_restart h
  have hstarted : ∀ r ∈ w.db.fileIndex.rows, ∃ r₀ : FileEntry, r₀.started .fine = r := by
    intro r hr
    rw [hrows] at hr
    obtain ⟨r₀, -, hr₀⟩ := List.mem_map.1 hr
    exact ⟨r₀, hr₀⟩
  have hfs := congrArg World.fs hw
  have hremoved : ∀ p, ((walksTo m.cacheDir p = true ∧ p ∉ w.db.allCachePaths m.mountId) ∨
      isPartial m.cacheDir p = true) → w.fs.files p = none := by
    intro p hp
    rw [hfs]
    have hcond : (walksTo m.cacheDir p && !(w.db.allCachePaths m.mountId).contains p ||
        isPartial m.cacheDir p) = true := by
      simpa using hp
    simp only [reconcileOrphans, StartEnv.fine, Bool.false_eq_true, if_false, hcond, Bool.not_false,
      Bool.and_true, if_true]
  constructor
  · rw [hw]
    exact ⟨rfl, rfl, rfl, rfl, rfl, rfl⟩
  · intro r hr
    obtain ⟨r₀, rfl⟩ := hstarted r hr
    exact r₀.started_fine_status.1
  · intro r hr hk
    obtain ⟨r₀, rfl⟩ := hstarted r hr
    by_contra hs
    exact (r₀.started_fine_status.2 (by simpa using hs)).1 hk
  · intro r hr hm hk
    rw [congrArg World.pending hw]
    constructor
    · intro hs
      obtain ⟨r₀, rfl⟩ := hstarted r hr
      refine List.mem_map_of_mem (List.mem_filter.2 ⟨hr, ?_⟩)
      have hcache := (r₀.started_fine_status.2 hs).2 hk
      simp [hm, hs, hk, hcache]
    · intro hmem
      obtain ⟨q, hq, hi⟩ := List.mem_map.1 hmem
      obtain ⟨hq, hpending⟩ := List.mem_filter.1 hq
      have hrow := getByInode_of_mem hr
      rw [← hi, getByInode_of_mem hq] at hrow
      obtain rfl := Option.some.inj hrow
      simp only [decide_eq_true_eq] at hpending
      exact hpending.2.1
  · intro p data hdata hwalk
    by_contra hknown
    rw [hremoved p (.inl ⟨hwalk, hknown⟩)] at hdata
    cases hdata
  · exact fun p hp => hremoved p (.inr hp)

/-- **Crashes and failing starts do no lasting harm.** In whatever state a crash finds the daemon,
and however the start after it fails in parts, a further start in which nothing fails leaves the
daemon at rest, in the state a start in which nothing fails would have left at once. -/
theorem start_of_start {point : CrashPoint} {w'' : World}
    (h : lifeStep m w (.restart point env) = some w')
    (h' : lifeStep m w' (.restart .between .fine) = some w'') :
    lifeStep m w (.restart point .fine) = some w'' ∧ Restarted m w'' := by
  obtain ⟨disk, hdisk, hstart⟩ := Option.bind_eq_some_iff.1 h
  have hremote : w'.remote = w.remote := (congrArg World.remote (eq_of_restart hstart).2.2 :)
  have h' : restart m .fine w'.remote (w'.db, w'.fs) = some w'' := h'
  rw [hremote, restart_of_restart hstart] at h'
  exact ⟨Option.bind_eq_some_iff.2 ⟨disk, hdisk, h'⟩, restarted_of_restart h'⟩

/-- A start that removes nothing and resets no row but those that were hydrating. -/
def StartEnv.faulty : StartEnv :=
  { StartEnv.fine with knownFault := true, directoriesFault := true, filesFault := true }

/-- A crash inside a creation, a start that fails in parts, and one that does not. -/
def crashAndStarts : List LifeEvent :=
  [.daemon (.request (.create fuseRootInode ['a'])),
    .restart (.create fuseRootInode ['b'] true) .faulty, .restart .between .fine]

theorem start_of_start_faulty : ∃ w w'' : World,
    lifeStep sampleMount (World.init sampleMount 0)
      (.daemon (.request (.create fuseRootInode ['a']))) = some w ∧
    lifeStep sampleMount w (.restart (.create fuseRootInode ['b'] true) .fine) = some w'' ∧
      Restarted sampleMount w'' := by
  have hrun :
      (run (lifeStep sampleMount) (World.init sampleMount 0) crashAndStarts).isSome = true := rfl
  obtain ⟨w₃, hrun⟩ := Option.isSome_iff_exists.1 hrun
  obtain ⟨w, hcreate, hrun⟩ := run_cons_eq_some.1 hrun
  obtain ⟨w', hfaulty, hrun⟩ := run_cons_eq_some.1 hrun
  obtain ⟨w'', hfine, -⟩ := run_cons_eq_some.1 hrun
  exact ⟨w, w'', hcreate, start_of_start hfaulty hfine⟩

/-! ## The numbers of the rows -/

/-- A crash adds no row. -/
theorem exists_of_disk {point : CrashPoint} {i : Inode} {r : FileEntry}
    (h : point.disk m w = some disk) (hr : disk.1.getByInode i = some r) :
    ∃ r₀, w.db.getByInode i = some r₀ := by
  cases crashLeaves_of_disk h with
  | between => exact ⟨r, hr⟩
  | create _ _ _ _ _ hmade | setattr _ _ _ hmade =>
    rw [(disk_of_made hmade).1] at hr
    exact ⟨r, hr⟩
  | @rename _ newParent _ newName =>
    rcases getByInode_dropDestination w.db m.mountId newParent newName i with hi | ⟨-, -, -, hi⟩
    · exact ⟨r, hi ▸ hr⟩
    · rw [hi] at hr
      cases hr

/-- A life goes on counting where the one before it stopped. -/
theorem seq_le_of_lifeStep {e : LifeEvent} (h : lifeStep m w e = some w') :
    w.db.seq ≤ w'.db.seq := by
  cases e with
  | daemon ev => exact seq_le_of_step h
  | restart point env =>
    obtain ⟨disk, hdisk, hstart⟩ := Option.bind_eq_some_iff.1 h
    exact ((seq_of_restart hstart).trans (seq_of_disk hdisk)).ge

theorem inodesBounded_of_lifeStep {e : LifeEvent} (hi : InodesBounded w)
    (h : lifeStep m w e = some w') : InodesBounded w' := by
  cases e with
  | daemon ev => exact hi.step h
  | restart point env =>
    obtain ⟨disk, hdisk, hstart⟩ := Option.bind_eq_some_iff.1 h
    intro i r hr
    obtain ⟨r₁, hr₁⟩ := exists_of_restart hstart hr
    obtain ⟨r₂, hr₂⟩ := exists_of_disk hdisk hr₁
    exact (hi i r₂ hr₂).trans (seq_le_of_lifeStep h)

/-- A number that was given out and has no row stays without one. -/
theorem getByInode_eq_none_of_lifeStep {e : LifeEvent} {i : Inode} (hi : i ≤ w.db.seq)
    (hn : w.db.getByInode i = none) (h : lifeStep m w e = some w') : w'.db.getByInode i = none := by
  by_contra hsome
  obtain ⟨r', hr'⟩ := Option.ne_none_iff_exists'.1 hsome
  cases e with
  | daemon ev => exact hi.not_gt ((rowsStep_of_step h).new i r' hn hr').2.1
  | restart point env =>
    obtain ⟨disk, hdisk, hstart⟩ := Option.bind_eq_some_iff.1 h
    obtain ⟨r₁, hr₁⟩ := exists_of_restart hstart hr'
    obtain ⟨r₂, hr₂⟩ := exists_of_disk hdisk hr₁
    rw [hn] at hr₂
    cases hr₂

end Stratosync

import Stratosync.Sync.RestartKeeps
import Stratosync.Daemon.CacheFiles

/-!
# Runs with restarts

A life of the daemon is a run in which it may crash and start again. What a crash inside a request
leaves in the cache directory is what the request does to it (`file_of_disk`); the start-up clears
the rows that were hydrating and leaves the rows of the other files (`row_of_restart`), and it puts
nothing in the cache directory (`files_of_restart`).
-/

namespace Stratosync

inductive LifeEvent
  | daemon (ev : Event)
  | restart (point : CrashPoint) (env : StartEnv)

/-- A step of the daemon, or a crash and the start after it. -/
def lifeStep (m : Mount) (w : World) : LifeEvent → Option World
  | .daemon ev => step m w ev
  | .restart point env => (point.disk m w).bind (restart m env w.remote)

/-- The request that has changed a file when the crash comes. A truncation that is cut short has
left an empty file. -/
def CrashPoint.request : CrashPoint → Option Request
  | .create parent name true => some (.create parent name)
  | .setattr i true => some (.setattr i 0)
  | .rename parent name newParent newName true => some (.rename parent name newParent newName)
  | _ => none

variable {m : Mount} {w w' : World} {disk : Db × CacheFs} {p : PathBuf}

/-! ## The crash -/

/-- **What a crash leaves at a path** is what was there, or what the request has put there. -/
theorem file_of_disk {point : CrashPoint} (h : point.disk m w = some disk) (p : PathBuf) :
    disk.2.files p = w.fs.files p ∨
      ∃ q, point.request = some q ∧
        FileStep m w (.request q) p (w.fs.files p) (disk.2.files p) := by
  cases crashLeaves_of_disk h with
  | between => exact .inl rfl
  | @create parent name made _ _ _ _ _ _ _ _ hmade =>
    cases made with
    | true =>
      refine .inr ⟨_, rfl, ?_⟩
      rw [← (fs_handleCreate_of_disk h).1]
      exact fileStep_create parent name
    | false =>
      obtain ⟨-, fs₁, h₁, ⟨-, hfs⟩ | ⟨hmade, -⟩⟩ := disk_of_made hmade
      · exact .inl (by rw [hfs, CacheFs.files_of_createDirAll h₁])
      · cases hmade
  | setattr _ hr hnone hmade =>
    obtain ⟨-, fs₁, h₁, ⟨-, hfs⟩ | ⟨rfl, hfs⟩⟩ := disk_of_made hmade
    · exact .inl (by rw [hfs, CacheFs.files_of_createDirAll h₁])
    · rw [CacheFs.files_of_create hfs, CacheFs.files_of_createDirAll h₁]
      split
      · rename_i hp
        rw [hp]
        exact .inr ⟨_, rfl, .derived (n := 0) hr hnone⟩
      · exact .inl rfl
  | @rename parent newParent name newName moved =>
    cases moved with
    | true =>
      refine .inr ⟨_, rfl, ?_⟩
      rw [← (handleRename_of_disk h).1]
      exact fileStep_rename parent name newParent newName
    | false => exact .inl rfl

/-- A crash gives out no inode. -/
theorem seq_of_disk {point : CrashPoint} (h : point.disk m w = some disk) :
    disk.1.seq = w.db.seq := by
  cases crashLeaves_of_disk h with
  | between => rfl
  | create _ _ _ _ _ hmade | setattr _ _ _ hmade => rw [(disk_of_made hmade).1]
  | rename => exact seq_dropDestination

/-- A truncation makes a file only for a row without a cache path. -/
theorem cachePath_of_disk {i : Inode} {made : Bool} {r : FileEntry}
    (h : (CrashPoint.setattr i made).disk m w = some disk) (hr : w.db.getByInode i = some r) :
    r.cachePath = none := by
  cases crashLeaves_of_disk h with
  | setattr _ hrow hnone =>
    obtain rfl := Option.some.inj (hrow.symm.trans hr)
    exact hnone

/-- The destination of a rename that is there after a crash could not be dropped. -/
theorem destination_of_disk {parent newParent : Inode} {name newName : Str} {moved : Bool}
    {r r₁ : FileEntry}
    (h : (CrashPoint.rename parent name newParent newName moved).disk m w = some disk)
    (hdest : w.db.getByParentName m.mountId newParent newName = some r)
    (hr : disk.1.getByInode r.inode = some r₁) : (w.db.deleteEntry r.inode).isNone = true := by
  obtain ⟨⟩ := crashLeaves_of_disk h
  cases hdel : w.db.deleteEntry r.inode with
  | none => rfl
  | some db =>
    simp only [dropDestination, hdest, hdel, Option.getD_some] at hr
    rw [Db.getByInode_deleteEntry hdel, if_pos rfl] at hr
    cases hr

/-! ## The start-up -/

/-- A sweep of the rows leaves each as it is, or updates it where it is looked for. -/
theorem row_of_sweep {db : Db} {q : FileEntry → Bool} {f : FileEntry → FileEntry}
    {fault : Bool} {i : Inode} {r' : FileEntry} (hf : ∀ r, (f r).inode = r.inode)
    (h : (if fault then db else (db.updateWhere q f).getD db).getByInode i = some r') :
    ∃ r, db.getByInode i = some r ∧ (r' = r ∨ q r = true ∧ r' = f r) := by
  split at h
  · exact ⟨r', h, .inl rfl⟩
  · cases hu : db.updateWhere q f with
    | none =>
      rw [hu] at h
      exact ⟨r', h, .inl rfl⟩
    | some db' =>
      rw [hu, Option.getD_some, Db.getByInode_updateWhere hu hf] at h
      obtain ⟨r, hr, hr'⟩ := Option.map_eq_some_iff.1 h
      refine ⟨r, hr, ?_⟩
      split at hr'
      · exact .inr ⟨‹_›, hr'.symm⟩
      · exact .inl hr'.symm

theorem seq_updateWhere {db db' : Db} {q : FileEntry → Bool} {f : FileEntry → FileEntry}
    (h : db.updateWhere q f = some db') : db'.seq = db.seq := by
  obtain ⟨t, -, rfl⟩ := Option.map_eq_some_iff.1 h
  rfl

theorem seq_of_sweep {db : Db} {q : FileEntry → Bool} {f : FileEntry → FileEntry} {fault : Bool} :
    (if fault then db else (db.updateWhere q f).getD db).seq = db.seq := by
  split
  · rfl
  · cases hu : db.updateWhere q f with
    | none => rfl
    | some db' => exact seq_updateWhere hu

/-- No row of a file is unsynced without a cache path. -/
theorem row_of_filesSweep {db : Db} {fault : Bool} {i : Inode} {r' : FileEntry}
    (h : (if fault then db else db.resetStuckDirtyFilesWithoutCachePath.getD db).getByInode i =
      some r') : db.getByInode i = some r' := by
  unfold Db.resetStuckDirtyFilesWithoutCachePath at h
  obtain ⟨r, hr, rfl | ⟨hstuck, -⟩⟩ := row_of_sweep (by exact fun _ => rfl) h
  · exact hr
  · simp only [Bool.and_eq_true, decide_eq_true_eq, Option.isNone_iff_eq_none] at hstuck
    obtain ⟨⟨hfile, hunsynced⟩, hnone⟩ := hstuck
    have hpath := db.fileIndex.ok.cachePathRecorded r (Db.mem_rows_of_getByInode hr) hfile (by
      revert hunsynced
      cases r.status <;> simp [SyncStatus.isUnsynced, SyncStatus.claimsCacheFile])
    rw [hnone] at hpath
    cases hpath

theorem row_of_directoriesSweep {db : Db} {fault : Bool} {i : Inode} {r' : FileEntry}
    (h : (if fault then db else db.resetStuckDirtyDirectories.getD db).getByInode i = some r')
    (hk : r'.kind = .file) : db.getByInode i = some r' := by
  unfold Db.resetStuckDirtyDirectories at h
  obtain ⟨r, hr, rfl | ⟨hdir, rfl⟩⟩ := row_of_sweep (by exact fun _ => rfl) h
  · exact hr
  · rw [show r.kind = .file from hk] at hdir
    cases hdir

/-- **What the start-up does to the row of a file.** -/
theorem row_of_restart {env : StartEnv} {remote : Remote} {i : Inode} {r' : FileEntry}
    (h : restart m env remote disk = some w') (hr' : w'.db.getByInode i = some r')
    (hk : r'.kind = .file) :
    ∃ r, disk.1.getByInode i = some r ∧ (r' = r ∨ r' = r.evicted) := by
  rw [restart] at h
  split at h
  · cases h
  obtain ⟨db₁, h₁, rfl⟩ := Option.map_eq_some_iff.1 h
  have hr₁ := row_of_directoriesSweep (row_of_filesSweep hr') hk
  rw [Db.getByInode_updateWhere h₁ fun _ => rfl] at hr₁
  obtain ⟨r, hr, hr₁⟩ := Option.map_eq_some_iff.1 hr₁
  refine ⟨r, hr, ?_⟩
  rw [← hr₁]
  split
  · exact .inr rfl
  · exact .inl rfl

/-- The start-up enters no row. -/
theorem exists_of_restart {env : StartEnv} {remote : Remote} {i : Inode} {r' : FileEntry}
    (h : restart m env remote disk = some w') (hr' : w'.db.getByInode i = some r') :
    ∃ r, disk.1.getByInode i = some r := by
  rw [restart] at h
  split at h
  · cases h
  obtain ⟨db₁, h₁, rfl⟩ := Option.map_eq_some_iff.1 h
  obtain ⟨r₂, hr₂, -⟩ := row_of_sweep (q := fun r =>
    r.kind = .file && r.status.isUnsynced && r.cachePath.isNone) (by exact fun _ => rfl) hr'
  obtain ⟨r₁, hr₁, -⟩ := row_of_sweep (q := fun r =>
    r.kind = .directory && r.status.isUnsynced) (by exact fun _ => rfl) hr₂
  rw [Db.getByInode_updateWhere h₁ fun _ => rfl] at hr₁
  obtain ⟨r, hr, -⟩ := Option.map_eq_some_iff.1 hr₁
  exact ⟨r, hr⟩

/-- The start-up only removes files. -/
theorem files_of_restart {env : StartEnv} {remote : Remote} {b : Bytes}
    (h : restart m env remote disk = some w') (hb : w'.fs.files p = some b) :
    disk.2.files p = some b := by
  rw [restart] at h
  split at h
  · cases h
  obtain ⟨db₁, -, rfl⟩ := Option.map_eq_some_iff.1 h
  simp only [reconcileOrphans] at hb
  split at hb
  · exact hb
  · dsimp only at hb
    split at hb
    · cases hb
    · exact hb

theorem seq_of_restart {env : StartEnv} {remote : Remote}
    (h : restart m env remote disk = some w') : w'.db.seq = disk.1.seq := by
  rw [restart] at h
  split at h
  · cases h
  obtain ⟨db₁, h₁, rfl⟩ := Option.map_eq_some_iff.1 h
  exact (seq_of_sweep.trans seq_of_sweep).trans (seq_updateWhere h₁)

theorem fuse_of_restart {env : StartEnv} {remote : Remote}
    (h : restart m env remote disk = some w') : w'.fuse = none := by
  rw [restart] at h
  split at h
  · cases h
  obtain ⟨db₁, -, rfl⟩ := Option.map_eq_some_iff.1 h
  rfl

end Stratosync

import Stratosync.Sync.LocalBytes
import Stratosync.Daemon.Restart

/-!
# What a restart does to local bytes

`holdsLocal_of_disk`: a crash outside the critical places of a rename leaves the local bytes where
they are held. `recovered_of_holdsLocal`: the start-up neither removes nor resets them, and queues
their row. With the invariant of the runs before, `recovered_of_run`.

A rename drops the row at its destination and moves the cache file before it enters the row at its
new place: after a crash in between no row names the file, and the start-up removes it.
-/

namespace Stratosync

open Foundations.Runs

/-- After the start-up, the bytes are on disk at the cache path of the row, which is dirty or
uploading and queued for upload. -/
def Recovered (w : World) (i : Inode) (b : Bytes) : Prop :=
  ∃ r p, w.db.getByInode i = some r ∧ r.status.isUnsynced = true ∧ r.cachePath = some p ∧
    w.fs.files p = some b ∧ i ∈ w.pending

/-! ## The condition -/

/-- The crash does not come where a request has made or moved a file over local bytes that the
remote does not have, or has dropped their row, or has moved them away from it. -/
def SparesCrash (m : Mount) (x : World × LocalBytes) : CrashPoint → Prop
  | .create parent name true => ∀ q ∈ x.1.db.getByInode parent,
      ∀ cp ∈ safeCachePath x.1.fs m.cacheDir (joinRemote q.remotePath name), SparesPath x cp
  | .setattr i true => ∀ r ∈ x.1.db.getByInode i, r.cachePath = none →
      SparesPath x (m.derivedPath r)
  | .rename parent name newParent newName moved =>
      (∀ d ∈ x.1.db.getByParentName m.mountId newParent newName, ¬Due x d.inode) ∧
        (moved = true → ∀ r ∈ x.1.db.getByParentName m.mountId parent name, ∀ cp ∈ r.cachePath,
          movedCachePath cp newName ≠ cp →
            (x.1.fs.rename cp (movedCachePath cp newName)).isSome = true →
              SparesPath x cp ∧ SparesPath x (movedCachePath cp newName))
  | _ => True

/-- No file with such bytes has its cache path where downloads are made. -/
def OutsidePartial (m : Mount) (x : World × LocalBytes) : Prop :=
  ∀ r ∈ x.1.db.fileIndex.rows, Due x r.inode → ∀ p ∈ r.cachePath, isPartial m.cacheDir p = false

section Decidable

instance (m : Mount) (x : World × LocalBytes) :
    (point : CrashPoint) → Decidable (SparesCrash m x point)
  | .create _ _ true => inferInstanceAs (Decidable (∀ q ∈ _, ∀ cp ∈ _, SparesPath x cp))
  | .setattr _ true => inferInstanceAs (Decidable (∀ r ∈ _, _ → SparesPath x _))
  | .rename .. => inferInstanceAs (Decidable ((∀ d ∈ _, ¬Due x _) ∧
      (_ → ∀ r ∈ _, ∀ cp ∈ _, _ → _ → SparesPath x cp ∧ SparesPath x _)))
  | .between | .create _ _ false | .setattr _ false => .isTrue trivial

instance (m : Mount) (x : World × LocalBytes) : Decidable (OutsidePartial m x) :=
  inferInstanceAs (Decidable (∀ r ∈ _, Due x _ → ∀ p ∈ _, _))

end Decidable

variable {m : Mount} {x : World × LocalBytes} {i : Inode} {b : Bytes} {disk : Db × CacheFs}

/-! ## The crash -/

/-- A path that no local bytes are at may be written. -/
theorem holdsLocal_of_made (hl : HoldsLocal m x.1.db x.1.fs i b) (hb : x.2.due i = some b)
    {cp : PathBuf} {made : Bool} (hs : made = true → SparesPath x cp)
    (h : diskOfMade x.1 cp made = some disk) : HoldsLocal m disk.1 disk.2 i b := by
  obtain ⟨hdb, fs₁, h₁, hmade⟩ := disk_of_made h
  obtain ⟨r, hr, hk⟩ := hl
  obtain ⟨p, hp, hfile⟩ := hk.bytes
  have hfs₁ := CacheFs.files_of_createDirAll h₁
  refine ⟨r, hdb ▸ hr, hk.isFile, hk.mount, hk.unsynced, p, hp, ?_⟩
  obtain ⟨-, hfs⟩ | ⟨rfl, hfs⟩ := hmade
  · rw [hfs, hfs₁, hfile]
  · rw [CacheFs.files_of_create hfs, hfs₁, hfile, if_neg]
    rintro rfl
    refine hs rfl r (Db.mem_rows_of_getByInode hr) hp ?_
    rw [Db.inode_of_getByInode hr]
    exact due_of_eq hb

/-- Moving a cache file leaves the others, and itself where source and target are the same. -/
theorem files_of_moved {fs : CacheFs} {o : Option PathBuf} {n : Str} {p : PathBuf}
    (hs : ∀ cp ∈ o, movedCachePath cp n ≠ cp → (fs.rename cp (movedCachePath cp n)).isSome = true →
      p ≠ cp ∧ p ≠ movedCachePath cp n) (hp : fs.files p = some b) :
    (moveCacheFile fs o n).1.files p = some b := by
  cases o with
  | none => exact hp
  | some cp =>
    simp only [moveCacheFile]
    split
    · exact hp
    · rename_i fs' hfs
      obtain ⟨data, hd, hfiles⟩ := CacheFs.files_of_rename hfs
      by_cases hne : movedCachePath cp n = cp
      · rw [hfiles, hne]
        split
        · rename_i hpc
          rw [← hd, ← hpc, hp]
        · exact hp
      · obtain ⟨h₁, h₂⟩ := hs cp rfl hne (by rw [hfs]; rfl)
        rw [hfiles, if_neg h₂, if_neg h₁, hp]

/-- **A crash leaves the local bytes where they are held.** -/
theorem holdsLocal_of_disk (hl : HoldsLocal m x.1.db x.1.fs i b) (hb : x.2.due i = some b)
    {point : CrashPoint} (hs : SparesCrash m x point) (h : point.disk m x.1 = some disk) :
    HoldsLocal m disk.1 disk.2 i b := by
  cases crashLeaves_of_disk h with
  | between => exact hl
  | create _ _ hq _ hcp hmade =>
    refine holdsLocal_of_made hl hb (fun hm => ?_) hmade
    subst hm
    exact hs _ hq _ hcp
  | setattr _ hr hnone hmade =>
    refine holdsLocal_of_made hl hb (fun hm => ?_) hmade
    subst hm
    exact hs _ hr hnone
  | @rename parent newParent name newName moved r₀ _ _ _ hr₀ =>
    obtain ⟨hdest, hmoved⟩ := hs
    obtain ⟨r, hr, hk⟩ := hl
    obtain ⟨p, hp, hfile⟩ := hk.bytes
    have hd : Due x r.inode := (Db.inode_of_getByInode hr).symm ▸ due_of_eq hb
    refine ⟨r, ?_, hk.isFile, hk.mount, hk.unsynced, p, hp, ?_⟩
    · obtain hsame | ⟨d, hd₀, rfl, -⟩ := getByInode_dropDestination x.1.db
        m.mountId newParent newName i
      · exact hsame.trans hr
      · exact absurd (due_of_eq hb) (hdest d hd₀)
    · cases moved with
      | false => exact hfile
      | true =>
        refine files_of_moved (fun cp hcp hne hren => ?_) hfile
        obtain ⟨hsrc, hdst⟩ := hmoved rfl r₀ hr₀ cp hcp hne hren
        have hmem := Db.mem_rows_of_getByInode hr
        constructor
        · rintro rfl
          exact hsrc r hmem hp hd
        · rintro rfl
          exact hdst r hmem hp hd

/-- A crash leaves the rows it does not drop as they are. -/
theorem getByInode_of_disk {w : World} {point : CrashPoint} {r : FileEntry}
    (h : point.disk m w = some disk) (hr : disk.1.getByInode i = some r) :
    w.db.getByInode i = some r := by
  cases crashLeaves_of_disk h with
  | between => exact hr
  | create _ _ _ _ _ hmade | setattr _ _ _ hmade =>
    rw [← (disk_of_made hmade).1]
    exact hr
  | @rename _ newParent _ newName =>
    obtain hsame | ⟨-, -, -, hgone⟩ := getByInode_dropDestination w.db
      m.mountId newParent newName i
    · exact hsame.symm.trans hr
    · rw [hgone] at hr
      cases hr

/-! ## The start-up -/

/-- A sweep leaves a row that it does not look for. -/
theorem getByInode_of_reset {db db' : Db} {p : FileEntry → Bool} {f : FileEntry → FileEntry}
    {r : FileEntry} (h : db.updateWhere p f = some db') (hf : ∀ r, (f r).inode = r.inode)
    (hr : db.getByInode i = some r) (hp : p r = false) : db'.getByInode i = some r := by
  rw [Db.getByInode_updateWhere h hf, hr, Option.map_some, hp]
  rfl

/-- The file of a row is removed only from where downloads are made. -/
theorem files_reconcileOrphans {env : StartEnv} {db : Db} {fs : CacheFs} {r : FileEntry}
    {p : PathBuf} (hr : db.getByInode i = some r) (hm : r.mountId = m.mountId)
    (hp : r.cachePath = some p) (hout : isPartial m.cacheDir p = false) :
    (reconcileOrphans m env db fs).files p = fs.files p := by
  have hknown : (db.allCachePaths m.mountId).contains p = true := by
    rw [List.contains_iff_mem]
    refine List.mem_filterMap.2 ⟨r, List.mem_filter.2 ⟨Db.mem_rows_of_getByInode hr, ?_⟩, hp⟩
    rw [hm, decide_eq_true rfl]
  rw [reconcileOrphans]
  split
  · rfl
  · simp only [hknown, hout, Bool.not_true, Bool.and_false, Bool.or_false, Bool.false_and,
      Bool.false_eq_true, if_false]

/-- **The start-up keeps the local bytes a crash has left, and queues their row.** -/
theorem recovered_of_holdsLocal {env : StartEnv} {remote : Remote} {w : World}
    (hl : HoldsLocal m disk.1 disk.2 i b)
    (hout : ∀ r, disk.1.getByInode i = some r → ∀ p ∈ r.cachePath, isPartial m.cacheDir p = false)
    (hw : restart m env remote disk = some w) : Recovered w i b := by
  obtain ⟨r, hr, hk⟩ := hl
  obtain ⟨p, hp, hfile⟩ := hk.bytes
  rw [restart] at hw
  split at hw
  · cases hw
  obtain ⟨db₁, h₁, rfl⟩ := Option.map_eq_some_iff.1 hw
  have hr₁ : db₁.getByInode i = some r := by
    refine getByInode_of_reset h₁ (fun _ => rfl) hr ?_
    have hu := hk.unsynced
    cases hs : r.status <;> rw [hs] at hu <;> first | rfl | cases hu
  have hr₂ : (if env.directoriesFault then db₁ else
      db₁.resetStuckDirtyDirectories.getD db₁).getByInode i = some r := by
    split
    · exact hr₁
    · cases h₂ : db₁.resetStuckDirtyDirectories with
      | none => exact hr₁
      | some db₂ =>
        refine getByInode_of_reset h₂ (fun _ => rfl) hr₁ ?_
        rw [hk.isFile]
        rfl
  generalize (if env.directoriesFault then db₁ else
    db₁.resetStuckDirtyDirectories.getD db₁) = db₂ at hr₂
  have hr₃ : (if env.filesFault then db₂ else
      db₂.resetStuckDirtyFilesWithoutCachePath.getD db₂).getByInode i = some r := by
    split
    · exact hr₂
    · cases h₃ : db₂.resetStuckDirtyFilesWithoutCachePath with
      | none => exact hr₂
      | some db₃ =>
        refine getByInode_of_reset h₃ (fun _ => rfl) hr₂ ?_
        rw [hp]
        exact Bool.and_false _
  refine ⟨r, p, hr₃, hk.unsynced, hp, ?_, ?_⟩
  · exact (files_reconcileOrphans hr₁ hk.mount hp (hout r hr p hp)).trans hfile
  · rw [← Db.inode_of_getByInode hr₃]
    refine List.mem_map_of_mem (List.mem_filter.2 ⟨Db.mem_rows_of_getByInode hr₃, ?_⟩)
    simp [hk.mount, hk.unsynced, hk.isFile, hp]

/-- **A restart loses no local bytes** after a run whose steps spare them and a crash that does,
when no file that has such bytes is where downloads are made. -/
theorem recovered_of_run {now : ℕ} {evs : List Event} {point : CrashPoint} {env : StartEnv}
    {w : World}
    (hg : Guarded (localStep m) (SparesLocal m) (World.init m now, LocalBytes.none) evs)
    (hr : run (localStep m) (World.init m now, LocalBytes.none) evs = some x)
    (hs : SparesCrash m x point) (hout : OutsidePartial m x)
    (hd : point.disk m x.1 = some disk) (hw : restart m env x.1.remote disk = some w) :
    ∀ i b, x.2.due i = some b → Recovered w i b := by
  intro i b hb
  have hx := holdsLocal_of_run (localKept_init m now) hg hr
  refine recovered_of_holdsLocal (holdsLocal_of_disk (hx.held i b hb) hb hs hd) ?_ hw
  intro r hrow
  have hr₀ := getByInode_of_disk hd hrow
  refine hout r (Db.mem_rows_of_getByInode hr₀) ?_
  rw [Db.inode_of_getByInode hr₀]
  exact due_of_eq hb

/-- A file is written, and the daemon crashes while it is uploaded. -/
def writeAndUpload : List Event := uploadFirst.take 8

theorem recovered_writeAndUpload :
    ∃ x w, run (localStep sampleMount) (World.init sampleMount 0, LocalBytes.none)
        writeAndUpload = some x ∧ x.2.due 2 = some [7] ∧
      restart sampleMount .fine x.1.remote (x.1.db, x.1.fs) = some w ∧ Recovered w 2 [7] :=
  have hguard : Guarded (localStep sampleMount) (SparesLocal sampleMount)
      (World.init sampleMount 0, LocalBytes.none) writeAndUpload := by decide
  have hrun := recovered_of_run hguard rfl (show SparesCrash _ _ .between from trivial) (by decide)
    rfl (show restart _ .fine _ _ = some _ from rfl) 2 [7] rfl
  ⟨_, _, rfl, rfl, rfl, hrun⟩

/-- A file is written, and the daemon crashes while it is renamed: its cache file has been moved,
and its row names the old place. -/
theorem not_recovered_renameMoved :
    ¬∀ (m : Mount) (now : ℕ) (evs : List Event) (x : World × LocalBytes) (point : CrashPoint)
      (disk : Db × CacheFs) (w : World),
      run (localStep m) (World.init m now, LocalBytes.none) evs = some x →
        point.disk m x.1 = some disk → restart m .fine x.1.remote disk = some w →
          ∀ i b, x.2.due i = some b → Recovered w i b := by
  intro h
  obtain ⟨r, p, hr, -, hp, hfile, -⟩ := h sampleMount 0 (uploadFirst.take 3) _
    (.rename fuseRootInode ['a'] fuseRootInode ['b'] true) _ _ rfl rfl rfl 2 [7] rfl
  obtain rfl := Option.some.inj hr
  obtain rfl := Option.some.inj hp
  cases hfile

end Stratosync

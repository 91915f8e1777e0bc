import Stratosync.Cache.Clear
import Stratosync.Cache.Converges
import Stratosync.Fuse.ReportedSizes

/-!
# Pinned files

A pin is to last until the file is unpinned or deleted, and to keep the eviction and a clear from
the cache file. Both look at the pin when they pick what to drop. The eviction does not look again
before it removes the file and deletes the entry of `cache_lru`, pin and all; neither does a clear
before it removes the files it has picked, nor the revert of a row whose cache file is missing.
`pinsKept_iff` is that no other step of the system breaks a pin.
-/

namespace Stratosync

open Db Foundations.Runs

/-! ## The entries that steps delete -/

namespace World

variable (w : World)

/-- The inode whose entry in `cache_lru` a step deletes though its row stays. -/
def unpins : Event → Option Inode
  | .eviction env =>
    if env.fault then none
    else
      match w.eviction with
      | some ⟨_, _, .evicted c _ _⟩ => some c.inode
      | _ => none
  | .upload k env =>
    if env.fault then none
    else
      match w.uploads[k]? with
      | some ⟨i, .revert cachePath⟩ =>
        if (w.db.getByInode i).any (isDirtyAt cachePath) then some i else none
      | _ => none
  | _ => none

/-- The cache file the eviction is about to remove. -/
def evictedFile : Event → Option PathBuf
  | .eviction env =>
    if env.fault then none
    else
      match w.eviction with
      | some ⟨_, _, .remove c _ _⟩ => some c.cachePath
      | _ => none
  | _ => none

end World

section Steps

variable {m : Mount} {w w' : World} {k : ℕ} {env : Env} {ev : Event}

theorem lruStep_logDb {o : Option Db} (h : ∀ db, o = some db → LruStep ∅ w.db db) :
    LruStep ∅ w.db (w.logDb env o).db := by
  rw [World.logDb]
  cases ho : World.tryDb env o with
  | none => exact .refl
  | some db => exact h db (tryDb_eq_some.1 ho).2

theorem lruStep_fuse (c : FuseCall) : LruStep ∅ w.db (c.tick w env).db := by
  cases c with
  | write i n => exact lruStep_logDb fun db h => lruStep_setDirtySize h
  | setattr i n cp =>
    simp only [FuseCall.tick, World.enqueue]
    split
    · exact .refl
    · rename_i db h
      obtain ⟨-, h⟩ := tryDb_eq_some.1 h
      cases cp with
      | none => exact lruStep_setDirtySize h
      | some cp => exact lruStep_setDirtyWithCachePath h

theorem revertDirtyWithMissingCache_isSome (db : Db) (i : Inode) (p : PathBuf) :
    (db.revertDirtyWithMissingCache i p).isSome = true := by
  rw [revertDirtyWithMissingCache]
  split
  · rw [Option.isSome_map]
    exact updateRow_isSome (fun _ => ⟨rfl, rfl, rfl, rfl, rfl, rfl⟩) fun _ _ _ hc => by cases hc
  · rfl

/-- The revert of a row is the only call of an upload that deletes an entry. -/
theorem lruStep_revert {i : Inode} {cp : PathBuf} (hu : w.uploads[k]? = some ⟨i, .revert cp⟩) :
    LruStep {j | w.unpins (.upload k env) = some j} w.db
      (Upload.tick w i env (.revert cp)).1.db := by
  simp only [Upload.tick, World.unpins, hu]
  cases hf : env.fault with
  | true => simpa using LruStep.refl
  | false =>
    obtain ⟨⟨b, db⟩, h⟩ := Option.isSome_iff_exists.1
      (revertDirtyWithMissingCache_isSome w.db i cp)
    have hstep := lruStep_revertDirtyWithMissingCache h
    have hlost : {j | (if (w.db.getByInode i).any (isDirtyAt cp) = true then some i else none) =
        some j} = {j | j = i ∧ (w.db.getByInode i).any (isDirtyAt cp) = true} := by
      ext j
      simp only [Set.mem_ofPred_eq]
      split <;> simp [*, eq_comm]
    simp only [Bool.false_eq_true, if_false, h, hlost]
    cases b <;> exact hstep

theorem lruStep_upload {u : Upload} (hu : w.uploads[k]? = some u) :
    LruStep {i | w.unpins (.upload k env) = some i} w.db
      (Upload.tick w u.inode env u.pc).1.db := by
  obtain ⟨i, pc⟩ := u
  by_cases hrevert : ∃ cp, pc = .revert cp
  · obtain ⟨cp, rfl⟩ := hrevert
    exact lruStep_revert hu
  have hnone : {j | w.unpins (.upload k env) = some j} = ∅ := by
    ext j
    cases pc <;> simp_all [World.unpins]
  rw [hnone]
  cases pc with
  | load =>
    simp only [Upload.tick]
    repeat' split
    all_goals exact .refl
  | reset s => exact lruStep_logDb fun db h => lruStep_setStatus h
  | check e cp => exact .refl
  | revert cp => exact absurd ⟨cp, rfl⟩ hrevert
  | mark e cp =>
    simp only [Upload.tick]
    split
    · exact .refl
    · exact lruStep_setStatus (tryDb_eq_some.1 ‹_›).2
  | read e cp =>
    simp only [Upload.tick]
    split <;> exact .refl
  | put e data =>
    simp only [Upload.tick]
    repeat' split
    all_goals exact .refl
  | stat e =>
    simp only [Upload.tick]
    split <;> exact .refl
  | record md =>
    simp only [Upload.tick]
    split
    · exact .refl
    · exact lruStep_setUploaded (tryDb_eq_some.1 ‹_›).2
  | finish result =>
    unfold Upload.tick
    split <;> rename_i heq <;> cases heq
    · exact .refl
    · split <;> exact .refl
    · split <;> exact lruStep_logDb fun db h => lruStep_setStatus h

theorem lruStep_hydration (i : Inode) (pc : HydrationPc) :
    LruStep ∅ w.db (Hydration.tick m w i env pc).1.db := by
  cases pc with
  | wait a signal =>
    cases signal with
    | some b => cases b <;> exact .refl
    | none =>
      simp only [Hydration.tick]
      split <;> exact lruStep_logDb fun db h => lruStep_setStatus h
  | claim e =>
    simp only [Hydration.tick]
    split
    · exact .refl
    · exact lruStep_setStatus (tryDb_eq_some.1 ‹_›).2
  | record e cp =>
    simp only [Hydration.tick]
    repeat' split
    any_goals exact .refl
    exact lruStep_setCached (tryDb_eq_some.1 ‹_›).2
  | prune e =>
    simp only [Hydration.tick]
    split
    · exact .refl
    · exact lruStep_deleteEntry (tryDb_eq_some.1 ‹_›).2
  | backfill e id =>
    refine lruStep_logDb fun db h => ?_
    obtain ⟨id', -, h⟩ := Option.bind_eq_some_iff.1 h
    exact lruStep_setItemIdIfAbsent h
  | rollback e er => exact lruStep_logDb fun db h => lruStep_setStatus h
  | enter | register | reload | begin_ | download | install | verify | notify =>
    simp only [Hydration.tick]
    repeat' split
    all_goals exact .refl

theorem lruStep_read (r : Read) : LruStep ∅ w.db (Read.tick m w env r).1.db := by
  have htouch : ∀ (w₁ : World) (i : Inode), w₁.db = w.db →
      LruStep ∅ w.db (w₁.logDb env (w.db.touchLru i)).db := by
    intro w₁ i hw
    rw [World.logDb, hw]
    exact lruStep_logDb fun db h => lruStep_touchLru h
  simp only [Read.tick]
  split
  case h_3 f hpc =>
    split
    · exact .refl
    · exact lruStep_setStatus (tryDb_eq_some.1 ‹_›).2
  all_goals try (repeat' split)
  all_goals first
    | exact .refl
    | exact htouch _ _ rfl

/-- Recording an eviction is the only call of it that deletes an entry. -/
theorem lruStep_eviction {e : Eviction} (he : w.eviction = some e) :
    LruStep {i | w.unpins (.eviction env) = some i} w.db (e.tick m w env).1.db := by
  obtain ⟨toFree, freed, pc⟩ := e
  by_cases hpc : ∃ c rest n, pc = .evicted c rest n
  · obtain ⟨c, rest, n, rfl⟩ := hpc
    simp only [Eviction.tick, World.unpins, he]
    cases hf : env.fault with
    | true => simpa [World.tryDb, hf] using LruStep.refl
    | false =>
      obtain ⟨db, h⟩ := Option.isSome_iff_exists.1 (setEvicted_isSome w.db c.inode)
      have hlost : {i | some c.inode = some i} = {c.inode} := by
        ext i
        simp [eq_comm]
      have htry : World.tryDb env (w.db.setEvicted c.inode) = some db := by
        rw [World.tryDb, if_neg (by simp [hf]), h]
      simp only [Bool.false_eq_true, if_false, htry, hlost]
      exact lruStep_setEvicted h
  · have hnone : {i | w.unpins (.eviction env) = some i} = ∅ := by
      ext j
      cases pc <;> simp_all [World.unpins]
    rw [hnone]
    unfold Eviction.tick
    split
    case h_5 c rest n hpc' => exact absurd ⟨c, rest, n, hpc'⟩ hpc
    all_goals try (repeat' split)
    all_goals exact .refl

theorem lruStep_background (b : Background) :
    LruStep ∅ w.db (Background.tick m w env b).1.db := by
  unfold Background.tick
  split <;> try (repeat' split) <;> exact lruStep_of_eq rfl ⟨rfl, fun _ => rfl⟩

theorem lruStep_dropDestination (db : Db) (mountId : ℕ) (p : Inode) (n : Str) :
    LruStep ∅ db (dropDestination db mountId p n).1 := by
  rw [dropDestination]
  split
  · exact .refl
  · rename_i dest _
    cases h : db.deleteEntry dest.inode with
    | none => exact .refl
    | some db' => exact lruStep_deleteEntry h

theorem lruStep_tombstone {db db' : Db} (h : LruStep ∅ db db') {mountId ttl : ℕ} {path : Str} :
    LruStep ∅ db (db'.insertTombstone mountId path ttl) :=
  h.trans (lruStep_of_eq rfl ⟨rfl, fun _ => rfl⟩)

theorem lruStep_serve (r : Request) : LruStep ∅ w.db (serve m w r).db := by
  cases r with
  | write fh offset data =>
    simp only [serve, handleWrite]
    repeat' split
    all_goals exact .refl
  | setattr i n =>
    simp only [serve, handleSetattr]
    repeat' split
    all_goals exact .refl
  | open_ i =>
    simp only [serve, handleOpen, World.allocFh]
    repeat' split
    any_goals exact .refl
    · exact lruStep_setStatus ‹_›
    · exact lruStep_logDb fun db h => lruStep_touchLru h
  | release fh =>
    simp only [serve, handleRelease]
    repeat' split
    all_goals exact .refl
  | fsync fh =>
    simp only [serve, handleFsync]
    split <;> exact .refl
  | read fh offset size => exact .refl
  | create p n =>
    simp only [serve, handleCreate, World.allocFh]
    repeat' split
    any_goals exact .refl
    exact lruStep_insertFile ‹_›
  | mkdir p n =>
    simp only [serve, handleMkdir]
    repeat' split
    any_goals exact .refl
    exact lruStep_insertFile ‹_›
  | unlink p n =>
    simp only [serve, handleUnlink]
    repeat' split
    any_goals exact .refl
    exact lruStep_tombstone (lruStep_deleteEntry ‹_›)
  | rmdir p n =>
    simp only [serve, handleRmdir]
    repeat' split
    any_goals exact .refl
    exact lruStep_tombstone (lruStep_deleteEntry ‹_›)
  | rename p n p' n' =>
    have hdrop := lruStep_dropDestination w.db m.mountId p' n'
    simp only [serve, handleRename]
    split
    · exact .refl
    split
    · exact .refl
    split
    · exact .refl
    split
    · exact hdrop
    rename_i db h
    have hstep : LruStep ∅ w.db db := hdrop.trans (lruStep_renameEntry h)
    split
    · exact lruStep_tombstone hstep
    · exact hstep

/-- **What a step does to the pins.** -/
theorem lruStep_of_step (h : step m w ev = some w') :
    LruStep {i | w.unpins ev = some i} w.db w'.db := by
  have hnone : ∀ {ev}, w.unpins ev = none → {i | w.unpins ev = some i} = ∅ := by
    intro ev hev
    ext i
    simp [hev]
  cases ev with
  | request r =>
    rw [(step_request h).2, hnone rfl]
    exact lruStep_serve r
  | fuse env =>
    obtain ⟨c, -, rfl⟩ := Option.map_eq_some_iff.1 h
    rw [hnone rfl]
    exact lruStep_fuse c
  | launch i =>
    obtain rfl := step_launch h
    rw [hnone rfl]
    exact .refl
  | upload k env =>
    obtain ⟨u, hu, rfl⟩ := Option.map_eq_some_iff.1 h
    exact lruStep_upload hu
  | hydration k env =>
    obtain ⟨x, -, rfl⟩ := Option.map_eq_some_iff.1 h
    have hstep : LruStep ∅ w.db (Hydration.tick m w x.inode env x.pc).1.db :=
      lruStep_hydration x.inode x.pc
    rw [hnone rfl]
    dsimp only
    split <;> exact hstep
  | read k env =>
    obtain ⟨x, -, rfl⟩ := Option.map_eq_some_iff.1 h
    have hstep : LruStep ∅ w.db (Read.tick m w env x).1.db := lruStep_read x
    rw [hnone rfl]
    dsimp only
    split <;> exact hstep
  | startEviction =>
    obtain ⟨ev, -, rfl⟩ := step_startEviction h
    rw [hnone rfl]
    exact .refl
  | eviction env =>
    obtain ⟨x, hx, rfl⟩ := Option.map_eq_some_iff.1 h
    exact lruStep_eviction hx
  | background k env =>
    obtain ⟨x, -, rfl⟩ := Option.map_eq_some_iff.1 h
    rw [hnone rfl]
    exact lruStep_background x
  | prefetch parent =>
    rw [← Option.some.inj h, hnone rfl, prefetchSmallFiles]
    split <;> exact .refl
  | poll op =>
    rw [← Option.some.inj h, hnone rfl]
    exact lruStep_applyRemote op w.db
  | foreign e =>
    rw [← Option.some.inj h, hnone rfl]
    exact .refl
  | clock n =>
    rw [← Option.some.inj h, hnone rfl]
    exact lruStep_of_eq rfl ⟨rfl, fun _ => rfl⟩

end Steps

/-! ## Crashes and commands -/

section Commands

variable {m : Mount} {w w' : World} {db db' : Db}

theorem lruStep_of_disk {point : CrashPoint} {disk : Db × CacheFs}
    (h : point.disk m w = some disk) : LruStep ∅ w.db disk.1 := by
  cases crashLeaves_of_disk h with
  | between => exact .refl
  | create _ _ _ _ _ hmade | setattr _ _ _ hmade =>
    rw [(disk_of_made hmade).1]
    exact .refl
  | rename => exact lruStep_dropDestination _ _ _ _

theorem lruStep_sweep {p : FileEntry → Bool} {f : FileEntry → FileEntry} {fault : Bool}
    (hf : ∀ r, (f r).inode = r.inode) :
    LruStep ∅ db (if fault then db else (db.updateWhere p f).getD db) := by
  split
  · exact .refl
  · cases h : db.updateWhere p f with
    | none => exact .refl
    | some db' => exact lruStep_updateWhere h hf

/-- The start-up leaves the pins. -/
theorem lruStep_of_restart {env : StartEnv} {remote : Remote} {disk : Db × CacheFs}
    (h : restart m env remote disk = some w') : LruStep ∅ disk.1 w'.db := by
  rw [restart] at h
  split at h
  · cases h
  obtain ⟨db₁, h₁, rfl⟩ := Option.map_eq_some_iff.1 h
  have hreset : LruStep ∅ disk.1 db₁ := lruStep_updateWhere h₁ fun _ => rfl
  have hdirs : ∀ db : Db, LruStep ∅ db
      (if env.directoriesFault then db else db.resetStuckDirtyDirectories.getD db) := by
    unfold Db.resetStuckDirtyDirectories
    exact fun db => lruStep_sweep fun _ => rfl
  have hfiles : ∀ db : Db, LruStep ∅ db
      (if env.filesFault then db else db.resetStuckDirtyFilesWithoutCachePath.getD db) := by
    unfold Db.resetStuckDirtyFilesWithoutCachePath
    exact fun db => lruStep_sweep fun _ => rfl
  exact (hreset.trans (hdirs _)).trans (hfiles _)

/-- Entries of inodes that are not pinned are deleted. -/
theorem lruStep_foldl_dropLru {rows : List FileEntry} (h : LruStep ∅ db db')
    (hrows : ∀ r ∈ rows, db.isPinned r.inode = false) :
    LruStep ∅ db (rows.foldl (fun d r => d.dropLru r.inode) db') := by
  induction rows generalizing db' with
  | nil => exact h
  | cons r rows ih =>
    obtain ⟨hr, hrows⟩ := List.forall_mem_cons.1 hrows
    have hdrop := lruStep_dropLru (i := r.inode) h
    refine ih { hdrop with kept := fun i hi _ hp hs => ?_, gone := fun _ hi => hi.elim } hrows
    refine hdrop.kept i hi (fun he => ?_) hp hs
    obtain rfl : i = r.inode := he
    rw [hr] at hp
    cases hp

/-- **A clear that excludes pinned files leaves the pins.** -/
theorem lruStep_clear {mountId : ℕ} {report : CacheClearReport}
    (h : db.clearCacheForMount mountId false = some (report, db')) : LruStep ∅ db db' := by
  obtain ⟨db₁, h₁, he⟩ := Option.map_eq_some_iff.1 h
  rw [← (Prod.mk.inj he).2]
  refine lruStep_foldl_dropLru (lruStep_updateWhere h₁ fun _ => rfl) fun r hr => ?_
  have hclears := (List.mem_filter.1 hr).2
  simpa using (Bool.and_eq_true_iff.1 hclears).2

/-- `set_pinned` sets the flag of its inode and no other. -/
theorem setPinned_spec {i : Inode} {pinned : Bool} (h : db.setPinned i pinned = some db') :
    (∀ j, db'.isPinned j = if j = i then pinned else db.isPinned j) ∧
      (db.LruRows → db'.LruRows) := by
  rw [Db.setPinned] at h
  split at h
  · cases h
  rename_i hrow
  have hsome : (db.getByInode i).isSome = true :=
    Option.isSome_iff_ne_none.2 (by simpa using hrow)
  split at h <;> rw [← Option.some.inj h]
  · rename_i hany
    refine ⟨fun j => ?_, fun hk l hl => ?_⟩
    · have hentry : ∀ l : LruEntry,
          (decide ((if l.inode = i then { l with pinned } else l).inode = j) &&
            (if l.inode = i then { l with pinned } else l).pinned) =
          (decide (l.inode = j) && if j = i then pinned else l.pinned) := by
        intro l
        by_cases hl : l.inode = i
        · by_cases hj : j = i
          · simp [hl, hj]
          · simp [hl, Ne.symm hj]
        · by_cases hj : j = i
          · simp [hl, hj]
          · simp [hl, hj]
      simp only [isPinned, List.any_map, Function.comp_def, hentry]
      by_cases hj : j = i
      · subst hj
        cases pinned with
        | false => simp
        | true => simpa using hany
      · simp [hj]
    · obtain ⟨q, hq, rfl⟩ := List.mem_map.1 hl
      have hkey : (db.getByInode q.inode).isSome = true := hk q hq
      split <;> exact hkey
  · rename_i hany
    refine ⟨fun j => ?_, fun hk l hl => ?_⟩
    · have hnone : db.isPinned i = false := by
        rw [Bool.eq_false_iff]
        intro hp
        obtain ⟨l, hl, hi, -⟩ := isPinned_iff.1 hp
        exact hany (List.any_eq_true.2 ⟨l, hl, by simpa using hi⟩)
      have happend : ∀ l : LruEntry, Db.isPinned { db with cacheLru := db.cacheLru ++ [l] } j =
          (db.isPinned j || decide (l.inode = j) && l.pinned) := by
        intro l
        simp [isPinned]
      rw [happend]
      by_cases hj : j = i
      · simp [hj, hnone]
      · simp [hj, Ne.symm hj]
    · obtain hl | hl := List.mem_append.1 hl
      · exact hk l hl
      · obtain rfl := List.mem_singleton.1 hl
        exact hsome

end Commands

/-! ## The guarantee -/

/-- A step of the system in which a clear excludes the pinned files. -/
def pinStep (m : Mount) (s : CacheState) : CacheEvent → Option CacheState
  | .clear true => none
  | e => cacheStep m s e

/-- The inodes that have been pinned, and not unpinned or deleted since. -/
def pinHistory (_ : CacheState) (e : CacheEvent) (s' : CacheState) (pins : Set Inode) : Set Inode :=
  match e with
  | .pin i true => insert i pins
  | .pin i false => {j ∈ pins | j ≠ i}
  | _ => {i ∈ pins | (s'.world.db.getByInode i).isSome = true}

/-- The steps of the eviction and of a clear. -/
def CacheEvent.reclaims : CacheEvent → Prop
  | .life (.daemon (.eviction _)) | .clear _ | .unlink _ => True
  | _ => False

/-- What was pinned is pinned, and an eviction or a clear has left the cache files of what was
pinned before. -/
def PinsKept (x : CacheState × Set Inode) (e : CacheEvent) (y : CacheState × Set Inode) : Prop :=
  (∀ i ∈ y.2, y.1.world.db.isPinned i = true) ∧
    (e.reclaims → ∀ i ∈ x.2, ∀ r ∈ x.1.world.db.getByInode i, ∀ p ∈ r.cachePath,
      ∀ b ∈ x.1.world.fs.files p, y.1.world.fs.files p = some b)

namespace CacheState

variable (s : CacheState)

/-- The file that a step of the eviction or of a clear removes. -/
def reclaimedFile : CacheEvent → Option PathBuf
  | .life (.daemon ev) => s.world.evictedFile ev
  | .unlink k => s.unlinks[k]?
  | _ => none

/-- The inode whose entry in `cache_lru` a step deletes though its row stays. -/
def unpins : CacheEvent → Option Inode
  | .life (.daemon ev) => s.world.unpins ev
  | _ => none

/-- The step deletes no entry of a pinned inode, and removes no file that the row of a pinned
inode records. -/
def SparesPins (e : CacheEvent) : Prop :=
  (∀ i ∈ s.unpins e, s.world.db.isPinned i = false) ∧
    ∀ p ∈ s.reclaimedFile e, ∀ i r, s.world.db.isPinned i = true →
      s.world.db.getByInode i = some r → r.cachePath = some p → s.world.fs.files p = none

end CacheState

section Guarantee

variable {m : Mount} {s s' : CacheState} {e : CacheEvent} {pins : Set Inode}

theorem files_of_removeIfPresent (fs : CacheFs) (o : Option PathBuf) (p : PathBuf) :
    (fs.removeIfPresent o).files p = if o = some p then none else fs.files p := by
  cases o with
  | none => rfl
  | some q =>
    rw [CacheFs.removeIfPresent, Option.bind_some]
    cases h : fs.remove q with
    | none =>
      rw [Option.getD_none]
      split
      · rename_i hq
        obtain rfl := Option.some.inj hq
        exact Option.map_eq_none_iff.1 h
      · rfl
    | some fs' =>
      rw [Option.getD_some, CacheFs.files_of_remove h]
      simp only [Option.some.injEq, eq_comm]

/-- The file that a step of the eviction removes. -/
theorem fs_of_eviction {w w' : World} {env : Env} (h : step m w (.eviction env) = some w') :
    w'.fs = w.fs.removeIfPresent (w.evictedFile (.eviction env)) := by
  obtain ⟨⟨toFree, freed, pc⟩, he, rfl⟩ := Option.map_eq_some_iff.1 h
  change (Eviction.tick m w env ⟨toFree, freed, pc⟩).1.fs = _
  have hnone : (∀ c rest n, pc ≠ .remove c rest n) → w.evictedFile (.eviction env) = none := by
    intro hpc
    simp only [World.evictedFile, he]
    cases pc with
    | remove c rest n => exact absurd rfl (hpc c rest n)
    | query | recheck | evicted => split <;> rfl
  cases pc with
  | query =>
    rw [hnone (by rintro _ _ _ ⟨⟩)]
    simp only [Eviction.tick]
    repeat' split
    all_goals rfl
  | recheck cs n =>
    rw [hnone (by rintro _ _ _ ⟨⟩)]
    cases cs with
    | nil => rfl
    | cons c cs =>
      simp only [Eviction.tick]
      repeat' split
      all_goals rfl
  | remove c rest n =>
    simp only [Eviction.tick, World.evictedFile, he]
    cases env.fault <;> rfl
  | evicted c rest n =>
    rw [hnone (by rintro _ _ _ ⟨⟩)]
    simp only [Eviction.tick]
    split <;> rfl

/-- The cache files after a step of the eviction or of a clear. -/
theorem files_of_reclaims (h : pinStep m s e = some s') (he : e.reclaims) (p : PathBuf) :
    s'.world.fs.files p =
      if s.reclaimedFile e = some p then none else s.world.fs.files p := by
  cases e with
  | life e =>
    obtain ⟨w', hw', rfl⟩ := Option.map_eq_some_iff.1 h
    cases e with
    | daemon ev =>
      cases ev with
      | eviction env =>
        change w'.fs.files p = _
        rw [fs_of_eviction hw', files_of_removeIfPresent]
        rfl
      | _ => exact he.elim
    | restart => exact he.elim
  | pin => exact he.elim
  | clear includePinned =>
    cases includePinned with
    | true => cases h
    | false =>
      obtain ⟨x, -, rfl⟩ := Option.map_eq_some_iff.1 h
      rfl
  | unlink k =>
    obtain ⟨q, hq, rfl⟩ := Option.map_eq_some_iff.1 h
    change (s.world.fs.removeIfPresent (some q)).files p = if s.unlinks[k]? = some p then _ else _
    rw [files_of_removeIfPresent, hq]

/-- Every step but `set_pinned` leaves the pins of the rows it leaves, except for those it deletes
the entries of. -/
theorem lruStep_of_pinStep (h : pinStep m s e = some s') (hpin : ∀ i b, e ≠ .pin i b) :
    LruStep {i | s.unpins e = some i} s.world.db s'.world.db := by
  have hnone : {i | (none : Option Inode) = some i} = ∅ := by
    ext i
    simp
  cases e with
  | life e =>
    obtain ⟨w', hw', rfl⟩ := Option.map_eq_some_iff.1 h
    cases e with
    | daemon ev => exact lruStep_of_step hw'
    | restart point env =>
      obtain ⟨disk, hdisk, hstart⟩ := Option.bind_eq_some_iff.1 hw'
      change LruStep {i | (none : Option Inode) = some i} _ _
      rw [hnone]
      exact (lruStep_of_disk hdisk).trans (lruStep_of_restart hstart)
  | pin i b => exact absurd rfl (hpin i b)
  | clear includePinned =>
    cases includePinned with
    | true => cases h
    | false =>
      obtain ⟨⟨report, db⟩, hx, rfl⟩ := Option.map_eq_some_iff.1 h
      change LruStep {i | (none : Option Inode) = some i} _ _
      rw [hnone]
      exact lruStep_clear hx
  | unlink k =>
    obtain ⟨q, -, rfl⟩ := Option.map_eq_some_iff.1 h
    change LruStep {i | (none : Option Inode) = some i} _ _
    rw [hnone]
    exact .refl

/-- What holds in every state of a run that has kept the pins. -/
structure PinsInv (x : CacheState × Set Inode) : Prop where
  keys : x.1.world.db.LruRows
  bounded : InodesBounded x.1.world
  pins : ∀ i, i ∈ x.2 ↔ x.1.world.db.isPinned i = true

theorem PinsInv.le_seq (hx : PinsInv (s, pins)) {i : Inode}
    (hi : s.world.db.isPinned i = true) : i ≤ s.world.db.seq := by
  obtain ⟨r, hr⟩ := Option.isSome_iff_exists.1 (hx.keys.isSome hi)
  exact hx.bounded i r hr

theorem mem_pinHistory (hpin : ∀ i b, e ≠ .pin i b) {i : Inode} :
    i ∈ pinHistory s e s' pins ↔ i ∈ pins ∧ (s'.world.db.getByInode i).isSome = true := by
  cases e with
  | pin i b => exact absurd rfl (hpin i b)
  | _ => exact .rfl

/-- A row whose entry is deleted alone is there after the step. -/
theorem isSome_of_unpins (h : pinStep m s e = some s') {i : Inode} (hi : s.unpins e = some i)
    (hr : (s.world.db.getByInode i).isSome = true) :
    (s'.world.db.getByInode i).isSome = true := by
  obtain ⟨r, hr⟩ := Option.isSome_iff_exists.1 hr
  cases e with
  | life e =>
    obtain ⟨w', hw', rfl⟩ := Option.map_eq_some_iff.1 h
    cases e with
    | daemon ev =>
      have hrow := row_of_step hw' hr
      change (w'.db.getByInode i).isSome = true
      generalize w'.db.getByInode i = o at hrow
      cases ev with
      | eviction env => cases hrow <;> rfl
      | upload k env => cases hrow <;> rfl
      | _ => cases hi
    | restart => cases hi
  | _ => cases hi

theorem inodesBounded_of_pinStep (h : pinStep m s e = some s') (hs : InodesBounded s.world) :
    InodesBounded s'.world := by
  cases e with
  | life e =>
    obtain ⟨w', hw', rfl⟩ := Option.map_eq_some_iff.1 h
    cases e with
    | daemon ev => exact hs.step hw'
    | restart point env =>
      obtain ⟨disk, hdisk, hstart⟩ := Option.bind_eq_some_iff.1 hw'
      intro i r' hr'
      obtain ⟨r, hr⟩ := exists_of_restart hstart hr'
      change i ≤ w'.db.seq
      rw [seq_of_restart hstart, seq_of_disk hdisk]
      exact hs i r (getByInode_of_disk hdisk hr)
  | pin i b =>
    obtain ⟨db, hdb, rfl⟩ := Option.map_eq_some_iff.1 h
    have hsame := sameRows_of_setPinned hdb
    intro i r hr
    change i ≤ db.seq
    exact hsame.seq.symm ▸ hs i r (hsame.rows i ▸ hr)
  | clear includePinned =>
    cases includePinned with
    | true => cases h
    | false =>
      obtain ⟨⟨report, db⟩, hx, rfl⟩ := Option.map_eq_some_iff.1 h
      intro i r' hr'
      have hseq : s.world.db.seq ≤ db.seq := (lruStep_clear hx).seq
      obtain ⟨r, hr, -⟩ := Option.map_eq_some_iff.1
        ((getByInode_clearCacheForMount hx i).symm.trans hr')
      exact (hs i r hr).trans hseq
  | unlink k =>
    obtain ⟨q, -, rfl⟩ := Option.map_eq_some_iff.1 h
    exact hs

/-- **The pins after a step** that deletes no entry of a pinned inode. -/
theorem isPinned_of_pinStep (hx : PinsInv (s, pins)) (h : pinStep m s e = some s')
    (hspare : ∀ i ∈ s.unpins e, s.world.db.isPinned i = false) {i : Inode}
    (hi : i ∈ pinHistory s e s' pins) : s'.world.db.isPinned i = true := by
  by_cases hpin : ∃ j b, e = .pin j b
  · obtain ⟨j, b, rfl⟩ := hpin
    obtain ⟨db, hdb, rfl⟩ := Option.map_eq_some_iff.1 h
    change db.isPinned i = true
    rw [(setPinned_spec hdb).1]
    cases b with
    | true =>
      obtain rfl | hi := hi
      · rw [if_pos rfl]
      · split
        · rfl
        · exact (hx.pins i).1 hi
    | false =>
      have hne : i ≠ j := hi.2
      rw [if_neg hne]
      exact (hx.pins i).1 hi.1
  · have hpin : ∀ j b, e ≠ .pin j b := fun j b he => hpin ⟨j, b, he⟩
    obtain ⟨hi, hrow⟩ := (mem_pinHistory hpin).1 hi
    have hp := (hx.pins i).1 hi
    refine (lruStep_of_pinStep h hpin).kept i (hx.le_seq hp) (fun hl => ?_) hp hrow
    rw [hspare i hl] at hp
    cases hp

/-- **A step keeps the pins** when it spares them. -/
theorem pinsKept_of_sparesPins (hx : PinsInv (s, pins)) (h : pinStep m s e = some s')
    (hspare : s.SparesPins e) : PinsKept (s, pins) e (s', pinHistory s e s' pins) := by
  refine ⟨fun i hi => isPinned_of_pinStep hx h hspare.1 hi, ?_⟩
  intro hrec i hi r hr p hp b hb
  change s'.world.fs.files p = some b
  rw [files_of_reclaims h hrec, if_neg fun he => ?_]
  · exact hb
  · have hnone := hspare.2 p he i r ((hx.pins i).1 hi) hr hp
    rw [hnone] at hb
    cases hb

/-- A step that keeps the pins has spared them. -/
theorem sparesPins_of_pinsKept (hx : PinsInv (s, pins)) (h : pinStep m s e = some s')
    (hkept : PinsKept (s, pins) e (s', pinHistory s e s' pins)) : s.SparesPins e := by
  constructor
  · intro i hi
    rw [Bool.eq_false_iff]
    intro hp
    have hpin : ∀ j b, e ≠ .pin j b := by
      rintro j b rfl
      cases hi
    have hrow := isSome_of_unpins h hi (hx.keys.isSome hp)
    have hp' := hkept.1 i ((mem_pinHistory (s := s) hpin).2 ⟨(hx.pins i).2 hp, hrow⟩)
    rw [(lruStep_of_pinStep h hpin).gone i hi] at hp'
    cases hp'
  · intro p hp i r hpinned hr hcp
    have hrec : e.reclaims := by
      cases e with
      | life e =>
        cases e with
        | daemon ev =>
          cases ev with
          | eviction env => trivial
          | _ => cases hp
        | restart => cases hp
      | pin => cases hp
      | clear => trivial
      | unlink => trivial
    cases hb : s.world.fs.files p with
    | none => rfl
    | some b =>
      have hkeep := hkept.2 hrec i ((hx.pins i).2 hpinned) r hr p hcp b hb
      change s'.world.fs.files p = some b at hkeep
      rw [files_of_reclaims h hrec, if_pos (Option.mem_def.1 hp)] at hkeep
      cases hkeep

theorem PinsInv.step (hx : PinsInv (s, pins)) (h : pinStep m s e = some s')
    (hkept : ∀ i ∈ pinHistory s e s' pins, s'.world.db.isPinned i = true) :
    PinsInv (s', pinHistory s e s' pins) := by
  by_cases hpin : ∃ j b, e = .pin j b
  · obtain ⟨j, b, rfl⟩ := hpin
    obtain ⟨db, hdb, rfl⟩ := Option.map_eq_some_iff.1 h
    refine ⟨(setPinned_spec hdb).2 hx.keys, inodesBounded_of_pinStep h hx.bounded,
      fun i => ⟨hkept i, fun hp => ?_⟩⟩
    change db.isPinned i = true at hp
    rw [(setPinned_spec hdb).1] at hp
    cases b with
    | true =>
      split at hp
      · exact .inl ‹_›
      · exact .inr ((hx.pins i).2 hp)
    | false =>
      split at hp
      · cases hp
      · exact ⟨(hx.pins i).2 hp, ‹_›⟩
  · have hpin : ∀ j b, e ≠ .pin j b := fun j b he => hpin ⟨j, b, he⟩
    have hstep := lruStep_of_pinStep h hpin
    have hkeys := hstep.keys hx.keys
    refine ⟨hkeys, inodesBounded_of_pinStep h hx.bounded, fun i => ⟨hkept i, fun hp => ?_⟩⟩
    exact (mem_pinHistory (s := s) hpin).2 ⟨(hx.pins i).2 (hstep.old i hp), hkeys.isSome hp⟩

end Guarantee

/-- **Pins last and keep their files** along a run if and only if no step deletes the entry of a
pinned inode or removes a file that such an inode records. -/
theorem pinsKept_iff (m : Mount) (now : ℕ) (es : List CacheEvent) :
    Along (withHistory (pinStep m) pinHistory) PinsKept (CacheState.init m now, ∅) es ↔
      Along (withHistory (pinStep m) pinHistory) (fun x e _ => x.1.SparesPins e)
        (CacheState.init m now, ∅) es := by
  refine along_congr_of_inv (I := PinsInv) ?_ ?_ es ?_
  · rintro ⟨s, pins⟩ e ⟨s', pins'⟩ hx h
    obtain ⟨h, hpins⟩ := withHistory_eq_some.1 h
    change pins' = pinHistory s e s' pins at hpins
    subst hpins
    exact ⟨sparesPins_of_pinsKept hx h, pinsKept_of_sparesPins hx h⟩
  · rintro ⟨s, pins⟩ e ⟨s', pins'⟩ hx h hkept
    obtain ⟨h, hpins⟩ := withHistory_eq_some.1 h
    change pins' = pinHistory s e s' pins at hpins
    subst hpins
    exact hx.step h hkept.1
  · refine ⟨fun l hl => ?_, inodesBounded_init m now, fun i => iff_of_false id ?_⟩
    · cases hl
    · exact Bool.false_ne_true

/-- A file is hydrated, the eviction picks it and looks at its status, and it is pinned. -/
def pinPicked : List CacheEvent :=
  hydrateListed.map .life ++ [.life (.daemon .startEviction), .life (.daemon (.eviction .fine)),
    .life (.daemon (.eviction .fine)), .pin 2 true]

/-- The next step removes the cache file, of one byte. -/
theorem not_pinsKept_pinPicked :
    ¬∀ (m : Mount) (now : ℕ) (es : List CacheEvent),
      Along (withHistory (pinStep m) pinHistory) PinsKept (CacheState.init m now, ∅) es := by
  intro h
  obtain ⟨s, s', pins, r, p, hrun, hstep, hr, hp, hb, hgone⟩ : ∃ s s' pins r p,
      run (withHistory (pinStep sampleMount) pinHistory) (CacheState.init sampleMount 0, ∅)
          pinPicked = some (s, insert 2 pins) ∧
        pinStep sampleMount s (.life (.daemon (.eviction .fine))) = some s' ∧
        s.world.db.getByInode 2 = some r ∧ r.cachePath = some p ∧
        s.world.fs.files p = some [1] ∧ s'.world.fs.files p = none :=
    ⟨_, _, _, _, _, rfl, rfl, rfl, rfl, rfl, rfl⟩
  have hlast := (h sampleMount 0
    (pinPicked ++ [.life (.daemon (.eviction .fine))])).drop hrun
  have hnext : withHistory (pinStep sampleMount) pinHistory (s, insert 2 pins)
      (.life (.daemon (.eviction .fine))) =
        some (s', pinHistory s (.life (.daemon (.eviction .fine))) s' (insert 2 pins)) :=
    withHistory_eq_some.2 ⟨hstep, rfl⟩
  have hkept := (hlast _ hnext).1.2 trivial 2 (.inl rfl) r hr p hp [1] hb
  change s'.world.fs.files p = some [1] at hkept
  rw [hgone] at hkept
  cases hkept

end Stratosync

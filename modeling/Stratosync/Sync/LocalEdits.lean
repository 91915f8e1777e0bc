import Stratosync.Cache.Unshared
import Stratosync.Sync.UnsyncedBytes

/-!
# Only local edits are uploaded

`run_upload` takes whatever row its inode has, unless it is a conflict file, not a file, or has no
cache path. A trigger waits in the queue, and its upload waits for its turn, before the row is
loaded, so a row without a local edit is uploaded in one of two ways: the trigger is of such a row
to begin with (`TriggersEdit`), or the row loses its edit while the trigger waits (`KeepsEdit`).
`onlyLocalEdits_of_run` shows that there is no other way.
-/

namespace Stratosync

open Foundations.Runs Foundations.Pool

/-- Every upload that has loaded its row, and so every file handed to the backend, is of a row that
was dirty or uploading when it was loaded. -/
def OnlyLocalEdits (w : World) : Prop :=
  ∀ u ∈ w.uploads, ∀ e ∈ u.pc.entry, e.status.isUnsynced = true

/-- A row that `run_upload` hands to the backend although it carries no local edit: a file with a
cache path which is cached, stale, hydrating or remote. -/
def FileEntry.uploadedUnedited (r : FileEntry) : Bool :=
  r.kind = .file && r.cachePath.isSome &&
    match r.status with
    | .cached | .stale | .hydrating | .remote => true
    | .dirty | .uploading | .conflict => false

/-- The row is a file with a cache file. -/
def FileEntry.uploadable (r : FileEntry) : Bool := r.kind = .file && r.cachePath.isSome

namespace World

/-- An upload of the inode would be one of a row without a local edit. -/
def unedited (w : World) (i : Inode) : Bool :=
  (w.db.getByInode i).any FileEntry.uploadedUnedited

/-- A trigger of the inode is queued, or an upload of it has yet to load the row. -/
def waits (w : World) (i : Inode) : Bool :=
  w.pending.contains i || w.uploads.any fun u => u.inode = i && u.pc matches .load

/-- The row of an inode that waits has a cache file. -/
def editWaits (w : World) (i : Inode) : Bool :=
  w.waits i && (w.db.getByInode i).any FileEntry.uploadable

end World

/-- The queue is about to try the upload again. -/
def UploadPc.retries : UploadPc → Bool
  | .finish (.error e) => e.isRetryable
  | _ => false

/-- The call may give the row another status, whatever its status is. -/
def HydrationPc.restates : HydrationPc → Bool
  | .claim _ | .wait _ none | .rollback .. => true
  | _ => false

/-- The call gives the row a cache file and marks it as cached. -/
def HydrationPc.cachesFile : HydrationPc → Bool
  | .record .. => true
  | _ => false

/-- A trigger that comes with no mark of the row finds the row with a local edit, or with nothing
to upload: an fsync, a write that could not mark the row, and the retry of an upload that could not
mark it. -/
def TriggersEdit (w : World) (ev : Event) : Prop :=
  match ev with
  | .request (.fsync fh) => ∀ f ∈ w.openFiles fh, w.unedited f.inode = false
  | .fuse env => env.fault = true → ∀ c ∈ w.fuse, w.unedited c.inode = false
  | .upload k env => env.fault = true →
      ∀ u ∈ w.uploads[k]?, u.pc.retries = true → w.unedited u.inode = false
  | _ => True

/-- While an inode waits, no other task gives its row another status or a cache file, and no poll
turns a row with a cache file and without a local edit, such as a conflict file, into a stale
one. -/
def KeepsEdit (w : World) (ev : Event) : Prop :=
  match ev with
  | .upload k _ => ∀ u ∈ w.uploads[k]?, u.pc.settles = true → w.editWaits u.inode = false
  | .hydration k _ => ∀ h ∈ w.hydrations[k]?,
      (h.pc.restates = true → w.editWaits h.inode = false) ∧
        (h.pc.cachesFile = true → w.waits h.inode = false)
  | .read k _ => ∀ r ∈ w.reads[k]?, ∀ f ∈ r.pc.claimed, w.editWaits f.inode = false
  | .poll op => ∀ r ∈ w.db.fileIndex.rows, w.waits r.inode = true →
      (r.cachePath.isSome && !r.status.isUnsynced) = true → ∀ u ∈ op.upserts, ¬Matches u r
  | _ => True

instance (w : World) : (ev : Event) → Decidable (TriggersEdit w ev)
  | .request (.fsync fh) => inferInstanceAs (Decidable (∀ f ∈ w.openFiles fh, _ = false))
  | .fuse env => inferInstanceAs (Decidable (env.fault = true → ∀ c ∈ w.fuse, _ = false))
  | .upload k env =>
    inferInstanceAs (Decidable (env.fault = true → ∀ u ∈ w.uploads[k]?, _ → _ = false))
  | .request (.write ..) | .request (.setattr ..) | .request (.open_ _) | .request (.release _)
  | .request (.read ..) | .request (.create ..) | .request (.mkdir ..) | .request (.unlink ..)
  | .request (.rmdir ..) | .request (.rename ..) | .launch _ | .hydration .. | .read ..
  | .startEviction | .eviction _ | .background .. | .prefetch _ | .poll _ | .foreign _
  | .clock _ => .isTrue trivial

instance (w : World) : (ev : Event) → Decidable (KeepsEdit w ev)
  | .upload k _ => inferInstanceAs (Decidable (∀ u ∈ w.uploads[k]?, _ → _ = false))
  | .hydration k _ => inferInstanceAs (Decidable (∀ h ∈ w.hydrations[k]?, _ ∧ _))
  | .read k _ => inferInstanceAs (Decidable (∀ r ∈ w.reads[k]?, ∀ f ∈ r.pc.claimed, _ = false))
  | .poll _ => inferInstanceAs (Decidable (∀ r ∈ w.db.fileIndex.rows, _))
  | .request _ | .fuse _ | .launch _ | .startEviction | .eviction _ | .background .. | .prefetch _
  | .foreign _ | .clock _ => .isTrue trivial

/-- **Every inode that waits has a local edit**, or nothing that is uploaded. -/
def WaitingEdited (w : World) : Prop := ∀ i, w.waits i = true → w.unedited i = false

/-- No call of an upload leads back to its first. -/
theorem tick_ne_load (w : World) (i : Inode) (env : Env) (pc : UploadPc) :
    (Upload.tick w i env pc).2 ≠ some .load := by
  unfold Upload.tick
  split
  all_goals repeat' split
  all_goals simp

/-- An upload has the row it loaded, which is one that `run_upload` accepts. -/
theorem entry_of_tick {w : World} {i : Inode} {env : Env} {pc pc' : UploadPc} {e : FileEntry}
    (h : (Upload.tick w i env pc).2 = some pc') (he : pc'.entry = some e) :
    pc.entry = some e ∨
      (pc = .load ∧ w.db.getByInode i = some e ∧ e.status ≠ .conflict ∧ e.kind = .file ∧
        e.cachePath.isSome = true) := by
  unfold Upload.tick at h
  split at h
  case h_1 =>
    right
    repeat' split at h
    all_goals obtain rfl := Option.some.inj h
    all_goals simp_all [UploadPc.entry]
  all_goals
    left
    repeat' split at h
    all_goals cases h <;> first | exact he | cases he

/-- A row that `run_upload` accepts and that is not uploaded unedited carries a local edit. -/
theorem isUnsynced_of_accepted {e : FileEntry} (hs : e.status ≠ .conflict) (hk : e.kind = .file)
    (hc : e.cachePath.isSome = true) (hu : e.uploadedUnedited = false) :
    e.status.isUnsynced = true := by
  rw [FileEntry.uploadedUnedited, hk, hc] at hu
  cases hst : e.status <;> simp_all [SyncStatus.isUnsynced]

section Waiting

variable {m : Mount} {w w' : World} {ev : Event} {i : Inode} {r r' : FileEntry}

theorem waits_iff : w.waits i = true ↔ i ∈ w.pending ∨ ⟨i, .load⟩ ∈ w.uploads := by
  rw [World.waits, Bool.or_eq_true, List.contains_iff_mem, List.any_eq_true]
  refine or_congr_right ⟨?_, fun hu => ⟨_, hu, by simp⟩⟩
  rintro ⟨⟨j, pc⟩, hu, hpc⟩
  rw [Bool.and_eq_true, decide_eq_true_eq] at hpc
  obtain ⟨rfl, hload⟩ := hpc
  cases pc <;> first | exact hu | cases hload

theorem unedited_eq_false :
    w.unedited i = false ↔ ∀ r, w.db.getByInode i = some r → r.uploadedUnedited = false := by
  rw [World.unedited, ← Bool.not_eq_true, Option.any_eq_true]
  constructor
  · intro h r hr
    exact Bool.eq_false_iff.2 fun hu => h ⟨r, hr, hu⟩
  · rintro h ⟨r, hr, hu⟩
    exact Bool.eq_false_iff.1 (h r hr) hu

theorem uploadedUnedited_of_unsynced (h : r.status.isUnsynced = true) :
    r.uploadedUnedited = false := by
  rw [FileEntry.uploadedUnedited]
  cases hs : r.status <;> simp_all [SyncStatus.isUnsynced]

theorem uploadedUnedited_of_not_uploadable (h : r.uploadable = false) :
    r.uploadedUnedited = false := by
  rw [FileEntry.uploadable] at h
  rw [FileEntry.uploadedUnedited, h, Bool.false_and]

theorem not_uploadable_of_editWaits (h : w.editWaits i = false) (hw : w.waits i = true)
    (hr : w.db.getByInode i = some r) : r.uploadable = false := by
  rwa [World.editWaits, hw, hr, Bool.true_and] at h

/-- A row that needs hydration and is not uploaded unedited has nothing to upload. -/
theorem not_uploadable_of_needsHydration (hr : r.uploadedUnedited = false)
    (hs : r.status.needsHydration = true) : r.uploadable = false := by
  rw [FileEntry.uploadable]
  cases hst : r.status <;> simp_all [FileEntry.uploadedUnedited, SyncStatus.needsHydration]

theorem isSome_moved (fs : CacheFs) (o : Option PathBuf) (n : Str) :
    (moveCacheFile fs o n).2.isSome = o.isSome := by
  rcases moveCacheFile_snd fs o n with h | ⟨cp, rfl, h⟩ <;> rw [h]
  rfl

/-- A step that keeps the edits leaves a row that waits with its edit. -/
theorem unedited_of_rowStep (hk : KeepsEdit w ev) (hw : w.waits i = true)
    (hr : w.db.getByInode i = some r) (hu : r.uploadedUnedited = false)
    (h : RowStep m w ev i r (some r')) : r'.uploadedUnedited = false := by
  have hsettled : ∀ {j s}, w.editWaits j = false → j = i →
      ({ r with status := s } : FileEntry).uploadedUnedited = false := by
    rintro j s he rfl
    have hn := not_uploadable_of_editWaits he hw hr
    exact uploadedUnedited_of_not_uploadable (r := { r with status := s }) hn
  cases h with
  | same => exact hu
  | dirtied => exact uploadedUnedited_of_unsynced rfl
  | opened hs =>
    have hn := not_uploadable_of_needsHydration hu hs
    exact uploadedUnedited_of_not_uploadable (r := { r with status := .hydrating }) hn
  | renamed =>
    rw [FileEntry.uploadedUnedited] at hu ⊢
    rwa [isSome_moved]
  | reset hup => exact hsettled (hk _ hup rfl) rfl
  | reverted | evicted =>
    exact uploadedUnedited_of_not_uploadable (Bool.and_false _)
  | marked => exact uploadedUnedited_of_unsynced rfl
  | @uploaded _ _ _ _ md hup =>
    have hn := not_uploadable_of_editWaits (hk _ hup rfl) hw hr
    exact uploadedUnedited_of_not_uploadable (r := r.uploaded md) hn
  | failed => exact uploadedUnedited_of_unsynced rfl
  | claimed hh | timedOut hh | rolledBack hh => exact hsettled ((hk _ hh).1 rfl) rfl
  | hydrated hh =>
    rw [(hk _ hh).2 rfl] at hw
    cases hw
  | backfilled => exact hu
  | claimedByRead hrd hpc =>
    exact hsettled (hk _ hrd _ (by rw [hpc]; rfl)) rfl
  | refreshed href =>
    rcases href with rfl | ⟨u, hup, hm, id, rfl⟩
    · exact hu
    · by_cases hs : r.status.isUnsynced = true
      · exact uploadedUnedited_of_unsynced ((r.status.isUnsynced_refreshed).trans hs)
      · refine uploadedUnedited_of_not_uploadable ?_
        have hwr : w.waits r.inode = true := (Db.inode_of_getByInode hr).symm ▸ hw
        have hnone : r.cachePath.isSome = false := by
          by_contra hc
          refine hk r (Db.mem_rows_of_getByInode hr) hwr ?_ u hup hm
          simpa [hs, Option.isSome_iff_ne_none] using hc
        rw [FileEntry.uploadable]
        simpa [refreshRow] using fun _ => hnone
  | dropped ho =>
    have hnone := (ho r' rfl).1
    simp [FileEntry.uploadedUnedited, hnone]

/-- The steps that may hand a trigger to the queue. -/
def Event.triggers : Event → Bool
  | .request (.fsync _) | .request (.release _) | .fuse _ | .upload .. => true
  | _ => false

theorem mem_pending_of_step (hev : ev.triggers = false) (h : step m w ev = some w')
    (hi : i ∈ w'.pending) : i ∈ w.pending := by
  cases ev with
  | fuse => cases hev
  | upload => cases hev
  | request q =>
    obtain ⟨-, rfl⟩ := step_request h
    cases q with
    | fsync => cases hev
    | release => cases hev
    | _ =>
      simp only [serve, handleWrite, handleSetattr, handleOpen, handleRead, handleCreate,
        handleMkdir, handleUnlink, handleRmdir, handleRename, World.allocFh] at hi
      repeat' split at hi
      all_goals exact hi
  | launch j =>
    obtain rfl := step_launch h
    exact (List.mem_filter.1 hi).1
  | hydration k env =>
    obtain ⟨x, -, rfl⟩ := Option.map_eq_some_iff.1 h
    obtain ⟨_, _, _, hw⟩ := hydration_tick_eq m w x.inode env x.pc
    dsimp only at hi
    rw [hw] at hi
    split at hi <;> exact hi
  | read k env =>
    obtain ⟨x, -, rfl⟩ := Option.map_eq_some_iff.1 h
    obtain ⟨_, _, _, _, hw⟩ := read_tick_eq m w env x
    dsimp only at hi
    rw [hw] at hi
    split at hi <;> exact hi
  | startEviction =>
    obtain ⟨_, -, rfl⟩ := step_startEviction h
    exact hi
  | eviction env =>
    obtain ⟨x, -, rfl⟩ := Option.map_eq_some_iff.1 h
    obtain ⟨_, _, hw⟩ := eviction_tick_eq m w env x
    dsimp only at hi
    rwa [hw] at hi
  | background k env =>
    obtain ⟨x, -, rfl⟩ := Option.map_eq_some_iff.1 h
    obtain ⟨_, _, hw⟩ := background_tick_eq m w env x
    dsimp only at hi
    rwa [hw] at hi
  | prefetch parent =>
    rw [← Option.some.inj h, prefetchSmallFiles] at hi
    split at hi <;> exact hi
  | poll op =>
    obtain rfl := Option.some.inj h
    exact hi
  | foreign e =>
    obtain rfl := Option.some.inj h
    exact hi
  | clock n =>
    obtain rfl := Option.some.inj h
    exact hi

theorem unedited_of_fsync {fh : ℕ} (ht : ∀ f ∈ w.openFiles fh, w.unedited f.inode = false)
    (hi : i ∈ (handleFsync w fh).2.pending) (hn : i ∉ w.pending) :
    (handleFsync w fh).2.unedited i = false := by
  rw [handleFsync] at hi ⊢
  cases hf : w.openFiles fh with
  | none =>
    rw [hf] at hi
    exact absurd hi hn
  | some f =>
    rw [hf] at hi
    obtain rfl := (mem_enqueue.1 hi).resolve_right hn
    exact ht f hf

theorem unedited_of_release {fh : ℕ} (hi : i ∈ (handleRelease w fh).pending)
    (hn : i ∉ w.pending) : (handleRelease w fh).unedited i = false := by
  rw [handleRelease] at hi ⊢
  split at hi
  · exact absurd hi hn
  rename_i f _
  dsimp only at hi ⊢
  split at hi
  · rename_i hdirty
    rw [if_pos hdirty]
    obtain rfl := (mem_enqueue.1 hi).resolve_right hn
    refine unedited_eq_false.2 fun r hr => uploadedUnedited_of_unsynced ?_
    have hr : w.db.getByInode f.inode = some r := hr
    rw [hr, Option.any_some, decide_eq_true_eq] at hdirty
    rw [hdirty]
    rfl
  · exact absurd hi hn

/-- A row without a cache path is not uploaded. -/
theorem unedited_of_cachePath (h : ∀ r, w.db.getByInode i = some r → r.cachePath = none) :
    w.unedited i = false := by
  refine unedited_eq_false.2 fun r hr => uploadedUnedited_of_not_uploadable ?_
  rw [FileEntry.uploadable, h r hr]
  exact Bool.and_false _

/-- A write or a truncation triggers its row, which it has marked, unless that failed. -/
theorem unedited_of_fuseCall {env : Env} {c : FuseCall}
    (ht : env.fault = true → w.unedited c.inode = false) (hi : i ∈ (c.tick w env).pending)
    (hn : i ∉ w.pending) : (c.tick w env).unedited i = false := by
  obtain rfl : i = c.inode := by
    cases c with
    | write j n => exact (mem_enqueue.1 hi).resolve_right hn
    | setattr j n cp =>
      simp only [FuseCall.tick] at hi
      split at hi
      · exact absurd hi hn
      · exact (mem_enqueue.1 hi).resolve_right hn
  rcases rows_of_fuseCall w env c with hmap | ⟨hdb, hfault | ⟨r, hr, hnone⟩⟩
  · refine unedited_eq_false.2 fun r' hr' => uploadedUnedited_of_unsynced ?_
    obtain ⟨r, -, ⟨-, rfl⟩ | ⟨hne, -⟩⟩ := hmap.inv hr'
    · rfl
    · exact absurd rfl hne
  · rw [World.unedited, hdb]
    exact ht hfault
  · refine unedited_of_cachePath fun q hq => ?_
    rw [hdb, hr] at hq
    exact Option.some.inj hq ▸ hnone

/-- The retry of an upload triggers its row, which it has marked as dirty, unless that failed. -/
theorem unedited_of_retry {env : Env} {j : Inode} {pc : UploadPc}
    (ht : env.fault = true → pc.retries = true → w.unedited j = false)
    (hi : i ∈ (Upload.tick w j env pc).1.pending) (hn : i ∉ w.pending) :
    (Upload.tick w j env pc).1.unedited i = false := by
  obtain ⟨e, rfl, hne, he⟩ : ∃ e, pc = .finish (.error e) ∧ e ≠ .conflict ∧
      e.isRetryable = true := by
    unfold Upload.tick at hi
    split at hi
    all_goals repeat' split at hi
    all_goals first
      | exact absurd hi hn
      | exact ⟨_, rfl, ‹_›, ‹_›⟩
  have htick : (Upload.tick w j env (.finish (.error e))).1 =
      (w.logDb env (w.db.failQueueJobByInode j)).enqueue j := by
    cases e <;> first | rfl | cases he
  rw [htick] at hi ⊢
  obtain rfl := (mem_enqueue.1 hi).resolve_right hn
  cases hdb : World.tryDb env (w.db.failQueueJobByInode i) with
  | some db =>
    refine unedited_eq_false.2 fun r' hr' => uploadedUnedited_of_unsynced ?_
    have hr' : db.getByInode i = some r' := by rwa [World.enqueue, World.logDb, hdb] at hr'
    obtain ⟨r, -, ⟨-, rfl⟩ | ⟨hne, -⟩⟩ := (Db.setStatus_rows (tryDb_eq_some.1 hdb).2).inv hr'
    · rfl
    · exact absurd rfl hne
  | none =>
    have hsame : ((w.logDb env (w.db.failQueueJobByInode i)).enqueue i).unedited i =
        w.unedited i := by rw [World.enqueue, World.logDb, hdb]; rfl
    rw [hsame]
    cases hfault : env.fault with
    | true => exact ht hfault he
    | false =>
      -- the statement is refused for a row without a cache path
      refine unedited_of_cachePath fun r hr => ?_
      by_contra hc
      have hsome : (w.db.setStatus i .dirty).isSome = true := by
        refine Db.updateRow_isSome (fun _ => ⟨rfl, rfl, rfl, rfl, rfl, rfl⟩) fun q hq _ _ => ?_
        obtain rfl := Option.some.inj (hr.symm.trans hq)
        exact Option.isSome_iff_ne_none.2 hc
      rw [World.tryDb, hfault, if_neg Bool.false_ne_true] at hdb
      rw [Db.failQueueJobByInode] at hdb
      rw [hdb] at hsome
      cases hsome

/-- A trigger a step adds is of a row with a local edit, or with nothing to upload. -/
theorem unedited_of_trigger (ht : TriggersEdit w ev) (h : step m w ev = some w')
    (hi : i ∈ w'.pending) (hn : i ∉ w.pending) : w'.unedited i = false := by
  cases hev : ev.triggers with
  | false => exact absurd (mem_pending_of_step hev h hi) hn
  | true =>
    cases ev with
    | request q =>
      obtain ⟨-, rfl⟩ := step_request h
      cases q with
      | fsync fh => exact unedited_of_fsync ht hi hn
      | release fh => exact unedited_of_release hi hn
      | _ => cases hev
    | fuse env =>
      obtain ⟨c, hc, rfl⟩ := Option.map_eq_some_iff.1 h
      exact unedited_of_fuseCall (fun hf => ht hf c hc) hi hn
    | upload k env =>
      obtain ⟨u, hu, rfl⟩ := Option.map_eq_some_iff.1 h
      exact unedited_of_retry (fun hf => ht hf u hu) hi hn
    | _ => cases hev

/-- An inode that waits after a step waited before, unless the step adds a trigger of it. -/
theorem waits_of_step (h : step m w ev = some w') (hw : w'.waits i = true) :
    w.waits i = true ∨ i ∈ w'.pending := by
  rcases waits_iff.1 hw with hp | hu
  · exact .inr hp
  rcases uploads_of_step h with he | ⟨j, rfl, he⟩ | ⟨k, env, u, rfl, hk, he⟩
  · exact .inl (waits_iff.2 (.inr (he ▸ hu)))
  · rw [he] at hu
    rcases List.mem_append.1 hu with hu | hu
    · exact .inl (waits_iff.2 (.inr hu))
    · obtain rfl := (Upload.mk.inj (List.mem_singleton.1 hu)).1
      simp only [step, World.launch] at h
      split at h
      · rename_i hp
        exact .inl (waits_iff.2 (.inl (List.contains_iff_mem.1 hp)))
      · cases h
  · rw [he] at hu
    rcases mem_of_mem_advance hu with hu | hn
    · exact .inl (waits_iff.2 (.inr hu))
    · obtain ⟨pc, hpc, he⟩ := Option.map_eq_some_iff.1 hn
      obtain rfl : pc = .load := (Upload.mk.inj he).2
      exact absurd hpc (tick_ne_load w u.inode env u.pc)

/-- **Every inode that waits has a local edit** after a step too. -/
theorem waitingEdited_of_step (hinv : WaitingEdited w) (ht : TriggersEdit w ev)
    (hk : KeepsEdit w ev) (h : step m w ev = some w') : WaitingEdited w' := by
  intro i hw
  by_cases hw₀ : w.waits i = true
  · refine unedited_eq_false.2 fun r' hr' => ?_
    rcases row_inv_of_step h hr' with ⟨r, hr, hstep⟩ | ⟨hnew, -⟩
    · exact unedited_of_rowStep hk hw₀ hr (unedited_eq_false.1 (hinv i hw₀) r hr) hstep
    · cases hnew with
      | created _ _ _ _ _ _ _ hs => exact uploadedUnedited_of_unsynced (by rw [hs]; rfl)
      | made _ _ _ _ hc | listed hc => simp [FileEntry.uploadedUnedited, hc]
  · have hp := (waits_of_step h hw).resolve_left hw₀
    exact unedited_of_trigger ht h hp fun hn => hw₀ (waits_iff.2 (.inl hn))

end Waiting

theorem onlyLocalEdits_of_step {m : Mount} {w w' : World} {ev : Event} (hi : OnlyLocalEdits w)
    (hw : WaitingEdited w) (h : step m w ev = some w') : OnlyLocalEdits w' := by
  rcases uploads_of_step h with he | ⟨i, -, he⟩ | ⟨k, env, u, rfl, hu, he⟩
  · rw [OnlyLocalEdits, he]
    exact hi
  · rw [OnlyLocalEdits, he]
    refine forall_append hi fun u hu e he => ?_
    rw [List.mem_singleton.1 hu] at he
    cases he
  · rw [OnlyLocalEdits, he]
    refine forall_advance hi fun u' hu' e he => ?_
    obtain ⟨pc, hpc, rfl⟩ := Option.map_eq_some_iff.1 hu'
    rcases entry_of_tick hpc he with he | ⟨hl, hr, hs, hk, hc⟩
    · exact hi u (mem_of_getElem? hu) e he
    · have hmem : (⟨u.inode, .load⟩ : Upload) ∈ w.uploads := hl ▸ mem_of_getElem? hu
      have hedit := hw u.inode (waits_iff.2 (.inr hmem))
      exact isUnsynced_of_accepted hs hk hc (unedited_eq_false.1 hedit e hr)

/-- **Only local edits are uploaded**, in every run in which each trigger is of a local edit and
no step takes the edit of a row away while its trigger waits. -/
theorem onlyLocalEdits_of_run {m : Mount} {w w' : World} {evs : List Event}
    (hi : OnlyLocalEdits w) (hw : WaitingEdited w)
    (hg : Guarded (step m) (fun w ev => TriggersEdit w ev ∧ KeepsEdit w ev) w evs)
    (hr : run (step m) w evs = some w') : OnlyLocalEdits w' :=
  (inv_of_run (I := fun w => OnlyLocalEdits w ∧ WaitingEdited w)
    (fun _ _ _ hi hg h =>
      ⟨onlyLocalEdits_of_step hi.1 hi.2 h, waitingEdited_of_step hi.2 hg.1 hg.2 h⟩)
    ⟨hi, hw⟩ hg hr).1

/-- A new file is written and synced, its first upload fails on the way to the backend, the poller
learns of another file, and the second upload gets through to the backend. -/
def syncedTwice : List Event :=
  [.request (.create fuseRootInode ['a']), .request (.write 1 0 [7]), .fuse .fine,
    .request (.fsync 1), .launch 2, .upload 0 .fine, .upload 0 .fine, .upload 0 .fine,
    .upload 0 { Env.fine with error := some .transient }, .upload 0 .fine,
    .poll (reportedFile ['b'] 1 ['v']), .request (.release 1), .launch 2, .upload 0 .fine,
    .upload 0 .fine, .upload 0 .fine, .upload 0 .fine, .upload 0 .fine]

theorem onlyLocalEdits_syncedTwice :
    ∃ w', run (step sampleMount) (World.init sampleMount 0) syncedTwice = some w' ∧
      OnlyLocalEdits w' := by
  have hinit : OnlyLocalEdits (World.init sampleMount 0) := fun _ hu => nomatch hu
  have hwaits : WaitingEdited (World.init sampleMount 0) := fun _ hw => nomatch hw
  have hguard : Guarded (step sampleMount) (fun w ev => TriggersEdit w ev ∧ KeepsEdit w ev)
      (World.init sampleMount 0) syncedTwice := by decide
  exact ⟨_, rfl, onlyLocalEdits_of_run hinit hwaits hguard rfl⟩

/-- A file is opened and hydrated, another client replaces it, the poller makes the row stale with
the new etag, and an fsync of the handle, which was never written, uploads the old version. -/
def fsyncUnwritten : List Event :=
  [foreignVersion ['a'] [1] ['v'], .poll (reportedFile ['a'] 1 ['v']), .request (.open_ 2),
    .hydration 0 .fine, .hydration 0 .fine, .hydration 0 .fine, .hydration 0 .fine,
    .hydration 0 .fine, .hydration 0 .fine, foreignVersion ['a'] [2] ['w'],
    .poll (reportedFile ['a'] 1 ['w']), .request (.fsync 1), .launch 2, .upload 0 .fine,
    .upload 0 .fine, .upload 0 .fine, .upload 0 .fine]

theorem not_onlyLocalEdits_fsyncUnwritten :
    ¬∀ (m : Mount) (w' : World) (evs : List Event),
      run (step m) (World.init m 0) evs = some w' → OnlyLocalEdits w' := by
  intro h
  have huploads : ∀ w', run (step sampleMount) (World.init sampleMount 0) fsyncUnwritten = some w' →
      ¬OnlyLocalEdits w' := by
    rintro w' hw
    obtain rfl := Option.some.inj hw
    intro hall
    exact absurd (hall _ List.mem_cons_self _ rfl) (by decide)
  exact huploads _ rfl (h sampleMount _ fsyncUnwritten rfl)

end Stratosync

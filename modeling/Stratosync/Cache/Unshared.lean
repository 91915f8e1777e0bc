import Stratosync.Daemon.Rows
import Stratosync.Daemon.CacheFiles
import Stratosync.Foundations.Runs

/-!
# Cache files are not shared

Creation, hydration and truncation derive a cache path from the remote path; a rename keeps the
directory of the old one. So a path can be derived that another row records already. As long as
that does not happen, each cache path is recorded by one row (`NotShared`), and a step changes only
the cache files of the rows it operates on (`unshared_of_run`).
-/

namespace Stratosync

open Foundations.Runs

/-- No two rows record the same cache path. -/
def NotShared (w : World) : Prop :=
  ∀ i j r q p, w.db.getByInode i = some r → w.db.getByInode j = some q →
    r.cachePath = some p → q.cachePath = some p → i = j

/-- The cache path a hydration is about to write or to record. -/
def HydrationPc.target : HydrationPc → Option PathBuf
  | .install _ cp _ | .record _ cp => some cp
  | _ => none

/-- The candidate whose cache file is about to be removed. -/
def Eviction.removing (ev : Eviction) : Option EvictionCandidate :=
  match ev.pc with
  | .remove c .. => some c
  | _ => none

/-- The cache path a step writes, records or removes for a row is no other row's. -/
def RecordsOwnPath (m : Mount) (w : World) : Event → Prop
  | .request r => OwnFile m w r
  | .fuse _ => ∀ c ∈ w.fuse, ∀ cp ∈ c.cachePath, OnlyRecordedBy w cp c.inode
  | .hydration k _ => ∀ h ∈ w.hydrations[k]?, ∀ cp ∈ h.pc.target, OnlyRecordedBy w cp h.inode
  | .eviction _ => ∀ ev ∈ w.eviction, ∀ c ∈ ev.removing, OnlyRecordedBy w c.cachePath c.inode
  | _ => True

/-- The rows a step operates on. The poller may drop any. -/
def Operates (m : Mount) (w : World) : Event → Inode → Prop
  | .request (.write fh _ _), i => ∃ f ∈ w.openFiles fh, f.inode = i
  | .request (.setattr j _), i => j = i
  | .request (.unlink p n), i => ∃ r ∈ w.db.getByParentName m.mountId p n, r.inode = i
  | .request (.rename p n p' n'), i => (∃ r ∈ w.db.getByParentName m.mountId p n, r.inode = i) ∨
      ∃ r ∈ w.db.getByParentName m.mountId p' n', r.inode = i
  | .hydration k _, i => ∃ h ∈ w.hydrations[k]?, h.inode = i
  | .eviction _, i => ∃ ev ∈ w.eviction, ∃ c ∈ ev.removing, c.inode = i
  | .poll _, _ => True
  | _, _ => False

/-- A step changes or removes the cached bytes only of the rows it operates on. -/
def ChangesOwnFiles (m : Mount) (w : World) (ev : Event) (w' : World) : Prop :=
  ∀ i r p, w.db.getByInode i = some r → r.cachePath = some p →
    w'.fs.files p ≠ w.fs.files p → Operates m w ev i

instance (m : Mount) (w : World) : (ev : Event) → Decidable (RecordsOwnPath m w ev)
  | .request r => inferInstanceAs (Decidable (OwnFile m w r))
  | .fuse _ => inferInstanceAs (Decidable
      (∀ c ∈ w.fuse, ∀ cp ∈ c.cachePath, OnlyRecordedBy w cp c.inode))
  | .hydration k _ => inferInstanceAs (Decidable
      (∀ h ∈ w.hydrations[k]?, ∀ cp ∈ h.pc.target, OnlyRecordedBy w cp h.inode))
  | .eviction _ => inferInstanceAs (Decidable
      (∀ ev ∈ w.eviction, ∀ c ∈ ev.removing, OnlyRecordedBy w c.cachePath c.inode))
  | .launch _ | .upload .. | .read .. | .startEviction | .background .. | .prefetch _ | .poll _
  | .foreign _ | .clock _ => .isTrue trivial

variable {m : Mount} {w w' : World} {ev : Event} {i j : Inode} {p : PathBuf}

/-! ## How a row gets a cache path -/

/-- **The ways in which a step records a cache path**, with the row it leaves. -/
inductive RecordsPath (m : Mount) (w : World) : Event → FileEntry → PathBuf → Prop
  | marked {env c cp r'} (hc : w.fuse = some c) (hcp : c.cachePath = some cp)
      (hi : r'.inode = c.inode) : RecordsPath m w (.fuse env) r' cp
  | created {p n q cp r'} (hq : w.db.getByInode p = some q)
      (hcp : safeCachePath w.fs m.cacheDir (joinRemote q.remotePath n) = some cp)
      (hi : r'.inode = w.db.nextInode) : RecordsPath m w (.request (.create p n)) r' cp
  | moved {p n p' n' r cp r'} (hr : w.db.getByParentName m.mountId p n = some r)
      (hcp : r.cachePath = some cp) (hi : r'.inode = r.inode) (hm : r'.mountId = m.mountId)
      (hp : r'.parent = some p') (hn : r'.name = n') :
      RecordsPath m w (.request (.rename p n p' n')) r' (movedCachePath cp n')
  | hydrated {k env h cp r'} (hh : w.hydrations[k]? = some h) (ht : h.pc.target = some cp)
      (hi : r'.inode = h.inode) : RecordsPath m w (.hydration k env) r' cp

theorem moveCacheFile_snd (fs : CacheFs) (o : Option PathBuf) (n : Str) :
    (moveCacheFile fs o n).2 = o ∨
      ∃ cp, o = some cp ∧ (moveCacheFile fs o n).2 = some (movedCachePath cp n) := by
  cases o with
  | none => exact .inl rfl
  | some cp =>
    cases h : fs.rename cp (movedCachePath cp n) with
    | none => exact .inl (by simp only [moveCacheFile, h])
    | some fs' => exact .inr ⟨cp, rfl, by simp only [moveCacheFile, h]⟩

/-- A row has the cache path it had, or one the step recorded. -/
theorem path_of_step (h : step m w ev = some w') {r' : FileEntry}
    (hr' : w'.db.getByInode i = some r') (hp : r'.cachePath = some p) :
    (∃ r, w.db.getByInode i = some r ∧ r.cachePath = some p) ∨ RecordsPath m w ev r' p := by
  have hi' := Db.inode_of_getByInode hr'
  rcases row_inv_of_step h hr' with ⟨r, hr, hstep⟩ | ⟨hnew, -⟩
  · cases hstep with
    | same => exact .inl ⟨r', hr, hp⟩
    | opened | reset | marked | failed | uploaded | claimed | timedOut | rolledBack | backfilled
    | claimedByRead => exact .inl ⟨r, hr, hp⟩
    | @dirtied _ c _ hc =>
      cases hcp : c.cachePath with
      | none => exact .inl ⟨r, hr, by simpa [FuseCall.mark, hcp] using hp⟩
      | some cp =>
        obtain rfl : cp = p := by simpa [FuseCall.mark, hcp] using hp
        exact .inr (.marked hc hcp hi')
    | renamed hrn hq =>
      rcases moveCacheFile_snd w.fs r.cachePath _ with hm | ⟨cp, hcp, hm⟩
      · exact .inl ⟨r, hr, hm ▸ hp⟩
      · obtain rfl := Option.some.inj (hm.symm.trans hp)
        exact .inr (.moved hrn hcp rfl (Db.getByParentName_spec hrn).2.1 rfl rfl)
    | hydrated hh hf =>
      obtain rfl := Option.some.inj hp
      exact .inr (.hydrated hh rfl hi')
    | reverted | evicted => cases hp
    | refreshed href => exact .inl ⟨r, hr, href.cachePath_eq ▸ hp⟩
    | dropped ho => simp [(ho r' rfl).1] at hp
  · cases hnew with
    | created hq hcp hn _ _ _ _ _ hc =>
      obtain rfl := Option.some.inj (hc.symm.trans hp)
      exact .inr (.created hq hcp (hi'.trans hn))
    | made _ _ _ _ hc | listed hc =>
      rw [hc] at hp
      cases hp

/-- A step records a cache path for one row. -/
theorem RecordsPath.unique {r q : FileEntry} {p' : PathBuf} (hr : RecordsPath m w ev r p)
    (hq : RecordsPath m w ev q p') : r.inode = q.inode := by
  cases hr with
  | marked hc _ hi =>
    cases hq with
    | marked hc' _ hi' =>
      obtain rfl := Option.some.inj (hc.symm.trans hc')
      exact hi.trans hi'.symm
  | created _ _ hi =>
    cases hq with
    | created _ _ hi' => exact hi.trans hi'.symm
  | moved hr _ hi =>
    cases hq with
    | moved hr' _ hi' =>
      obtain rfl := Option.some.inj (hr.symm.trans hr')
      exact hi.trans hi'.symm
  | hydrated hh _ hi =>
    cases hq with
    | hydrated hh' _ hi' =>
      obtain rfl := Option.some.inj (hh.symm.trans hh')
      exact hi.trans hi'.symm

/-- The path a step records is that of no other row left. -/
theorem RecordsPath.own (hg : RecordsOwnPath m w ev) (h : step m w ev = some w')
    {r' q q' : FileEntry} (hrec : RecordsPath m w ev r' p) (hr' : w'.db.getByInode i = some r')
    (hq : w.db.getByInode j = some q) (hp : q.cachePath = some p)
    (hq' : w'.db.getByInode j = some q') : i = j := by
  have hmem := Db.mem_rows_of_getByInode hq
  have hi := Db.inode_of_getByInode hr'
  have hj := Db.inode_of_getByInode hq
  cases hrec with
  | marked hc hcp hri => exact hi.symm.trans (hri.trans ((hg _ hc _ hcp q hmem hp).symm.trans hj))
  | created hparent hcp hri => exact absurd hp (hg _ hparent _ hcp q hmem)
  | hydrated hh ht hri =>
    exact hi.symm.trans (hri.trans ((hg _ hh _ ht q hmem hp).symm.trans hj))
  | moved hr hcp hri hm hparent hname =>
    rcases hg _ hr _ hcp q hmem hp with hqi | ⟨d, hd, hqd⟩
    · exact hi.symm.trans (hri.trans (hqi.symm.trans hj))
    · -- the row at the destination cannot be left beside the renamed one
      obtain ⟨hdi, hdm, hdp, hdn⟩ := Db.getByParentName_spec hd
      rw [← hqd, hj] at hdi
      obtain rfl := Option.some.inj (hq.symm.trans hdi)
      have hrow := row_of_step h hq
      rw [hq'] at hrow
      cases hrow with
      | same =>
        have heq : r' = q := Foundations.Table.eq_of_unique
          (fun hab => ⟨hab.1.symm, hab.2.2.1 ▸ hab.2.1, hab.2.2.1.symm, hab.2.2.2.symm⟩)
          w'.db.fileIndex.ok.nameUnique (Db.mem_rows_of_getByInode hr')
          (Db.mem_rows_of_getByInode hq')
          ⟨hm.trans hdm.symm, by rw [hparent]; rfl, hparent.trans hdp.symm, hname.trans hdn.symm⟩
        rw [← hi, ← hj, heq]
      | renamed hr₂ =>
        obtain rfl := Option.some.inj (hr.symm.trans hr₂)
        exact hi.symm.trans (hri.trans hj)

theorem NotShared.step (hi : NotShared w) (hg : RecordsOwnPath m w ev)
    (h : Stratosync.step m w ev = some w') : NotShared w' := by
  intro i j r' q' p hr' hq' hp hp'
  rcases path_of_step h hr' hp with ⟨r, hr, hrp⟩ | hrec <;>
    rcases path_of_step h hq' hp' with ⟨q, hq, hqp⟩ | hrec'
  · exact hi i j r q p hr hq hrp hqp
  · exact (hrec'.own hg h hq' hr hrp hr').symm
  · exact hrec.own hg h hr' hq hqp hq'
  · rw [← Db.inode_of_getByInode hr', ← Db.inode_of_getByInode hq']
    exact hrec.unique hrec'

theorem changesOwnFiles_of_step (hi : NotShared w) (hg : RecordsOwnPath m w ev)
    (h : step m w ev = some w') : ChangesOwnFiles m w ev w' := by
  intro i r p hr hp hne
  have hmem := Db.mem_rows_of_getByInode hr
  have hri := Db.inode_of_getByInode hr
  have hfile := file_of_step h p
  generalize w.fs.files p = b, w'.fs.files p = b' at hfile hne
  cases hfile with
  | same => exact absurd rfl hne
  | written hf => exact ⟨_, hf, (hg _ hf r hmem hp).symm.trans hri⟩
  | truncated hr₀ hp₀ => exact hi _ _ _ _ _ hr₀ hr hp₀ hp
  | derived hr₀ hp₀ => exact (hg _ hr₀ r hmem (by rw [hp₀]; exact hp)).symm.trans hri
  | created hq hcp => exact absurd hp (hg _ hq _ hcp r hmem)
  | unlinked hr₀ hcp =>
    exact ⟨_, hr₀, hi _ _ _ _ _ (Db.getByParentName_spec hr₀).1 hr hcp hp⟩
  | movedAway hr₀ hcp =>
    exact .inl ⟨_, hr₀, hi _ _ _ _ _ (Db.getByParentName_spec hr₀).1 hr hcp hp⟩
  | movedTo hr₀ hcp =>
    rcases hg _ hr₀ _ hcp r hmem hp with h₀ | ⟨d, hd, h₀⟩
    · exact .inl ⟨_, hr₀, h₀.symm.trans hri⟩
    · exact .inr ⟨d, hd, h₀.symm.trans hri⟩
  | installed hh => exact ⟨_, hh, (hg _ hh _ rfl r hmem hp).symm.trans hri⟩
  | @evicted _ ev c rest n _ he hpc =>
    have hc : ev.removing = some c := by rw [Eviction.removing, hpc]
    exact ⟨ev, he, c, hc, (hg ev he c hc r hmem hp).symm.trans hri⟩
  | dropped => trivial

/-- **Cache files are not shared** in a run in which no step derives, for a row, the cache path of
another one; then each step changes only the files of the rows it operates on. -/
theorem unshared_of_run {evs : List Event} (h₀ : NotShared w)
    (hg : Guarded (step m) (RecordsOwnPath m) w evs) :
    Along (step m) (fun w ev w' => NotShared w' ∧ ChangesOwnFiles m w ev w') w evs :=
  along_of_guarded (I := NotShared) (fun _ _ _ hi hg h => hi.step hg h)
    (fun _ _ _ hi hg h => ⟨hi.step hg h, changesOwnFiles_of_step hi hg h⟩) h₀ hg

theorem notShared_init (m : Mount) (now : ℕ) : NotShared (World.init m now) := by
  intro i j r q p hr hq hp
  obtain rfl : r = rootEntry m.mountId := List.mem_singleton.1 (Db.mem_rows_of_getByInode hr)
  cases hp

/-- Two directories, and a file created in the first and moved to the second. -/
def moveBetweenDirectories : List Event :=
  [.request (.mkdir fuseRootInode ['d']), .request (.mkdir fuseRootInode ['e']),
    .request (.create 2 ['x']), .request (.write 1 0 [7]), .fuse .fine,
    .request (.rename 2 ['x'] 3 ['x'])]

theorem unshared_moveBetweenDirectories :
    Along (step sampleMount) (fun w ev w' => NotShared w' ∧ ChangesOwnFiles sampleMount w ev w')
      (World.init sampleMount 0) moveBetweenDirectories :=
  have hguard : Guarded (step sampleMount) (RecordsOwnPath sampleMount) (World.init sampleMount 0)
      moveBetweenDirectories := by decide
  unshared_of_run (notShared_init sampleMount 0) hguard

/-- A new file where the other one was shares, and empties, its cache file. -/
def createAtOldPlace : List Event :=
  moveBetweenDirectories ++ [.request (.create 2 ['x'])]

theorem not_unshared_createAtOldPlace :
    ¬∀ (m : Mount) (w : World) (evs : List Event),
      run (step m) (World.init m 0) evs = some w → NotShared w := by
  intro h
  exact absurd (h sampleMount _ createAtOldPlace rfl 4 5 _ _ _ rfl rfl rfl rfl) (by decide)

end Stratosync

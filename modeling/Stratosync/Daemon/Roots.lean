import Stratosync.Daemon.Starts

/-!
# The root at the start

Between the reset of the hydrating rows and the sweep for orphans the start-up looks at the root:
where the row is missing it is inserted, and where it is not a directory at the root of this mount
the rows of the mount are dropped first. `startUp` is the whole start; on an index whose root is as
it should be it is `restart` (`startUp_eq_restart`).

An inode is given out once, over all lives whose starts find no corrupt root: only that of the root
comes back (`inode_not_reused`).
-/

namespace Stratosync

open Foundations Foundations.Runs

/-! ## The statements -/

/-- The row of the root, inserted at a time. -/
def rootEntryAt (mountId now : ℕ) : FileEntry := { rootEntry mountId with mtime := now }

/-- `insert_root`: `INSERT OR REPLACE` of the root at its inode. -/
def Db.insertRoot (db : Db) (mountId : ℕ) : Option Db :=
  let root := rootEntryAt mountId db.now
  let replaced : FileEntry → Bool := fun r =>
    r.inode = root.inode ∨ (r.mountId = mountId ∧ r.remotePath = root.remotePath)
  (Table.commit ((db.fileIndex.rows.filter fun r => !replaced r) ++ [root])).map fun t =>
    { db with
      fileIndex := t, seq := max db.seq root.inode
      cacheLru := db.cacheLru.filter fun l => !(db.getByInode l.inode).any replaced }

/-- `delete_mount_entries`; an empty table starts to count again. -/
def Db.deleteMountEntries (db : Db) (mountId : ℕ) : Option Db :=
  (db.deleteRows fun r => r.mountId = mountId).map fun d =>
    if d.fileIndex.rows = [] then { d with seq := 0 } else d

/-- The row is the root directory of the mount. -/
def FileEntry.IsRoot (m : Mount) (r : FileEntry) : Prop :=
  r.kind = .directory ∧ r.remotePath = ['/'] ∧ r.mountId = m.mountId

instance (m : Mount) (r : FileEntry) : Decidable (r.IsRoot m) :=
  inferInstanceAs (Decidable (_ ∧ _ ∧ _))

def ensureRoot (m : Mount) (db : Db) : Option Db :=
  match db.getByInode fuseRootInode with
  | none => db.insertRoot m.mountId
  | some entry =>
    if entry.kind ≠ .directory ∨ entry.remotePath ≠ ['/'] ∨ entry.mountId ≠ m.mountId then
      (db.deleteMountEntries m.mountId).bind fun db' => db'.insertRoot m.mountId
    else some db

/-- The start-up from the sweep for orphans on. -/
def finishStart (m : Mount) (env : StartEnv) (remote : Remote) (fs : CacheFs) (db₁ : Db) : World :=
  let fs := reconcileOrphans m env db₁ fs
  let db₂ := if env.directoriesFault then db₁ else db₁.resetStuckDirtyDirectories.getD db₁
  let db₃ := if env.filesFault then db₂ else db₂.resetStuckDirtyFilesWithoutCachePath.getD db₂
  { World.init m db₃.now with
    db := db₃, fs, remote
    pending := (db₃.getPendingUploads m.mountId).map FileEntry.inode }

/-- The daemon after a start with its look at the root; `none` when it gives up. -/
def startUp (m : Mount) (env : StartEnv) (remote : Remote) (disk : Db × CacheFs) : Option World :=
  if env.aborts then none
  else
    disk.1.resetHydrating.bind fun db₁ =>
      (ensureRoot m db₁).map (finishStart m env remote disk.2)

/-- A step of the daemon, or a crash and the whole start after it. -/
def fullStep (m : Mount) (w : World) : LifeEvent → Option World
  | .daemon ev => step m w ev
  | .restart point env => (point.disk m w).bind (startUp m env w.remote)

/-- A root that is there is as it should be. -/
def Db.RootIntact (m : Mount) (db : Db) : Prop :=
  ∀ r ∈ db.getByInode fuseRootInode, r.IsRoot m

instance (m : Mount) (db : Db) : Decidable (db.RootIntact m) :=
  inferInstanceAs (Decidable (∀ r ∈ db.getByInode fuseRootInode, r.IsRoot m))

/-- A start finds no corrupt root. -/
def StartsIntact (m : Mount) (w : World) : LifeEvent → Prop
  | .restart .. => w.db.RootIntact m
  | .daemon _ => True

instance (m : Mount) (w : World) : ∀ e, Decidable (StartsIntact m w e)
  | .restart .. => inferInstanceAs (Decidable (w.db.RootIntact m))
  | .daemon _ => .isTrue trivial

variable {m : Mount} {env : StartEnv} {remote : Remote} {disk : Db × CacheFs} {w w' : World}
  {db db' : Db} {i : Inode}

/-! ## The root -/

theorem ensureRoot_of_isRoot {r : FileEntry} (hr : db.getByInode fuseRootInode = some r)
    (h : r.IsRoot m) : ensureRoot m db = some db := by
  rw [ensureRoot, hr]
  dsimp only
  rw [if_neg]
  rintro (hk | hp | hm)
  · exact hk h.1
  · exact hp h.2.1
  · exact hm h.2.2

/-- A root that is inserted is the only row that is new. -/
theorem getByInode_insertRoot {mountId : ℕ} (h : db.insertRoot mountId = some db')
    (hi : i ≠ fuseRootInode) {r : FileEntry} (hr : db'.getByInode i = some r) :
    db.getByInode i = some r := by
  obtain ⟨t, ht, rfl⟩ := Option.map_eq_some_iff.1 h
  have hmem := Db.mem_rows_of_getByInode hr
  change r ∈ t.rows at hmem
  rw [Table.commit_eq_some.1 ht] at hmem
  have hri := Db.inode_of_getByInode hr
  rcases List.mem_append.1 hmem with hmem | hmem
  · exact hri ▸ Db.getByInode_of_mem (List.mem_of_mem_filter hmem)
  · rw [List.mem_singleton.1 hmem] at hri
    exact absurd hri.symm hi

theorem seq_insertRoot {mountId : ℕ} (h : db.insertRoot mountId = some db') :
    db'.seq = max db.seq fuseRootInode := by
  obtain ⟨t, -, rfl⟩ := Option.map_eq_some_iff.1 h
  rfl

/-- What `ensure_root` does to an index without a corrupt root. -/
theorem ensureRoot_cases (h : ensureRoot m db = some db') (hroot : db.RootIntact m) :
    db' = db ∧ (db.getByInode fuseRootInode).isSome = true ∨
      db.getByInode fuseRootInode = none ∧ db.insertRoot m.mountId = some db' := by
  cases hr : db.getByInode fuseRootInode with
  | none =>
    rw [ensureRoot, hr] at h
    exact .inr ⟨rfl, h⟩
  | some r =>
    rw [ensureRoot_of_isRoot hr (hroot r hr)] at h
    exact .inl ⟨(Option.some.inj h).symm, rfl⟩

/-! ## A start with a root -/

theorem restart_eq_finishStart : restart m env remote disk =
    if env.aborts then none
    else disk.1.resetHydrating.map (finishStart m env remote disk.2) := rfl

theorem getByInode_resetHydrating (h : db.resetHydrating = some db') (i : Inode) :
    db'.getByInode i = (db.getByInode i).map FileEntry.unhydrated := by
  obtain ⟨t, ht, rfl⟩ := Option.map_eq_some_iff.1 h
  have hinode (r : FileEntry) :
      { r with status := .remote, cachePath := none, cacheSize := none }.inode = r.inode := rfl
  have hget := Table.get_update hinode ht i
  simp only [decide_eq_true_eq] at hget
  exact hget

theorem FileEntry.IsRoot.unhydrated {r : FileEntry} (h : r.IsRoot m) : r.unhydrated.IsRoot m := by
  rw [FileEntry.unhydrated]
  split
  · exact h
  · exact h

theorem rootIntact_resetHydrating (h : db.resetHydrating = some db') (hroot : db.RootIntact m) :
    db'.RootIntact m := by
  intro r hr
  rw [Option.mem_def, getByInode_resetHydrating h] at hr
  obtain ⟨q, hq, rfl⟩ := Option.map_eq_some_iff.1 hr
  exact (hroot q hq).unhydrated

/-- **A start on an index with its root does what is modelled without the look at it.** -/
theorem startUp_eq_restart (hsome : (disk.1.getByInode fuseRootInode).isSome = true)
    (hroot : disk.1.RootIntact m) : startUp m env remote disk = restart m env remote disk := by
  obtain ⟨r, hr⟩ := Option.isSome_iff_exists.1 hsome
  rw [startUp, restart_eq_finishStart]
  split
  · rfl
  cases hdb : disk.1.resetHydrating with
  | none => rfl
  | some db₁ =>
    have hr₁ := getByInode_resetHydrating hdb fuseRootInode
    rw [hr, Option.map_some] at hr₁
    rw [Option.bind_some, Option.map_some, ensureRoot_of_isRoot hr₁ (hroot r hr).unhydrated,
      Option.map_some]

/-- A reset that has nothing to reset. -/
theorem resetHydrating_of_none (h : ∀ r ∈ db.fileIndex.rows, r.status ≠ .hydrating) :
    db.resetHydrating = some db := by
  have hcommit : db.fileIndex.update (fun r => r.status = .hydrating)
      (fun r => { r with status := .remote, cachePath := none, cacheSize := none }) =
        some db.fileIndex := by
    rw [Table.update, Table.commit_eq_some]
    refine Eq.symm ((List.map_congr_left fun r hr => ?_).trans (List.map_id _))
    rw [decide_eq_false (h r hr)]
    rfl
  rw [Db.resetHydrating, Db.updateWhere, hcommit]
  rfl

theorem status_of_resetHydrating (h : db.resetHydrating = some db') {r : FileEntry}
    (hr : r ∈ db'.fileIndex.rows) : r.status ≠ .hydrating := by
  rw [(rows_of_resetHydrating h).2] at hr
  obtain ⟨q, -, rfl⟩ := List.mem_map.1 hr
  rw [FileEntry.unhydrated]
  split
  · exact SyncStatus.noConfusion
  · assumption

/-- **A whole start** is `restart` on the index whose root is there again. -/
theorem startUp_cases (h : startUp m env remote disk = some w) (hroot : disk.1.RootIntact m) :
    ∃ db₁ db₂, disk.1.resetHydrating = some db₁ ∧
      (db₂ = db₁ ∧ (db₁.getByInode fuseRootInode).isSome = true ∨
        db₁.getByInode fuseRootInode = none ∧ db₁.insertRoot m.mountId = some db₂) ∧
      restart m env remote (db₂, disk.2) = some w := by
  rw [startUp] at h
  split at h
  · cases h
  rename_i haborts
  obtain ⟨db₁, h₁, h⟩ := Option.bind_eq_some_iff.1 h
  obtain ⟨db₂, h₂, rfl⟩ := Option.map_eq_some_iff.1 h
  have hcases := ensureRoot_cases h₂ (rootIntact_resetHydrating h₁ hroot)
  refine ⟨db₁, db₂, h₁, hcases, ?_⟩
  rw [restart_eq_finishStart, if_neg haborts, resetHydrating_of_none fun r hr => ?_,
    Option.map_some]
  rcases hcases with ⟨rfl, -⟩ | ⟨-, hins⟩
  · exact status_of_resetHydrating h₁ hr
  · by_cases hi : r.inode = fuseRootInode
    · obtain ⟨t, ht, rfl⟩ := Option.map_eq_some_iff.1 hins
      change r ∈ t.rows at hr
      rw [Table.commit_eq_some.1 ht] at hr
      rcases List.mem_append.1 hr with hr | hr
      · have hkept := (List.mem_filter.1 hr).2
        rw [Bool.not_eq_true', decide_eq_false_iff_not] at hkept
        exact absurd (.inl hi) hkept
      · rw [List.mem_singleton.1 hr]
        exact SyncStatus.noConfusion
    · have hold := getByInode_insertRoot hins hi (Db.getByInode_of_mem hr)
      exact status_of_resetHydrating h₁ (Db.mem_rows_of_getByInode hold)

/-- A crash leaves the root as it was. -/
theorem rootIntact_of_disk {point : CrashPoint} (h : point.disk m w = some disk)
    (hroot : w.db.RootIntact m) : disk.1.RootIntact m := by
  intro r hr
  cases crashLeaves_of_disk h with
  | between => exact hroot r hr
  | create _ _ _ _ _ hmade | setattr _ _ _ hmade =>
    rw [(disk_of_made hmade).1] at hr
    exact hroot r hr
  | @rename _ newParent _ newName =>
    rcases getByInode_dropDestination w.db m.mountId newParent newName fuseRootInode with
      hi | ⟨-, -, -, hi⟩
    · exact hroot r (hi ▸ hr)
    · rw [Option.mem_def, hi] at hr
      cases hr

theorem rootIntact_insertRoot (h : db.insertRoot m.mountId = some db') : db'.RootIntact m := by
  obtain ⟨t, ht, rfl⟩ := Option.map_eq_some_iff.1 h
  intro r hr
  have hmem := Db.mem_rows_of_getByInode hr
  change r ∈ t.rows at hmem
  rw [Table.commit_eq_some.1 ht] at hmem
  rcases List.mem_append.1 hmem with hmem | hmem
  · have hkept := (List.mem_filter.1 hmem).2
    rw [Bool.not_eq_true', decide_eq_false_iff_not] at hkept
    exact absurd (.inl (Db.inode_of_getByInode hr)) hkept
  · rw [List.mem_singleton.1 hmem]
    exact ⟨rfl, rfl, rfl⟩

theorem FileEntry.IsRoot.started {r : FileEntry} (h : r.IsRoot m) : (r.started env).IsRoot m := by
  simp only [FileEntry.started, FileEntry.unstuckDirectory, FileEntry.unstuckFile,
    FileEntry.unhydrated]
  repeat' split
  all_goals exact h

/-- A start leaves a root that is as it should be. -/
theorem rootIntact_of_startUp (h : startUp m env remote disk = some w)
    (hroot : disk.1.RootIntact m) : w.db.RootIntact m := by
  obtain ⟨db₁, db₂, h₁, hdb, hstart⟩ := startUp_cases h hroot
  have hroot₂ : db₂.RootIntact m := by
    rcases hdb with ⟨rfl, -⟩ | ⟨-, hins⟩
    · exact rootIntact_resetHydrating h₁ hroot
    · exact rootIntact_insertRoot hins
  intro r hr
  have hmem := Db.mem_rows_of_getByInode hr
  rw [(eq_of_restart hstart).2.1] at hmem
  obtain ⟨r₀, hr₀, rfl⟩ := List.mem_map.1 hmem
  have hinode : (r₀.started env).inode = r₀.inode := by
    simp only [FileEntry.started, FileEntry.unstuckDirectory, FileEntry.unstuckFile,
      FileEntry.unhydrated]
    repeat' split
    all_goals rfl
  have hi := Db.inode_of_getByInode hr
  rw [hinode] at hi
  exact (hroot₂ r₀ (hi ▸ Db.getByInode_of_mem hr₀)).started

/-- An index that is empty has the root after a start, and no other row. -/
theorem rows_of_startUp_empty (h : startUp m env remote disk = some w)
    (hempty : disk.1.fileIndex.rows = []) :
    ∃ t, w.db.fileIndex.rows = [rootEntryAt m.mountId t] := by
  have hnone {d : Db} (hd : d.fileIndex.rows = []) : d.getByInode fuseRootInode = none := by
    by_contra hsome
    obtain ⟨r, hr⟩ := Option.ne_none_iff_exists'.1 hsome
    have hmem := Db.mem_rows_of_getByInode hr
    rw [hd] at hmem
    cases hmem
  have hintact : disk.1.RootIntact m := by
    intro r hr
    rw [hnone hempty] at hr
    cases hr
  obtain ⟨db₁, db₂, h₁, hdb, hstart⟩ := startUp_cases h hintact
  have hrows₁ := (rows_of_resetHydrating h₁).2
  rw [hempty, List.map_nil] at hrows₁
  rcases hdb with ⟨rfl, hsome⟩ | ⟨-, hins⟩
  · rw [hnone hrows₁] at hsome
    cases hsome
  · obtain ⟨t, ht, rfl⟩ := Option.map_eq_some_iff.1 hins
    have hrows := (eq_of_restart hstart).2.1
    dsimp only at hrows
    rw [Table.commit_eq_some.1 ht, hrows₁, List.filter_nil, List.nil_append, List.map_singleton]
      at hrows
    refine ⟨db₁.now, hrows.trans ?_⟩
    -- no sweep is for a directory of the remote
    obtain ⟨aborts, knownFault, stays, directoriesFault, filesFault⟩ := env
    cases directoriesFault <;> cases filesFault <;> rfl

/-! ## Inodes are given out once -/

/-- A whole start gives out no inode but that of the root. -/
theorem getByInode_of_startUp (h : startUp m env remote disk = some w)
    (hroot : disk.1.RootIntact m) (hi : i ≠ fuseRootInode) {r : FileEntry}
    (hr : w.db.getByInode i = some r) :
    (∃ r₀, disk.1.getByInode i = some r₀) := by
  obtain ⟨db₁, db₂, h₁, hdb, hstart⟩ := startUp_cases h hroot
  obtain ⟨r₂, hr₂⟩ := exists_of_restart hstart hr
  have hr₁ : db₁.getByInode i = some r₂ := by
    rcases hdb with ⟨rfl, -⟩ | ⟨-, hins⟩
    · exact hr₂
    · exact getByInode_insertRoot hins hi hr₂
  rw [getByInode_resetHydrating h₁] at hr₁
  obtain ⟨r₀, hr₀, -⟩ := Option.map_eq_some_iff.1 hr₁
  exact ⟨r₀, hr₀⟩

/-- The sequence goes on, and passes the root where that is inserted. -/
theorem seq_of_startUp (h : startUp m env remote disk = some w) (hroot : disk.1.RootIntact m) :
    disk.1.seq ≤ w.db.seq ∧
      ((∃ r₀, disk.1.getByInode fuseRootInode = some r₀) ∨ fuseRootInode ≤ w.db.seq ∨
        w.db.getByInode fuseRootInode = none) := by
  obtain ⟨db₁, db₂, h₁, hdb, hstart⟩ := startUp_cases h hroot
  have hseq : w.db.seq = db₂.seq := seq_of_restart hstart
  have hseq₁ := (rows_of_resetHydrating h₁).1.seq
  rcases hdb with ⟨rfl, -⟩ | ⟨-, hins⟩
  · refine ⟨(hseq.trans hseq₁).ge, ?_⟩
    cases hr : w.db.getByInode fuseRootInode with
    | none => exact .inr (.inr rfl)
    | some r =>
      obtain ⟨r₁, hr₁⟩ := exists_of_restart hstart hr
      rw [getByInode_resetHydrating h₁] at hr₁
      obtain ⟨r₀, hr₀, -⟩ := Option.map_eq_some_iff.1 hr₁
      exact .inl ⟨r₀, hr₀⟩
  · rw [hseq, seq_insertRoot hins, hseq₁]
    exact ⟨le_max_left _ _, .inr (.inl (le_max_right _ _))⟩

/-- What is so from one life to the next: the sequence goes on, the rows stay below it, and no
number other than the root's has a row again. -/
theorem fullStep_counts {e : LifeEvent} (hg : StartsIntact m w e) (hb : InodesBounded w)
    (h : fullStep m w e = some w') :
    w.db.seq ≤ w'.db.seq ∧ InodesBounded w' ∧
      ∀ i ≤ w.db.seq, i ≠ fuseRootInode → w.db.getByInode i = none →
        w'.db.getByInode i = none := by
  cases e with
  | daemon ev =>
    have hlife : lifeStep m w (.daemon ev) = some w' := h
    exact ⟨seq_le_of_lifeStep hlife, inodesBounded_of_lifeStep hb hlife,
      fun i hi _ hn => getByInode_eq_none_of_lifeStep hi hn hlife⟩
  | restart point env =>
    obtain ⟨disk, hdisk, hstart⟩ := Option.bind_eq_some_iff.1 h
    have hroot := rootIntact_of_disk hdisk hg
    obtain ⟨hle, hrooted⟩ := seq_of_startUp hstart hroot
    rw [seq_of_disk hdisk] at hle
    refine ⟨hle, fun i r hr => ?_, fun i hi hne hn => ?_⟩
    · by_cases hi : i = fuseRootInode
      · subst hi
        rcases hrooted with ⟨r₀, hr₀⟩ | hpassed | hnone
        · obtain ⟨r₂, hr₂⟩ := exists_of_disk hdisk hr₀
          exact (hb _ r₂ hr₂).trans hle
        · exact hpassed
        · rw [hnone] at hr
          cases hr
      · obtain ⟨r₁, hr₁⟩ := getByInode_of_startUp hstart hroot hi hr
        obtain ⟨r₂, hr₂⟩ := exists_of_disk hdisk hr₁
        exact (hb i r₂ hr₂).trans hle
    · by_contra hsome
      obtain ⟨r, hr⟩ := Option.ne_none_iff_exists'.1 hsome
      obtain ⟨r₁, hr₁⟩ := getByInode_of_startUp hstart hroot hne hr
      obtain ⟨r₂, hr₂⟩ := exists_of_disk hdisk hr₁
      rw [hn] at hr₂
      cases hr₂

/-- **An inode is not used twice**, over all lives whose starts find no corrupt root: a row other
than the root's that is gone at some time, after it was there, has no successor under its number at
any later time. -/
theorem inode_not_reused {now : ℕ} {before between after : List LifeEvent}
    {w₁ w₂ w₃ : World} (h₁ : run (fullStep m) (World.init m now) before = some w₁)
    (h₂ : run (fullStep m) w₁ between = some w₂) (h₃ : run (fullStep m) w₂ after = some w₃)
    (hg : Guarded (fullStep m) (StartsIntact m) (World.init m now) (before ++ (between ++ after)))
    (hne : i ≠ fuseRootInode) (hthere : (w₁.db.getByInode i).isSome = true)
    (hgone : w₂.db.getByInode i = none) : w₃.db.getByInode i = none := by
  obtain ⟨r, hr⟩ := Option.isSome_iff_exists.1 hthere
  obtain ⟨hg₁, hg⟩ := guarded_append.1 hg
  obtain ⟨hg₂, hg⟩ := guarded_append.1 (hg w₁ h₁)
  have hbounded : InodesBounded w₁ :=
    inv_of_run (I := InodesBounded)
      (fun _ _ _ hb hg hstep => (fullStep_counts hg hb hstep).2.1)
      (inodesBounded_init m now) hg₁ h₁
  -- the number was given out, and stays so
  have hcounted : InodesBounded w₂ ∧ i ≤ w₂.db.seq := by
    refine inv_of_run (I := fun v => InodesBounded v ∧ i ≤ v.db.seq) ?_
      ⟨hbounded, hbounded i r hr⟩ hg₂ h₂
    rintro v e v' ⟨hb, hi⟩ hg hstep
    obtain ⟨hle, hb', -⟩ := fullStep_counts hg hb hstep
    exact ⟨hb', hi.trans hle⟩
  have hstays : ∀ v e v', (InodesBounded v ∧ i ≤ v.db.seq) ∧ v.db.getByInode i = none →
      StartsIntact m v e → fullStep m v e = some v' →
        (InodesBounded v' ∧ i ≤ v'.db.seq) ∧ v'.db.getByInode i = none := by
    rintro v e v' ⟨⟨hb, hi⟩, hn⟩ hg hstep
    obtain ⟨hle, hb', hnone⟩ := fullStep_counts hg hb hstep
    exact ⟨⟨hb', hi.trans hle⟩, hnone i hi hne hn⟩
  exact (inv_of_run hstays ⟨hcounted, hgone⟩ (hg w₂ h₂) h₃).2

/-- A deletion that takes the root with it, a start that inserts it again, and a file in it. -/
def rootSweptAndRestart : List LifeEvent :=
  [.daemon (.poll (.deleteByPath sampleMount.mountId ['/'])), .restart .between .fine,
    .daemon (.request (.create fuseRootInode ['a']))]

/-- A file is deleted, the root swept away, and a file of the name created in the next life. -/
theorem inode_not_reused_recreated : ∃ w₁ w₂ w₃ : World,
    run (fullStep sampleMount) (World.init sampleMount 0)
      [.daemon (.request (.create fuseRootInode ['a']))] = some w₁ ∧
    run (fullStep sampleMount) w₁ [.daemon (.request (.unlink fuseRootInode ['a']))] = some w₂ ∧
    run (fullStep sampleMount) w₂ rootSweptAndRestart = some w₃ ∧
    (w₃.db.getByInode 1).isSome = true ∧ (w₃.db.getByInode 3).isSome = true ∧
    w₃.db.getByInode 2 = none := by
  have hcreate : (step sampleMount (World.init sampleMount 0)
      (.request (.create fuseRootInode ['a']))).isSome = true := rfl
  obtain ⟨w₁, hcreate⟩ := Option.isSome_iff_exists.1 hcreate
  have hbefore : run (fullStep sampleMount) (World.init sampleMount 0)
      [.daemon (.request (.create fuseRootInode ['a']))] = some w₁ :=
    run_cons_eq_some.2 ⟨w₁, hcreate, rfl⟩
  obtain rfl := Option.some.inj hcreate
  refine ⟨_, _, _, hbefore, rfl, rfl, rfl, rfl, ?_⟩
  refine inode_not_reused hbefore
    (show run _ _ [.daemon (.request (.unlink fuseRootInode ['a']))] = _ from rfl)
    (show run _ _ rootSweptAndRestart = _ from rfl) ?_ (by decide) rfl rfl
  decide

end Stratosync

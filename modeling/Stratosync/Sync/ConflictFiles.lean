import Stratosync.Foundations.Runs
import Stratosync.Sync.Convergence

/-!
# Conflict files

The row of a conflict file is entered by the resolver, with generation zero. A full poll leaves
the conflict namespace out of its comparison, so nothing bumps the generation of such a row, and
its sweep does not leave the namespace out. `not_conflictKept_of_run` says what comes of it: no
run in which a full poll returns successfully keeps the row, whatever the remote has.
-/

namespace Stratosync

open Foundations Foundations.Runs

/-- The row the resolver enters for the conflict file of `entry`. -/
def conflictRow (entry : FileEntry) (name remotePath : Str) (size mtime : ℕ) (etag : Option Str) :
    NewFileEntry :=
  { mountId := entry.mountId, parent := entry.parent.getD fuseRootInode, name, remotePath
    kind := .file, size, mtime, etag, status := .conflict, cachePath := none, cacheSize := none }

/-- A step of a poll or of a directory listing. -/
def SiteEvent.isRefresh : SiteEvent → Bool
  | .daemon _ => false
  | .poll _ | .populate _ | .population _ _ => true

/-- **The conflict file `r` is tracked**: its row is there, with its status and its parent. -/
def ConflictKept (r : FileEntry) (s : Site) : Prop :=
  ∃ r', s.world.db.getByInode r.inode = some r' ∧ r'.status = .conflict ∧ r'.parent = r.parent

/-- A comparison has the row of inode `i` under paths of the conflict namespace only. -/
def ConflictOnly (i : Inode) (snap : Snapshot) : Prop :=
  ∀ path x, snap path = some x → x.inode = i → inConflictNamespace path = true

/-- What a full poll has still to do deletes the row of inode `i` with the generation `g`: its
comparison has the row under paths of the conflict namespace only, so the row is not among those
it marks, and its generation is above that of the row. -/
def FullPollPc.ToSweep (m : Mount) (i : Inode) (g : ℕ) : FullPollPc → Prop
  | .list | .snapshot _ => True
  | .generation _ snap => ConflictOnly i snap
  | .tombstones _ snap h => ConflictOnly i snap ∧ g < h
  | .upsert job _ _ => i ∉ job.unchanged m ∧ g < job.generation
  | .mark job rest => (∀ chunk ∈ rest, i ∉ chunk) ∧ g < job.generation
  | .sweep job => g < job.generation
  | .removeFiles .. | .saveGeneration _ | .cleanup | .markListed => False

/-- The row of inode `i` is a conflict file only as long as the poll under way has not swept. -/
structure SweptNext (m : Mount) (i : Inode) (s : Site) : Prop where
  row : ∀ r, s.world.db.getByInode i = some r → r.status = .conflict →
    r.mountId = m.mountId ∧ inConflictNamespace r.remotePath = true ∧
      r.pollGeneration ≤ pollGeneration s.token ∧
        ∀ pc, s.poller = some (.full pc) → pc.ToSweep m i r.pollGeneration
  full : ∀ pc, s.poller ≠ some (.delta pc)

/-- The row of inode `i` is no conflict file. -/
def NoConflict (i : Inode) (s : Site) : Prop :=
  ∀ r, s.world.db.getByInode i = some r → r.status ≠ .conflict

variable {m : Mount} {s s' : Site} {i : Inode} {r r' : FileEntry}

/-! ## Nothing the remote drives makes a conflict file -/

theorem SyncStatus.refreshed_ne_conflict (x : SyncStatus) : x.refreshed ≠ .conflict := by
  cases x <;> decide

/-- A statement of a remote-driven operation leaves the row of a conflict file as it is, or ends
it. -/
theorem conflict_of_statement {op : RemoteOp} {db d d' : Db} (h : RemoteStatement op db d d')
    (hr : d'.getByInode i = some r) (hs : r.status = .conflict) : d.getByInode i = some r := by
  have hrefreshed : ∀ {j : Inode} {f : FileEntry → FileEntry}, Db.RowMapped d d' j f →
      (∀ q, (f q).status = q.status.refreshed) → d.getByInode i = some r := by
    intro j f hmap hf
    obtain ⟨q, hq, ⟨-, rfl⟩ | ⟨-, rfl⟩⟩ := hmap.inv hr
    · rw [hf] at hs
      exact absurd hs q.status.refreshed_ne_conflict
    · exact hq
  cases h with
  | upsert _ _ h =>
    rcases Db.upsertByPath_cases h with ⟨q, -, hmap⟩ | ⟨-, -, hrows⟩
    · exact hrefreshed hmap fun _ => rfl
    · rw [hrows] at hr
      split at hr
      · obtain rfl := Option.some.inj hr
        cases hs
      · exact hr
  | delete _ h =>
    rw [Db.getByInode_deleteEntry h] at hr
    split at hr
    · cases hr
    · exact hr
  | clear _ _ _ h =>
    rw [Db.getByInode_deleteRows h] at hr
    exact (Option.filter_eq_some_iff.1 hr).1
  | move _ _ _ h => exact hrefreshed (Db.rowMapped_of_updateRow h fun _ => rfl) fun _ => rfl

theorem conflict_of_steps {op : RemoteOp} {db d d' : Db}
    (h : Relation.ReflTransGen (RemoteStatement op db) d d') (hr : d'.getByInode i = some r)
    (hs : r.status = .conflict) : d.getByInode i = some r := by
  induction h with
  | refl => exact hr
  | tail _ h ih => exact ih (conflict_of_statement h hr hs)

theorem conflict_of_upsertEntry {paths : PathToInode} {g : ℕ} {db db' : Db} {x : RemoteMetadata}
    {o : Option Inode} (h : upsertEntry m paths g db x = (o, db'))
    (hr : db'.getByInode i = some r) (hs : r.status = .conflict) : db.getByInode i = some r := by
  have hsteps : Relation.ReflTransGen (RemoteStatement _ db) db (upsertEntry m paths g db x).2 :=
    upsertRemoteFileByIdOrPath_steps
  rw [h] at hsteps
  exact conflict_of_steps hsteps hr hs

theorem conflict_of_upsertChunk {mountId g : ℕ} {p : Inode} {chunk : List ListedEntry}
    {db db' : Db} (h : db.upsertChunk mountId p g chunk = some db')
    (hr : db'.getByInode i = some r) (hs : r.status = .conflict) : db.getByInode i = some r := by
  have hsteps :
      Relation.ReflTransGen (RemoteStatement (.batchUpsert mountId p chunk g) db) db db' :=
    upsertChunk_steps (by rintro _ _ _ ⟨⟩) (fun e he => List.mem_map_of_mem he) h
  exact conflict_of_steps hsteps hr hs

/-! ## Steps of a poll and of a directory listing -/

/-- `r'` is the row `r` of a conflict file, where a mark of the poll may have changed the
generation. -/
structure SameConflict (pc : FullPollPc) (i : Inode) (r r' : FileEntry) : Prop where
  status_eq : r.status = r'.status
  mountId_eq : r.mountId = r'.mountId
  remotePath_eq : r.remotePath = r'.remotePath
  generation_eq : (∀ job chunk rest, pc = .mark job (chunk :: rest) → i ∉ chunk) →
    r.pollGeneration = r'.pollGeneration

theorem SameConflict.refl (pc : FullPollPc) (i : Inode) (r : FileEntry) :
    SameConflict pc i r r := ⟨rfl, rfl, rfl, fun _ => rfl⟩

/-- A conflict file after a call of a full poll was one before. -/
theorem conflict_of_fullStep {env : PollEnv} {pc : FullPollPc} {n : PollNext FullPollPc}
    (h : FullPollStep m s env pc s' n) (hr : s'.world.db.getByInode i = some r')
    (hs : r'.status = .conflict) :
    ∃ r, s.world.db.getByInode i = some r ∧ SameConflict pc i r r' := by
  cases h with
  | upserted _ h => exact ⟨r', conflict_of_upsertEntry h hr hs, .refl ..⟩
  | upsertRefused _ h => exact ⟨r', conflict_of_upsertEntry h hr hs, .refl ..⟩
  | marked h =>
    rw [Site.withDb_db, markGeneration_rows h] at hr
    obtain ⟨r, hrow, rfl⟩ := Option.map_eq_some_iff.1 hr
    refine ⟨r, hrow, ?_⟩
    split
    · rename_i hi
      exact ⟨rfl, rfl, rfl, fun hne => absurd hi (hne _ _ _ rfl)⟩
    · exact .refl ..
  | swept _ h =>
    rw [foldl_dropHeader_db] at hr
    exact ⟨r', getByInode_of_deleteStaleEntries h hr, .refl ..⟩
  | sweepRefused _ h => exact ⟨r', getByInode_of_deleteStaleEntries h hr, .refl ..⟩
  | fileRemoved =>
    rw [Site.removeFile_db] at hr
    exact ⟨r', hr, .refl ..⟩
  | cleaned h =>
    rcases h with rfl | rfl <;> exact ⟨r', hr, .refl ..⟩
  | finished h =>
    rcases h with rfl | h
    · exact ⟨r', hr, .refl ..⟩
    · rw [Site.withDb_db, batchMarkDirsListed_rows h] at hr
      obtain ⟨r, hrow, rfl⟩ := Option.map_eq_some_iff.1 hr
      refine ⟨r, hrow, ?_⟩
      split <;> exact ⟨rfl, rfl, rfl, fun _ => rfl⟩
  | _ => exact ⟨r', hr, .refl ..⟩

/-- The sweep of a poll deletes a conflict file with a lower generation. -/
theorem not_conflict_of_swept {g : ℕ} {deleted : List (Inode × Str × Option PathBuf)} {db db' : Db}
    (h : db.deleteStaleEntries m.mountId g = (some deleted, db'))
    (hr : db'.getByInode i = some r) (hs : r.status = .conflict) (hm : r.mountId = m.mountId)
    (hroot : i ≠ fuseRootInode) : g ≤ r.pollGeneration := by
  by_contra hlt
  have hsweep := deleteStaleEntries_sweep db m.mountId g
  rw [h] at hsweep
  obtain ⟨hmem, hnot⟩ := (mem_rows_deleteEach hsweep.symm).1 (Db.mem_rows_of_getByInode hr)
  refine hnot (List.mem_map_of_mem (List.mem_filter.2 ⟨hmem, ?_⟩))
  rw [← Db.inode_of_getByInode hr] at hroot
  simp [hm, hs, not_le.1 hlt, hroot, SyncStatus.isUnsynced]

/-- The comparison of a full poll has a conflict file under its own path. -/
theorem conflictOnly_snapshot {db : Db}
    (h : ∀ r, db.getByInode i = some r → inConflictNamespace r.remotePath = true) :
    ConflictOnly i (db.snapshotRemoteIndex m.mountId) := by
  rintro path x hx rfl
  obtain ⟨q, hq, hqi⟩ := snapshot_eq_some hx
  obtain ⟨hqr, -, rfl⟩ := Db.getByRemotePath_spec hq
  exact h q (hqi ▸ hqr)

/-- What is under paths of the conflict namespace only is not marked. -/
theorem ConflictOnly.not_mem_unchanged {job : FullPoll} (h : ConflictOnly i job.snap) :
    i ∉ job.unchanged m := by
  intro hi
  obtain ⟨x, -, hv⟩ := mem_unchangedInodes.1 hi
  obtain ⟨y, hy, hyi⟩ := snap_of_unchanged hv
  have hc := h _ y hy hyi
  rw [verdict, hc] at hv
  split at hv <;> cases hv

/-- **A call of a full poll brings the row closer to the sweep.** -/
theorem toSweep_of_fullStep {env : PollEnv} {pc : FullPollPc} {n : PollNext FullPollPc}
    (h : FullPollStep m s env pc s' n) (hroot : i ≠ fuseRootInode)
    (hr : s'.world.db.getByInode i = some r') (hs : r'.status = .conflict)
    (hrow : s.world.db.getByInode i = some r) (hsame : SameConflict pc i r r')
    (hm : r.mountId = m.mountId) (hpath : inConflictNamespace r.remotePath = true)
    (hg : r.pollGeneration ≤ pollGeneration s.token) (hto : pc.ToSweep m i r.pollGeneration) :
    r'.pollGeneration ≤ pollGeneration s'.token ∧
      ∀ pc', n = .goto pc' → pc'.ToSweep m i r'.pollGeneration := by
  have hgen : r.pollGeneration = r'.pollGeneration := by
    refine hsame.generation_eq ?_
    rintro job chunk rest rfl
    exact hto.1 chunk List.mem_cons_self
  rw [← hgen]
  cases h with
  | generationSaved => exact hto.elim
  | filesRemoved => exact hto.elim
  | fileRemoved => exact hto.elim
  | cleaned => exact hto.elim
  | finished => exact hto.elim
  | fail => exact ⟨hg, by rintro _ ⟨⟩⟩
  | upsertRefused => exact ⟨hg, by rintro _ ⟨⟩⟩
  | sweepRefused => exact ⟨hg, by rintro _ ⟨⟩⟩
  | listed => exact ⟨hg, by rintro _ ⟨⟩; trivial⟩
  | snapshot =>
    refine ⟨hg, ?_⟩
    rintro _ ⟨⟩
    refine conflictOnly_snapshot fun q hq => ?_
    obtain rfl := Option.some.inj (hq.symm.trans hrow)
    exact hpath
  | generation =>
    refine ⟨hg, ?_⟩
    rintro _ ⟨⟩
    exact ⟨hto, Nat.lt_succ_of_le hg⟩
  | filtered =>
    refine ⟨hg, ?_⟩
    rintro _ ⟨⟩
    exact ⟨hto.1.not_mem_unchanged, hto.2⟩
  | upsertsDone =>
    refine ⟨hg, ?_⟩
    rintro _ ⟨⟩
    refine ⟨fun chunk hchunk hi => hto.1 ?_, hto.2⟩
    rw [FullPoll.unchanged, ← flatten_chunks 1000 (unchangedInodes ..)]
    exact List.mem_flatten_of_mem hchunk hi
  | upserted =>
    refine ⟨hg, ?_⟩
    rintro _ ⟨⟩
    exact hto
  | marksDone =>
    refine ⟨hg, ?_⟩
    rintro _ ⟨⟩
    exact hto.2
  | marked =>
    refine ⟨hg, ?_⟩
    rintro _ ⟨⟩
    exact ⟨fun chunk hchunk => hto.1 chunk (List.mem_cons_of_mem _ hchunk), hto.2⟩
  | swept _ h =>
    rw [foldl_dropHeader_db] at hr
    have hle := not_conflict_of_swept h hr hs (hsame.mountId_eq ▸ hm) hroot
    exact absurd (hgen ▸ hle) (not_le.2 hto)

/-- A conflict file after a call of a directory listing was one before. -/
theorem conflict_of_populationStep {w w' : World} {fault : Bool}
    {listing : Except SyncError (List RemoteMetadata)} {p : Population}
    {next : Option PopulationPc} {started : List Population}
    (h : PopulationStep m w fault listing p w' next started)
    (hr : w'.db.getByInode i = some r') (hs : r'.status = .conflict) :
    ∃ r, w.db.getByInode i = some r ∧ r.status = .conflict ∧ r.mountId = r'.mountId ∧
      r.remotePath = r'.remotePath ∧ r.pollGeneration = r'.pollGeneration := by
  cases h with
  | upserted _ _ h => exact ⟨r', conflict_of_upsertChunk h hr hs, hs, rfl, rfl, rfl⟩
  | marked _ h =>
    obtain ⟨r, hrow, ⟨-, rfl⟩ | ⟨-, rfl⟩⟩ := (Db.markDirListed_rows h).inv hr
    · exact ⟨r, hrow, hs, rfl, rfl, rfl⟩
    · exact ⟨r', hrow, hs, rfl, rfl, rfl⟩
  | _ => exact ⟨r', hr, hs, rfl, rfl, rfl⟩

/-! ## Runs -/

theorem sweptNext_of_step {ev : SiteEvent} (hroot : i ≠ fuseRootInode) (hinv : SweptNext m i s)
    (hrefresh : ev.isRefresh = true) (h : siteStep m false s ev = some s') :
    SweptNext m i s' := by
  obtain ⟨hrow, hfull⟩ := hinv
  cases siteStep_cases h with
  | daemon => cases hrefresh
  | populate => exact ⟨hrow, hfull⟩
  | @population k env p w next started hp ht =>
    refine ⟨fun r' hr' hs => ?_, hfull⟩
    obtain ⟨r, hr, hrs, hm, hpath, hg⟩ := conflict_of_populationStep
      (ht ▸ populationStep_tick m s.world env.fault env.listing p) hr' hs
    rw [← hm, ← hpath, ← hg]
    exact hrow r hr hrs
  | poll env =>
    generalize hcall : pollerStep m false s env = s₂
    cases pollerStep_cases hcall with
    | wakes =>
      refine ⟨fun r hr hs => ?_, by rintro _ ⟨⟩⟩
      obtain ⟨hm, hpath, hg, -⟩ := hrow r hr hs
      exact ⟨hm, hpath, hg, by rintro _ ⟨⟩; trivial⟩
    | delta hp => exact absurd hp (hfull _)
    | @full pc s₁ n hp hstep =>
      refine ⟨fun r' hr' hs => ?_, ?_⟩
      · obtain ⟨r, hr, hsame⟩ := conflict_of_fullStep hstep hr' hs
        obtain ⟨hm, hpath, hg, hto⟩ := hrow r hr (hsame.status_eq.trans hs)
        obtain ⟨hg', hto'⟩ :=
          toSweep_of_fullStep hstep hroot hr' hs hr hsame hm hpath hg (hto pc hp)
        refine ⟨hsame.mountId_eq ▸ hm, hsame.remotePath_eq ▸ hpath, hg', fun pc' hpc' => ?_⟩
        obtain ⟨pc₂, hn, hwrap⟩ := PollNext.pc_eq_some.1 hpc'
        obtain rfl := PollerPc.full.inj hwrap
        exact hto' _ hn
      · intro pc' hpc'
        obtain ⟨_, -, hwrap⟩ := PollNext.pc_eq_some.1 hpc'
        cases hwrap

theorem sweptNext_of_run {evs : List SiteEvent} (hroot : i ≠ fuseRootInode)
    (hinv : SweptNext m i s) (hrefresh : ∀ ev ∈ evs, ev.isRefresh = true)
    (h : run (siteStep m false) s evs = some s') : SweptNext m i s' :=
  inv_of_run (fun _ _ _ hi hg h => sweptNext_of_step hroot hi hg h) hinv
    (Guarded.of_forall (fun ev hev _ => hrefresh ev hev) s) h

/-- What is no conflict file any more does not become one. -/
theorem NoConflict.step {ev : SiteEvent} (hlost : NoConflict i s) (hinv : SweptNext m i s)
    (hrefresh : ev.isRefresh = true) (h : siteStep m false s ev = some s') : NoConflict i s' := by
  intro r' hr hs
  cases siteStep_cases h with
  | daemon => cases hrefresh
  | populate => exact hlost r' hr hs
  | @population k env p w next started hp ht =>
    obtain ⟨r, hr, hrs, -⟩ := conflict_of_populationStep
      (ht ▸ populationStep_tick m s.world env.fault env.listing p) hr hs
    exact hlost r hr hrs
  | poll env =>
    generalize hcall : pollerStep m false s env = s₂ at hr
    cases pollerStep_cases hcall with
    | wakes => exact hlost r' hr hs
    | delta hp => exact absurd hp (hinv.full _)
    | full _ hstep =>
      obtain ⟨r, hr, hsame⟩ := conflict_of_fullStep hstep hr hs
      exact hlost r hr (hsame.status_eq.trans hs)

/-- **No full poll keeps a conflict file**: where a full poll of a run returns successfully, the
row is not a conflict file at the end, in every index and for every listing. -/
theorem not_conflictKept_of_run (m : Mount) (s s₁ s' : Site) (evs evs' : List SiteEvent)
    (env : PollEnv) (r : FileEntry) (hr : s.world.db.getByInode r.inode = some r)
    (hm : r.mountId = m.mountId) (hpath : inConflictNamespace r.remotePath = true)
    (hroot : r.inode ≠ fuseRootInode) (hgen : r.pollGeneration ≤ pollGeneration s.token)
    (hidle : s.poller = none) (hrefresh : ∀ ev ∈ evs ++ .poll env :: evs', ev.isRefresh = true)
    (hrun : run (siteStep m false) s evs = some s₁) (hok : s₁.poller = some (.full .markListed))
    (hrun' : run (siteStep m false) s₁ (.poll env :: evs') = some s') : ¬ConflictKept r s' := by
  have hinv : SweptNext m r.inode s := by
    constructor
    · intro q hq _
      obtain rfl := Option.some.inj (hr.symm.trans hq)
      refine ⟨hm, hpath, hgen, fun pc hpc => ?_⟩
      rw [hidle] at hpc
      cases hpc
    · intro pc hpc
      rw [hidle] at hpc
      cases hpc
  have hinv₁ := sweptNext_of_run hroot hinv (fun ev hev => hrefresh ev (List.mem_append_left _ hev))
    hrun
  -- before its last call the poll has swept
  have hlost : NoConflict r.inode s₁ := by
    intro q hq hs
    obtain ⟨-, -, -, hto⟩ := hinv₁.row q hq hs
    exact (hto _ hok).elim
  have hlost' := (inv_of_run (I := fun s => SweptNext m r.inode s ∧ NoConflict r.inode s)
    (fun _ _ _ hi hg h => ⟨sweptNext_of_step hroot hi.1 hg h, hi.2.step hi.1 hg h⟩) ⟨hinv₁, hlost⟩
    (Guarded.of_forall (fun ev hev _ => hrefresh ev (List.mem_append_right _ hev)) s₁) hrun').2
  rintro ⟨q, hq, hs, -⟩
  exact hlost' q hq hs

/-- The remote of a mount after a conflict: the file and the conflict file. -/
def remoteAfterConflict : List RemoteMetadata :=
  [listedFile ['a'],
    { path := conflictPrefix ++ ['b'], name := ['b'], size := 1, mtime := 0, isDir := false
      etag := some ['w'], itemId := none }]

/-- A file, and the row the resolver entered for its conflict file. -/
def siteAfterConflict : Site :=
  let db := (Db.empty 1 0).applyRemote (reportedFile ['a'] 1 ['v'])
  let entry := (db.getByInode 2).getD (rootEntry 1)
  let db := ((db.insertFile (conflictRow entry ['b'] (conflictPrefix ++ ['b']) 1 0
    (some ['w']))).map Prod.snd).getD db
  (Site.init sampleMount 0).withDb db

/-- The full poll after the conflict. -/
theorem not_conflictKept_afterConflict :
    ∃ r s', run (siteStep sampleMount false) siteAfterConflict
        (List.replicate 13 (.poll (.ofListing remoteAfterConflict))) = some s' ∧
      siteAfterConflict.world.db.getByInode 3 = some r ∧ ¬ConflictKept r s' := by
  obtain ⟨r, hr, hrow⟩ : ∃ r, siteAfterConflict.world.db.getByInode 3 = some r ∧
      (r.mountId, inConflictNamespace r.remotePath, r.inode, r.pollGeneration) = (1, true, 3, 0) :=
    ⟨_, rfl, rfl⟩
  obtain ⟨hm, hp, hi, hg⟩ : r.mountId = 1 ∧ inConflictNamespace r.remotePath = true ∧
      r.inode = 3 ∧ r.pollGeneration = 0 := by simpa using hrow
  obtain ⟨s₁, h₁, hok⟩ : ∃ s₁, run (siteStep sampleMount false) siteAfterConflict
      (List.replicate 12 (.poll (.ofListing remoteAfterConflict))) = some s₁ ∧
      s₁.poller = some (.full .markListed) := ⟨_, rfl, rfl⟩
  refine ⟨r, _, rfl, hr, not_conflictKept_of_run sampleMount siteAfterConflict s₁ _ _ []
    (.ofListing remoteAfterConflict) r (hi.symm ▸ hr) hm hp (by rw [hi]; decide)
    (hg ▸ Nat.zero_le _) rfl (by decide) h₁ hok ?_⟩
  obtain rfl := Option.some.inj h₁
  rfl

/-- One successful full poll deletes the row, although the conflict file is in its listing. -/
theorem not_conflictKept_of_poll :
    ¬∀ (m : Mount) (s s' : Site) (evs : List SiteEvent) (r : FileEntry),
      s.world.db.getByInode r.inode = some r → r.mountId = m.mountId → r.status = .conflict →
        inConflictNamespace r.remotePath = true → s.poller = none →
          (∀ ev ∈ evs, ev.isRefresh = true) →
            (∀ env, .poll env ∈ evs → ∀ listing, env.listing = .ok listing →
              ∃ x ∈ listing, x.path = r.remotePath) →
              run (siteStep m false) s evs = some s' → ConflictKept r s' := by
  intro h
  obtain ⟨r, hr, hrow⟩ : ∃ r, siteAfterConflict.world.db.getByInode 3 = some r ∧
      (r.mountId, r.status, r.remotePath, r.inode) = (1, .conflict, conflictPrefix ++ ['b'], 3) :=
    ⟨_, rfl, rfl⟩
  obtain ⟨hm, hs, hp, hi⟩ : r.mountId = 1 ∧ r.status = .conflict ∧
      r.remotePath = conflictPrefix ++ ['b'] ∧ r.inode = 3 := by simpa using hrow
  obtain ⟨s', hrun, hgone⟩ : ∃ s', run (siteStep sampleMount false) siteAfterConflict
      (List.replicate 12 (.poll (.ofListing remoteAfterConflict))) = some s' ∧
      s'.world.db.getByInode 3 = none := ⟨_, rfl, rfl⟩
  have hlisted : ∀ env, SiteEvent.poll env ∈
      List.replicate 12 (SiteEvent.poll (.ofListing remoteAfterConflict)) →
      ∀ listing, env.listing = .ok listing → ∃ x ∈ listing, x.path = r.remotePath := by
    intro env henv listing hl
    obtain rfl := SiteEvent.poll.inj (List.eq_of_mem_replicate henv)
    obtain rfl := Except.ok.inj hl
    exact ⟨_, List.mem_cons_of_mem _ List.mem_cons_self, hp.symm⟩
  obtain ⟨r', hr', -⟩ := h sampleMount siteAfterConflict s' _ r (hi.symm ▸ hr) hm hs
    (by rw [hp]; decide) rfl (by decide) hlisted hrun
  rw [hi, hgone] at hr'
  cases hr'

end Stratosync

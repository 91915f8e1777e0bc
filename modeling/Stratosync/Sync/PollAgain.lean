import Stratosync.Sync.Convergence

/-!
# Polling an unchanged remote

A full poll compares the listing with the rows it has and writes the entries that differ. A row it
has written has the etag and the size of its entry, so the next poll finds it unchanged.
`unmoved_of_polls`: after a first poll in which every call succeeds, whatever number of polls of the
same listing, failing where they may, leaves the site as it is but for the generations.
-/

namespace Stratosync

open Foundations Foundations.Runs

/-- What a full poll compares of a row. -/
def FileEntry.snapshot (r : FileEntry) : RemoteSnapshot := ⟨r.inode, r.etag, r.size⟩

/-- A row that a sweep takes when its generation is old. -/
def FileEntry.sweepable (r : FileEntry) : Bool :=
  !r.status.isUnsynced && decide (r.inode ≠ fuseRootInode)

/-- A full poll finds the row listed as it is. -/
def Found (m : Mount) (active : List Str) (listing : List RemoteMetadata) (r : FileEntry) : Prop :=
  ∃ x ∈ listing, x.path = r.remotePath ∧
    verdict m active (fun _ => some r.snapshot) x = .unchanged r.inode

/-- **A full poll has nothing to write and nothing to sweep.** -/
structure Indexed (m : Mount) (active : List Str) (listing : List RemoteMetadata) (db : Db) :
    Prop where
  found : ∀ i r, db.getByInode i = some r → r.mountId = m.mountId → r.sweepable = true →
    Found m active listing r
  written : toUpsert m active (db.snapshotRemoteIndex m.mountId) listing = []

/-- Nothing is left to do for the last two calls of a full poll either. -/
structure HoldsListing (m : Mount) (active : List Str) (listing : List RemoteMetadata) (db : Db) :
    Prop extends Indexed m active listing db where
  cleaned : (db.tombstones.filter fun t => db.now < t.expiresAt) = db.tombstones
  dirsListed : ∀ i r, db.getByInode i = some r → r.mountId = m.mountId → r.kind = .directory →
    r.dirListed ≠ none

/-- The row but for its generation. -/
def FileEntry.unmarked (r : FileEntry) : FileEntry := { r with pollGeneration := 0 }

/-- The rows are the same but for their generations. -/
def SameUnmarked (db db' : Db) : Prop :=
  ∀ i, (db'.getByInode i).map FileEntry.unmarked = (db.getByInode i).map FileEntry.unmarked

/-- The site is the same but for the generations of the rows, the counter and the poll under
way. -/
def Unmoved (s s' : Site) : Prop :=
  ∃ index token poller,
    s' = { s with
      world := { s.world with db := { s.world.db with fileIndex := index } }, token, poller } ∧
    SameUnmarked s.world.db s'.world.db

/-- The call gets the same listing or none, and the query for the tombstones does not fail. -/
def Repeats (listing : List RemoteMetadata) (env : PollEnv) : FullPollPc → Prop
  | .list => env.listing.toOption.all (· = listing) = true
  | .tombstones .. => env.fault = false
  | _ => True

/-- The condition on the later steps: nothing but a poll of the same listing. -/
def ListsAgain (listing : List RemoteMetadata) (s : Site) : SiteEvent → Prop
  | .poll env =>
    match s.poller with
    | some (.full pc) => Repeats listing env pc
    | _ => True
  | _ => False

variable {m : Mount} {active : List Str} {listing : List RemoteMetadata} {db db' : Db}
  {job : FullPoll} {x : RemoteMetadata} {r : FileEntry}

/-! ## What a comparison says -/

/-- A comparison reads the row at the path of the entry. -/
theorem verdict_congr (snap snap' : Snapshot) (h : snap x.path = snap' x.path) :
    verdict m active snap x = verdict m active snap' x := by
  rw [verdict, verdict, h]

theorem snapshot_of_row {path : Str} (h : db.getByRemotePath m.mountId path = some r) :
    db.snapshotRemoteIndex m.mountId path = some r.snapshot := by
  rw [Db.snapshotRemoteIndex, h, Option.map_some, FileEntry.snapshot]

/-- An entry that passes the filters is written exactly when its row differs from it. -/
theorem verdict_of_admitted_iff {snap : Snapshot} (ha : admitted m active x = true) :
    verdict m active snap x = .upsert ↔
      ∀ s, snap x.path = some s → ¬(s.etag = x.etag ∧ s.size = x.size) := by
  simp only [admitted, Bool.not_eq_eq_eq_not, Bool.not_true, Bool.or_eq_false_iff] at ha
  obtain ⟨⟨⟨hc, ht⟩, hu⟩, hi⟩ := ha
  simp only [verdict, hu, hc, ht, hi, Bool.false_eq_true, if_false]
  cases hs : snap x.path with
  | none => simp
  | some s =>
    dsimp only
    split <;> simp_all

/-- Only entries that pass the filters are written. -/
theorem admitted_of_verdict {snap : Snapshot} (h : verdict m active snap x = .upsert) :
    admitted m active x = true := by
  rw [verdict] at h
  split at h
  · cases h
  split at h
  · cases h
  split at h
  · cases h
  split at h
  · split at h <;> cases h
  rw [admitted]
  simp_all

theorem unchanged_of_same (snap : Snapshot) {s : RemoteSnapshot} (ha : admitted m active x = true)
    (hs : snap x.path = some s) (hsame : s.etag = x.etag ∧ s.size = x.size) :
    verdict m active snap x = .unchanged s.inode := by
  simp only [admitted, Bool.not_eq_eq_eq_not, Bool.not_true, Bool.or_eq_false_iff] at ha
  obtain ⟨⟨⟨hc, ht⟩, hu⟩, hi⟩ := ha
  simp only [verdict, hu, hc, ht, hi, Bool.false_eq_true, if_false, hs]
  exact if_pos hsame

/-- A row that is found is marked. -/
theorem mem_unchanged_of_found {i : Inode} (hr : db.getByInode i = some r)
    (hm : r.mountId = m.mountId) (hf : Found m active listing r) :
    i ∈ unchangedInodes m active (db.snapshotRemoteIndex m.mountId) listing := by
  obtain ⟨x, hx, hp, hv⟩ := hf
  have hat : db.getByRemotePath m.mountId x.path = some r := by
    rw [hp, ← hm]
    exact Db.getByRemotePath_self hr
  refine mem_unchangedInodes.2 ⟨x, hx, ?_⟩
  rw [verdict_congr _ (fun _ => some r.snapshot) (snapshot_of_row hat), hv,
    Db.inode_of_getByInode hr]

/-- A row that a comparison marks is found. -/
theorem found_of_mem_unchanged {i : Inode} (hr : db.getByInode i = some r)
    (hi : i ∈ unchangedInodes m active (db.snapshotRemoteIndex m.mountId) listing) :
    Found m active listing r := by
  obtain ⟨x, hx, hv⟩ := mem_unchangedInodes.1 hi
  obtain ⟨s, hs, hsi⟩ := snap_of_unchanged hv
  obtain ⟨q, hq, hqs⟩ := Option.map_eq_some_iff.1 hs
  have hqi : q.inode = i := by rw [← hsi, ← hqs]
  obtain ⟨hqr, -, hqp⟩ := Db.getByRemotePath_spec hq
  obtain rfl := Option.some.inj ((hqi ▸ hqr).symm.trans hr)
  refine ⟨x, hx, hqp.symm, ?_⟩
  rw [← verdict_congr (db.snapshotRemoteIndex m.mountId) _ (snapshot_of_row hq), hv, hqi]

/-! ## Rows but for what a poll leaves aside -/

/-- What a poll reads of a row beside its generation. -/
def FileEntry.compared (r : FileEntry) : ℕ × Str × SyncStatus × RemoteSnapshot :=
  (r.mountId, r.remotePath, r.status, r.snapshot)

/-- A poll finds the same rows. -/
def Agree (db db' : Db) : Prop :=
  ∀ i, (db'.getByInode i).map FileEntry.compared = (db.getByInode i).map FileEntry.compared

theorem compared_eq_iff {q : FileEntry} : q.compared = r.compared ↔
    q.mountId = r.mountId ∧ q.remotePath = r.remotePath ∧ q.status = r.status ∧
      q.snapshot = r.snapshot := by
  simp [FileEntry.compared]

theorem Agree.symm (h : Agree db db') : Agree db' db := fun i => (h i).symm

/-- The row that was there. -/
theorem Agree.before {i : Inode} (h : Agree db db') (hr : db'.getByInode i = some r) :
    ∃ q, db.getByInode i = some q ∧ q.compared = r.compared := by
  have hi := h i
  rw [hr, Option.map_some] at hi
  exact Option.map_eq_some_iff.1 hi.symm

theorem Agree.getByRemotePath {path : Str} (h : Agree db db')
    (hr : db'.getByRemotePath m.mountId path = some r) :
    ∃ q, db.getByRemotePath m.mountId path = some q ∧ q.snapshot = r.snapshot := by
  obtain ⟨hi, hm, hp⟩ := Db.getByRemotePath_spec hr
  obtain ⟨q, hq, he⟩ := h.before hi
  obtain ⟨hqm, hqp, -, hqs⟩ := compared_eq_iff.1 he
  have hqi := Db.inode_of_getByInode hq
  exact ⟨q, Db.getByRemotePath_eq_some.2 ⟨hqi.symm ▸ hq, hqm.trans hm, hqp.trans hp⟩, hqs⟩

theorem Agree.snapshot (h : Agree db db') :
    db'.snapshotRemoteIndex m.mountId = db.snapshotRemoteIndex m.mountId := by
  funext path
  cases hr : db'.getByRemotePath m.mountId path with
  | some r =>
    obtain ⟨q, hq, he⟩ := h.getByRemotePath hr
    rw [snapshot_of_row hr, snapshot_of_row hq, he]
  | none =>
    rw [Db.snapshotRemoteIndex, Db.snapshotRemoteIndex, hr]
    cases hq : db.getByRemotePath m.mountId path with
    | none => rfl
    | some q =>
      obtain ⟨r, hr', -⟩ := h.symm.getByRemotePath hq
      cases hr.symm.trans hr'

theorem Indexed.of_agree (h : Indexed m active listing db) (ha : Agree db db') :
    Indexed m active listing db' := by
  refine ⟨fun i r hr hm hs => ?_, ha.snapshot ▸ h.written⟩
  obtain ⟨q, hq, he⟩ := ha.before hr
  obtain ⟨hqm, hqp, hqs, hqsnap⟩ := compared_eq_iff.1 he
  have hqi : q.inode = r.inode := congrArg RemoteSnapshot.inode hqsnap
  obtain ⟨x, hx, hp, hv⟩ := h.found i q hq (hqm.trans hm) (by
    rw [FileEntry.sweepable, hqs, hqi]
    exact hs)
  exact ⟨x, hx, hp.trans hqp, by rw [← hqsnap, hv, hqi]⟩

theorem SameUnmarked.refl (db : Db) : SameUnmarked db db := fun _ => rfl

theorem SameUnmarked.trans {db'' : Db} (h : SameUnmarked db db') (h' : SameUnmarked db' db'') :
    SameUnmarked db db'' := fun i => (h' i).trans (h i)

theorem SameUnmarked.agree (h : SameUnmarked db db') : Agree db db' := by
  intro i
  have hi := congrArg (Option.map FileEntry.compared) (h i)
  rwa [Option.map_map, Option.map_map] at hi

/-! ## The later polls -/

/-- Where a poll is that has nothing to do; `db` is the index it started on. -/
def IdlePc (m : Mount) (active : List Str) (listing : List RemoteMetadata) (db db' : Db) :
    FullPollPc → Prop
  | .snapshot l => l = listing
  | .generation l snap | .tombstones l snap _ =>
    l = listing ∧ snap = db.snapshotRemoteIndex m.mountId
  | .upsert job todo _ =>
    (job.listing = listing ∧ job.tombstones = active ∧
      job.snap = db.snapshotRemoteIndex m.mountId) ∧ todo = []
  | .mark job rest => ∀ i r, db'.getByInode i = some r → r.mountId = m.mountId →
    r.sweepable = true → job.generation ≤ r.pollGeneration ∨ i ∈ rest.flatten
  | .sweep job => ∀ i r, db'.getByInode i = some r → r.mountId = m.mountId →
    r.sweepable = true → job.generation ≤ r.pollGeneration
  | .removeFiles _ rest => rest = []
  | _ => True

/-- What the poller's variable says of such a poll. -/
def IdleNext (m : Mount) (active : List Str) (listing : List RemoteMetadata) (db db' : Db) :
    PollNext FullPollPc → Prop
  | .goto pc => IdlePc m active listing db db' pc
  | .done _ => True

theorem Unmoved.refl (s : Site) : Unmoved s s := ⟨_, _, _, rfl, .refl _⟩

theorem Unmoved.trans {s s' s'' : Site} (h : Unmoved s s') (h' : Unmoved s' s'') :
    Unmoved s s'' := by
  obtain ⟨_, _, _, rfl, hrows⟩ := h
  obtain ⟨_, _, _, rfl, hrows'⟩ := h'
  exact ⟨_, _, _, rfl, hrows.trans hrows'⟩

theorem Unmoved.withPoller {s s' : Site} (h : Unmoved s s') (p : Option PollerPc) :
    Unmoved s { s' with poller := p } := by
  obtain ⟨_, _, _, rfl, hrows⟩ := h
  exact ⟨_, _, _, rfl, hrows⟩

/-- A statement that writes the index only, and of the rows only their generations. -/
theorem Unmoved.withDb {s : Site} {index : Table FileEntry IndexConstraints}
    (h : SameUnmarked s.world.db { s.world.db with fileIndex := index }) :
    Unmoved s (s.withDb { s.world.db with fileIndex := index }) := ⟨_, _, _, rfl, h⟩

theorem activeTombstones_of_unmoved {s s' : Site} (h : Unmoved s s') :
    s'.world.db.activeTombstones m.mountId = s.world.db.activeTombstones m.mountId := by
  obtain ⟨_, _, _, rfl, -⟩ := h
  rfl

/-- Bumping generations. -/
theorem sameUnmarked_of_markGeneration {g : ℕ} {chunk : List Inode}
    (h : db.markGeneration g chunk = some db') :
    SameUnmarked db db' ∧ ∃ index, db' = { db with fileIndex := index } := by
  constructor
  · intro i
    rw [markGeneration_rows h i, Option.map_map]
    refine congrArg (fun f => (db.getByInode i).map f) (funext fun r => ?_)
    by_cases hi : i ∈ chunk <;> simp [hi, FileEntry.unmarked]
  · induction chunk generalizing db with
    | nil =>
      obtain rfl := Option.some.inj h
      exact ⟨_, rfl⟩
    | cons i chunk ih =>
      rw [Db.markGeneration, List.foldlM_cons] at h
      obtain ⟨d, hd, h⟩ := Option.bind_eq_some_iff.1 h
      obtain ⟨_, -, rfl⟩ := Option.map_eq_some_iff.1 hd
      obtain ⟨index, rfl⟩ := ih h
      exact ⟨index, rfl⟩

/-- A sweep that finds no row. -/
theorem deleteStaleEntries_of_none {g : ℕ} (h : ∀ i r, db.getByInode i = some r →
    r.mountId = m.mountId → r.sweepable = true → g ≤ r.pollGeneration) :
    db.deleteStaleEntries m.mountId g = (some [], db) := by
  have hnone : db.staleEntries m.mountId g = [] := by
    refine List.filter_eq_nil_iff.2 fun r hr => ?_
    rw [decide_eq_true_eq]
    rintro ⟨hm, hlt, hu, hroot⟩
    have hle := h r.inode r (Db.getByInode_of_mem hr) hm (by simp [FileEntry.sweepable, hu, hroot])
    exact absurd hlt (not_lt.2 hle)
  rw [Db.deleteStaleEntries, hnone]
  rfl

/-- There is no directory left to mark. -/
theorem sameUnmarked_of_batchMarkDirsListed (hdirs : ∀ i r, db.getByInode i = some r →
    r.mountId = m.mountId → r.kind = .directory → r.dirListed ≠ none)
    (h : db.batchMarkDirsListed m.mountId = some db') :
    SameUnmarked db db' ∧ ∃ index, db' = { db with fileIndex := index } := by
  constructor
  · intro i
    rw [batchMarkDirsListed_rows h i, Option.map_map]
    refine Option.map_congr fun r hr => ?_
    rw [Function.comp_apply, if_neg fun hc => hdirs i r hr hc.1 hc.2.1 hc.2.2]
  · obtain ⟨index, -, rfl⟩ := Option.map_eq_some_iff.1 h
    exact ⟨index, rfl⟩

/-- A settled index is one whatever the generations. -/
theorem HoldsListing.of_unmoved {s s' : Site} (h : HoldsListing m active listing s.world.db)
    (hu : Unmoved s s') : HoldsListing m active listing s'.world.db := by
  obtain ⟨index, token, poller, rfl, hrows⟩ := hu
  refine ⟨h.toIndexed.of_agree hrows.agree, h.cleaned, fun i r hr hm hk => ?_⟩
  have hi := hrows i
  rw [hr, Option.map_some] at hi
  obtain ⟨q, hq, he⟩ := Option.map_eq_some_iff.1 hi.symm
  have hlisted : q.dirListed = r.dirListed := (congrArg FileEntry.dirListed he :)
  have hqm : q.mountId = r.mountId := (congrArg FileEntry.mountId he :)
  have hqk : q.kind = r.kind := (congrArg FileEntry.kind he :)
  exact hlisted ▸ h.dirsListed i q hq (hqm.trans hm) (hqk.trans hk)

/-- **A call of a poll that has nothing to do.** -/
theorem pollIdle_of_step {s₀ s s' : Site} {env : PollEnv} {pc : FullPollPc} {n : PollNext FullPollPc}
    (hset : HoldsListing m (s₀.world.db.activeTombstones m.mountId) listing s₀.world.db)
    (hu : Unmoved s₀ s)
    (hpc : IdlePc m (s₀.world.db.activeTombstones m.mountId) listing s₀.world.db s.world.db pc)
    (henv : Repeats listing env pc) (h : FullPollStep m s env pc s' n) :
    Unmoved s₀ s' ∧ IdleNext m (s₀.world.db.activeTombstones m.mountId) listing s₀.world.db
      s'.world.db n := by
  have hnow := hset.of_unmoved hu
  cases h with
  | fail => exact ⟨hu, trivial⟩
  | @listed l hl =>
    have hsame : l = listing := by
      rw [Repeats, hl] at henv
      exact of_decide_eq_true henv
    exact ⟨hu, hsame⟩
  | snapshot =>
    obtain ⟨_, _, _, rfl, hrows⟩ := hu
    exact ⟨⟨_, _, _, rfl, hrows⟩, hpc, hrows.agree.snapshot⟩
  | generation => exact ⟨hu, hpc⟩
  | filtered =>
    obtain ⟨rfl, rfl⟩ := hpc
    have hload : s.loadTombstones m env = s₀.world.db.activeTombstones m.mountId := by
      rw [Site.loadTombstones, henv, if_neg Bool.false_ne_true, activeTombstones_of_unmoved hu]
    rw [hload]
    exact ⟨hu, ⟨rfl, rfl, rfl⟩, hset.written⟩
  | upsertsDone =>
    obtain ⟨⟨hl, ht, hsnap⟩, -⟩ := hpc
    refine ⟨hu, fun i r hr hm hs => .inr ?_⟩
    obtain ⟨_, _, _, rfl, hrows⟩ := hu
    rw [flatten_chunks, hl, ht, hsnap, ← hrows.agree.snapshot]
    exact mem_unchanged_of_found hr hm (hnow.found i r hr hm hs)
  | upserted => exact absurd hpc.2 (List.cons_ne_nil _ _)
  | upsertRefused => exact absurd hpc.2 (List.cons_ne_nil _ _)
  | marksDone => exact ⟨hu, fun i r hr hm hs => (hpc i r hr hm hs).resolve_right (by simp)⟩
  | @marked _ chunk rest d h =>
    obtain ⟨hrows, _, rfl⟩ := sameUnmarked_of_markGeneration h
    refine ⟨hu.trans (.withDb hrows), fun i r' hr' hm hs => ?_⟩
    rw [Site.withDb_db, markGeneration_rows h i] at hr'
    obtain ⟨r, hr, he⟩ := Option.map_eq_some_iff.1 hr'
    split at he
    · rw [← he]
      exact .inl le_rfl
    · rename_i hc
      obtain rfl := he
      refine (hpc i r hr hm hs).imp id fun hi => ?_
      exact (List.mem_append.1 hi).resolve_left hc
  | swept _ h =>
    rw [deleteStaleEntries_of_none hpc] at h
    obtain ⟨hd, rfl⟩ := Prod.mk.inj h
    obtain rfl := Option.some.inj hd
    exact ⟨hu, rfl⟩
  | sweepRefused _ h =>
    rw [deleteStaleEntries_of_none hpc] at h
    cases (Prod.mk.inj h).1
  | filesRemoved => exact ⟨hu, trivial⟩
  | fileRemoved => exact absurd hpc (List.cons_ne_nil _ _)
  | generationSaved =>
    obtain ⟨_, _, _, rfl, hrows⟩ := hu
    exact ⟨⟨_, _, _, rfl, hrows⟩, trivial⟩
  | cleaned h =>
    have hsame : s.world.db.cleanupExpiredTombstones = s.world.db := by
      rw [Db.cleanupExpiredTombstones, hnow.cleaned]
    rw [hsame, or_self] at h
    rw [h]
    exact ⟨hu, trivial⟩
  | finished h =>
    rcases h with rfl | h
    · exact ⟨hu, trivial⟩
    · obtain ⟨hrows, _, rfl⟩ := sameUnmarked_of_batchMarkDirsListed hnow.dirsListed h
      exact ⟨hu.trans (.withDb hrows), trivial⟩

/-- The poller is idle, or its poll has nothing to do. -/
def PollIdle (m : Mount) (listing : List RemoteMetadata) (s₀ s : Site) : Prop :=
  Unmoved s₀ s ∧ ∀ p, s.poller = some p → ∃ pc, p = .full pc ∧
    IdlePc m (s₀.world.db.activeTombstones m.mountId) listing s₀.world.db s.world.db pc

theorem pollIdle_of_siteStep {s₀ s s' : Site} {ev : SiteEvent}
    (hset : HoldsListing m (s₀.world.db.activeTombstones m.mountId) listing s₀.world.db)
    (hs : PollIdle m listing s₀ s) (hagain : ListsAgain listing s ev)
    (h : siteStep m false s ev = some s') : PollIdle m listing s₀ s' := by
  cases ev with
  | poll env =>
    obtain ⟨hu, hidle⟩ := hs
    cases pollerStep_cases (Option.some.inj h) with
    | wakes => exact ⟨hu.withPoller _, fun p hp => ⟨.list, (Option.some.inj hp).symm, trivial⟩⟩
    | @full pc t n hp hstep =>
      obtain ⟨pc', hpc, hidlePc⟩ := hidle _ hp
      obtain rfl := PollerPc.full.inj hpc
      have hrepeats : Repeats listing env pc := by
        rwa [ListsAgain, hp] at hagain
      obtain ⟨hu', hnext⟩ := pollIdle_of_step hset hu hidlePc hrepeats hstep
      refine ⟨hu'.withPoller _, fun p hp => ?_⟩
      obtain ⟨pc', rfl, rfl⟩ := PollNext.pc_eq_some.1 hp
      exact ⟨pc', rfl, hnext⟩
    | delta hp hstep =>
      obtain ⟨pc', hpc, -⟩ := hidle _ hp
      cases hpc
  | _ => exact hagain.elim

/-- Polls of a settled index leave the site as it is. -/
theorem unmoved_of_settled {s s' : Site} {evs : List SiteEvent} (hidle : s.poller = none)
    (hset : HoldsListing m (s.world.db.activeTombstones m.mountId) listing s.world.db)
    (hagain : Guarded (siteStep m false) (ListsAgain listing) s evs)
    (hr : run (siteStep m false) s evs = some s') : Unmoved s s' := by
  have hstart : PollIdle m listing s s := ⟨.refl s, fun p hp => by
    rw [hidle] at hp
    cases hp⟩
  exact (inv_of_run (I := PollIdle m listing s)
    (fun _ _ _ hs hg h => pollIdle_of_siteStep hset hs hg h) hstart hagain hr).1

/-! ## The first poll -/

/-- No row of the mount has the generation `g` yet. -/
def GenerationsBelow (m : Mount) (db : Db) (g : ℕ) : Prop :=
  ∀ i r, db.getByInode i = some r → r.mountId = m.mountId → r.pollGeneration < g

instance (m : Mount) (db : Db) (g : ℕ) : Decidable (GenerationsBelow m db g) :=
  decidable_of_iff (∀ r ∈ db.fileIndex.rows, r.mountId = m.mountId → r.pollGeneration < g)
    ⟨fun h _ r hr => h r (Db.mem_rows_of_getByInode hr),
      fun h r hr => h r.inode r (Db.getByInode_of_mem hr)⟩

/-- A poll under way: a row with its generation, or whose generation is still to be bumped, is
found; and an entry that passes the filters is still to be written or has such a row, which agrees
with it. -/
structure Settling (m : Mount) (job : FullPoll) (todo : List RemoteMetadata) (marks : List Inode)
    (db : Db) : Prop where
  sub : ∀ x ∈ todo, x ∈ job.listing ∧ admitted m job.tombstones x = true
  found : ∀ i r, db.getByInode i = some r → r.mountId = m.mountId →
    (job.generation ≤ r.pollGeneration ∨ i ∈ marks) → Found m job.tombstones job.listing r
  kept : ∀ x ∈ job.listing, admitted m job.tombstones x = true → x ∈ todo ∨
    ∃ r, db.getByRemotePath m.mountId x.path = some r ∧ (r.etag = x.etag ∧ r.size = x.size) ∧
      (job.generation ≤ r.pollGeneration ∨ r.inode ∈ marks)

theorem settling_of_snapshot {g : ℕ} (h : GenerationsBelow m db g) :
    Settling m ⟨listing, db.snapshotRemoteIndex m.mountId, active, g⟩
      (toUpsert m active (db.snapshotRemoteIndex m.mountId) listing)
      (unchangedInodes m active (db.snapshotRemoteIndex m.mountId) listing) db where
  sub x hx := by
    obtain ⟨hx, hv⟩ := mem_toUpsert.1 hx
    exact ⟨hx, admitted_of_verdict hv⟩
  found i r hr hm hg := by
    have hi := hg.resolve_left (not_le.2 (h i r hr hm))
    exact found_of_mem_unchanged hr hi
  kept x hx ha := by
    by_cases hv : verdict m active (db.snapshotRemoteIndex m.mountId) x = .upsert
    · exact .inl (mem_toUpsert.2 ⟨hx, hv⟩)
    rw [verdict_of_admitted_iff ha] at hv
    push Not at hv
    obtain ⟨s, hs, hsame⟩ := hv
    obtain ⟨r, hr, rfl⟩ := Option.map_eq_some_iff.1 hs
    exact .inr ⟨r, hr, hsame, .inr (mem_unchangedInodes.2 ⟨x, hx, unchanged_of_same _ ha hs hsame⟩)⟩

/-- The row an entry has just been written to is found. -/
theorem found_of_written (hx : x ∈ listing) (ha : admitted m active x = true)
    (hp : r.remotePath = x.path) (hsame : r.etag = x.etag ∧ r.size = x.size) :
    Found m active listing r :=
  ⟨x, hx, hp.symm, unchanged_of_same (fun _ => some r.snapshot) ha rfl hsame⟩

/-- Writing an entry. -/
theorem Settling.upsert {todo : List RemoteMetadata} {marks : List Inode} {paths : PathToInode}
    {i : Inode} (hw : Settling m job (x :: todo) marks db)
    (hpaths : (job.listing.map RemoteMetadata.path).Nodup)
    (htakes : TakesUnlisted m db job x todo)
    (h : upsertEntry m paths job.generation db x = (some i, db')) :
    Settling m job todo marks db' := by
  have hout := Db.upsert_outcome h
  obtain ⟨w, hwi, hwm, hwp, -, -, -, hwsize, hwetag, hwg⟩ := hout.written
  have hwp : w.remotePath = x.path := hwp
  have hwsame : w.etag = x.etag ∧ w.size = x.size := ⟨hwetag, hwsize⟩
  obtain ⟨hx, hxa⟩ := hw.sub x List.mem_cons_self
  have hwritten : db'.getByRemotePath m.mountId x.path = some w :=
    Db.getByRemotePath_eq_some.2 ⟨(Db.inode_of_getByInode hwi).symm ▸ hwi, hwm, hwp⟩
  -- no two entries share a path
  have hsame : ∀ y ∈ job.listing, ∀ z ∈ job.listing, y.path = z.path → y = z :=
    fun y hy z hz he => List.inj_on_of_nodup_map hpaths hy hz he
  refine ⟨fun y hy => hw.sub y (List.mem_cons_of_mem _ hy), fun j r hr hm hg => ?_,
    fun z hz ha => ?_⟩
  · by_cases hj : j = i
    · obtain rfl := Option.some.inj (hr.symm.trans (hj ▸ hwi))
      exact found_of_written hx hxa hwp hwsame
    · exact hw.found j r (hout.other hj hr) hm hg
  · by_cases hzx : z.path = x.path
    · obtain rfl := hsame z hz x hx hzx
      exact .inr ⟨w, hwritten, hwsame, .inl hwg.ge⟩
    rcases hw.kept z hz ha with hz' | ⟨r, hr, hrs, hg⟩
    · exact .inl ((List.mem_cons.1 hz').resolve_left fun he => hzx (he ▸ rfl))
    · obtain ⟨hri, hrm, hrp⟩ := Db.getByRemotePath_spec hr
      by_cases hj : r.inode = i
      · -- the row was taken from here
        have hne : r.remotePath ≠ x.path := fun he => hzx (hrp.symm.trans he)
        have hfound := hout.moved_of_path_ne (hj ▸ hri) hne
        obtain ⟨y, hy, hp⟩ := htakes r hfound hne ⟨z, hz, ha, hrp.symm⟩
        have hyl := (hw.sub y (List.mem_cons_of_mem _ hy)).1
        exact .inl (hsame y hyl z hz (hp.trans hrp) ▸ hy)
      · have hr' := hout.keeps hj hri fun _ he => hzx (hrp.symm.trans he)
        exact .inr ⟨r, Db.getByRemotePath_eq_some.2 ⟨hr', hrm, hrp⟩, hrs, hg⟩

/-- Bumping the generation of a chunk of rows. -/
theorem Settling.mark {chunk rest : List Inode} (hw : Settling m job [] (chunk ++ rest) db)
    (h : db.markGeneration job.generation chunk = some db') : Settling m job [] rest db' := by
  have hrows := markGeneration_rows h
  refine ⟨fun x hx => absurd hx List.not_mem_nil, fun i r' hr' hm hg => ?_, fun x hx ha => ?_⟩
  · rw [hrows i] at hr'
    obtain ⟨r, hr, rfl⟩ := Option.map_eq_some_iff.1 hr'
    by_cases hc : i ∈ chunk
    · rw [if_pos hc] at hm ⊢
      exact hw.found i r hr hm (.inr (List.mem_append_left _ hc))
    · rw [if_neg hc] at hm hg ⊢
      exact hw.found i r hr hm (hg.imp id (List.mem_append_right _))
  · obtain ⟨r, hr, hsame, hg⟩ := (hw.kept x hx ha).resolve_left List.not_mem_nil
    obtain ⟨hri, hrm, hrp⟩ := Db.getByRemotePath_spec hr
    have hr' := hrows r.inode
    rw [hri, Option.map_some] at hr'
    by_cases hc : r.inode ∈ chunk
    · rw [if_pos hc] at hr'
      exact .inr ⟨{ r with pollGeneration := job.generation },
        Db.getByRemotePath_eq_some.2 ⟨hr', hrm, hrp⟩, hsame, .inl le_rfl⟩
    · rw [if_neg hc] at hr'
      refine .inr ⟨r, Db.getByRemotePath_eq_some.2 ⟨hr', hrm, hrp⟩, hsame, hg.imp id fun h => ?_⟩
      exact (List.mem_append.1 h).resolve_left hc

/-- What the sweep leaves. -/
theorem indexed_of_sweep {deleted : List (Inode × Str × Option PathBuf)}
    (hw : Settling m job [] [] db)
    (h : db.deleteStaleEntries m.mountId job.generation = (some deleted, db')) :
    Indexed m job.tombstones job.listing db' := by
  have hsweep := deleteStaleEntries_sweep db m.mountId job.generation
  rw [h] at hsweep
  have hmem : ∀ r, r ∈ db'.fileIndex.rows ↔
      r ∈ db.fileIndex.rows ∧ r ∉ db.staleEntries m.mountId job.generation := by
    intro r
    rw [mem_rows_deleteEach hsweep.symm]
    exact and_congr_right fun hr =>
      not_congr (inode_mem_map_iff (fun q hq => (List.mem_filter.1 hq).1) hr)
  refine ⟨fun i r hr hm hs => ?_, List.eq_nil_iff_forall_not_mem.2 fun x hx => ?_⟩
  · obtain ⟨hrows, hns⟩ := (hmem r).1 (Db.mem_rows_of_getByInode hr)
    have hr₀ := Db.getByInode_of_mem hrows
    refine hw.found r.inode r hr₀ hm (.inl ?_)
    by_contra hlt
    rw [FileEntry.sweepable, Bool.and_eq_true, decide_eq_true_eq] at hs
    exact hns (List.mem_filter.2 ⟨hrows, by simp [hm, not_le.1 hlt, hs.1, hs.2]⟩)
  · obtain ⟨hx, hv⟩ := mem_toUpsert.1 hx
    have ha := admitted_of_verdict hv
    obtain ⟨r, hr, hsame, hg⟩ := (hw.kept x hx ha).resolve_left List.not_mem_nil
    obtain ⟨hri, hrm, hrp⟩ := Db.getByRemotePath_spec hr
    have hg := hg.resolve_right List.not_mem_nil
    have hstays : r ∈ db'.fileIndex.rows := by
      refine (hmem r).2 ⟨Db.mem_rows_of_getByInode hri, fun hstale => ?_⟩
      have hold := (List.mem_filter.1 hstale).2
      rw [decide_eq_true_eq] at hold
      exact absurd hold.2.1 (not_lt.2 hg)
    have hr' := Db.getByRemotePath_eq_some.2 ⟨Db.getByInode_of_mem hstays, hrm, hrp⟩
    exact (verdict_of_admitted_iff ha).1 hv _ (snapshot_of_row hr') hsame

/-- What the remote reports does not touch the tombstones. -/
theorem tombstones_of_applyRemote (op : RemoteOp) (db : Db) :
    (db.applyRemote op).tombstones = db.tombstones ∧ (db.applyRemote op).now = db.now := by
  have hsteps := applyRemote_steps op db
  generalize db.applyRemote op = db' at hsteps
  induction hsteps with
  | refl => exact ⟨rfl, rfl⟩
  | tail _ h ih =>
    rw [← ih.1, ← ih.2]
    cases h with
    | upsert _ _ h =>
      rw [Db.upsertByPath] at h
      split at h
      · obtain ⟨_, -, rfl⟩ := Option.map_eq_some_iff.1 h
        exact ⟨rfl, rfl⟩
      · obtain ⟨_, -, rfl⟩ := Option.map_eq_some_iff.1 h
        exact ⟨rfl, rfl⟩
    | delete _ h | clear _ _ _ h | move _ _ _ h =>
      obtain ⟨_, -, rfl⟩ := Option.map_eq_some_iff.1 h
      exact ⟨rfl, rfl⟩

theorem activeTombstones_of_applyRemote (op : RemoteOp) (db : Db) :
    (db.applyRemote op).activeTombstones m.mountId = db.activeTombstones m.mountId := by
  obtain ⟨htomb, hnow⟩ := tombstones_of_applyRemote op db
  rw [Db.activeTombstones, Db.activeTombstones, htomb, hnow]

/-- The expired tombstones go, the active ones stay. -/
theorem activeTombstones_cleanup (db : Db) :
    db.cleanupExpiredTombstones.activeTombstones m.mountId = db.activeTombstones m.mountId := by
  rw [Db.activeTombstones, Db.cleanupExpiredTombstones, List.filter_filter, Db.activeTombstones]
  refine congrArg (List.map _) (List.filter_congr fun t _ => ?_)
  by_cases hm : t.mountId = m.mountId <;> by_cases ht : db.now < t.expiresAt <;> simp [hm, ht]

/-- The database accepts the listing times of the directories. -/
theorem batchMarkDirsListed_isSome (db : Db) (mountId : ℕ) :
    (db.batchMarkDirsListed mountId).isSome = true := by
  refine Db.updateWhere_isSome (p := fun r =>
    r.mountId = mountId ∧ r.kind = .directory ∧ r.dirListed = none)
    (fun r => ⟨rfl, rfl, rfl, rfl, rfl, rfl⟩) fun r hr hp hfile => ?_
  rw [decide_eq_true_eq] at hp
  exact absurd (hp.2.1.symm.trans hfile) (by decide)

/-- The last call of a poll. -/
theorem settled_of_batchMarkDirsListed (h : Indexed m active listing db)
    (hclean : (db.tombstones.filter fun t => db.now < t.expiresAt) = db.tombstones)
    (hm : db.batchMarkDirsListed m.mountId = some db') : HoldsListing m active listing db' := by
  have hrows := batchMarkDirsListed_rows hm
  have hagree : Agree db db' := by
    intro i
    rw [hrows i, Option.map_map]
    refine congrArg (fun f => (db.getByInode i).map f) (funext fun r => ?_)
    rw [Function.comp_apply]
    split <;> rfl
  have hrest : db'.tombstones = db.tombstones ∧ db'.now = db.now := by
    obtain ⟨index, -, rfl⟩ := Option.map_eq_some_iff.1 hm
    exact ⟨rfl, rfl⟩
  refine ⟨h.of_agree hagree, by rwa [hrest.1, hrest.2], fun i r' hr' hmount hk => ?_⟩
  rw [hrows i] at hr'
  obtain ⟨r, hr, rfl⟩ := Option.map_eq_some_iff.1 hr'
  by_cases hc : r.mountId = m.mountId ∧ r.kind = .directory ∧ r.dirListed = none
  · rw [if_pos hc]
    exact Option.some_ne_none _
  · rw [if_neg hc] at hmount hk ⊢
    exact fun hnone => hc ⟨hmount, hk, hnone⟩

/-- The condition on the first poll: its calls succeed, and it leaves no entry without a row. -/
def SettlingPoll (m : Mount) (x : Site × PollNext FullPollPc) (env : PollEnv) : Prop :=
  PollTidy m x env ∧ env.fault = false

instance (m : Mount) (x : Site × PollNext FullPollPc) (env : PollEnv) :
    Decidable (SettlingPoll m x env) := inferInstanceAs (Decidable (_ ∧ _))

/-- Where the first poll is. -/
def SettlingPc (m : Mount) (active : List Str) (listing : List RemoteMetadata) (s : Site) :
    FullPollPc → Prop
  | .list => False
  | .snapshot l => l = listing ∧ GenerationsBelow m s.world.db (pollGeneration s.token + 1)
  | .generation l snap => l = listing ∧ snap = s.world.db.snapshotRemoteIndex m.mountId ∧
    GenerationsBelow m s.world.db (pollGeneration s.token + 1)
  | .tombstones l snap g => l = listing ∧ snap = s.world.db.snapshotRemoteIndex m.mountId ∧
    GenerationsBelow m s.world.db g
  | .upsert job todo _ => (job.listing = listing ∧ job.tombstones = active) ∧
    Settling m job todo (job.unchanged m) s.world.db
  | .mark job rest => (job.listing = listing ∧ job.tombstones = active) ∧
    Settling m job [] rest.flatten s.world.db
  | .sweep job => (job.listing = listing ∧ job.tombstones = active) ∧
    Settling m job [] [] s.world.db
  | .removeFiles .. | .saveGeneration _ | .cleanup => Indexed m active listing s.world.db
  | .markListed => Indexed m active listing s.world.db ∧
    (s.world.db.tombstones.filter fun t => s.world.db.now < t.expiresAt) = s.world.db.tombstones

def SettlingPhase (m : Mount) (active : List Str) (listing : List RemoteMetadata) :
    Site × PollNext FullPollPc → Prop
  | (s, .goto pc) =>
    s.world.db.activeTombstones m.mountId = active ∧ SettlingPc m active listing s pc
  | (_, .done false) => True
  | (s, .done true) =>
    s.world.db.activeTombstones m.mountId = active ∧ HoldsListing m active listing s.world.db

/-- **A call of the first poll.** -/
theorem settlingPhase_of_step {y y' : Site × PollNext FullPollPc} {env : PollEnv}
    (hpaths : (listing.map RemoteMetadata.path).Nodup) (hy : SettlingPhase m active listing y)
    (hg : SettlingPoll m y env) (h : loneStep m y env = some y') :
    SettlingPhase m active listing y' := by
  obtain ⟨s, n⟩ := y
  obtain ⟨s', n'⟩ := y'
  obtain ⟨pc, hn, hstep⟩ := fullPollStep_of_loneStep h
  dsimp only at hn hstep
  subst hn
  obtain ⟨hactive, hpc⟩ := hy
  obtain ⟨htidy, hfault⟩ := hg
  cases hstep with
  | fail => trivial
  | listed => exact hpc.elim
  | snapshot => exact ⟨hactive, hpc.1, rfl, hpc.2⟩
  | generation => exact ⟨hactive, hpc⟩
  | filtered =>
    obtain ⟨rfl, rfl, hbelow⟩ := hpc
    have hload : s.loadTombstones m env = active := by
      rw [Site.loadTombstones, hfault, if_neg Bool.false_ne_true, hactive]
    rw [hload]
    exact ⟨hactive, ⟨rfl, rfl⟩, settling_of_snapshot hbelow⟩
  | upsertsDone =>
    refine ⟨hactive, hpc.1, ?_⟩
    rw [flatten_chunks]
    exact hpc.2
  | @upserted job x todo paths i db _ hup =>
    have hdb : db = s.world.db.applyRemote (.upsert m.mountId
        (x.toRefresh (resolveParent paths x.path) job.generation) x.itemId) :=
      (congrArg Prod.snd hup).symm
    refine ⟨?_, hpc.1, hpc.2.upsert (hpc.1.1 ▸ hpaths) htidy hup⟩
    rw [Site.dropHeader_db, Site.withDb_db, hdb, activeTombstones_of_applyRemote, hactive]
  | upsertRefused => trivial
  | marksDone => exact ⟨hactive, hpc⟩
  | marked hmark =>
    refine ⟨?_, hpc.1, hpc.2.mark hmark⟩
    obtain ⟨-, _, rfl⟩ := sameUnmarked_of_markGeneration hmark
    exact hactive
  | @swept job deleted db _ hsweep =>
    have hdb : db = s.world.db.applyRemote (.deleteStale m.mountId job.generation) :=
      (congrArg Prod.snd hsweep).symm
    obtain ⟨⟨hl, ht⟩, hsettling⟩ := hpc
    refine ⟨?_, ?_⟩
    · rw [foldl_dropHeader_db, Site.withDb_db, hdb, activeTombstones_of_applyRemote, hactive]
    · rw [SettlingPc, foldl_dropHeader_db, ← hl, ← ht]
      exact indexed_of_sweep hsettling hsweep
  | sweepRefused => trivial
  | filesRemoved => exact ⟨hactive, hpc⟩
  | fileRemoved =>
    refine ⟨?_, ?_⟩
    · rwa [Site.removeFile_db]
    · rw [SettlingPc, Site.removeFile_db]
      exact hpc
  | generationSaved => exact ⟨hactive, hpc⟩
  | cleaned =>
    rw [loneStep, FullPollPc.tick, hfault, if_neg Bool.false_ne_true] at h
    obtain rfl := congrArg (fun y => y.1.world.db) (Option.some.inj h)
    refine ⟨(activeTombstones_cleanup _).trans hactive, ⟨hpc.found, hpc.written⟩, ?_⟩
    exact List.filter_filter.trans (List.filter_congr fun t _ => Bool.and_self _)
  | finished =>
    rw [loneStep, FullPollPc.tick, hfault, if_neg Bool.false_ne_true] at h
    obtain ⟨d, hdb⟩ := Option.isSome_iff_exists.1
      (batchMarkDirsListed_isSome s.world.db m.mountId)
    rw [hdb] at h
    obtain rfl := congrArg (fun y => y.1.world.db) (Option.some.inj h)
    refine ⟨?_, settled_of_batchMarkDirsListed hpc.1 hpc.2 hdb⟩
    obtain ⟨_, -, rfl⟩ := Option.map_eq_some_iff.1 hdb
    exact hactive

/-- **A full poll settles the index**: when its calls succeed on a listing without duplicate
paths. -/
theorem settled_of_poll {s s' : Site} {env : PollEnv} {envs : List PollEnv}
    (hlisting : env.listing = .ok listing) (hpaths : (listing.map RemoteMetadata.path).Nodup)
    (hbelow : GenerationsBelow m s.world.db (pollGeneration s.token + 1))
    (hg : Guarded (loneStep m) (SettlingPoll m) (s, .goto .list) (env :: envs))
    (hr : run (loneStep m) (s, .goto .list) (env :: envs) = some (s', .done true)) :
    HoldsListing m (s'.world.db.activeTombstones m.mountId) listing s'.world.db := by
  obtain ⟨y, hy, hr⟩ := run_cons_eq_some.1 hr
  have hg := hg.2 y hy
  rw [loneStep, FullPollPc.tick, hlisting] at hy
  dsimp only at hy
  split at hy
  · obtain rfl := Option.some.inj hy
    cases envs with
    | nil => cases hr
    | cons _ _ => cases hr
  · obtain rfl := Option.some.inj hy
    have hphase : SettlingPhase m (s.world.db.activeTombstones m.mountId) listing
        (s, .goto (.snapshot listing)) := ⟨rfl, rfl, hbelow⟩
    obtain ⟨hactive, hset⟩ :=
      inv_of_run (fun _ _ _ hy hg h => settlingPhase_of_step hpaths hy hg h) hphase hg hr
    exact hactive.symm ▸ hset

/-- **A remote that does not change moves nothing**: after a full poll whose calls succeed, any
number of polls of the same listing, each of which may fail, leave the site as it is but for the
generations. -/
theorem unmoved_of_polls (m : Mount) (listing : List RemoteMetadata) (s s₁ s₂ : Site)
    (env : PollEnv) (envs : List PollEnv) (evs : List SiteEvent)
    (hlisting : env.listing = .ok listing) (hpaths : (listing.map RemoteMetadata.path).Nodup)
    (hbelow : GenerationsBelow m s.world.db (pollGeneration s.token + 1))
    (hg : Guarded (loneStep m) (SettlingPoll m) (s, .goto .list) (env :: envs))
    (hfirst : run (loneStep m) (s, .goto .list) (env :: envs) = some (s₁, .done true))
    (hagain : Guarded (siteStep m false) (ListsAgain listing) { s₁ with poller := none } evs)
    (hlater : run (siteStep m false) { s₁ with poller := none } evs = some s₂) :
    Unmoved s₁ s₂ := by
  have hset := settled_of_poll hlisting hpaths hbelow hg hfirst
  exact (Unmoved.refl s₁).withPoller none |>.trans (unmoved_of_settled rfl hset hagain hlater)

/-- A first poll of a remote with one file, a poll that does not reach the remote, and another
one. -/
theorem unmoved_of_threePolls : ∃ s₁ s₂,
    run (loneStep sampleMount) (Site.init sampleMount 0, .goto .list)
      (PollEnv.ofListing [listedFile ['a']] ::
        List.replicate 11 (PollEnv.ofListing [listedFile ['a']])) = some (s₁, .done true) ∧
    run (siteStep sampleMount false) { s₁ with poller := none }
      (List.replicate 2 (.poll { PollEnv.ofListing [] with listing := .error .transient }) ++
        List.replicate 12 (.poll (.ofListing [listedFile ['a']]))) = some s₂ ∧
    Unmoved s₁ s₂ := by
  have hagain : ∀ s, ∀ ev ∈
      List.replicate 2 (.poll { PollEnv.ofListing [] with listing := .error .transient }) ++
        List.replicate 12 (.poll (.ofListing [listedFile ['a']])),
      ListsAgain [listedFile ['a']] s ev := by
    intro s ev hev
    rcases List.mem_append.1 hev with hev | hev
    all_goals
      rw [List.eq_of_mem_replicate hev, ListsAgain]
      split
      · rename_i pc _
        cases pc <;> trivial
      · trivial
  exact ⟨_, _, rfl, rfl, unmoved_of_polls sampleMount [listedFile ['a']] (Site.init sampleMount 0)
    _ _ (PollEnv.ofListing [listedFile ['a']])
    (List.replicate 11 (PollEnv.ofListing [listedFile ['a']])) _ rfl (by decide) (by decide)
    (by decide) rfl (guarded_of_forall hagain _) rfl⟩

end Stratosync

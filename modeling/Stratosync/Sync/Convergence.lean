import Stratosync.Foundations.Runs
import Stratosync.State.Upserts
import Stratosync.Sync.Poller
import Stratosync.Sync.RemovedDirs

/-!
# What a full poll leaves

A `poll_once` that nothing interferes with marks the rows of the listing with its generation and
sweeps the others. `converged_of_poll` says when the index has the listed entries afterwards and
nothing else: no row that vanished from the remote carries a generation as high as the poll's, and
no entry takes the row of another one that is not written after it.
-/

namespace Stratosync

open Foundations Foundations.Runs

/-- A `poll_once` with nothing else going on. -/
def loneStep (m : Mount) :
    Site × PollNext FullPollPc → PollEnv → Option (Site × PollNext FullPollPc)
  | (s, .goto pc), env => some (pc.tick m s env)
  | (_, .done _), _ => none

/-- The root, a row with local work, or a conflict file: a row that need not be listed. -/
def FileEntry.exempt (r : FileEntry) : Bool :=
  r.inode = fuseRootInode || r.status.isUnsynced || r.status = .conflict

def listedAt (listing : List RemoteMetadata) (path : Str) : Bool :=
  listing.any fun x => x.path = path

/-- **The index agrees with a listing**: every listed entry that passes the filters has a row, and
every row that is not exempt is listed. -/
structure Converged (m : Mount) (active : List Str) (listing : List RemoteMetadata) (db : Db) :
    Prop where
  listed : ∀ x ∈ listing, admitted m active x = true →
    ∃ r, db.getByRemotePath m.mountId x.path = some r
  vanished : ∀ i r, db.getByInode i = some r → r.mountId = m.mountId → r.exempt = false →
    listedAt listing r.remotePath = true

/-- A row that the sweep of a poll would spare is exempt, listed, or found by the item id of an
entry to be written. -/
def Accounted (listing todo : List RemoteMetadata) (r : FileEntry) : Prop :=
  r.exempt = true ∨ listedAt listing r.remotePath = true ∨
    (r.remoteItemId.isSome = true ∧ ∃ x ∈ todo, x.itemId = r.remoteItemId)

instance (listing todo : List RemoteMetadata) (r : FileEntry) :
    Decidable (Accounted listing todo r) :=
  inferInstanceAs (Decidable (_ ∨ _ ∨ _))

/-- Every row with a generation as high as the poll's is accounted for. -/
def GenerationsAccounted (m : Mount) (db : Db) (listing todo : List RemoteMetadata) (g : ℕ) :
    Prop :=
  ∀ r ∈ db.fileIndex.rows, r.mountId = m.mountId → g ≤ r.pollGeneration → Accounted listing todo r

instance (m : Mount) (db : Db) (listing todo : List RemoteMetadata) (g : ℕ) :
    Decidable (GenerationsAccounted m db listing todo g) :=
  inferInstanceAs (Decidable (∀ r ∈ db.fileIndex.rows, _))

/-- An entry that takes a row from another path leaves no listed entry without one. -/
def TakesUnlisted (m : Mount) (db : Db) (job : FullPoll) (y : RemoteMetadata)
    (todo : List RemoteMetadata) : Prop :=
  ∀ r ∈ y.itemId.bind (db.getByItemId m.mountId), r.remotePath ≠ y.path →
    (∃ z ∈ job.listing, admitted m job.tombstones z = true ∧ z.path = r.remotePath) →
      ∃ z ∈ todo, z.path = r.remotePath

instance (m : Mount) (db : Db) (job : FullPoll) (y : RemoteMetadata)
    (todo : List RemoteMetadata) : Decidable (TakesUnlisted m db job y todo) :=
  inferInstanceAs (Decidable (∀ r ∈ y.itemId.bind (db.getByItemId m.mountId), _))

/-- The condition on the steps of a poll. A generation is written to a column of signed 64-bit
integers. -/
def PollTidy (m : Mount) (x : Site × PollNext FullPollPc) (env : PollEnv) : Prop :=
  match x with
  | (s, .goto (.tombstones listing snap g)) =>
    g < 2 ^ 63 ∧ GenerationsAccounted m s.world.db listing
      (toUpsert m (s.loadTombstones m env) snap listing) g
  | (s, .goto (.upsert job (y :: todo) _)) => TakesUnlisted m s.world.db job y todo
  | _ => True

instance (m : Mount) (env : PollEnv) :
    (x : Site × PollNext FullPollPc) → Decidable (PollTidy m x env)
  | (s, .goto (.tombstones listing _ g)) =>
    inferInstanceAs (Decidable (_ ∧ GenerationsAccounted m s.world.db listing _ g))
  | (s, .goto (.upsert job (y :: todo) _)) =>
    inferInstanceAs (Decidable (TakesUnlisted m s.world.db job y todo))
  | (_, .goto .list) | (_, .goto (.snapshot _)) | (_, .goto (.generation _ _))
  | (_, .goto (.upsert _ [] _)) | (_, .goto (.mark _ _)) | (_, .goto (.sweep _))
  | (_, .goto (.removeFiles _ _)) | (_, .goto (.saveGeneration _)) | (_, .goto .cleanup)
  | (_, .goto .markListed) | (_, .done _) => .isTrue trivial

/-! ## The phases of a poll -/

def FullPoll.unchanged (m : Mount) (job : FullPoll) : List Inode :=
  unchangedInodes m job.tombstones job.snap job.listing

/-- While entries are written: a row with the generation of the poll, or whose generation is still
to be bumped, is accounted for; and an entry that passes the filters is still to be written or has
such a row. -/
structure Writing (m : Mount) (job : FullPoll) (todo : List RemoteMetadata) (db : Db) : Prop where
  sub : ∀ x ∈ todo, x ∈ job.listing
  fresh : ∀ i r, db.getByInode i = some r → r.mountId = m.mountId →
    (job.generation ≤ r.pollGeneration ∨ i ∈ job.unchanged m) → Accounted job.listing todo r
  kept : ∀ x ∈ job.listing, admitted m job.tombstones x = true →
    (∃ y ∈ todo, y.path = x.path) ∨
      ∃ r, db.getByRemotePath m.mountId x.path = some r ∧
        (job.generation ≤ r.pollGeneration ∨ r.inode ∈ job.unchanged m)

/-- While generations are bumped. -/
structure Marking (m : Mount) (job : FullPoll) (rest : List Inode) (db : Db) : Prop where
  fresh : ∀ i r, db.getByInode i = some r → r.mountId = m.mountId →
    (job.generation ≤ r.pollGeneration ∨ i ∈ rest) →
      r.exempt = true ∨ listedAt job.listing r.remotePath = true
  kept : ∀ x ∈ job.listing, admitted m job.tombstones x = true →
    ∃ r, db.getByRemotePath m.mountId x.path = some r ∧
      (job.generation ≤ r.pollGeneration ∨ r.inode ∈ rest)

variable {m : Mount} {db db' : Db} {job : FullPoll} {x : RemoteMetadata}

theorem listedAt_of_mem {listing : List RemoteMetadata} (hx : x ∈ listing) :
    listedAt listing x.path = true := by
  simp only [listedAt, List.any_eq_true, decide_eq_true_eq]
  exact ⟨x, hx, rfl⟩

/-- An entry that passes the filters is written or its row is marked. -/
theorem verdict_of_admitted {active : List Str} (snap : Snapshot) (h : admitted m active x = true) :
    verdict m active snap x = .upsert ∨
      ∃ s, snap x.path = some s ∧ verdict m active snap x = .unchanged s.inode := by
  simp only [admitted, Bool.not_eq_eq_eq_not, Bool.not_true, Bool.or_eq_false_iff] at h
  obtain ⟨⟨⟨hc, ht⟩, hu⟩, hi⟩ := h
  simp only [verdict, hu, hc, ht, hi, Bool.false_eq_true, if_false]
  cases hs : snap x.path with
  | none => exact .inl rfl
  | some s =>
    dsimp only
    split
    · exact .inr ⟨s, rfl, rfl⟩
    · exact .inl rfl

theorem mem_toUpsert {active : List Str} {snap : Snapshot} {listing : List RemoteMetadata} :
    x ∈ toUpsert m active snap listing ↔ x ∈ listing ∧ verdict m active snap x = .upsert := by
  simp [toUpsert]

theorem mem_unchangedInodes {active : List Str} {snap : Snapshot} {listing : List RemoteMetadata}
    {i : Inode} : i ∈ unchangedInodes m active snap listing ↔
      ∃ x ∈ listing, verdict m active snap x = .unchanged i := by
  simp only [unchangedInodes, List.mem_filterMap]
  refine exists_congr fun x => and_congr_right fun _ => ?_
  cases verdict m active snap x <;> simp

/-- Only rows of the comparison are marked. -/
theorem snap_of_unchanged {active : List Str} {snap : Snapshot} {i : Inode}
    (h : verdict m active snap x = .unchanged i) : ∃ s, snap x.path = some s ∧ s.inode = i := by
  rw [verdict] at h
  repeat' split at h
  all_goals cases h
  all_goals exact ⟨_, ‹_›, rfl⟩

theorem snapshot_eq_some {path : Str} {s : RemoteSnapshot}
    (h : db.snapshotRemoteIndex m.mountId path = some s) :
    ∃ r, db.getByRemotePath m.mountId path = some r ∧ r.inode = s.inode := by
  obtain ⟨r, hr, rfl⟩ := Option.map_eq_some_iff.1 h
  exact ⟨r, hr, rfl⟩

theorem writing_of_snapshot {listing : List RemoteMetadata} {active : List Str} {g : ℕ}
    (h : GenerationsAccounted m db listing
      (toUpsert m active (db.snapshotRemoteIndex m.mountId) listing) g) :
    Writing m ⟨listing, db.snapshotRemoteIndex m.mountId, active, g⟩
      (toUpsert m active (db.snapshotRemoteIndex m.mountId) listing) db where
  sub x hx := (mem_toUpsert.1 hx).1
  fresh i r hr hm hg := by
    rcases hg with hg | hi
    · exact h r (Db.mem_rows_of_getByInode hr) hm hg
    · obtain ⟨x, hx, hv⟩ := mem_unchangedInodes.1 hi
      obtain ⟨s, hs, rfl⟩ := snap_of_unchanged hv
      obtain ⟨q, hq, hqi⟩ := snapshot_eq_some hs
      obtain ⟨hqr, -, hqp⟩ := Db.getByRemotePath_spec hq
      rw [hqi] at hqr
      obtain rfl := Option.some.inj (hqr.symm.trans hr)
      exact .inr (.inl (hqp ▸ listedAt_of_mem hx))
  kept x hx ha := by
    rcases verdict_of_admitted (db.snapshotRemoteIndex m.mountId) ha with hv | ⟨s, hs, hv⟩
    · exact .inl ⟨x, mem_toUpsert.2 ⟨hx, hv⟩, rfl⟩
    · obtain ⟨q, hq, hqi⟩ := snapshot_eq_some hs
      exact .inr ⟨q, hq, .inr (mem_unchangedInodes.2 ⟨x, hx, hqi ▸ hv⟩)⟩

/-- Writing an entry. -/
theorem Writing.upsert {todo : List RemoteMetadata} {paths : PathToInode} {i : Inode}
    (hw : Writing m job (x :: todo) db) (htakes : TakesUnlisted m db job x todo)
    (h : upsertEntry m paths job.generation db x = (some i, db')) : Writing m job todo db' := by
  have hout := Db.upsert_outcome h
  obtain ⟨w, hwi, hwm, hwp, -, -, -, -, -, hwg⟩ := hout.written
  have hwp : w.remotePath = x.path := hwp
  have hx : x ∈ job.listing := hw.sub x List.mem_cons_self
  have hwritten : db'.getByRemotePath m.mountId x.path = some w :=
    Db.getByRemotePath_eq_some.2 ⟨(Db.inode_of_getByInode hwi).symm ▸ hwi, hwm, hwp⟩
  refine ⟨fun y hy => hw.sub y (List.mem_cons_of_mem _ hy), ?_, ?_⟩
  · intro j r hr hm hg
    by_cases hj : j = i
    · obtain rfl := Option.some.inj (hr.symm.trans (hj ▸ hwi))
      exact .inr (.inl (hwp ▸ listedAt_of_mem hx))
    · have hr₀ := hout.other hj hr
      rcases hw.fresh j r hr₀ hm hg with he | hl | ⟨hsome, y, hy, hid⟩
      · exact .inl he
      · exact .inr (.inl hl)
      · -- an entry with the id of this row would have written it
        rcases List.mem_cons.1 hy with rfl | hy
        · exact absurd (hout.eq_of_matches hr₀ hm (hid ▸ hsome) hid.symm) hj
        · exact .inr (.inr ⟨hsome, y, hy, hid⟩)
  · intro z hz ha
    by_cases hzx : z.path = x.path
    · exact .inr ⟨w, hzx ▸ hwritten, .inl hwg.ge⟩
    rcases hw.kept z hz ha with ⟨y, hy, hp⟩ | ⟨r, hr, hg⟩
    · rcases List.mem_cons.1 hy with rfl | hy
      · exact absurd hp.symm hzx
      · exact .inl ⟨y, hy, hp⟩
    · obtain ⟨hri, hrm, hrp⟩ := Db.getByRemotePath_spec hr
      by_cases hj : r.inode = i
      · -- the row was taken from here
        have hne : r.remotePath ≠ x.path := fun he => hzx (hrp.symm.trans he)
        have hfound := hout.moved_of_path_ne (hj ▸ hri) hne
        obtain ⟨y, hy, hp⟩ := htakes r hfound hne ⟨z, hz, ha, hrp.symm⟩
        exact .inl ⟨y, hy, hp.trans hrp⟩
      · have hr' := hout.keeps hj hri fun _ he => hzx (hrp.symm.trans he)
        exact .inr ⟨r, Db.getByRemotePath_eq_some.2 ⟨hr', hrm, hrp⟩, hg⟩

theorem marking_of_writing (hw : Writing m job [] db) : Marking m job (job.unchanged m) db where
  fresh i r hr hm hg := by
    rcases hw.fresh i r hr hm hg with he | hl | ⟨-, y, hy, -⟩
    · exact .inl he
    · exact .inr hl
    · cases hy
  kept x hx ha := by
    rcases hw.kept x hx ha with ⟨y, hy, -⟩ | h
    · cases hy
    · exact h

/-- Bumping the generation of a chunk of rows. -/
theorem Marking.mark {chunk rest : List Inode} (hw : Marking m job (chunk ++ rest) db)
    (h : db.markGeneration job.generation chunk = some db') : Marking m job rest db' := by
  have hrows := markGeneration_rows h
  constructor
  · intro i r' hr' hm hg
    rw [hrows i] at hr'
    obtain ⟨r, hr, he⟩ := Option.map_eq_some_iff.1 hr'
    have hsame : r'.mountId = r.mountId ∧ r'.exempt = r.exempt ∧ r'.remotePath = r.remotePath := by
      rw [← he]
      split <;> exact ⟨rfl, rfl, rfl⟩
    rw [hsame.2.1, hsame.2.2]
    refine hw.fresh i r hr (hsame.1 ▸ hm) ?_
    rcases hg with hg | hi
    · by_cases hc : i ∈ chunk
      · exact .inr (List.mem_append_left _ hc)
      · rw [if_neg hc] at he
        exact .inl (he ▸ hg)
    · exact .inr (List.mem_append_right _ hi)
  · intro x hx ha
    obtain ⟨r, hr, hg⟩ := hw.kept x hx ha
    obtain ⟨hri, hrm, hrp⟩ := Db.getByRemotePath_spec hr
    have hr' := hrows r.inode
    rw [hri, Option.map_some] at hr'
    by_cases hc : r.inode ∈ chunk
    · rw [if_pos hc] at hr'
      exact ⟨{ r with pollGeneration := job.generation },
        Db.getByRemotePath_eq_some.2 ⟨hr', hrm, hrp⟩, .inl le_rfl⟩
    · rw [if_neg hc] at hr'
      refine ⟨r, Db.getByRemotePath_eq_some.2 ⟨hr', hrm, hrp⟩, hg.imp id fun h => ?_⟩
      exact (List.mem_append.1 h).resolve_left hc

/-- What the sweep leaves. -/
theorem converged_of_sweep {deleted : List (Inode × Str × Option PathBuf)}
    (hw : Marking m job [] db)
    (h : db.deleteStaleEntries m.mountId job.generation = (some deleted, db')) :
    Converged m job.tombstones job.listing db' := by
  have hsweep := deleteStaleEntries_sweep db m.mountId job.generation
  rw [h] at hsweep
  have hmem : ∀ r, r ∈ db'.fileIndex.rows ↔
      r ∈ db.fileIndex.rows ∧ r ∉ db.staleEntries m.mountId job.generation := by
    intro r
    rw [mem_rows_deleteEach hsweep.symm]
    exact and_congr_right fun hr =>
      not_congr (inode_mem_map_iff (fun q hq => (List.mem_filter.1 hq).1) hr)
  constructor
  · intro x hx ha
    obtain ⟨r, hr, hg⟩ := hw.kept x hx ha
    obtain ⟨hri, hrm, hrp⟩ := Db.getByRemotePath_spec hr
    have hg : job.generation ≤ r.pollGeneration := hg.resolve_right (by simp)
    have hr' : r ∈ db'.fileIndex.rows := by
      refine (hmem r).2 ⟨Db.mem_rows_of_getByInode hri, fun hstale => ?_⟩
      have := (List.mem_filter.1 hstale).2
      simp only [decide_eq_true_eq] at this
      exact absurd this.2.1 (not_lt.2 hg)
    exact ⟨r, Db.getByRemotePath_eq_some.2 ⟨Db.getByInode_of_mem hr', hrm, hrp⟩⟩
  · intro i r hr hm he
    obtain ⟨hrows, hns⟩ := (hmem r).1 (Db.mem_rows_of_getByInode hr)
    have hi := Db.inode_of_getByInode hr
    have hg : job.generation ≤ r.pollGeneration := by
      by_contra hlt
      refine hns (List.mem_filter.2 ⟨hrows, ?_⟩)
      simp only [FileEntry.exempt, Bool.or_eq_false_iff, decide_eq_false_iff_not] at he
      simp [hm, not_le.1 hlt, he.1.1, he.1.2]
    have hr₀ : db.getByInode i = some r := hi ▸ Db.getByInode_of_mem hrows
    exact (hw.fresh i r hr₀ hm (.inl hg)).resolve_left (by simp [he])

theorem Converged.cleanup {active : List Str} {listing : List RemoteMetadata}
    (h : Converged m active listing db) :
    Converged m active listing db.cleanupExpiredTombstones := ⟨h.listed, h.vanished⟩

theorem Converged.markListed {active : List Str} {listing : List RemoteMetadata}
    (h : Converged m active listing db) (hm : db.batchMarkDirsListed m.mountId = some db') :
    Converged m active listing db' := by
  have hrows := batchMarkDirsListed_rows hm
  constructor
  · intro x hx ha
    obtain ⟨r, hr⟩ := h.listed x hx ha
    obtain ⟨hri, hrm, hrp⟩ := Db.getByRemotePath_spec hr
    have hr' := hrows r.inode
    rw [hri, Option.map_some] at hr'
    split at hr'
    · exact ⟨{ r with dirListed := some db.now },
        Db.getByRemotePath_eq_some.2 ⟨hr', hrm, hrp⟩⟩
    · exact ⟨r, Db.getByRemotePath_eq_some.2 ⟨hr', hrm, hrp⟩⟩
  · intro i r' hr' hm he
    rw [hrows i] at hr'
    obtain ⟨r, hr, heq⟩ := Option.map_eq_some_iff.1 hr'
    have hsame : r'.mountId = r.mountId ∧ r'.exempt = r.exempt ∧ r'.remotePath = r.remotePath := by
      rw [← heq]
      split <;> exact ⟨rfl, rfl, rfl⟩
    rw [hsame.2.2]
    exact h.vanished i r hr (hsame.1 ▸ hm) (hsame.2.1 ▸ he)

/-! ## A whole poll -/

/-- Where the poll got its tombstones. -/
structure FullPoll.Of (job : FullPoll) (active : List Str) (listing : List RemoteMetadata) :
    Prop where
  listing_eq : job.listing = listing
  tombstones_eq : job.tombstones = [] ∨ job.tombstones = active

/-- The invariant of a poll, phase by phase. -/
def Phase (m : Mount) (active : List Str) (listing : List RemoteMetadata) :
    Site × PollNext FullPollPc → Prop
  | (_, .goto .list) => False
  | (s, .goto (.snapshot l)) => l = listing ∧ s.world.db.activeTombstones m.mountId = active
  | (s, .goto (.generation l snap)) | (s, .goto (.tombstones l snap _)) =>
    l = listing ∧ s.world.db.activeTombstones m.mountId = active ∧
      snap = s.world.db.snapshotRemoteIndex m.mountId
  | (s, .goto (.upsert job todo _)) => job.Of active listing ∧ Writing m job todo s.world.db
  | (s, .goto (.mark job rest)) => job.Of active listing ∧ Marking m job rest.flatten s.world.db
  | (s, .goto (.sweep job)) => job.Of active listing ∧ Marking m job [] s.world.db
  | (_, .done false) => True
  | (s, .goto (.removeFiles ..)) | (s, .goto (.saveGeneration _)) | (s, .goto .cleanup)
  | (s, .goto .markListed) | (s, .done true) => Converged m active listing s.world.db

/-- Fewer tombstones let more entries pass. -/
theorem FullPoll.Of.admitted {active : List Str} {listing : List RemoteMetadata}
    (h : job.Of active listing) (ha : admitted m active x = true) :
    Stratosync.admitted m job.tombstones x = true := by
  rcases h.tombstones_eq with he | he
  · rw [he]
    simp only [Stratosync.admitted, tombstoned, List.any_nil, Bool.not_eq_eq_eq_not, Bool.not_true,
      Bool.or_eq_false_iff] at ha ⊢
    exact ⟨⟨⟨ha.1.1.1, trivial⟩, ha.1.2⟩, ha.2⟩
  · rwa [he]

theorem fullPollStep_of_loneStep {y y' : Site × PollNext FullPollPc} {env : PollEnv}
    (h : loneStep m y env = some y') :
    ∃ pc, y.2 = .goto pc ∧ FullPollStep m y.1 env pc y'.1 y'.2 := by
  obtain ⟨s, n⟩ := y
  cases n with
  | done ok => cases h
  | goto pc =>
    obtain rfl := Option.some.inj h
    exact ⟨pc, rfl, fullPollStep_tick m s env pc⟩

theorem phase_of_step {active : List Str} {listing : List RemoteMetadata}
    {y y' : Site × PollNext FullPollPc} {env : PollEnv} (hy : Phase m active listing y)
    (htidy : PollTidy m y env) (h : loneStep m y env = some y') : Phase m active listing y' := by
  obtain ⟨s, n⟩ := y
  obtain ⟨s', n'⟩ := y'
  obtain ⟨pc, hn, hstep⟩ := fullPollStep_of_loneStep h
  dsimp only at hn hstep
  subst hn
  clear h
  cases hstep with
  | fail => trivial
  | listed => exact hy.elim
  | snapshot => exact ⟨hy.1, hy.2, rfl⟩
  | generation => exact hy
  | filtered =>
    obtain ⟨rfl, rfl, rfl⟩ := hy
    exact ⟨⟨rfl, s.loadTombstones_cases m env⟩, writing_of_snapshot htidy.2⟩
  | upsertsDone =>
    refine ⟨hy.1, ?_⟩
    rw [flatten_chunks]
    exact marking_of_writing hy.2
  | upserted _ h => exact ⟨hy.1, hy.2.upsert htidy h⟩
  | upsertRefused => trivial
  | marksDone => exact hy
  | marked h => exact ⟨hy.1, hy.2.mark h⟩
  | swept _ h =>
    have hconv := converged_of_sweep hy.2 h
    rw [Phase, foldl_dropHeader_db]
    exact ⟨fun x hx ha => hconv.listed x (hy.1.listing_eq ▸ hx) (hy.1.admitted ha),
      fun i r hr hm he => hy.1.listing_eq ▸ hconv.vanished i r hr hm he⟩
  | sweepRefused => trivial
  | filesRemoved => exact hy
  | fileRemoved =>
    rw [Phase, Site.removeFile_db]
    exact hy
  | generationSaved => exact hy
  | cleaned h =>
    rcases h with rfl | rfl
    · exact hy
    · exact Converged.cleanup hy
  | finished h =>
    rcases h with rfl | h
    · exact hy
    · exact Converged.markListed hy h

/-- **A full poll converges**: in every index, whatever came before, when its steps meet the
condition and it returns successfully. -/
theorem converged_of_poll (m : Mount) (s s' : Site) (env : PollEnv) (envs : List PollEnv)
    (htidy : Guarded (loneStep m) (PollTidy m) (s, .goto .list) (env :: envs))
    (hr : run (loneStep m) (s, .goto .list) (env :: envs) = some (s', .done true)) :
    ∃ listing, env.listing = .ok listing ∧
      Converged m (s.world.db.activeTombstones m.mountId) listing s'.world.db := by
  obtain ⟨y, hy, hr⟩ := run_cons_eq_some.1 hr
  have htidy := htidy.2 y hy
  obtain rfl := Option.some.inj hy
  have hstep := fullPollStep_tick m s env .list
  generalize FullPollPc.tick m s env .list = t at hstep hr htidy
  obtain ⟨s₁, n⟩ := t
  dsimp only at hstep
  have hdone : n ≠ .done false := by
    rintro rfl
    cases envs with
    | nil => cases hr
    | cons _ _ => cases hr
  cases hstep with
  | fail => exact absurd rfl hdone
  | @listed listing hlisting _ =>
    have hphase : Phase m (s.world.db.activeTombstones m.mountId) listing
        (s, .goto (.snapshot listing)) := ⟨rfl, rfl⟩
    exact ⟨listing, hlisting,
      inv_of_run (fun _ _ _ hy ht h => phase_of_step hy ht h) hphase htidy hr⟩

/-- The answers of a remote with this listing, which issues the token `t` and lets it expire. -/
def PollEnv.ofListing (listing : List RemoteMetadata) : PollEnv :=
  { fault := false, listing := .ok listing, startToken := .ok ['t'], changes := .expired }

/-- A file at the top of the remote. -/
def listedFile (name : Str) : RemoteMetadata :=
  { path := name, name, size := 1, mtime := 0, isDir := false, etag := some ['v'], itemId := none }

/-- The site after a first poll of a remote with two files. -/
def afterTwoFiles : Site :=
  ((run (loneStep sampleMount) (Site.init sampleMount 0, .goto .list)
    (List.replicate 13 (PollEnv.ofListing [listedFile ['a'], listedFile ['b']]))).map
      Prod.fst).getD (Site.init sampleMount 0)

/-- The next poll finds one of the two files gone, and sweeps its row. -/
theorem converged_of_laterPoll :
    ∃ s', run (loneStep sampleMount) (afterTwoFiles, .goto .list)
        (PollEnv.ofListing [listedFile ['a']] ::
          List.replicate 11 (PollEnv.ofListing [listedFile ['a']])) = some (s', .done true) ∧
      (afterTwoFiles.world.db.getByInode 3).isSome = true ∧ s'.world.db.getByInode 3 = none ∧
      ∃ listing, (PollEnv.ofListing [listedFile ['a']]).listing = .ok listing ∧
        Converged sampleMount (afterTwoFiles.world.db.activeTombstones 1) listing
          s'.world.db := by
  have hpoll : (run (loneStep sampleMount) (afterTwoFiles, .goto .list)
      (PollEnv.ofListing [listedFile ['a']] ::
        List.replicate 11 (PollEnv.ofListing [listedFile ['a']]))).map
          (fun x => (x.2, x.1.world.db.getByInode 3)) = some (.done true, none) := rfl
  obtain ⟨⟨s', n⟩, hrun, hgone⟩ := Option.map_eq_some_iff.1 hpoll
  obtain ⟨rfl, hgone⟩ := Prod.mk.inj hgone
  exact ⟨s', hrun, rfl, hgone, converged_of_poll sampleMount afterTwoFiles s'
    (PollEnv.ofListing [listedFile ['a']])
    (List.replicate 11 (PollEnv.ofListing [listedFile ['a']])) (by decide) hrun⟩

/-- A file listed by the first poll vanishes while the token expires: the counter starts again,
and the next full poll spares its row. -/
theorem not_converged_of_expired :
    ¬∀ (m : Mount) (evs : List SiteEvent) (s s' : Site) (env : PollEnv) (envs : List PollEnv),
      run (siteStep m true) (Site.init m 0) evs = some s →
        run (loneStep m) (s, .goto .list) (env :: envs) = some (s', .done true) →
          ∃ listing, env.listing = .ok listing ∧
            Converged m (s.world.db.activeTombstones m.mountId) listing s'.world.db := by
  intro h
  obtain ⟨s, s', hs, hs', hrow⟩ : ∃ s s',
      run (siteStep sampleMount true) (Site.init sampleMount 0)
        (List.replicate 21 (.poll (.ofListing [listedFile ['a']]))) = some s ∧
      run (loneStep sampleMount) (s, .goto .list)
        (PollEnv.ofListing [] :: List.replicate 10 (PollEnv.ofListing [])) = some (s', .done true) ∧
      (s'.world.db.getByInode 2).map (fun r => (r.mountId, r.exempt)) = some (1, false) :=
    ⟨_, _, rfl, rfl, rfl⟩
  obtain ⟨listing, hl, hconv⟩ := h sampleMount _ s s' _ _ hs hs'
  obtain rfl : [] = listing := Except.ok.inj hl
  obtain ⟨r, hr, he⟩ := Option.map_eq_some_iff.1 hrow
  obtain ⟨hm, hexempt⟩ := Prod.mk.inj he
  exact absurd (hconv.vanished 2 r hr hm hexempt) (by simp [listedAt])

end Stratosync

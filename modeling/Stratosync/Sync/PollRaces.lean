import Stratosync.Daemon.Rows
import Stratosync.Foundations.Runs
import Stratosync.Sync.Convergence

/-!
# A full poll beside local changes

The sweep of a full poll deletes the synced rows without its generation, as of a listing taken
several calls earlier. A row that a file or a directory got since then, or one whose remote
operation the listing did not see, looks to it like one that vanished. `spared_of_run` says when
it takes none of these: the rows it would take by mistake are unsynced when it comes to them, or
the listing has them.
-/

namespace Stratosync

open Foundations.Runs Db

/-! ## What must survive -/

/-- What local steps did since the remote was listed: the rows they created or renamed or whose
upload they finished, and the paths entries were renamed from. -/
structure PollHistory where
  since : List Inode
  movedFrom : List Str

/-- The remote path a spawned mkdir or rename creates. -/
def Background.target : Background → Option Str
  | .mkdir path => some path
  | .move _ new | .deleteDest _ (some (_, new)) => some new
  | _ => none

/-- The remote path a spawned rename moves away. -/
def Background.source : Background → Option Str
  | .move old _ | .deleteDest _ (some (old, _)) => some old
  | _ => none

/-- A remote mkdir or rename to the path is still running. -/
def World.running (w : World) (path : Str) : Bool :=
  w.background.any fun b => b.target = some path

/-- The rows a step created or renamed, or whose upload it finished. -/
def touchedRows (db db' : Db) : List Inode :=
  (db'.fileIndex.rows.filter fun r' => (db.getByInode r'.inode).all fun r =>
    r.remotePath ≠ r'.remotePath || r.status.isUnsynced && !r'.status.isUnsynced).map
    FileEntry.inode

/-- The paths of the rows a step renamed. -/
def leftPaths (db db' : Db) : List Str :=
  db'.fileIndex.rows.filterMap fun r' =>
    ((db.getByInode r'.inode).filter fun r => r.remotePath ≠ r'.remotePath).map
      FileEntry.remotePath

/-- A listing starts a new history, in which the renames still running are not over. -/
def pollHistory (s : Site) (ev : SiteEvent) (s' : Site) (h : PollHistory) : PollHistory :=
  match ev, s'.poller with
  | .daemon _, _ =>
    { since := h.since ++ touchedRows s.world.db s'.world.db
      movedFrom := h.movedFrom ++ leftPaths s.world.db s'.world.db }
  | .poll _, some (.full (.snapshot _)) => ⟨[], s.world.background.filterMap Background.source⟩
  | _, _ => h

/-- The listing has an entry at the path that only a tombstone hides. -/
def FullPoll.hides (job : FullPoll) (path : Str) : Bool :=
  tombstoned job.tombstones path && job.listing.any fun x =>
    x.path = path && !(unsafeEntry x || inConflictNamespace x.path)

/-- The row is one the poll must not delete: it was created, renamed or uploaded since the listing,
its remote mkdir or rename is running, or its path is only hidden by a tombstone. -/
def mustStay (s : Site) (h : PollHistory) (job : FullPoll) (r : FileEntry) : Bool :=
  h.since.contains r.inode || s.world.running r.remotePath || job.hides r.remotePath

/-- **A call of a full poll undoes no local change**: its sweep leaves the rows that must stay,
their cache files are not removed, and nothing is put back at a path an entry was renamed from. -/
structure Spared (m : Mount) (s : Site) (h : PollHistory) (s' : Site) : Prop where
  row : ∀ job, s.poller = some (.full (.sweep job)) → ∀ i r, s.world.db.getByInode i = some r →
    mustStay s h job r = true → s'.world.db.getByInode i = some r
  file : ∀ job p rest, s.poller = some (.full (.removeFiles job (p :: rest))) →
    ∀ i r, s.world.db.getByInode i = some r → mustStay s h job r = true → r.cachePath = some p →
      s'.world.fs.files p = s.world.fs.files p
  path : ∀ job todo paths, s.poller = some (.full (.upsert job todo paths)) →
    ∀ p ∈ h.movedFrom, s.world.db.getByRemotePath m.mountId p = none →
      s'.world.db.getByRemotePath m.mountId p = none

/-- The steps of a create with its upload, of a mkdir, a rename, an unlink and a full poll, and the
passing of time. The kernel sends no rename of a name to itself. -/
def SiteEvent.mutates : SiteEvent → Bool
  | .poll _ => true
  | .daemon (.request (.rename p n p' n')) => p ≠ p' || n ≠ n'
  | .daemon (.request r) =>
    match r with
    | .create .. | .release _ | .mkdir .. | .unlink .. => true
    | _ => false
  | .daemon (.launch _) | .daemon (.upload ..) | .daemon (.background ..) | .daemon (.clock _) =>
    true
  | _ => false

/-! ## The condition -/

/-- The poll has given the row its generation or will: the row is among the unchanged ones, or an
entry at its path is still to be written. -/
def FullPollPc.counts (m : Mount) (i : Inode) (path : Str) (generation : ℕ) : FullPollPc → Bool
  | .upsert job todo _ =>
    job.generation ≤ generation ||
      (unchangedInodes m job.tombstones job.snap job.listing).contains i ||
      todo.any fun x => x.path = path
  | .mark job rest => job.generation ≤ generation || rest.flatten.contains i
  | .sweep job => job.generation ≤ generation
  | _ => true

/-- The poll is about to write an entry at the path. -/
def FullPollPc.writes (path : Str) : FullPollPc → Bool
  | .upsert _ todo _ => todo.any fun x => x.path = path
  | _ => false

/-- The poll is about to remove the cache file. -/
def FullPollPc.removes (p : PathBuf) : FullPollPc → Bool
  | .removeFiles _ rest => rest.contains p
  | _ => false

/-- The call may take an unsynced row's status away. -/
def UploadPc.dropsStatus : UploadPc → Bool
  | .record _ | .revert _ => true
  | .reset s => !s.isUnsynced
  | _ => false

/-- A local step beside the poll `pc` leaves no synced row that the poll does not count, renames
nothing away from an entry that is still to be written, and takes no cache path whose file is about
to be removed. -/
def sparesBeside (m : Mount) (w : World) (pc : FullPollPc) : Event → Bool
  | .request (.create p n) =>
    (w.db.getByInode p).all fun q =>
      (safeCachePath w.fs m.cacheDir (joinRemote q.remotePath n)).all fun cp => !pc.removes cp
  | .request (.mkdir p n) =>
    (w.db.getByInode p).all fun q => pc.counts m w.db.nextInode (joinRemote q.remotePath n) 0
  | .request (.rename p n p' n') =>
    !validateFilename n' || (w.db.getByParentName m.mountId p n).all fun r =>
      (w.db.getByInode p').all fun q =>
        (r.status.isUnsynced ||
          pc.counts m r.inode (joinRemote q.remotePath n') r.pollGeneration) &&
        (r.remotePath = joinRemote q.remotePath n' || !pc.writes r.remotePath) &&
        (moveCacheFile w.fs r.cachePath n').2.all fun cp => !pc.removes cp
  | .upload k env =>
    env.fault || w.uploads[k]?.all fun u => !u.pc.dropsStatus ||
      (w.db.getByInode u.inode).all fun r =>
        !r.status.isUnsynced || pc.counts m r.inode r.remotePath r.pollGeneration
  | _ => true

/-- Once the listing is filtered, it has every synced row that must stay, and no entry to write at
a path an entry was renamed from. -/
def filterSpares (m : Mount) (s : Site) (h : PollHistory) (job : FullPoll) : Bool :=
  let todo := toUpsert m job.tombstones job.snap job.listing
  (s.world.db.fileIndex.rows.all fun r =>
    r.mountId ≠ m.mountId || !mustStay s h job r || r.status.isUnsynced ||
      FullPollPc.counts m r.inode r.remotePath r.pollGeneration (.upsert job todo fun _ => none)) &&
  h.movedFrom.all fun p => todo.all fun x => x.path ≠ p

/-- No row that the sweep leaves has the cache path of one that it deletes. -/
def sweepSpares (m : Mount) (db : Db) (generation : ℕ) : Bool :=
  (db.staleEntries m.mountId generation).all fun q =>
    q.cachePath.all fun cp => db.fileIndex.rows.all fun r =>
      r.cachePath ≠ some cp || (db.staleEntries m.mountId generation).contains r

/-- The condition on a step, with the history so far. -/
def pollSpares (m : Mount) (x : Site × PollHistory) : SiteEvent → Bool
  | .poll env =>
    match x.1.poller with
    | some (.full (.tombstones listing snap g)) =>
      filterSpares m x.1 x.2 ⟨listing, snap, x.1.loadTombstones m env, g⟩
    | some (.full (.sweep job)) => env.fault || sweepSpares m x.1.world.db job.generation
    | _ => true
  | .daemon ev =>
    x.1.poller.all fun pc =>
      match pc with
      | .full pc => sparesBeside m x.1.world pc ev
      | .delta _ => true
  | _ => true

/-! ## Local steps -/

/-- The row is where it was, with the generation it had and no other cache path. -/
structure FileEntry.Stays (r r' : FileEntry) : Prop where
  path : r'.remotePath = r.remotePath
  generation : r'.pollGeneration = r.pollGeneration
  mountId : r'.mountId = r.mountId
  cachePath : ∀ cp, r'.cachePath = some cp → r.cachePath = some cp

/-- The rows after a local step. -/
inductive LocalRow (m : Mount) (w : World) : Event → Inode → FileEntry → Prop
  | stays {ev i r r'} (hr : w.db.getByInode i = some r) (h : r.Stays r')
      (hs : r'.status = r.status ∨ r'.status.isUnsynced = true) : LocalRow m w ev i r'
  | settled {k env u r r'} (hf : env.fault = false) (hu : w.uploads[k]? = some u)
      (hset : u.pc.dropsStatus = true) (hr : w.db.getByInode u.inode = some r) (h : r.Stays r') :
      LocalRow m w (.upload k env) u.inode r'
  | renamed {p n p' n' r q r'} (hn : validateFilename n' = true)
      (hr : w.db.getByParentName m.mountId p n = some r)
      (hq : w.db.getByInode p' = some q) (hs : r'.status = r.status)
      (hpath : r'.remotePath = joinRemote q.remotePath n')
      (hg : r'.pollGeneration = r.pollGeneration)
      (hc : r'.cachePath = (moveCacheFile w.fs r.cachePath n').2) :
      LocalRow m w (.request (.rename p n p' n')) r.inode r'
  | created {p n q r' cp} (hq : w.db.getByInode p = some q)
      (hcp : safeCachePath w.fs m.cacheDir (joinRemote q.remotePath n) = some cp)
      (hs : r'.status = .dirty) (hc : r'.cachePath = some cp) :
      LocalRow m w (.request (.create p n)) w.db.nextInode r'
  | made {p n q r'} (hq : w.db.getByInode p = some q)
      (hpath : r'.remotePath = joinRemote q.remotePath n) (hg : r'.pollGeneration = 0)
      (hc : r'.cachePath = none) : LocalRow m w (.request (.mkdir p n)) w.db.nextInode r'

variable {m : Mount} {w w' : World}

theorem FileEntry.Stays.refl (r : FileEntry) : r.Stays r := ⟨rfl, rfl, rfl, fun _ h => h⟩

/-- An upload whose local call fails takes no status away. -/
theorem upload_tick_db_of_fault {env : Env} (hf : env.fault = true) (i : Inode) {pc : UploadPc}
    (hset : pc.dropsStatus = true) : (Upload.tick w i env pc).1.db = w.db := by
  cases pc with
  | reset | revert | record => simp [Upload.tick, World.logDb, World.tryDb, hf]
  | _ => cases hset

/-- The directory a mkdir adds. -/
theorem row_of_handleMkdir {p : Inode} {n : Str} {i : Inode} {r' : FileEntry}
    (hr' : (handleMkdir m w p n).2.db.getByInode i = some r') (hnew : w.db.getByInode i = none) :
    ∃ q, w.db.getByInode p = some q ∧ i = w.db.nextInode ∧
      r'.remotePath = joinRemote q.remotePath n ∧ r'.pollGeneration = 0 ∧
      r'.cachePath = none ∧ r'.mountId = m.mountId := by
  have hsame : ∀ {db : Db}, db = w.db → db.getByInode i = some r' → False := by
    rintro _ rfl h
    rw [hnew] at h
    cases h
  simp only [handleMkdir] at hr'
  split at hr'
  · exact (hsame rfl hr').elim
  split at hr'
  · exact (hsame rfl hr').elim
  rename_i q hq
  split at hr'
  · exact (hsame rfl hr').elim
  split at hr'
  · exact (hsame rfl hr').elim
  rename_i h
  obtain ⟨db₁, h₁, he⟩ := Option.map_eq_some_iff.1 h
  obtain ⟨-, rfl⟩ := Prod.mk.inj he
  have hrow := hr'
  rw [show _ = _ from getByInode_insertRow h₁ i] at hrow
  split at hrow
  · obtain rfl := Option.some.inj hrow
    exact ⟨q, hq, ‹_›, rfl, rfl, rfl, rfl⟩
  · exact (hsame rfl hrow).elim

theorem localRow_of_step {ev : Event} (hev : (SiteEvent.daemon ev).mutates = true)
    (h : step m w ev = some w') {i : Inode} {r' : FileEntry}
    (hr' : w'.db.getByInode i = some r') : LocalRow m w ev i r' := by
  cases hr : w.db.getByInode i with
  | some r =>
    have hstep := hr' ▸ row_of_step h hr
    have hupload : ∀ {k env u}, ev = .upload k env → w.uploads[k]? = some u → u.inode = i →
        u.pc.dropsStatus = true → r.Stays r' → LocalRow m w ev i r' := by
      rintro k env u rfl hu rfl hset hstays
      by_cases hf : env.fault = true
      · obtain ⟨u', hu', rfl⟩ := Option.map_eq_some_iff.1 h
        obtain rfl := Option.some.inj (hu.symm.trans hu')
        have hdb := upload_tick_db_of_fault (w := w) hf u.inode hset
        change (Upload.tick w u.inode env u.pc).1.db.getByInode u.inode = some r' at hr'
        rw [hdb, hr] at hr'
        obtain rfl := Option.some.inj hr'
        exact .stays hr (.refl r) (.inl rfl)
      · exact .settled (Bool.eq_false_iff.2 hf) hu hset hr hstays
    cases hstep with
    | same => exact .stays hr (.refl _) (.inl rfl)
    | @renamed p n p' n' i r q hp hq =>
      by_cases hn : validateFilename n' = true
      · obtain rfl : r.inode = i := inode_of_getByInode hr
        exact .renamed hn hp hq rfl rfl rfl rfl
      · -- a name that is refused
        obtain ⟨-, rfl⟩ := step_request h
        have hw : (handleRename m w p n p' n').2 = w := by simp [handleRename, hn]
        rw [show serve m w (.rename p n p' n') = w from hw] at hr'
        exact .stays hr' (.refl _) (.inl rfl)
    | marked | failed => exact .stays hr ⟨rfl, rfl, rfl, fun _ h => h⟩ (.inr rfl)
    | @reset k env i r st hu hf =>
      by_cases hst : st.isUnsynced = true
      · exact .stays hr ⟨rfl, rfl, rfl, fun _ h => h⟩ (.inr hst)
      · exact hupload rfl hu rfl (by simpa [UploadPc.dropsStatus] using hst)
          ⟨rfl, rfl, rfl, fun _ h => h⟩
    | reverted hu => exact hupload rfl hu rfl rfl ⟨rfl, rfl, rfl, fun _ h => by cases h⟩
    | uploaded hu => exact hupload rfl hu rfl rfl ⟨rfl, rfl, rfl, fun _ h => h⟩
    | _ => cases hev
  | none =>
    cases ((rowsStep_of_step h).new i r' hr hr').1 with
    | created hq hcp hi _ _ _ _ hs hc =>
      subst hi
      exact .created hq hcp hs hc
    | made hi =>
      rw [(step_request h).2] at hr'
      obtain ⟨q, hq, -, hpath, hg, hc, -⟩ := row_of_handleMkdir hr' hr
      subst hi
      exact .made hq hpath hg hc
    | listed => cases hev

theorem running_append {bs : List Background} {path : Str}
    (h : w'.background = w.background ++ bs) (hrun : w'.running path = true) :
    w.running path = true ∨ ∃ b ∈ bs, b.target = some path := by
  rw [World.running, h, List.any_append, Bool.or_eq_true] at hrun
  refine hrun.imp id fun hb => ?_
  obtain ⟨b, hb, ht⟩ := List.any_eq_true.1 hb
  exact ⟨b, hb, by simpa using ht⟩

theorem target_of_renameBackground {d : Option FileEntry} {move : Bool} {old new path : Str}
    {b : Background} (hb : b ∈ renameBackground d move old new) (ht : b.target = some path) :
    path = new := by
  cases d <;> cases move <;> simp_all [renameBackground, Background.target]

/-- A rename to another name leaves the renamed row at the path its operations make. -/
theorem running_of_handleRename {p : Inode} {n : Str} {p' : Inode} {n' : Str} {path : Str}
    (hne : p ≠ p' ∨ n ≠ n') (hw : (handleRename m w p n p' n').2 = w')
    (hrun : w'.running path = true) :
    w.running path = true ∨ ∃ r q r', validateFilename n' = true ∧
      w.db.getByParentName m.mountId p n = some r ∧ w.db.getByInode p' = some q ∧
        path = joinRemote q.remotePath n' ∧ w'.db.getByInode r.inode = some r' ∧
          r'.remotePath = path ∧ r'.mountId = m.mountId := by
  simp only [handleRename] at hw
  split at hw
  · subst hw
    exact .inl hrun
  rename_i hn
  split at hw
  · subst hw
    exact .inl hrun
  rename_i r hr
  split at hw
  · subst hw
    exact .inl hrun
  rename_i q hq
  split at hw
  · subst hw
    exact .inl hrun
  rename_i db h
  obtain ⟨hri, hrm, hrp, hrn⟩ := getByParentName_spec hr
  -- the destination is another row
  have hr₁ : (dropDestination w.db m.mountId p' n').1.getByInode r.inode = some r := by
    rcases getByInode_dropDestination _ _ p' n' r.inode with h | ⟨d, hd, hdi, -⟩
    · rw [h, hri]
    · obtain ⟨hdr, -, hdp, hdn⟩ := getByParentName_spec hd
      obtain rfl := Option.some.inj ((hdi ▸ hdr).symm.trans hri)
      rcases hne with hp | hn
      · exact absurd (Option.some.inj (hrp.symm.trans hdp)) hp
      · exact absurd (hrn.symm.trans hdn) hn
  have hself := (renameEntry_rows h).self
  rw [hr₁, Option.map_some] at hself
  subst hw
  rcases running_append rfl hrun with hrun | ⟨b, hb, ht⟩
  · exact .inl hrun
  · have hrow : ∀ b : Bool, (if b = true then db.insertTombstone m.mountId r.remotePath tombstoneTtl
        else db).getByInode r.inode = db.getByInode r.inode := by
      rintro (_ | _) <;> rfl
    have hpath := target_of_renameBackground hb ht
    exact .inr ⟨r, q, _, by simpa using hn, hr, hq, hpath, (hrow _).trans hself, hpath.symm, hrm⟩

/-- A mkdir leaves the row it adds at the path its operation makes. -/
theorem running_of_handleMkdir {p : Inode} {n : Str} {path : Str}
    (hw : (handleMkdir m w p n).2 = w') (hrun : w'.running path = true) :
    w.running path = true ∨ ∃ r', w'.db.getByInode w.db.nextInode = some r' ∧
      r'.remotePath = path ∧ r'.mountId = m.mountId := by
  simp only [handleMkdir] at hw
  split at hw
  · subst hw
    exact .inl hrun
  split at hw
  · subst hw
    exact .inl hrun
  split at hw
  · subst hw
    exact .inl hrun
  split at hw
  · subst hw
    exact .inl hrun
  rename_i h
  obtain ⟨db₁, h₁, he⟩ := Option.map_eq_some_iff.1 h
  obtain ⟨-, rfl⟩ := Prod.mk.inj he
  subst hw
  rcases running_append rfl hrun with hrun | ⟨b, hb, ht⟩
  · exact .inl hrun
  · obtain rfl := List.mem_singleton.1 hb
    exact .inr ⟨_, (getByInode_insertRow h₁ _).trans (if_pos rfl), Option.some.inj ht, rfl⟩

/-- A call of a spawned operation keeps its target, until it is done. -/
theorem target_of_tick {env : Env} {b b' : Background}
    (h : (Background.tick m w env b).2 = some b') : b'.target = none ∨ b'.target = b.target := by
  cases b with
  | deleteDest dest move =>
    right
    have hmove : move.map (fun x => Background.move x.1 x.2) = some b' := by
      rw [← h, Background.tick]
      split <;> rfl
    obtain ⟨x, rfl, rfl⟩ := Option.map_eq_some_iff.1 hmove
    rfl
  | mkdir path =>
    rw [Background.tick] at h
    split at h <;> cases h
  | removeTombstone path => cases h
  | _ =>
    left
    rw [Background.tick] at h
    split at h <;> cases h <;> rfl

/-- The rows at the path of an operation that a local step starts. -/
theorem running_of_localStep {ev : Event} (hev : (SiteEvent.daemon ev).mutates = true)
    (h : step m w ev = some w') {path : Str} (hrun : w'.running path = true) :
    w.running path = true ∨
      (∃ r', w'.db.getByInode w.db.nextInode = some r' ∧ r'.remotePath = path ∧
        r'.mountId = m.mountId) ∨
      ∃ p n p' n' r q r', ev = .request (.rename p n p' n') ∧ validateFilename n' = true ∧
        w.db.getByParentName m.mountId p n = some r ∧ w.db.getByInode p' = some q ∧
          path = joinRemote q.remotePath n' ∧ w'.db.getByInode r.inode = some r' ∧
            r'.remotePath = path ∧ r'.mountId = m.mountId := by
  have hsame : w'.background = w.background → w.running path = true := by
    intro hb
    rwa [World.running, hb] at hrun
  rcases background_of_step h with hb | ⟨r, rfl⟩ | ⟨k, env, b, -, hb, hw⟩
  · exact .inl (hsame hb)
  · obtain ⟨-, rfl⟩ := step_request h
    cases r with
    | create p n =>
      refine .inl (hsame ?_)
      simp only [serve, handleCreate, World.allocFh]
      repeat' split
      all_goals rfl
    | release fh =>
      refine .inl (hsame ?_)
      simp only [serve, handleRelease, World.enqueue]
      repeat' split
      all_goals rfl
    | unlink p n =>
      left
      simp only [serve, handleUnlink] at hrun
      split at hrun
      · exact hrun
      split at hrun
      · exact hrun
      rcases running_append rfl hrun with hrun | ⟨b, hb, ht⟩
      · exact hrun
      · obtain rfl := List.mem_singleton.1 hb
        cases ht
    | mkdir p n => exact (running_of_handleMkdir rfl hrun).imp id .inl
    | rename p n p' n' =>
      have hne : p ≠ p' ∨ n ≠ n' := by simpa [SiteEvent.mutates] using hev
      refine (running_of_handleRename hne rfl hrun).imp id fun hr => .inr ?_
      obtain ⟨r, q, r', hr⟩ := hr
      exact ⟨p, n, p', n', r, q, r', rfl, hr⟩
    | _ => cases hev
  · left
    rw [World.running, hw] at hrun
    obtain ⟨b', hb', ht⟩ := List.any_eq_true.1 hrun
    rw [decide_eq_true_eq] at ht
    rw [World.running, List.any_eq_true]
    rcases Foundations.Pool.mem_of_mem_advance hb' with hb' | hb'
    · exact ⟨b', hb', by simpa using ht⟩
    · rcases target_of_tick hb' with hnone | heq
      · rw [hnone] at ht
        cases ht
      · exact ⟨b, Foundations.Pool.mem_of_getElem? hb, by simpa [← heq] using ht⟩

/-! ## The invariant -/

/-- The job of a poll between its tombstones and its sweep. -/
def FullPollPc.job : FullPollPc → Option FullPoll
  | .upsert job _ _ | .mark job _ | .sweep job => some job
  | _ => none

/-- What the steps that meet the condition keep. -/
structure RaceInv (m : Mount) (s : Site) (h : PollHistory) : Prop where
  full : ∀ pc, s.poller ≠ some (.delta pc)
  kept : ∀ pc job, s.poller = some (.full pc) → pc.job = some job → ∀ i r,
    s.world.db.getByInode i = some r → r.mountId = m.mountId → mustStay s h job r = true →
      r.status.isUnsynced = true ∨ pc.counts m i r.remotePath r.pollGeneration = true
  moved : ∀ pc, s.poller = some (.full pc) → ∀ p ∈ h.movedFrom, pc.writes p = false
  files : ∀ pc, s.poller = some (.full pc) → ∀ i r p, s.world.db.getByInode i = some r →
    r.cachePath = some p → pc.removes p = false

theorem mem_touchedRows {db db' : Db} {i : Inode} {r r' : FileEntry}
    (hr : db.getByInode i = some r) (hr' : db'.getByInode i = some r')
    (ht : i ∈ touchedRows db db') :
    r.remotePath ≠ r'.remotePath ∨ r.status.isUnsynced = true := by
  obtain ⟨q, hq, hi⟩ := List.mem_map.1 ht
  obtain ⟨hq, hall⟩ := List.mem_filter.1 hq
  obtain rfl : q = r' := by
    have hqi := getByInode_of_mem hq
    rw [hi, hr'] at hqi
    exact (Option.some.inj hqi).symm
  rw [hi, hr, Option.all_some, Bool.or_eq_true, Bool.and_eq_true, decide_eq_true_eq] at hall
  exact hall.imp id And.left

theorem mem_leftPaths {db db' : Db} {p : Str} (hp : p ∈ leftPaths db db') :
    ∃ i r r', db.getByInode i = some r ∧ db'.getByInode i = some r' ∧ r.remotePath = p ∧
      r.remotePath ≠ r'.remotePath := by
  obtain ⟨r', hr', hp⟩ := List.mem_filterMap.1 hp
  obtain ⟨r, hr, rfl⟩ := Option.map_eq_some_iff.1 hp
  obtain ⟨hr, hne⟩ := Option.filter_eq_some_iff.1 hr
  exact ⟨_, r, r', hr, getByInode_of_mem hr', rfl, by simpa using hne⟩

/-- Two rows of a mount at one path are one. -/
theorem inode_eq_of_path {db : Db} {i j : Inode} {r q : FileEntry}
    (hr : db.getByInode i = some r) (hq : db.getByInode j = some q) (hm : r.mountId = q.mountId)
    (hp : r.remotePath = q.remotePath) : i = j := by
  have hself := getByRemotePath_self hr
  rw [hm, hp, getByRemotePath_self hq] at hself
  obtain rfl := Option.some.inj hself
  exact (inode_of_getByInode hr).symm.trans (inode_of_getByInode hq)

/-- A row exists below the next inode. -/
theorem getByInode_nextInode (db : Db) : db.getByInode db.nextInode = none := by
  cases h : db.getByInode db.nextInode with
  | none => rfl
  | some r =>
    have hlt := inode_lt_nextInode (mem_rows_of_getByInode h)
    rw [inode_of_getByInode h] at hlt
    exact absurd hlt (lt_irrefl _)

section Local

variable {s : Site} {h : PollHistory} {pc : FullPollPc} {job : FullPoll} {ev : Event}

/-- A synced row that a local step leaves where it was had to stay before, or the poll counts it. -/
theorem mustStay_of_stays (hev : (SiteEvent.daemon ev).mutates = true)
    (hg : sparesBeside m s.world pc ev = true) (hw : step m s.world ev = some w') {i : Inode}
    {r r' : FileEntry} (hr : s.world.db.getByInode i = some r)
    (hr' : w'.db.getByInode i = some r') (hstay : r.Stays r') (hs : r.status.isUnsynced = false)
    (hm : r.mountId = m.mountId)
    (hmust : mustStay { s with world := w' }
      (pollHistory s (.daemon ev) { s with world := w' } h) job r' = true) :
    mustStay s h job r = true ∨ pc.counts m i r'.remotePath r'.pollGeneration = true := by
  have hi := inode_of_getByInode hr
  have hi' := inode_of_getByInode hr'
  simp only [mustStay, Bool.or_eq_true, List.contains_iff_mem, pollHistory, List.mem_append]
    at hmust ⊢
  rcases hmust with ((hsince | htouched) | hrun) | hhides
  · exact .inl (.inl (.inl (hi.trans hi'.symm ▸ hsince)))
  · rcases mem_touchedRows hr hr' (hi' ▸ htouched) with hne | hun
    · exact absurd hstay.path.symm hne
    · rw [hs] at hun
      cases hun
  · rcases running_of_localStep hev hw hrun with
      hrun | ⟨q', hq', hp, hqm⟩ | ⟨p, n, p', n', q, d, q', rfl, hn, hq, hd, hpath, hq', hp, hqm⟩
    · exact .inl (.inl (.inr (hstay.path ▸ hrun)))
    · -- the row is no new one
      have hnew := inode_eq_of_path hr' hq' (hstay.mountId.trans (hm.trans hqm.symm)) hp.symm
      rw [hnew, getByInode_nextInode] at hr
      cases hr
    · have hself := inode_eq_of_path hr' hq' (hstay.mountId.trans (hm.trans hqm.symm)) hp.symm
      obtain rfl := Option.some.inj (hr.symm.trans (hself ▸ (getByParentName_spec hq).1))
      simp only [sparesBeside, hn, Bool.not_true, Bool.false_or, hq, Option.all_some, hd, hs,
        Bool.and_eq_true] at hg
      rw [hpath, hstay.generation, hself]
      exact .inr hg.1.1
  · exact .inl (.inr (hstay.path ▸ hhides))

theorem raceInv_of_local (hinv : RaceInv m s h) (hev : (SiteEvent.daemon ev).mutates = true)
    (hg : ∀ pc, s.poller = some (.full pc) → sparesBeside m s.world pc ev = true)
    (hw : step m s.world ev = some w') :
    RaceInv m { s with world := w' } (pollHistory s (.daemon ev) { s with world := w' } h) where
  full := hinv.full
  kept pc job hpc hjob i r' hr' hm' hmust := by
    have hg := hg pc hpc
    have hstays : ∀ r, s.world.db.getByInode i = some r → r.Stays r' →
        r.status.isUnsynced = false →
        r'.status.isUnsynced = true ∨ pc.counts m i r'.remotePath r'.pollGeneration = true := by
      intro r hr hstay hs
      have hm := hstay.mountId.symm.trans hm'
      rcases mustStay_of_stays hev hg hw hr hr' hstay hs hm hmust with hmust | hcounts
      · rcases hinv.kept pc job hpc hjob i r hr hm hmust with hun | hcounts
        · rw [hs] at hun
          cases hun
        · rw [hstay.path, hstay.generation]
          exact .inr hcounts
      · exact .inr hcounts
    cases localRow_of_step hev hw hr' with
    | @stays _ _ r _ hr hstay hs =>
      rcases hs with hs | hs
      · cases hun : r.status.isUnsynced with
        | true => exact .inl (hs ▸ hun)
        | false => exact hstays r hr hstay hun
      · exact .inl hs
    | @settled k env u r _ hf hu hset hr hstay =>
      cases hun : r.status.isUnsynced with
      | false => exact hstays r hr hstay hun
      | true =>
        simp only [sparesBeside, hf, Bool.false_or, hu, Option.all_some, hset, Bool.not_true, hr,
          hun] at hg
        rw [hstay.path, hstay.generation, ← inode_of_getByInode hr]
        exact .inr hg
    | @renamed p n p' n' r q _ hn hr hq hs hpath hgen hc =>
      simp only [sparesBeside, hn, Bool.not_true, Bool.false_or, hr, Option.all_some, hq,
        Bool.and_eq_true, Bool.or_eq_true] at hg
      rw [hs, hpath, hgen]
      exact hg.1.1
    | created hq hcp hs hc => exact .inl (by rw [hs]; rfl)
    | made hq hpath hgen hc =>
      simp only [sparesBeside, hq, Option.all_some] at hg
      rw [hpath, hgen]
      exact .inr hg
  moved pc hpc p hp := by
    have hg := hg pc hpc
    rcases List.mem_append.1 hp with hp | hp
    · exact hinv.moved pc hpc p hp
    obtain ⟨i, r, r', hr, hr', rfl, hne⟩ := mem_leftPaths hp
    have hnew : i ≠ s.world.db.nextInode := by
      rintro rfl
      rw [getByInode_nextInode] at hr
      cases hr
    cases localRow_of_step hev hw hr' with
    | stays hq hstay =>
      obtain rfl := Option.some.inj (hr.symm.trans hq)
      exact absurd hstay.path.symm hne
    | settled _ _ _ hq hstay =>
      obtain rfl := Option.some.inj (hr.symm.trans hq)
      exact absurd hstay.path.symm hne
    | renamed hn hq hd hs hpath =>
      obtain rfl := Option.some.inj (hr.symm.trans (getByParentName_spec hq).1)
      simp only [sparesBeside, hn, Bool.not_true, Bool.false_or, hq, Option.all_some, hd,
        Bool.and_eq_true, Bool.or_eq_true, decide_eq_true_eq, Bool.not_eq_true'] at hg
      exact hg.1.2.resolve_left fun he => hne (he.trans hpath.symm)
    | created => exact absurd rfl hnew
    | made => exact absurd rfl hnew
  files pc hpc i r' cp hr' hcp := by
    have hg := hg pc hpc
    cases localRow_of_step hev hw hr' with
    | stays hr hstay => exact hinv.files pc hpc i _ cp hr (hstay.cachePath cp hcp)
    | settled _ _ _ hr hstay => exact hinv.files pc hpc _ _ cp hr (hstay.cachePath cp hcp)
    | renamed hn hr hq _ _ _ hc =>
      simp only [sparesBeside, hn, Bool.not_true, Bool.false_or, hr, Option.all_some, hq,
        Bool.and_eq_true] at hg
      rw [← hc, hcp, Option.all_some, Bool.not_eq_true'] at hg
      exact hg.2
    | created hq hp _ hc =>
      simp only [sparesBeside, hq, Option.all_some, hp] at hg
      obtain rfl := Option.some.inj (hc.symm.trans hcp)
      simpa using hg
    | made _ _ _ hc =>
      rw [hc] at hcp
      cases hcp

end Local

section Poll

variable {s s' : Site} {h : PollHistory} {env : PollEnv} {pc : FullPollPc} {job : FullPoll}

/-- A poll that has neither a job nor a path to write nor a file to remove. -/
theorem raceInv_of_idle {p : Option FullPollPc} (hp : s.poller = p.map .full)
    (hidle : ∀ pc, p = some pc → pc.job = none ∧ (∀ path, pc.writes path = false) ∧
      ∀ cp, pc.removes cp = false) : RaceInv m s h where
  full pc hpc := by
    rw [hp] at hpc
    cases p <;> cases hpc
  kept pc job hpc hj := by
    rw [hp] at hpc
    obtain ⟨q, hq, he⟩ := Option.map_eq_some_iff.1 hpc
    cases he
    rw [(hidle pc hq).1] at hj
    cases hj
  moved pc hpc path _ := by
    rw [hp] at hpc
    obtain ⟨q, hq, he⟩ := Option.map_eq_some_iff.1 hpc
    cases he
    exact (hidle pc hq).2.1 path
  files pc hpc _ _ cp _ _ := by
    rw [hp] at hpc
    obtain ⟨q, hq, he⟩ := Option.map_eq_some_iff.1 hpc
    cases he
    exact (hidle pc hq).2.2 cp

/-- A call that leaves the rows where they are, or brings their generations up. -/
theorem RaceInv.next (hinv : RaceInv m s h) (hs : s.poller = some (.full pc)) {pc' : FullPollPc}
    (hs' : s'.poller = some (.full pc')) (hjob : pc'.job = none ∨ pc'.job = pc.job)
    (hback : s'.world.background = s.world.background)
    (hrows : ∀ i r', s'.world.db.getByInode i = some r' → r'.mountId = m.mountId →
      (∃ r, s.world.db.getByInode i = some r ∧ r'.remotePath = r.remotePath ∧
        r'.mountId = r.mountId ∧ r'.status = r.status ∧
          (pc.counts m i r.remotePath r.pollGeneration = true →
            pc'.counts m i r.remotePath r'.pollGeneration = true)) ∨
      pc'.counts m i r'.remotePath r'.pollGeneration = true)
    (hwrites : ∀ path, pc.writes path = false → pc'.writes path = false)
    (hremoves : ∀ i r' cp, s'.world.db.getByInode i = some r' → r'.cachePath = some cp →
      pc'.removes cp = false) : RaceInv m s' h where
  full pc hpc := by
    rw [hs'] at hpc
    cases hpc
  kept q job hq hj i r' hr' hm hmust := by
    rw [hs'] at hq
    cases hq
    have hj : pc.job = some job := by
      rcases hjob with hnone | hsame
      · rw [hnone] at hj
        cases hj
      · exact hsame ▸ hj
    rcases hrows i r' hr' hm with ⟨r, hr, hp, hmount, hst, hcounts⟩ | hcounts
    · have hi : r'.inode = r.inode := (inode_of_getByInode hr').trans (inode_of_getByInode hr).symm
      have hmust : mustStay s h job r = true := by
        rw [mustStay, World.running, ← hback, ← hp, ← hi]
        exact hmust
      rw [hst, hp]
      exact (hinv.kept pc job hs hj i r hr (hmount ▸ hm) hmust).imp id hcounts
    · exact .inr hcounts
  moved q hq path hpath := by
    rw [hs'] at hq
    cases hq
    exact hwrites path (hinv.moved pc hs path hpath)
  files q hq i r' cp hr' hcp := by
    rw [hs'] at hq
    cases hq
    exact hremoves i r' cp hr' hcp

/-- No cache file the sweep gives up is of a row it leaves. -/
theorem removes_of_sweep {db db' : Db} {g : ℕ} {deleted : List (Inode × Str × Option PathBuf)}
    (hg : sweepSpares m db g = true) (h : db.deleteStaleEntries m.mountId g = (some deleted, db'))
    {i : Inode} {r : FileEntry} {cp : PathBuf} (hr : db'.getByInode i = some r)
    (hcp : r.cachePath = some cp) :
    FullPollPc.removes cp (.removeFiles job (deleted.filterMap fun x => x.2.2)) = false := by
  rw [FullPollPc.removes, Bool.eq_false_iff, ne_eq, List.contains_iff_mem]
  intro hmem
  have hsweep := deleteStaleEntries_sweep db m.mountId g
  rw [h] at hsweep
  have hdeleted : deleted = (db.staleEntries m.mountId g).map fun r =>
      (r.inode, r.remotePath, r.cachePath) := by
    rw [Db.deleteStaleEntries] at h
    split at h
    · exact (Option.some.inj (Prod.mk.inj h).1).symm
    · cases (Prod.mk.inj h).1
  rw [hdeleted] at hmem
  obtain ⟨x, hx, hxc⟩ := List.mem_filterMap.1 hmem
  obtain ⟨q, hq, rfl⟩ := List.mem_map.1 hx
  obtain ⟨hrow, hnot⟩ := (mem_rows_deleteEach hsweep.symm).1 (mem_rows_of_getByInode hr)
  have hall := List.all_eq_true.1 hg q hq
  rw [show q.cachePath = some cp from hxc, Option.all_some, List.all_eq_true] at hall
  have hstale := hall r hrow
  simp only [hcp, not_true_eq_false, decide_false, Bool.false_or, ne_eq, List.contains_iff_mem]
    at hstale
  exact hnot (List.mem_map_of_mem hstale)

/-- A call that leaves the rows alone. -/
theorem RaceInv.next_same (hinv : RaceInv m s h) (hs : s.poller = some (.full pc))
    {pc' : FullPollPc} (hs' : s'.poller = some (.full pc'))
    (hjob : pc'.job = none ∨ pc'.job = pc.job)
    (hback : s'.world.background = s.world.background)
    (hrows : ∀ i, s'.world.db.getByInode i = s.world.db.getByInode i)
    (hcounts : ∀ i path g, pc.counts m i path g = true → pc'.counts m i path g = true)
    (hwrites : ∀ path, pc.writes path = false → pc'.writes path = false)
    (hremoves : ∀ cp, pc.removes cp = false → pc'.removes cp = false) : RaceInv m s' h :=
  hinv.next hs hs' hjob hback
    (fun i r' hr' _ => .inl ⟨r', hrows i ▸ hr', rfl, rfl, rfl, hcounts i _ _⟩) hwrites
    fun i r' cp hr' hcp => hremoves cp (hinv.files pc hs i r' cp (hrows i ▸ hr') hcp)

theorem foldl_dropHeader_background {α : Type*} (f : α → Inode) (l : List α) (s : Site) :
    (l.foldl (fun s x => s.dropHeader (f x)) s).world.background = s.world.background := by
  obtain ⟨headers, h⟩ := foldl_dropHeader f l s
  rw [h]

theorem removeFile_background (s : Site) (b : Bool) (p : PathBuf) :
    (s.removeFile b p).world.background = s.world.background := by
  cases b <;> rfl

/-- The entries a poll is about to write, once the listing is filtered. -/
theorem raceInv_of_filtered {listing : List RemoteMetadata} {snap : Snapshot} {active : List Str}
    {g : ℕ} {paths : PathToInode}
    (hg : filterSpares m s h ⟨listing, snap, active, g⟩ = true) (hworld : s'.world = s.world)
    (hs' : s'.poller = some (.full (.upsert ⟨listing, snap, active, g⟩
      (toUpsert m active snap listing) paths))) : RaceInv m s' h where
  full pc hpc := by
    rw [hs'] at hpc
    cases hpc
  kept pc job hpc hj i r hr hm hmust := by
    rw [hs'] at hpc
    cases hpc
    obtain rfl := Option.some.inj hj
    rw [hworld] at hr
    have hall := List.all_eq_true.1 (Bool.and_eq_true_iff.1 hg).1 r (mem_rows_of_getByInode hr)
    have hmust : mustStay s h ⟨listing, snap, active, g⟩ r = true := by
      rw [mustStay, ← hworld]
      exact hmust
    rw [hmust, hm, inode_of_getByInode hr] at hall
    simp only [ne_eq, not_true_eq_false, decide_false, Bool.not_true, Bool.false_or,
      Bool.or_eq_true] at hall
    exact hall
  moved pc hpc p hp := by
    rw [hs'] at hpc
    cases hpc
    have hall := List.all_eq_true.1 (Bool.and_eq_true_iff.1 hg).2 p hp
    rw [FullPollPc.writes, List.any_eq_false]
    intro x hx
    simpa using List.all_eq_true.1 hall x hx
  files pc hpc i r p _ _ := by
    rw [hs'] at hpc
    cases hpc
    rfl

theorem raceInv_of_fullStep {n : PollNext FullPollPc} (hinv : RaceInv m s h)
    (hs : s.poller = some (.full pc)) (hg : pollSpares m (s, h) (.poll env) = true)
    (hstep : FullPollStep m s env pc s' n) :
    RaceInv m { s' with poller := n.pc .full }
      (pollHistory s (.poll env) { s' with poller := n.pc .full } h) := by
  cases hstep with
  | fail | upsertRefused | sweepRefused | finished =>
    exact raceInv_of_idle (p := none) rfl fun _ => nofun
  | listed | snapshot | generation =>
    refine raceInv_of_idle (p := some _) rfl ?_
    rintro _ ⟨⟩
    exact ⟨rfl, fun _ => rfl, fun _ => rfl⟩
  | @filtered listing snap g =>
    simp only [pollSpares, hs] at hg
    exact raceInv_of_filtered hg rfl rfl
  | @upsertsDone job paths =>
    refine hinv.next_same hs rfl (.inr rfl) rfl (fun _ => rfl) (fun i path g hc => ?_)
      (fun _ _ => rfl) fun _ _ => rfl
    simpa [FullPollPc.counts, flatten_chunks] using hc
  | @upserted job x todo paths i db hfault hup =>
    have hout := upsert_outcome hup
    obtain ⟨w, hwi, hwm, hwp, -, -, -, -, -, hwg⟩ := hout.written
    refine hinv.next hs rfl (.inr rfl) rfl (fun j r' hr' hm => ?_) (fun path hw => ?_)
      fun _ _ _ _ _ => rfl
    · by_cases hj : j = i
      · obtain rfl := Option.some.inj (hr'.symm.trans (hj ▸ hwi))
        refine .inr ?_
        have hgen : r'.pollGeneration = job.generation := hwg
        simp [FullPollPc.counts, hgen]
      · -- no other row is left at the path
        have hne : x.path ≠ r'.remotePath := fun he =>
          hj (inode_eq_of_path hr' hwi (hm.trans hwm.symm) (he.symm.trans hwp.symm))
        refine .inl ⟨r', hout.other hj hr', rfl, rfl, rfl, fun hc => ?_⟩
        simpa [FullPollPc.counts, hne] using hc
    · rw [FullPollPc.writes, List.any_cons, Bool.or_eq_false_iff] at hw
      exact hw.2
  | @marksDone job =>
    refine hinv.next_same hs rfl (.inr rfl) rfl (fun _ => rfl) (fun i path g hc => ?_)
      (fun _ _ => rfl) fun _ _ => rfl
    simpa [FullPollPc.counts] using hc
  | @marked job chunk rest db hmark =>
    have hrows := markGeneration_rows hmark
    refine hinv.next hs rfl (.inr rfl) rfl (fun j r' hr' _ => ?_) (fun _ _ => rfl)
      fun _ _ _ _ _ => rfl
    change db.getByInode j = some r' at hr'
    rw [hrows j] at hr'
    obtain ⟨r, hr, rfl⟩ := Option.map_eq_some_iff.1 hr'
    by_cases hc : j ∈ chunk
    · rw [if_pos hc]
      exact .inr (by simp [FullPollPc.counts])
    · rw [if_neg hc]
      refine .inl ⟨r, hr, rfl, rfl, rfl, fun hcount => ?_⟩
      simpa [FullPollPc.counts, hc] using hcount
  | @swept job deleted db hfault hsweep =>
    simp only [pollSpares, hs, hfault, Bool.false_or] at hg
    refine hinv.next hs rfl (.inl rfl) (foldl_dropHeader_background _ _ _) (fun _ _ _ _ => ?_)
      (fun _ _ => rfl) fun i r' cp hr' hcp => ?_
    · exact .inr rfl
    · change (deleted.foldl (fun s x => s.dropHeader x.1) (s.withDb db)).world.db.getByInode i =
        some r' at hr'
      rw [foldl_dropHeader_db] at hr'
      exact removes_of_sweep hg hsweep hr' hcp
  | @filesRemoved job | @generationSaved job =>
    exact hinv.next_same hs rfl (.inl rfl) rfl (fun _ => rfl) (fun _ _ _ _ => rfl) (fun _ _ => rfl)
      fun _ _ => rfl
  | @fileRemoved job p rest =>
    refine hinv.next_same hs rfl (.inl rfl) (removeFile_background _ _ _)
      (fun i => by rw [show Site.world _ = _ from rfl, Site.removeFile_db]) (fun _ _ _ _ => rfl)
      (fun _ _ => rfl) fun cp hc => ?_
    rw [FullPollPc.removes, Bool.eq_false_iff, ne_eq, List.contains_iff_mem] at hc ⊢
    exact fun hmem => hc (List.mem_cons_of_mem _ hmem)
  | cleaned hdb =>
    refine hinv.next_same hs rfl (.inl rfl) rfl (fun i => ?_) (fun _ _ _ _ => rfl) (fun _ _ => rfl)
      fun _ _ => rfl
    rcases hdb with rfl | rfl <;> rfl

theorem spared_of_fullStep {n : PollNext FullPollPc} (hinv : RaceInv m s h)
    (hs : s.poller = some (.full pc)) (hstep : FullPollStep m s env pc s' n)
    {p : Option PollerPc} : Spared m s h { s' with poller := p } where
  row job hjob i r hr hmust := by
    cases hs.symm.trans hjob
    have hkept : r.mountId = m.mountId →
        r.status.isUnsynced = true ∨ job.generation ≤ r.pollGeneration := fun hm =>
      (hinv.kept _ job hs rfl i r hr hm hmust).imp id of_decide_eq_true
    cases hstep with
    | fail => exact hr
    | swept _ hsweep =>
      rw [show Site.world _ = _ from rfl, foldl_dropHeader_db]
      exact getByInode_of_sweep hsweep hr hkept
    | sweepRefused _ hsweep => exact getByInode_of_sweep hsweep hr hkept
  file job p rest hjob i r hr hmust hcp := by
    have hfree := hinv.files _ hjob i r p hr hcp
    simp [FullPollPc.removes] at hfree
  path job todo paths hjob p hp hnone := by
    cases hs.symm.trans hjob
    have hfree := hinv.moved _ hs p hp
    cases hstep with
    | fail => exact hnone
    | upsertsDone => exact hnone
    | upserted _ hup =>
      rw [FullPollPc.writes, List.any_cons, Bool.or_eq_false_iff, decide_eq_false_iff_not] at hfree
      exact (upsert_outcome hup).absent (Ne.symm hfree.1) hnone
    | upsertRefused _ hup =>
      exact getByRemotePath_eq_none.2 fun j r hr hm =>
        getByRemotePath_eq_none.1 hnone j r (of_refused hup hr) hm

theorem raceInv_of_step {x x' : Site × PollHistory} {ev : SiteEvent} (hev : ev.mutates = true)
    (hinv : RaceInv m x.1 x.2) (hg : pollSpares m x ev = true)
    (hx : withHistory (siteStep m false) pollHistory x ev = some x') : RaceInv m x'.1 x'.2 := by
  obtain ⟨s, h⟩ := x
  obtain ⟨s', h'⟩ := x'
  obtain ⟨hstep, hh⟩ : siteStep m false s ev = some s' ∧ h' = pollHistory s ev s' h :=
    withHistory_eq_some.1 hx
  subst hh
  cases siteStep_cases hstep with
  | @daemon ev w hpoll hkernel hw =>
    refine raceInv_of_local hinv hev (fun pc hpc => ?_) hw
    simpa [pollSpares, hpc] using hg
  | poll env =>
    generalize hcall : pollerStep m false s env = s₂
    cases pollerStep_cases hcall with
    | wakes =>
      refine raceInv_of_idle (p := some .list) rfl ?_
      rintro _ ⟨⟩
      exact ⟨rfl, fun _ => rfl, fun _ => rfl⟩
    | delta hp => exact absurd hp (hinv.full _)
    | full hp hfull => exact raceInv_of_fullStep hinv hp hg hfull
  | populate | population => cases hev

end Poll

theorem raceInv_init (m : Mount) (now : ℕ) : RaceInv m (Site.init m now) ⟨[], []⟩ :=
  raceInv_of_idle (p := none) rfl fun _ => nofun

/-- **A full poll undoes no local change** in a run whose steps meet the condition. -/
theorem spared_of_run (m : Mount) (now : ℕ) (evs : List SiteEvent)
    (hevs : ∀ ev ∈ evs, ev.mutates = true)
    (hg : Guarded (withHistory (siteStep m false) pollHistory)
      (fun x ev => pollSpares m x ev = true) (Site.init m now, ⟨[], []⟩) evs) :
    Along (withHistory (siteStep m false) pollHistory)
      (fun x ev x' => ∀ env, ev = .poll env → Spared m x.1 x.2 x'.1)
      (Site.init m now, ⟨[], []⟩) evs := by
  refine along_of_guarded (I := fun x => RaceInv m x.1 x.2)
    (fun x ev x' hinv hg hx => raceInv_of_step hg.1 hinv hg.2 hx) ?_ (raceInv_init m now)
    ((Guarded.of_forall (fun ev hev _ => hevs ev hev) _).and hg)
  rintro ⟨s, h⟩ ev ⟨s', h'⟩ hinv - hx env rfl
  obtain ⟨hstep, -⟩ := withHistory_eq_some.1 hx
  obtain rfl := Option.some.inj hstep
  generalize hcall : pollerStep m false s env = s₂
  cases pollerStep_cases hcall with
  | wakes hp =>
    have hnone : ∀ pc, s.poller ≠ some (.full pc) := by
      intro pc hpc
      cases hp.symm.trans hpc
    exact ⟨fun _ h => absurd h (hnone _), fun _ _ _ h => absurd h (hnone _),
      fun _ _ _ h => absurd h (hnone _)⟩
  | delta hp => exact absurd hp (hinv.full _)
  | full hp hfull => exact spared_of_fullStep hinv hp hfull

/-- The answers of a remote with one directory. -/
def PollEnv.ofDirectory (name : Str) : PollEnv :=
  .ofListing [{ listedFile name with size := 0, isDir := true, etag := none }]

/-- A directory is made here and on the remote, a poll lists it, and a file is created before the
poll goes on to its end. -/
def createBesidePoll : List SiteEvent :=
  [.daemon (.request (.mkdir 1 ['d'])), .daemon (.background 0 .fine),
    .poll (.ofDirectory ['d']), .poll (.ofDirectory ['d']),
    .daemon (.request (.create 1 ['a']))] ++ List.replicate 11 (.poll (.ofDirectory ['d']))

theorem spared_of_createBesidePoll :
    (∃ s, run (siteStep sampleMount false) (Site.init sampleMount 0) createBesidePoll = some s ∧
      (s.world.db.getByRemotePath 1 ['a']).isSome = true) ∧
      Along (withHistory (siteStep sampleMount false) pollHistory)
        (fun x ev x' => ∀ env, ev = .poll env → Spared sampleMount x.1 x.2 x'.1)
        (Site.init sampleMount 0, ⟨[], []⟩) createBesidePoll :=
  ⟨⟨_, rfl, rfl⟩, spared_of_run sampleMount 0 createBesidePoll (by decide) (by decide)⟩

/-- A directory is made while a poll is under way that listed an empty remote; the next call of the
poll is its sweep, and the remote mkdir is still running. -/
def mkdirBesidePoll : List SiteEvent :=
  [.poll (.ofListing []), .poll (.ofListing []), .daemon (.request (.mkdir 1 ['d']))] ++
    List.replicate 5 (.poll (.ofListing []))

theorem not_spared_of_mkdir :
    ¬∀ (m : Mount) (now : ℕ) (evs : List SiteEvent), (∀ ev ∈ evs, ev.mutates = true) →
      Along (withHistory (siteStep m false) pollHistory)
        (fun x ev x' => ∀ env, ev = .poll env → Spared m x.1 x.2 x'.1)
        (Site.init m now, ⟨[], []⟩) evs := by
  intro h
  have hall := h sampleMount 0 (mkdirBesidePoll ++ [.poll (.ofListing [])]) (by decide)
  obtain ⟨hsweep, -⟩ := hall.drop (show run _ _ _ = some (_, _) from rfl) _ rfl
  have hrow := (hsweep _ rfl).row _ rfl 2 _ rfl (by decide)
  cases hrow

end Stratosync

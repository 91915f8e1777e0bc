import Stratosync.Cache.Captured
import Stratosync.Sync.PollRaces
import Stratosync.Sync.Refreshers

/-!
# Changes a full poll detects

`poll_once` compares the etag and the size of a listed entry with those of its row, and captures the
outgoing version of a cached row before it writes the entry. The etag is one hash of the several
that `lsjson` may report, or else the id, which says nothing about the content. `detected_iff` says
which of the changes that can be read off two listings make the row stale.
-/

namespace Stratosync

open Foundations.Runs

/-! ## A full poll with its captures -/

/-- The call of `capture` that a full poll makes for an entry it is about to write: the outgoing
version of a cached row. -/
def beforePoll (m : Mount) (db : Db) (x : RemoteMetadata) : Option (PathBuf × VersionSnapshot) :=
  ((db.getByRemotePath m.mountId x.path).filter fun snap => snap.status = .cached).bind fun snap =>
    (db.getByInode snap.inode).bind fun entry =>
      entry.cachePath.map fun cp => (cp, ⟨snap.inode, entry.size, entry.etag, .beforePoll⟩)

/-- The captures for the entries `todo`, one after the other. -/
def captureOutgoing (m : Mount) (c : BlobConfig) (w : World) (todo : List RemoteMetadata)
    (s : BlobState) : BlobState :=
  todo.foldl (fun s x =>
    match beforePoll m w.db x with
    | some (cp, a) => s.capture c (w.fs.files cp) a
    | none => s) s

/-- The entries of a listing that are new or changed, in its order. -/
def changedEntries (m : Mount) (active : List Str) (snap : Snapshot)
    (listing : List RemoteMetadata) : List RemoteMetadata :=
  listing.filter fun x => verdict m active snap x = .upsert

/-- A full poll under way: the site, the base store and what the poll does next. -/
structure VersionedPoll where
  site : Site
  blobs : BlobState
  next : PollNext FullPollPc

/-- The base store after the captures that precede the first write of a poll. -/
def FullPollPc.blobs (m : Mount) (c : BlobConfig) (s : Site) (env : PollEnv) (b : BlobState) :
    FullPollPc → BlobState
  | .tombstones listing snap _ =>
    captureOutgoing m c s.world (changedEntries m (s.loadTombstones m env) snap listing) b
  | _ => b

/-- A `poll_once` with nothing else going on, its captures included. The versions of a row go when
the row goes. -/
def versionedStep (m : Mount) (c : BlobConfig) (x : VersionedPoll) (env : PollEnv) :
    Option VersionedPoll :=
  match x.next with
  | .done _ => none
  | .goto pc =>
    let t := pc.tick m x.site env
    let b := pc.blobs m c x.site env x.blobs
    (b.tables.withFiles t.1.world.db).map fun tables => ⟨t.1, { b with tables }, t.2⟩

/-- The poll has written its entries, and has not failed. -/
def PollNext.written : PollNext FullPollPc → Bool
  | .goto (.mark ..) | .goto (.sweep _) | .goto (.removeFiles ..) | .goto (.saveGeneration _)
  | .goto .cleanup | .goto .markListed | .done true => true
  | _ => false

/-! ## A row and two listings of its object -/

/-- A hash of the entry, by its name. -/
def RcloneLsJsonEntry.hash (e : RcloneLsJsonEntry) (kind : Str) : Option Str :=
  e.hashes.bind fun h => h.lookup kind

/-- A cached row about to be polled, with the entry from which it was indexed and the current one
for its path. Its inode is one the database has given out, and no version is recorded later than
now. -/
structure PolledRow (m : Mount) where
  site : Site
  blobs : BlobState
  row : FileEntry
  indexed : RcloneLsJsonEntry
  current : RcloneLsJsonEntry
  path_eq : indexed.path = current.path
  row_eq : site.world.db.getByRemotePath m.mountId current.path = some row
  cached : row.status = .cached
  etag_eq : row.etag = indexed.toMetadata.etag
  size_eq : row.size = indexed.toMetadata.size
  given : row.inode ≤ site.world.db.seq
  tables_eq : blobs.tables.db = site.world.db
  noneLater : blobs.tables.NoneLater

namespace PolledRow

variable {m : Mount} (p : PolledRow m)

/-- **The entries differ**, in a hash, in the size or in the modification time of a file. -/
def Differs : Prop :=
  (∃ kind, p.indexed.hash kind ≠ p.current.hash kind) ∨ p.indexed.size ≠ p.current.size ∨
    (p.indexed.isDir = false ∧ p.current.isDir = false ∧ p.indexed.modTime ≠ p.current.modTime)

/-- What a capture of the row is called with. -/
def snapshot : VersionSnapshot := ⟨p.row.inode, p.row.size, p.row.etag, .beforePoll⟩

/-- When versioning is on and the row has its content, the base store has that version. -/
def Captured (c : BlobConfig) (b : BlobState) : Prop :=
  0 < c.retention → p.row.size ≤ c.maxSize → ∀ cp data, p.row.cachePath = some cp →
    p.site.world.fs.files cp = some data → b.HasVersion c p.snapshot data

/-- The row is stale and its version is captured. -/
def MarkedIn (c : BlobConfig) (s : Site) (b : BlobState) : Prop :=
  ∀ r, s.world.db.getByInode p.row.inode = some r → r.status = .stale ∧ p.Captured c b

/-- **The poll detects the change**: once it has written its entries, and so when it has succeeded,
the row is stale and its version captured, if the two entries differ. -/
def Detected (c : BlobConfig) : Prop :=
  p.Differs → ∀ env envs listing z, env.listing = .ok listing → p.current.toMetadata ∈ listing →
    run (versionedStep m c) ⟨p.site, p.blobs, .goto .list⟩ (env :: envs) = some z →
      z.next.written = true → p.MarkedIn c z.site z.blobs

/-- **The change is seen**: no filter leaves the current entry out, and the hash or the id that
stands for the content differs, or the size does, an unknown one counting as zero. -/
def Seen : Prop :=
  admitted m (p.site.world.db.activeTombstones m.mountId) p.current.toMetadata = true ∧
    ((p.indexed.contentHash <|> p.indexed.id) ≠ (p.current.contentHash <|> p.current.id) ∨
      p.indexed.size.toNat ≠ p.current.size.toNat)

end PolledRow

/-! ## What is captured -/

section Captures

variable {m : Mount} {c : BlobConfig} {b : BlobState} {a : VersionSnapshot} {data : Bytes}

/-- A version stays while its row does. -/
theorem BlobState.HasVersion.withFiles {db : Db} {tables : VersionDb} (h : b.HasVersion c a data)
    (hrow : (db.getByInode a.inode).isSome = true) (ht : b.tables.withFiles db = some tables) :
    BlobState.HasVersion c { b with tables } a data := by
  obtain ⟨v, hv, -, hrows⟩ := b.tables.withFiles_spec db
  obtain rfl := Option.some.inj (hv.symm.trans ht)
  obtain ⟨e, hmem, he, hobj⟩ := h
  exact ⟨e, (hrows e).2 ⟨hmem, he.inode ▸ hrow⟩, he, hobj⟩

/-- The tables of a poll that has not written anything. -/
theorem noneLater_withFiles {tables : VersionDb} (h : b.tables.NoneLater)
    (ht : b.tables.withFiles b.tables.db = some tables) :
    tables.db = b.tables.db ∧ tables.NoneLater := by
  obtain ⟨v, hv, hdb, hrows⟩ := b.tables.withFiles_spec b.tables.db
  obtain rfl := Option.some.inj (hv.symm.trans ht)
  refine ⟨hdb, fun e he => ?_⟩
  rw [hdb]
  exact h e ((hrows e).1 he).1

theorem beforePoll_eq_some {db : Db} {x : RemoteMetadata} {r : FileEntry} {cp : PathBuf}
    (hr : db.getByRemotePath m.mountId x.path = some r) (hcached : r.status = .cached)
    (hcp : r.cachePath = some cp) :
    beforePoll m db x = some (cp, ⟨r.inode, r.size, r.etag, .beforePoll⟩) := by
  rw [beforePoll, hr, Option.filter_some, if_pos (by simp [hcached]), Option.bind_some,
    (Db.getByRemotePath_spec hr).1, Option.bind_some, hcp, Option.map_some]

/-- A capture for the inode of a row is the capture of that row. -/
theorem eq_of_beforePoll {db : Db} {x : RemoteMetadata} {r : FileEntry} {cp cp' : PathBuf}
    {a : VersionSnapshot} (h : beforePoll m db x = some (cp', a))
    (hr : db.getByInode r.inode = some r) (hcp : r.cachePath = some cp) (ha : a.inode = r.inode) :
    (cp', a) = (cp, ⟨r.inode, r.size, r.etag, .beforePoll⟩) := by
  obtain ⟨snap, -, h⟩ := Option.bind_eq_some_iff.1 h
  obtain ⟨entry, hentry, h⟩ := Option.bind_eq_some_iff.1 h
  obtain ⟨p, hp, h⟩ := Option.map_eq_some_iff.1 h
  obtain ⟨rfl, rfl⟩ := Prod.mk.inj h
  have ha : snap.inode = r.inode := ha
  rw [ha] at hentry
  obtain rfl := Option.some.inj (hentry.symm.trans hr)
  obtain rfl := Option.some.inj (hp.symm.trans hcp)
  rw [ha]

/-- **The captures of a poll have the version of a cached row whose entry is to be written.** -/
theorem hasVersion_captureOutgoing {w : World} {todo : List RemoteMetadata} {r : FileEntry}
    {cp : PathBuf} (hdb : b.tables.db = w.db) (hnone : b.tables.NoneLater)
    (hret : 0 < c.retention) (hsize : r.size ≤ c.maxSize)
    (hr : w.db.getByInode r.inode = some r) (hcp : r.cachePath = some cp)
    (hdata : w.fs.files cp = some data)
    (h : (∃ x ∈ todo, beforePoll m w.db x = some (cp, ⟨r.inode, r.size, r.etag, .beforePoll⟩)) ∨
      b.HasVersion c ⟨r.inode, r.size, r.etag, .beforePoll⟩ data) :
    (captureOutgoing m c w todo b).HasVersion c ⟨r.inode, r.size, r.etag, .beforePoll⟩ data := by
  induction todo generalizing b with
  | nil =>
    obtain ⟨x, hx, -⟩ | h := h
    · cases hx
    · exact h
  | cons y todo ih =>
    rw [captureOutgoing, List.foldl_cons]
    cases hy : beforePoll m w.db y with
    | none =>
      refine ih hdb hnone (h.imp_left ?_)
      rintro ⟨x, hx, hbefore⟩
      refine ⟨x, (List.mem_cons.1 hx).resolve_left ?_, hbefore⟩
      rintro rfl
      rw [hy] at hbefore
      cases hbefore
    | some q =>
      obtain ⟨cp', a'⟩ := q
      refine ih ((capture_db ..).trans hdb) (noneLater_capture hnone _ _) ?_
      by_cases ha : a'.inode = r.inode
      · -- a capture of this row
        obtain ⟨rfl, rfl⟩ := Prod.mk.inj (eq_of_beforePoll hy hr hcp ha)
        refine .inr ?_
        dsimp only
        rw [hdata]
        exact hasVersion_capture hret hsize (by rw [hdb, hr]; rfl) hnone
      · refine h.imp ?_ fun h => h.capture ha _
        rintro ⟨x, hx, hbefore⟩
        refine ⟨x, (List.mem_cons.1 hx).resolve_left ?_, hbefore⟩
        rintro rfl
        obtain ⟨-, rfl⟩ := Prod.mk.inj (Option.some.inj (hy.symm.trans hbefore))
        exact ha rfl

end Captures

/-! ## What the poll does to the row -/

section Poll

variable {m : Mount} {c : BlobConfig} {db db' : Db} {x y : RemoteMetadata}

/-- The entries a full poll writes over a row it compares them with. -/
theorem verdict_eq_upsert_iff {active : List Str} {r : FileEntry}
    (hr : db.getByRemotePath m.mountId y.path = some r) :
    verdict m active (db.snapshotRemoteIndex m.mountId) y = .upsert ↔
      admitted m active y = true ∧ (r.etag ≠ y.etag ∨ r.size ≠ y.size) := by
  have hsnap : db.snapshotRemoteIndex m.mountId y.path = some ⟨r.inode, r.etag, r.size⟩ := by
    rw [Db.snapshotRemoteIndex, hr, Option.map_some]
  rw [← not_and_or, verdict, admitted, hsnap]
  cases unsafeEntry y <;> cases inConflictNamespace y.path <;>
    cases tombstoned active y.path <;> cases m.ignore y.path <;> simp

/-- The row that an upsert writes is refreshed, and the others stay as they are. -/
theorem status_of_upsert {paths : PathToInode} {g : ℕ} {i j : Inode} {r' : FileEntry}
    (hi : i ≤ db.seq) (h : upsertEntry m paths g db y = (some j, db'))
    (hr' : db'.getByInode i = some r') :
    ∃ r, db.getByInode i = some r ∧
      (i = j ∧ r'.status = r.status.refreshed ∨ i ≠ j ∧ r' = r) := by
  have hout := Db.upsert_outcome h
  by_cases hij : i = j
  · cases hout with
    | inserted =>
      rw [hij] at hi
      exact absurd hi (not_le.2 db.seq_lt_nextInode)
    | @refreshed r _ hpath hrows =>
      rw [hrows, if_pos hij] at hr'
      obtain rfl := Option.some.inj hr'
      exact ⟨r, hij ▸ (Db.getByRemotePath_spec hpath).1, .inl ⟨hij, rfl⟩⟩
    | @moved r hid hrows =>
      rw [hrows, if_pos hij] at hr'
      obtain rfl := Option.some.inj hr'
      exact ⟨r, hij ▸ (Db.foundById hid).1, .inl ⟨hij, rfl⟩⟩
  · exact ⟨r', hout.other hij hr', .inr ⟨hij, rfl⟩⟩

theorem seq_le_of_upsert {paths : PathToInode} {g : ℕ} {j : Inode}
    (h : upsertEntry m paths g db y = (some j, db')) : db.seq ≤ db'.seq := by
  have hseq := (rowsListed_applyRemote
    (.upsert m.mountId (y.toRefresh (resolveParent paths y.path) g) y.itemId) db).seq
  have hdb : (upsertEntry m paths g db y).2 = db' := by rw [h]
  exact hdb ▸ hseq

end Poll

namespace PolledRow

variable {m : Mount} {c : BlobConfig} {p : PolledRow m} {s : Site} {b : BlobState}
  {tables : VersionDb}

theorem row_getByInode (p : PolledRow m) :
    p.site.world.db.getByInode p.row.inode = some p.row :=
  (Db.getByRemotePath_spec p.row_eq).1

/-- The poll writes the current entry when the change is seen. -/
theorem verdict_iff (p : PolledRow m) (active : List Str) :
    verdict m active (p.site.world.db.snapshotRemoteIndex m.mountId) p.current.toMetadata =
      .upsert ↔
    admitted m active p.current.toMetadata = true ∧
      ((p.indexed.contentHash <|> p.indexed.id) ≠ (p.current.contentHash <|> p.current.id) ∨
        p.indexed.size.toNat ≠ p.current.size.toNat) := by
  rw [verdict_eq_upsert_iff (show _ = some p.row from p.row_eq), p.etag_eq, p.size_eq]
  rfl

theorem Captured.withFiles {db : Db} (h : p.Captured c b)
    (hrow : (db.getByInode p.row.inode).isSome = true) (ht : b.tables.withFiles db = some tables) :
    p.Captured c { b with tables } :=
  fun hret hsize cp data hcp hdata => (h hret hsize cp data hcp hdata).withFiles hrow ht

/-- What is captured stays while the row does, whatever becomes of it. -/
theorem MarkedIn.next {s' : Site} (h : p.MarkedIn c s b)
    (hrows : ∀ r', s'.world.db.getByInode p.row.inode = some r' →
      ∃ r, s.world.db.getByInode p.row.inode = some r ∧ r'.status = r.status)
    (ht : b.tables.withFiles s'.world.db = some tables) : p.MarkedIn c s' { b with tables } := by
  intro r' hr'
  obtain ⟨r, hr, hstatus⟩ := hrows r' hr'
  obtain ⟨hstale, hcaptured⟩ := h r hr
  exact ⟨hstatus.trans hstale, hcaptured.withFiles (by rw [hr']; rfl) ht⟩

/-- While entries are written: the row is stale, or it is cached and its entry is still to be
written. -/
def Writes (p : PolledRow m) (c : BlobConfig) (todo : List RemoteMetadata) (s : Site)
    (b : BlobState) : Prop :=
  p.row.inode ≤ s.world.db.seq ∧
    ∀ r, s.world.db.getByInode p.row.inode = some r → p.Captured c b ∧
      (r.status = .stale ∨
        r.status = .cached ∧ p.current.toMetadata ∈ todo ∧ r.mountId = m.mountId ∧
          r.remotePath = p.current.path)

/-- The poll has not written anything. -/
structure Untouched (p : PolledRow m) (s : Site) (b : BlobState) : Prop where
  site_eq : s = p.site
  tables_eq : b.tables.db = s.world.db
  noneLater : b.tables.NoneLater

theorem Untouched.next (h : p.Untouched s b) (ht : b.tables.withFiles s.world.db = some tables) :
    p.Untouched s { b with tables } := by
  rw [← h.tables_eq] at ht
  obtain ⟨hdb, hnone⟩ := noneLater_withFiles h.noneLater ht
  exact ⟨h.site_eq, hdb.trans h.tables_eq, hnone⟩

/-- The poll starts writing. -/
theorem writes_of_untouched {active : List Str} {listing : List RemoteMetadata}
    (h : p.Untouched s b) (hx : p.current.toMetadata ∈ listing)
    (hv : verdict m active (p.site.world.db.snapshotRemoteIndex m.mountId) p.current.toMetadata =
      .upsert) :
    p.Writes c (toUpsert m active (s.world.db.snapshotRemoteIndex m.mountId) listing) s
      (captureOutgoing m c s.world
        (changedEntries m active (s.world.db.snapshotRemoteIndex m.mountId) listing) b) := by
  obtain ⟨rfl, hdb, hnone⟩ := h
  refine ⟨p.given, fun r hr => ?_⟩
  obtain ⟨-, hm, hp⟩ := Db.getByRemotePath_spec p.row_eq
  obtain rfl := Option.some.inj (p.row_getByInode.symm.trans hr)
  refine ⟨fun hret hsize cp data hcp hdata => ?_, .inr ⟨p.cached, mem_toUpsert.2 ⟨hx, hv⟩, hm, hp⟩⟩
  exact hasVersion_captureOutgoing hdb hnone hret hsize hr hcp hdata
    (.inl ⟨_, List.mem_filter.2 ⟨hx, decide_eq_true hv⟩,
      beforePoll_eq_some p.row_eq p.cached hcp⟩)

theorem Writes.upsert {todo : List RemoteMetadata} {paths : PathToInode} {g : ℕ} {j : Inode}
    {y : RemoteMetadata} {s' : Site} (h : p.Writes c (y :: todo) s b)
    (hup : upsertEntry m paths g s.world.db y = (some j, s'.world.db))
    (ht : b.tables.withFiles s'.world.db = some tables) :
    p.Writes c todo s' { b with tables } := by
  obtain ⟨hseq, hrows⟩ := h
  refine ⟨hseq.trans (seq_le_of_upsert hup), fun r' hr' => ?_⟩
  obtain ⟨r, hr, hcase⟩ := status_of_upsert hseq hup hr'
  obtain ⟨hcaptured, hstatus⟩ := hrows r hr
  refine ⟨hcaptured.withFiles (by rw [hr']; rfl) ht, ?_⟩
  obtain ⟨-, hrefreshed⟩ | ⟨hij, rfl⟩ := hcase
  · left
    obtain hs | ⟨hs, -⟩ := hstatus
    all_goals
      rw [hrefreshed, hs]
      rfl
  · refine hstatus.imp id ?_
    rintro ⟨hs, hmem, hm, hp⟩
    refine ⟨hs, (List.mem_cons.1 hmem).resolve_left ?_, hm, hp⟩
    rintro rfl
    exact hij ((Db.upsert_outcome hup).eq_of_path hr' hm hp)

/-- The invariant of the poll, phase by phase. -/
def Phase (p : PolledRow m) (c : BlobConfig) (listing : List RemoteMetadata) :
    VersionedPoll → Prop
  | ⟨_, _, .goto .list⟩ => False
  | ⟨s, b, .goto (.snapshot l)⟩ => l = listing ∧ p.Untouched s b
  | ⟨s, b, .goto (.generation l snap)⟩ | ⟨s, b, .goto (.tombstones l snap _)⟩ =>
    l = listing ∧ snap = s.world.db.snapshotRemoteIndex m.mountId ∧ p.Untouched s b
  | ⟨s, b, .goto (.upsert _ todo _)⟩ => p.Writes c todo s b
  | ⟨s, b, .goto (.mark ..)⟩ | ⟨s, b, .goto (.sweep _)⟩ | ⟨s, b, .goto (.removeFiles ..)⟩
  | ⟨s, b, .goto (.saveGeneration _)⟩ | ⟨s, b, .goto .cleanup⟩ | ⟨s, b, .goto .markListed⟩
  | ⟨s, b, .done true⟩ => p.MarkedIn c s b
  | ⟨_, _, .done false⟩ => True

/-- A call of the poll keeps the invariant. -/
theorem phase_of_step {listing : List RemoteMetadata} {z z' : VersionedPoll} {env : PollEnv}
    (hx : p.current.toMetadata ∈ listing) (hseen : p.Seen) (hz : p.Phase c listing z)
    (h : versionedStep m c z env = some z') : p.Phase c listing z' := by
  obtain ⟨s, b, n⟩ := z
  cases n with
  | done ok => cases h
  | goto pc =>
    obtain ⟨tables, ht, rfl⟩ := Option.map_eq_some_iff.1 h
    have hstep := fullPollStep_tick m s env pc
    clear h
    generalize pc.tick m s env = t at hstep ht
    obtain ⟨s', n⟩ := t
    dsimp only at hstep ht ⊢
    cases hstep with
    | fail => trivial
    | listed => exact hz.elim
    | snapshot => exact ⟨hz.1, rfl, hz.2.next ht⟩
    | generation => exact ⟨hz.1, hz.2.1, hz.2.2.next ht⟩
    | @filtered l snap g =>
      obtain ⟨rfl, rfl, hsame⟩ := hz
      have hv := (p.verdict_iff (s.loadTombstones m env)).2 ⟨?_, hseen.2⟩
      · obtain ⟨hseq, hrows⟩ := writes_of_untouched (c := c) hsame hx hv
        exact ⟨hseq, fun r hr => ⟨(hrows r hr).1.withFiles (by rw [hr]; rfl) ht, (hrows r hr).2⟩⟩
      · have hjob : FullPoll.Of ⟨l, s.world.db.snapshotRemoteIndex m.mountId,
            s.loadTombstones m env, g⟩ (s.world.db.activeTombstones m.mountId) l :=
          ⟨rfl, s.loadTombstones_cases m env⟩
        exact hjob.admitted (hsame.site_eq ▸ hseen.1)
    | upsertsDone =>
      intro r hr
      obtain ⟨hcaptured, hstale | ⟨-, hnil, -⟩⟩ := hz.2 r hr
      · exact ⟨hstale, hcaptured.withFiles (by rw [hr]; rfl) ht⟩
      · cases hnil
    | upserted _ hup =>
      change p.Writes c _ _ _
      exact Writes.upsert hz hup ht
    | upsertRefused => trivial
    | marksDone => exact MarkedIn.next hz (fun r hr => ⟨r, hr, rfl⟩) ht
    | marked hmark =>
      refine MarkedIn.next hz (fun r' hr' => ?_) ht
      rw [Site.withDb_db, markGeneration_rows hmark] at hr'
      obtain ⟨r, hr, rfl⟩ := Option.map_eq_some_iff.1 hr'
      refine ⟨r, hr, ?_⟩
      split <;> rfl
    | swept _ hsweep =>
      refine MarkedIn.next hz (fun r hr => ⟨r, ?_, rfl⟩) ht
      rw [foldl_dropHeader_db] at hr
      exact getByInode_of_deleteStaleEntries hsweep hr
    | sweepRefused => trivial
    | filesRemoved => exact MarkedIn.next hz (fun r hr => ⟨r, hr, rfl⟩) ht
    | fileRemoved =>
      refine MarkedIn.next hz (fun r hr => ⟨r, ?_, rfl⟩) ht
      rwa [Site.removeFile_db] at hr
    | generationSaved => exact MarkedIn.next hz (fun r hr => ⟨r, hr, rfl⟩) ht
    | cleaned hdb =>
      refine MarkedIn.next hz (fun r hr => ⟨r, ?_, rfl⟩) ht
      obtain rfl | rfl := hdb
      · exact hr
      · exact hr
    | finished hdb =>
      refine MarkedIn.next hz (fun r' hr' => ?_) ht
      obtain rfl | hlisted := hdb
      · exact ⟨r', hr', rfl⟩
      · rw [Site.withDb_db, batchMarkDirsListed_rows hlisted] at hr'
        obtain ⟨r, hr, rfl⟩ := Option.map_eq_some_iff.1 hr'
        refine ⟨r, hr, ?_⟩
        split <;> rfl

theorem markedIn_of_written {listing : List RemoteMetadata} {z : VersionedPoll}
    (hz : p.Phase c listing z) (h : z.next.written = true) : p.MarkedIn c z.site z.blobs := by
  obtain ⟨s, b, n⟩ := z
  cases n with
  | goto pc => cases pc with
    | list | snapshot | generation | tombstones | upsert => cases h
    | mark | sweep | removeFiles | saveGeneration | cleanup | markListed => exact hz
  | done ok => cases ok with
    | false => cases h
    | true => exact hz

/-- A change that is seen is detected. -/
theorem detected_of_seen (hseen : p.Seen) : p.Detected c := by
  intro _ env envs listing z hl hx hrun hwritten
  obtain ⟨z₁, hfirst, hrest⟩ := run_cons_eq_some.1 hrun
  have hstart : p.Phase c listing z₁ := by
    obtain ⟨tables, ht, rfl⟩ := Option.map_eq_some_iff.1 hfirst
    have hsame : p.Untouched p.site p.blobs := ⟨rfl, p.tables_eq, p.noneLater⟩
    dsimp only at ht ⊢
    rw [FullPollPc.tick, hl] at ht ⊢
    dsimp only at ht ⊢
    split
    · trivial
    · rename_i hlen
      rw [if_neg hlen] at ht
      exact ⟨rfl, hsame.next ht⟩
  have hend : p.Phase c listing z :=
    inv_of_run (G := fun _ _ => True) (fun _ _ _ hi _ h => phase_of_step hx hseen hi h) hstart
      (Guarded.of_forall (fun _ _ _ => trivial) _) hrest
  exact markedIn_of_written hend hwritten

/-! ## A change that is not seen -/

/-- A poll alone makes the same calls when its captures are modelled. -/
theorem exists_run_of_lone {s s' : Site} {n n' : PollNext FullPollPc} {envs : List PollEnv}
    (h : run (loneStep m) (s, n) envs = some (s', n')) (c : BlobConfig) (b : BlobState) :
    ∃ b', run (versionedStep m c) ⟨s, b, n⟩ envs = some ⟨s', b', n'⟩ := by
  induction envs generalizing s n b with
  | nil =>
    obtain ⟨rfl, rfl⟩ := Prod.mk.inj (Option.some.inj h)
    exact ⟨b, rfl⟩
  | cons env envs ih =>
    obtain ⟨⟨s₁, n₁⟩, hfirst, hrest⟩ := run_cons_eq_some.1 h
    cases n with
    | done ok => cases hfirst
    | goto pc =>
      have htick : pc.tick m s env = (s₁, n₁) := Option.some.inj hfirst
      obtain ⟨tables, ht, -⟩ := (pc.blobs m c s env b).tables.withFiles_spec s₁.world.db
      obtain ⟨b', hb'⟩ := ih hrest { pc.blobs m c s env b with tables }
      refine ⟨b', run_cons_eq_some.2 ⟨_, ?_, hb'⟩⟩
      rw [versionedStep]
      dsimp only
      rw [htick, ht, Option.map_some]

/-- A poll that finds nothing to write comes to the marking of rows without a change. -/
theorem run_of_unseen (h : ¬p.Seen) :
    ∃ job rest, run (loneStep m) (p.site, .goto .list)
      (List.replicate 5 (PollEnv.ofListing [p.current.toMetadata])) =
        some (p.site, .goto (.mark job rest)) := by
  have hv := mt (p.verdict_iff (p.site.world.db.activeTombstones m.mountId)).1 h
  have hnone : toUpsert m (p.site.loadTombstones m (PollEnv.ofListing [p.current.toMetadata]))
      (p.site.world.db.snapshotRemoteIndex m.mountId) [p.current.toMetadata] = [] := by
    have hload : p.site.loadTombstones m (PollEnv.ofListing [p.current.toMetadata]) =
        p.site.world.db.activeTombstones m.mountId := rfl
    rw [hload, toUpsert_singleton, if_neg hv]
  obtain ⟨job, paths, hfour⟩ : ∃ job paths, run (loneStep m) (p.site, .goto .list)
      (List.replicate 4 (PollEnv.ofListing [p.current.toMetadata])) =
        some (p.site, .goto (.upsert job
          (toUpsert m (p.site.loadTombstones m (PollEnv.ofListing [p.current.toMetadata]))
            (p.site.world.db.snapshotRemoteIndex m.mountId) [p.current.toMetadata]) paths)) :=
    ⟨_, _, rfl⟩
  rw [hnone] at hfour
  refine ⟨job, chunks 1000 (unchangedInodes m job.tombstones job.snap job.listing), ?_⟩
  rw [List.replicate_succ', run_append, hfour]
  rfl

/-- A change that is not seen leaves the row cached. -/
theorem not_detected_of_unseen (c : BlobConfig) (hdiff : p.Differs) (h : ¬p.Seen) :
    ¬p.Detected c := by
  intro hdetected
  obtain ⟨job, rest, hrun⟩ := run_of_unseen h
  obtain ⟨b, hrun⟩ := exists_run_of_lone hrun c p.blobs
  have hmarked : p.MarkedIn c p.site b :=
    hdetected hdiff _ (List.replicate 4 _) _ _ rfl (List.mem_singleton_self _) hrun rfl
  have hstale := (hmarked p.row p.row_getByInode).1
  rw [p.cached] at hstale
  cases hstale

end PolledRow

/-- **Which changes a full poll detects**: those that a filter does not hide and in which the hash
that stands for the content differs, or the id where `lsjson` reports none of the hashes that may
stand for it, or the size. -/
theorem detected_iff (m : Mount) (c : BlobConfig) (p : PolledRow m) :
    p.Detected c ↔ (p.Differs → p.Seen) := by
  constructor
  · intro h hdiff
    by_contra hunseen
    exact PolledRow.not_detected_of_unseen c hdiff hunseen h
  · intro h hdiff
    exact PolledRow.detected_of_seen (h hdiff) hdiff

/-- The file `a` of a backend that has no hashes, cached and then edited in place. -/
def editedInPlace : PolledRow sampleMount where
  site := { Site.init sampleMount 0 with
    world := { World.init sampleMount 0 with
      db := (((Db.empty 1 0).applyRemote (reportedFile ['a'] 1 ['i'])).setCached 2 [['a']] 1
        (some ['i']) 0 1).getD (Db.empty 1 0) } }
  blobs := .init ((((Db.empty 1 0).applyRemote (reportedFile ['a'] 1 ['i'])).setCached 2 [['a']] 1
    (some ['i']) 0 1).getD (Db.empty 1 0))
  row := { inode := 2, mountId := 1, parent := some 1, name := ['a'], remotePath := ['a']
           kind := .file, size := 1, mtime := 0, etag := some ['i'], status := .cached
           cachePath := some [['a']], cacheSize := some 1, dirListed := none, pollGeneration := 0
           remoteItemId := none }
  indexed := { path := ['a'], name := ['a'], size := 1, modTime := some 0, isDir := false
               hashes := none, id := some ['i'] }
  current := { path := ['a'], name := ['a'], size := 1, modTime := some 1, isDir := false
               hashes := none, id := some ['i'] }
  path_eq := rfl
  row_eq := rfl
  cached := rfl
  etag_eq := rfl
  size_eq := rfl
  given := le_refl 2
  tables_eq := rfl
  noneLater := fun e he => by cases he

/-- The id survives the edit and the row stays cached. -/
theorem not_detected_editedInPlace :
    ¬∀ (m : Mount) (c : BlobConfig) (p : PolledRow m), p.Detected c := by
  intro h
  let c : BlobConfig :=
    { mountId := 1, sha256 := fun _ => [], maxSize := 0, retention := 0, retentionDays := 0 }
  refine PolledRow.not_detected_of_unseen (p := editedInPlace) c ?_ ?_ (h sampleMount c _)
  · exact .inr (.inr ⟨rfl, rfl, by decide⟩)
  · rintro ⟨-, hetag | hsize⟩
    · exact hetag rfl
    · exact hsize rfl

end Stratosync

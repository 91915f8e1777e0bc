import Stratosync.Sync.Batches

/-!
# Replaying a batch after a crash

A delta poll stores its token after the whole batch, so a crash leaves the changes made so far in
the index and the next poll applies the batch again from its first change. `replay_agrees` says
when that gives the rows of a poll that was not interrupted: no change that had been applied acts,
in the replay, on a row that a later change has written in the meantime (`Spares`), and the crashed
poll's map is right about the directories of the changes to come (`DirectoriesKnown`).

While the first changes are repeated, the index is the one the crash left, with every row that the
changes to come do not upsert as it was, and rows that are new (`Repeated`); the last of these
changes leaves none of the new ones. What is left of the batch then runs over indexes that differ
in the inodes of the rows it adds (`Alike`).
-/

namespace Stratosync

open Foundations Foundations.Runs

/-! ## What a replay should give -/

/-- The columns by which the indexes of two polls are compared, beside the inode of a row: its
path, its item id, the path of its parent and its etag. -/
def rowColumns (db : Db) (r : FileEntry) : Str × Option Str × Option Str × Option Str :=
  (r.remotePath, r.remoteItemId, (r.parent.bind db.getByInode).map FileEntry.remotePath, r.etag)

/-- Two indexes have the same rows, and those that were there before have the same inodes. -/
structure SameListed (m : Mount) (before once again : Db) : Prop where
  columns : ∀ path, (once.getByRemotePath m.mountId path).map (rowColumns once) =
    (again.getByRemotePath m.mountId path).map (rowColumns again)
  inode : ∀ path, ∀ r ∈ once.getByRemotePath m.mountId path,
    (before.getByInode r.inode).isSome = true →
      ∀ q ∈ again.getByRemotePath m.mountId path, q.inode = r.inode

/-- **A batch replayed after a crash does what it does uninterrupted**: when the poll crashes
between the changes `done` and `rest` or inside the first of `rest`, the whole batch can be applied
to what it left; that gives the same rows, and drops no cache file the uninterrupted poll keeps. -/
def ReplayedAsOnce (m : Mount) (tombstones : List Str) (db : Db) (done rest : List RemoteChange)
    (crashed : Db) : Prop :=
  ∀ s₁ s₂, run (batchStep m tombstones) (startOf m db, []) done = some s₁ →
    Crashed m tombstones s₁.1 rest crashed →
    run (batchStep m tombstones) s₁ rest = some s₂ →
    ∃ s₃, run (batchStep m tombstones) (startOf m crashed, []) (done ++ rest) = some s₃ ∧
      SameListed m db s₂.1.1 s₃.1.1 ∧ ∀ p ∈ s₃.2, p ∈ s₂.2

/-! ## The condition -/

section Condition

variable (m : Mount) (tombstones : List Str) (crashed : Db)

/-- An upsert that is replayed goes through. The row it refreshes is new, or it or a later change
upserts the path the row has in the index the crash left; the row it replaces is new; and the last
upsert of a path finds the row there, in the directory it is in. -/
structure UpsertSpares (later : List RemoteChange) (s : Db × PathToInode) (x : RemoteMetadata) :
    Prop where
  accepted : s.1.Acceptable m.mountId (x.toRefresh (resolveParent s.2 x.path) 0) x.itemId
  target : ∀ t ∈ s.1.upsertTarget m.mountId (x.toRefresh (resolveParent s.2 x.path) 0) x.itemId,
    ∀ r ∈ crashed.getByInode t.inode,
      (r.remotePath = x.path ∨ UpsertsPath m tombstones later r.remotePath) ∧
        (t.remoteItemId = none → x.itemId = none)
  replaced : ∀ t ∈ s.1.upsertTarget m.mountId (x.toRefresh (resolveParent s.2 x.path) 0) x.itemId,
    ∀ q ∈ s.1.getByRemotePath m.mountId x.path, q.inode ≠ t.inode →
      crashed.getByInode q.inode = none
  last : ¬UpsertsPath m tombstones later x.path →
    ∀ r ∈ crashed.getByRemotePath m.mountId x.path,
      (s.1.upsertTarget m.mountId (x.toRefresh (resolveParent s.2 x.path) 0) x.itemId).map
          FileEntry.inode = some r.inode ∧
        r.parent = some (resolveParent s.2 x.path)

/-- A change that is replayed spares the index the crash left. `s` is the index and the map of the
replay, `later` what had been applied after the change; a row is new when that index has no row of
its inode. -/
def Spares (later : List RemoteChange) (s : Db × PathToInode) : RemoteChange → Prop
  | .added x | .modified x _ =>
    admitted m tombstones x = true → UpsertSpares m tombstones crashed later s x
  | .deleted path itemId => ∀ r ∈ s.1.deletedRow m.mountId path itemId,
      crashed.getByInode r.inode = none ∧ ¬s.1.HasOtherChild r

/-- The replay of the changes that had been applied spares the index the crash left, and leaves no
new row. -/
def Replays : Db × PathToInode → List RemoteChange → Prop
  | s, [] => ∀ r ∈ s.1.fileIndex.rows, (crashed.getByInode r.inode).isSome = true
  | s, c :: later => Spares m tombstones crashed later s c ∧
      ∀ s', changeStep m tombstones s c = some s' → Replays s' later

/-- The directory of every upsert is known, when these are known before: a change that upserts a
path makes it known. -/
def DirectoriesKnown : (Str → Prop) → List RemoteChange → Prop
  | _, [] => True
  | known, c :: later =>
    (∀ x ∈ c.admittedEntry m tombstones, ∀ p ∈ parentPath x.path, known p) ∧
      DirectoriesKnown (fun p => known p ∨ ∃ x ∈ c.admittedEntry m tombstones, x.path = p) later

/-- **The condition**: the replay spares what the crash left, and the crashed poll's map is right,
at the crash, about the directories of the changes to come. -/
structure ReplaysAlike (db : Db) (done rest : List RemoteChange) : Prop where
  replays : Replays m tombstones crashed (startOf m crashed) done
  directories : ∀ s ∈ run (changeStep m tombstones) (startOf m db) done,
    DirectoriesKnown m tombstones
      (fun p => s.2 p = (crashed.getByRemotePath m.mountId p).map FileEntry.inode) rest

end Condition

variable {m : Mount} {tombstones : List Str}

/-! ## Repeating the changes that had been applied -/

/-- `q` is the row `r` with the columns an upsert writes of its own. -/
structure Rewritten (r q : FileEntry) : Prop where
  inode_eq : q.inode = r.inode
  mountId_eq : q.mountId = r.mountId
  refresh : ∀ x, (refreshRow x q).relisted = (refreshRow x r).relisted

/-- **The index of the replay**, with the changes `rem` of `done` to be repeated: the rows of the
index the crash left, in their order, and new ones. A row at a path that is not upserted any more is
as the crash left it. -/
structure Repeated (m : Mount) (tombstones : List Str) (base : Db) (done rem : List RemoteChange)
    (s : (Db × PathToInode) × List PathBuf) : Prop where
  rows : ∃ (f : FileEntry → FileEntry) (new : List FileEntry),
    s.1.1.fileIndex.rows = base.fileIndex.rows.map f ++ new ∧
      (∀ r ∈ base.fileIndex.rows, Rewritten r (f r) ∧
        ((r.mountId = m.mountId → ¬UpsertsPath m tombstones rem r.remotePath) →
          (f r).relisted = r.relisted)) ∧
      ∀ n ∈ new, base.getByInode n.inode = none ∧ n.cachePath = none
  known : ∀ p, ¬UpsertsPath m tombstones rem p → ∀ r ∈ base.getByRemotePath m.mountId p,
    s.1.2 p = some r.inode
  unknown : ∀ p, ¬UpsertsPath m tombstones done p →
    s.1.2 p = (base.getByRemotePath m.mountId p).map FileEntry.inode
  files : s.2 = []
  sequenced : s.1.1.Sequenced
  seq : base.seq ≤ s.1.1.seq

namespace Repeated

variable {base : Db} {done later : List RemoteChange} {c : RemoteChange}
  {s t : (Db × PathToInode) × List PathBuf}

theorem start (hbase : base.Sequenced) :
    Repeated m tombstones base done done (startOf m base, []) := by
  have hmap : ∀ p, (startOf m base).2 p =
      (base.getByRemotePath m.mountId p).map FileEntry.inode := by
    intro p
    change ((base.getByRemotePath m.mountId p).map _).map _ = _
    rw [Option.map_map]
    rfl
  refine ⟨⟨id, [], by simp [startOf], fun r _ => ⟨⟨rfl, rfl, fun _ => rfl⟩, fun _ => rfl⟩,
    fun _ h => by cases h⟩, fun p _ r hr => ?_, fun p _ => hmap p, rfl, hbase, le_rfl⟩
  rw [hmap, Option.mem_def.1 hr]
  rfl

/-- A row of the index is one the crash left or a new one. -/
theorem mem_new {f : FileEntry → FileEntry} {new : List FileEntry}
    (hrows : s.1.1.fileIndex.rows = base.fileIndex.rows.map f ++ new)
    (hf : ∀ r ∈ base.fileIndex.rows, Rewritten r (f r)) {q : FileEntry}
    (hq : q ∈ s.1.1.fileIndex.rows) (hnone : base.getByInode q.inode = none) : q ∈ new := by
  rw [hrows] at hq
  rcases List.mem_append.1 hq with hq | hq
  · obtain ⟨r, hr, rfl⟩ := List.mem_map.1 hq
    rw [(hf r hr).inode_eq, Db.getByInode_of_mem hr] at hnone
    cases hnone
  · exact hq

/-- A step that is no upsert leaves the same paths to come. -/
theorem upsertsPath_of_none (hc : c.admittedEntry m tombstones = none) {p : Str}
    (h : UpsertsPath m tombstones (c :: later) p) : UpsertsPath m tombstones later p := by
  rcases upsertsPath_cons.1 h with ⟨x, hx, -⟩ | h
  · rw [hc] at hx
    cases hx
  · exact h

theorem skip (h : Repeated m tombstones base done (c :: later) s)
    (hc : c.admittedEntry m tombstones = none) : Repeated m tombstones base done later s := by
  obtain ⟨⟨f, new, hrows, hf, hnew⟩, hknown, hunknown, hfiles, hsequenced, hseq⟩ := h
  exact ⟨⟨f, new, hrows, fun r hr => ⟨(hf r hr).1, fun hp =>
      (hf r hr).2 fun hm hu => hp hm (upsertsPath_of_none hc hu)⟩, hnew⟩,
    fun p hp => hknown p fun hu => hp (upsertsPath_of_none hc hu), hunknown, hfiles, hsequenced,
    hseq⟩

/-- A deletion that is repeated drops a new row, or nothing. -/
theorem delete {path : Str} {itemId : Option Str}
    (h : Repeated m tombstones base done (.deleted path itemId :: later) s)
    (hg : ∀ r ∈ s.1.1.deletedRow m.mountId path itemId,
      base.getByInode r.inode = none ∧ ¬s.1.1.HasOtherChild r) :
    ∃ t, batchStep m tombstones s (.deleted path itemId) = some t ∧
      Repeated m tombstones base done later t := by
  have h := h.skip rfl
  cases hrow : s.1.1.deletedRow m.mountId path itemId with
  | none =>
    have hdel : s.1.1.deleteRemoteEntry none = some (none, s.1.1) := rfl
    exact ⟨_, batchStep_iff.2 (.delete rfl (hrow ▸ hdel)), h⟩
  | some r =>
    obtain ⟨hnone, hchild⟩ := hg r hrow
    obtain ⟨⟨f, new, hrows, hf, hnew⟩, hknown, hunknown, hfiles, hsequenced, hseq⟩ := h
    have hmem := Db.mem_rows_of_getByInode (getByInode_of_deletedRow hrow)
    have hcache := (hnew r (mem_new hrows (fun q hq => (hf q hq).1) hmem hnone)).2
    have hsome : (s.1.1.deleteEntry r.inode).isSome = true :=
      Db.deleteEntry_isSome_iff.2 fun q hq hi hp => hchild ⟨q, hq, hi, hp⟩
    obtain ⟨db, hdb⟩ := Option.isSome_iff_exists.1 hsome
    have hdel : s.1.1.deleteRemoteEntry (some r) = some (some (r.inode, none), db) := by
      rw [Db.deleteRemoteEntry, Option.filter_some, isUnsynced_of_deletedRow hrow, Bool.not_false,
        if_pos rfl]
      dsimp only
      rw [hdb, hcache]
      rfl
    rw [← hrow] at hdel
    refine ⟨_, batchStep_iff.2 (.delete rfl hdel), ?_, hknown, hunknown, hfiles,
      hsequenced.deleteRows hdb, hseq.trans (Db.seq_deleteRows hdb).ge⟩
    obtain ⟨tbl, htbl, rfl⟩ := Option.map_eq_some_iff.1 hdb
    refine ⟨f, new.filter fun q => !decide (q.inode = r.inode), ?_, hf,
      fun n hn => hnew n (List.mem_of_mem_filter hn)⟩
    change tbl.rows = _
    rw [Table.commit_eq_some.1 htbl, hrows, List.filter_append,
      List.filter_eq_self.2 fun q hq => ?_]
    obtain ⟨q', hq', rfl⟩ := List.mem_map.1 hq
    rw [Bool.not_eq_true', decide_eq_false_iff_not, (hf q' hq').1.inode_eq]
    intro hi
    rw [← hi, Db.getByInode_of_mem hq'] at hnone
    cases hnone

end Repeated

/-- An upsert keeps the row it refreshes the row it was. -/
theorem Rewritten.refreshRow {r q : FileEntry} (h : Rewritten r q) (x : Refresh) :
    Rewritten r (refreshRow x q) := by
  refine ⟨h.inode_eq, h.mountId_eq, fun y => ?_⟩
  rw [Db.refreshRow_refreshRow]
  exact h.refresh y

/-- Without an item id to fill in, an upsert by path is one by item id. -/
theorem refreshByPath_eq_refreshRow {x : Refresh} {itemId : Option Str} {r : FileEntry}
    (h : r.remoteItemId = none → itemId = none) : refreshByPath x itemId r = refreshRow x r := by
  rw [refreshByPath]
  cases hr : r.remoteItemId with
  | none =>
    rw [h hr]
    exact congrArg (fun id => { refreshRow x r with remoteItemId := id }) hr.symm
  | some id => exact congrArg (fun id => { refreshRow x r with remoteItemId := id }) hr.symm

theorem Db.getByRemotePath_of_mem {db : Db} {mountId : ℕ} {path : Str} {r : FileEntry}
    (hr : r ∈ db.fileIndex.rows) (hm : r.mountId = mountId) (hp : r.remotePath = path) :
    db.getByRemotePath mountId path = some r :=
  Db.getByRemotePath_eq_some.2 ⟨Db.getByInode_of_mem hr, hm, hp⟩

namespace Repeated

variable {base : Db} {done later : List RemoteChange} {c : RemoteChange}
  {s t : (Db × PathToInode) × List PathBuf}

/-- A row that was settled before stays so, unless the upsert writes to its path. -/
theorem settled_of_ne {x : RemoteMetadata} {r q : FileEntry}
    (hx : c.admittedEntry m tombstones = some x)
    (hq : (r.mountId = m.mountId → ¬UpsertsPath m tombstones (c :: later) r.remotePath) →
      q.relisted = r.relisted)
    (hp : r.mountId = m.mountId → ¬UpsertsPath m tombstones later r.remotePath)
    (hne : r.mountId = m.mountId → r.remotePath ≠ x.path) : q.relisted = r.relisted := by
  refine hq fun hm hu => ?_
  rcases upsertsPath_cons.1 hu with ⟨y, hy, he⟩ | hu
  · obtain rfl := Option.some.inj (hx.symm.trans hy)
    exact hne hm he.symm
  · exact hp hm hu

/-- The rows after an upsert that is repeated and finds a row. -/
theorem upsert_rows_of_target {x : RemoteMetadata} {db : Db} {t : FileEntry}
    (h : Repeated m tombstones base done (c :: later) s)
    (hx : c.admittedEntry m tombstones = some x) (hg : UpsertSpares m tombstones base later s.1 x)
    (hwritten : ¬UpsertsPath m tombstones later x.path →
      ∀ r ∈ base.getByRemotePath m.mountId x.path, WrittenAs x r)
    (ht : s.1.1.upsertTarget m.mountId (x.toRefresh (resolveParent s.1.2 x.path) 0) x.itemId =
      some t)
    (hdb : db.fileIndex.rows = (s.1.1.fileIndex.rows.filter fun q =>
      !(q.mountId = m.mountId ∧ q.remotePath = x.path ∧ q.inode ≠ t.inode)).map fun r =>
        if r.inode = t.inode then
          refreshByPath (x.toRefresh (resolveParent s.1.2 x.path) 0) x.itemId r else r) :
    ∃ (f : FileEntry → FileEntry) (new : List FileEntry),
      db.fileIndex.rows = base.fileIndex.rows.map f ++ new ∧
        (∀ r ∈ base.fileIndex.rows, Rewritten r (f r) ∧
          ((r.mountId = m.mountId → ¬UpsertsPath m tombstones later r.remotePath) →
            (f r).relisted = r.relisted)) ∧
        ∀ n ∈ new, base.getByInode n.inode = none ∧ n.cachePath = none := by
  obtain ⟨f, new, hrows, hf, hnew⟩ := h.rows
  have htm : t.mountId = m.mountId := by
    rcases Option.or_eq_some_iff.1 ht with hid | ⟨-, hp⟩
    · exact (Db.foundById hid).2.1
    · exact (Db.getByRemotePath_spec hp).2.1
  have htmem : t ∈ s.1.1.fileIndex.rows := by
    rcases Option.or_eq_some_iff.1 ht with hid | ⟨-, hp⟩
    · exact Db.mem_rows_of_getByInode (Db.foundById hid).1
    · exact Db.mem_rows_of_getByInode (Db.getByRemotePath_spec hp).1
  refine ⟨fun r => if (f r).inode = t.inode then
      refreshByPath (x.toRefresh (resolveParent s.1.2 x.path) 0) x.itemId (f r) else f r,
    (new.filter fun q => !decide (q.mountId = m.mountId ∧ q.remotePath = x.path ∧
      q.inode ≠ t.inode)).map fun r => if r.inode = t.inode then
        refreshByPath (x.toRefresh (resolveParent s.1.2 x.path) 0) x.itemId r else r,
    hdb.trans ?_, fun r hr => ?_, ?_⟩
  · rw [hrows, List.filter_append, List.map_append, List.filter_eq_self.2 fun q hq => ?_,
      List.map_map]
    · rfl
    · obtain ⟨r, hr, rfl⟩ := List.mem_map.1 hq
      have hrow : f r ∈ s.1.1.fileIndex.rows := hrows ▸ List.mem_append_left _ hq
      rw [Bool.not_eq_true', decide_eq_false_iff_not]
      rintro ⟨hm, hp, hne⟩
      have hself := Db.getByRemotePath_eq_some.2 ⟨Db.getByInode_of_mem hrow, hm, hp⟩
      have hnone := hg.replaced t ht _ hself hne
      rw [(hf r hr).1.inode_eq, Db.getByInode_of_mem hr] at hnone
      cases hnone
  · have hfr := (hf r hr).1
    dsimp only
    by_cases hi : (f r).inode = t.inode
    · rw [if_pos hi]
      have hrow : f r ∈ s.1.1.fileIndex.rows :=
        hrows ▸ List.mem_append_left _ (List.mem_map_of_mem hr)
      have hft : f r = t := by
        have h₁ := Db.getByInode_of_mem hrow
        rw [hi, Db.getByInode_of_mem htmem] at h₁
        exact (Option.some.inj h₁).symm
      have hbase : base.getByInode t.inode = some r := by
        rw [← hi, hfr.inode_eq]
        exact Db.getByInode_of_mem hr
      obtain ⟨htarget, hid⟩ := hg.target t ht r hbase
      rw [refreshByPath_eq_refreshRow (hft ▸ hid)]
      refine ⟨hfr.refreshRow _, fun hp => ?_⟩
      have hrm : r.mountId = m.mountId := by rw [← hfr.mountId_eq, hft, htm]
      have hpath := htarget.resolve_right (hp hrm)
      obtain ⟨-, hparent⟩ := hg.last (hpath ▸ hp hrm) r (Db.getByRemotePath_of_mem hr hrm hpath)
      rw [hfr.refresh]
      exact hwritten (hpath ▸ hp hrm) r (Db.getByRemotePath_of_mem hr hrm hpath) _ hparent
    · rw [if_neg hi]
      refine ⟨hfr, fun hp => settled_of_ne hx (hf r hr).2 hp fun hm hpath => hi ?_⟩
      obtain ⟨hlast, -⟩ := hg.last (hpath ▸ hp hm) r (Db.getByRemotePath_of_mem hr hm hpath)
      rw [ht] at hlast
      exact hfr.inode_eq.trans (Option.some.inj hlast).symm
  · intro n hn
    obtain ⟨q, hq, rfl⟩ := List.mem_map.1 hn
    obtain ⟨hnone, hcache⟩ := hnew q (List.mem_of_mem_filter hq)
    split <;> exact ⟨hnone, hcache⟩

/-- The rows after an upsert that is repeated and adds a row. -/
theorem upsert_rows_of_new {x : RemoteMetadata} {db : Db}
    (h : Repeated m tombstones base done (c :: later) s)
    (hx : c.admittedEntry m tombstones = some x) (hg : UpsertSpares m tombstones base later s.1 x)
    (hnone : s.1.1.upsertTarget m.mountId (x.toRefresh (resolveParent s.1.2 x.path) 0) x.itemId =
      none)
    (hdb : db.fileIndex.rows = s.1.1.fileIndex.rows ++ [s.1.1.insertedRow m.mountId
      (x.toRefresh (resolveParent s.1.2 x.path) 0) x.itemId]) :
    ∃ (f : FileEntry → FileEntry) (new : List FileEntry),
      db.fileIndex.rows = base.fileIndex.rows.map f ++ new ∧
        (∀ r ∈ base.fileIndex.rows, Rewritten r (f r) ∧
          ((r.mountId = m.mountId → ¬UpsertsPath m tombstones later r.remotePath) →
            (f r).relisted = r.relisted)) ∧
        ∀ n ∈ new, base.getByInode n.inode = none ∧ n.cachePath = none := by
  obtain ⟨f, new, hrows, hf, hnew⟩ := h.rows
  refine ⟨f, new ++ [_], hdb.trans (by rw [hrows, List.append_assoc]), fun r hr => ?_, ?_⟩
  · refine ⟨(hf r hr).1, fun hp => settled_of_ne hx (hf r hr).2 hp fun hm hpath => ?_⟩
    obtain ⟨hlast, -⟩ := hg.last (hpath ▸ hp hm) r (Db.getByRemotePath_of_mem hr hm hpath)
    rw [hnone] at hlast
    cases hlast
  · intro n hn
    rcases List.mem_append.1 hn with hn | hn
    · exact hnew n hn
    · rw [List.mem_singleton.1 hn]
      refine ⟨?_, rfl⟩
      cases hr : base.getByInode s.1.1.nextInode with
      | none => exact hr
      | some r =>
        have hmem := Db.mem_rows_of_getByInode hr
        have hrow : f r ∈ s.1.1.fileIndex.rows :=
          hrows ▸ List.mem_append_left _ (List.mem_map_of_mem hmem)
        have hlt := Db.inode_lt_nextInode hrow
        rw [(hf r hmem).1.inode_eq, Db.inode_of_getByInode hr] at hlt
        exact absurd hlt (lt_irrefl _)

/-- The rows after an upsert that is repeated. -/
theorem upsert_rows {x : RemoteMetadata} {i : Inode} {db : Db}
    (h : Repeated m tombstones base done (c :: later) s)
    (hx : c.admittedEntry m tombstones = some x) (hg : UpsertSpares m tombstones base later s.1 x)
    (hwritten : ¬UpsertsPath m tombstones later x.path →
      ∀ r ∈ base.getByRemotePath m.mountId x.path, WrittenAs x r)
    (hup : upsertEntry m s.1.2 0 s.1.1 x = (some i, db)) :
    ∃ (f : FileEntry → FileEntry) (new : List FileEntry),
      db.fileIndex.rows = base.fileIndex.rows.map f ++ new ∧
        (∀ r ∈ base.fileIndex.rows, Rewritten r (f r) ∧
          ((r.mountId = m.mountId → ¬UpsertsPath m tombstones later r.remotePath) →
            (f r).relisted = r.relisted)) ∧
        ∀ n ∈ new, base.getByInode n.inode = none ∧ n.cachePath = none := by
  rcases Db.upsert_rows hup with ⟨t, ht, -, -, hdb⟩ | ⟨hnone, -, -, hdb⟩
  · exact h.upsert_rows_of_target hx hg hwritten ht hdb
  · exact h.upsert_rows_of_new hx hg hnone hdb

/-- An upsert is repeated. -/
theorem upsert {x : RemoteMetadata} (h : Repeated m tombstones base done (c :: later) s)
    (hc : c ∈ done) (hx : c.admittedEntry m tombstones = some x)
    (hg : UpsertSpares m tombstones base later s.1 x)
    (hwritten : ¬UpsertsPath m tombstones later x.path →
      ∀ r ∈ base.getByRemotePath m.mountId x.path, WrittenAs x r) :
    ∃ t, batchStep m tombstones s c = some t ∧ Repeated m tombstones base done later t := by
  obtain ⟨i, hi⟩ := Option.isSome_iff_exists.1 (Db.upsert_isSome hg.accepted)
  cases hup : upsertEntry m s.1.2 0 s.1.1 x with
  | mk o db =>
    obtain rfl : o = some i := by
      rw [upsertEntry] at hup
      rw [← hi, hup]
    have hstep : BatchStep m tombstones s c _ := .upsert hx hup
    have hsequenced := hstep.sequenced h.sequenced
    refine ⟨_, batchStep_iff.2 hstep, h.upsert_rows hx hg hwritten hup, fun p hp r hr => ?_,
      fun p hp => ?_, h.files, hsequenced.1, h.seq.trans hsequenced.2⟩
    · dsimp only
      by_cases he : p = x.path
      · subst he
        obtain ⟨hlast, -⟩ := hg.last hp r hr
        rw [Function.update_self]
        rcases Db.upsert_rows hup with ⟨t, ht, hti, -⟩ | ⟨hnone, -⟩
        · rw [ht] at hlast
          exact congrArg some (hti.trans (Option.some.inj hlast))
        · rw [hnone] at hlast
          cases hlast
      · rw [Function.update_of_ne he]
        refine h.known p (fun hu => ?_) r hr
        rcases upsertsPath_cons.1 hu with ⟨y, hy, hyp⟩ | hu
        · obtain rfl := Option.some.inj (hx.symm.trans hy)
          exact he hyp.symm
        · exact hp hu
    · dsimp only
      rw [Function.update_of_ne fun he => hp ⟨c, hc, x, hx, he.symm⟩]
      exact h.unknown p hp

/-- **A change that spares the index the crash left can be repeated.** -/
theorem step (h : Repeated m tombstones base done (c :: later) s) (hc : c ∈ done)
    (hg : Spares m tombstones base later s.1 c)
    (hwritten : ∀ x, c.admittedEntry m tombstones = some x →
      ¬UpsertsPath m tombstones later x.path →
        ∀ r ∈ base.getByRemotePath m.mountId x.path, WrittenAs x r) :
    ∃ t, batchStep m tombstones s c = some t ∧ Repeated m tombstones base done later t := by
  cases hx : c.metadata with
  | some x =>
    by_cases hadm : admitted m tombstones x = true
    · have hup := admittedEntry_eq_some.2 ⟨hx, hadm⟩
      refine h.upsert hc hup ?_ (hwritten x hup)
      cases c with
      | added y | modified y _ =>
        obtain rfl := Option.some.inj hx
        exact hg hadm
      | deleted => cases hx
    · have hadm : admitted m tombstones x = false := by simpa using hadm
      refine ⟨s, batchStep_iff.2 (.skip hx hadm), h.skip ?_⟩
      rw [RemoteChange.admittedEntry, hx, Option.filter_some, hadm]
      rfl
  | none =>
    cases c with
    | added y | modified y _ => cases hx
    | deleted path itemId => exact h.delete hg

/-- **The changes that had been applied can be repeated.** -/
theorem run {rem : List RemoteChange} (h : Repeated m tombstones base done rem s)
    (hdone : ∀ c ∈ rem, c ∈ done) (hg : Replays m tombstones base s.1 rem)
    (hwritten : ∀ pre c later x, rem = pre ++ c :: later → c.admittedEntry m tombstones = some x →
      ¬UpsertsPath m tombstones later x.path →
        ∀ r ∈ base.getByRemotePath m.mountId x.path, WrittenAs x r) :
    ∃ t, Runs.run (batchStep m tombstones) s rem = some t ∧
      Repeated m tombstones base done [] t ∧
      ∀ r ∈ t.1.1.fileIndex.rows, (base.getByInode r.inode).isSome = true := by
  induction rem generalizing s with
  | nil => exact ⟨s, rfl, h, hg⟩
  | cons c later ih =>
    obtain ⟨u, hu, hu'⟩ := h.step (hdone c List.mem_cons_self) hg.1 fun x hx =>
      hwritten [] c later x rfl hx
    obtain ⟨t, ht, hrest⟩ := ih hu' (fun c' hc' => hdone c' (List.mem_cons_of_mem _ hc'))
      (hg.2 u.1 (withHistory_eq_some.1 hu).1) fun pre c' l x he =>
        hwritten (c :: pre) c' l x (by rw [he, List.cons_append])
    exact ⟨t, by rw [run_cons, hu, Option.bind_some, ht], hrest⟩

end Repeated

/-! ## The rest of the batch -/

/-- The inodes of a replay: those given out after the crash come `δ` later. -/
def shift (n δ i : ℕ) : ℕ := if i ≤ n then i else i + δ

theorem shift_of_le {n δ i : ℕ} (h : i ≤ n) : shift n δ i = i := if_pos h

theorem shift_injective (n δ : ℕ) : (shift n δ).Injective := by
  intro i j h
  rw [shift, shift] at h
  split at h <;> split at h <;> omega

theorem shift_le (n δ i : ℕ) : shift n δ i ≤ i + δ := by
  rw [shift]
  split <;> omega

/-- The two polls agree on the index, up to inodes given out after the crash, and the replay has
dropped no file of its own. -/
structure Alike (n δ : ℕ) (s s' : (Db × PathToInode) × List PathBuf) : Prop where
  rows : s.1.1.Renumbered (shift n δ) s'.1.1
  seq : s'.1.1.seq = s.1.1.seq + δ
  sequenced : s.1.1.Sequenced
  le : n ≤ s.1.1.seq
  files : ∀ p ∈ s'.2, p ∈ s.2

namespace Alike

variable {n δ : ℕ} {s s' t : (Db × PathToInode) × List PathBuf} {c : RemoteChange}

theorem sequenced' (h : Alike n δ s s') : s'.1.1.Sequenced := by
  refine ⟨h.sequenced.root.trans (h.seq ▸ Nat.le_add_right _ _), fun q hq => ?_⟩
  obtain ⟨r, hr, he⟩ := List.mem_map.1 (h.rows ▸ List.mem_map_of_mem (f := FileEntry.relisted) hq)
  have hi : q.inode = shift n δ r.inode := FileEntry.Renumbered.inode_eq (Eq.symm he)
  rw [hi, h.seq]
  exact (shift_le n δ r.inode).trans (Nat.add_le_add_right (h.sequenced.rows r hr) δ)

theorem nextInode (h : Alike n δ s s') : s'.1.1.nextInode = shift n δ s.1.1.nextInode := by
  rw [h.sequenced'.nextInode_eq, h.sequenced.nextInode_eq, h.seq, shift,
    if_neg (Nat.not_le.2 (Nat.lt_succ_of_le h.le))]
  exact Nat.add_right_comm _ _ _

/-- The two polls find the same directory. -/
theorem resolveParent (h : fuseRootInode ≤ n) {path : Str}
    (hp : ∀ p ∈ parentPath path, s'.1.2 p = (s.1.2 p).map (shift n δ)) :
    resolveParent s'.1.2 path = shift n δ (resolveParent s.1.2 path) := by
  rw [Stratosync.resolveParent, Stratosync.resolveParent]
  cases hq : parentPath path with
  | none => exact (shift_of_le h).symm
  | some p =>
    dsimp only
    rw [hp p hq]
    cases s.1.2 p with
    | none => exact (shift_of_le h).symm
    | some i => rfl

theorem deletedRow (h : Alike n δ s s') (path : Str) (itemId : Option Str) :
    (s.1.1.deletedRow m.mountId path itemId = none ∧
        s'.1.1.deletedRow m.mountId path itemId = none) ∨
      ∃ r q, s.1.1.deletedRow m.mountId path itemId = some r ∧
        s'.1.1.deletedRow m.mountId path itemId = some q ∧ r.Renumbered (shift n δ) q := by
  have hkept : ∀ {o o' : Option FileEntry}, ((o = none ∧ o' = none) ∨
      ∃ r q, o = some r ∧ o' = some q ∧ r.Renumbered (shift n δ) q) →
      (o.filter (fun r => !r.status.isUnsynced) = none ∧
        o'.filter (fun r => !r.status.isUnsynced) = none) ∨
      ∃ r q, o.filter (fun r => !r.status.isUnsynced) = some r ∧
        o'.filter (fun r => !r.status.isUnsynced) = some q ∧ r.Renumbered (shift n δ) q := by
    rintro o o' (⟨rfl, rfl⟩ | ⟨r, q, rfl, rfl, he⟩)
    · exact .inl ⟨rfl, rfl⟩
    · rw [Option.filter_some, Option.filter_some, he.isUnsynced_eq]
      split
      · exact .inr ⟨r, q, rfl, rfl, he⟩
      · exact .inl ⟨rfl, rfl⟩
  rw [Db.deletedRow, Db.deletedRow]
  rcases hkept (Db.foundById_renumbered h.rows m.mountId itemId) with
    ⟨ha, hb⟩ | ⟨r, q, ha, hb, he⟩
  · rw [ha, hb, Option.none_or, Option.none_or]
    exact hkept (Db.getByRemotePath_renumbered h.rows m.mountId path)
  · rw [ha, hb, Option.some_or, Option.some_or]
    exact .inr ⟨r, q, rfl, rfl, he⟩

/-- An upsert takes the same numbers in both indexes, shifted. -/
theorem seq_of_upsert (h : Alike n δ s s') {mountId : ℕ} {x : Refresh} {itemId : Option Str}
    {i j : Inode} {db db' : Db}
    (hup : s.1.1.upsertRemoteFileByIdOrPath mountId x itemId = (some i, db))
    (hagain : s'.1.1.upsertRemoteFileByIdOrPath mountId (x.renumbered (shift n δ)) itemId =
      (some j, db')) : db'.seq = db.seq + δ := by
  have htarget := Db.upsertTarget_renumbered h.rows mountId x itemId
  rcases Db.upsert_rows hup with ⟨r, hr, -, hseq, -⟩ | ⟨hnone, -, hseq, -⟩ <;>
    rcases Db.upsert_rows hagain with ⟨q, hq, -, hseq', -⟩ | ⟨hnone', -, hseq', -⟩
  · rw [hseq, hseq', h.seq]
  · rw [hr, hnone'] at htarget
    cases htarget
  · rw [hnone, hq] at htarget
    cases htarget
  · rw [hseq, hseq', h.nextInode, h.sequenced.nextInode_eq, shift,
      if_neg (Nat.not_le.2 (Nat.lt_succ_of_le h.le))]

/-- **A step of the uninterrupted poll is one of the replay**, with its directories known. -/
theorem step (h : Alike n δ s s') (hn : fuseRootInode ≤ n)
    (hdir : ∀ x ∈ c.admittedEntry m tombstones, ∀ p ∈ parentPath x.path,
      s'.1.2 p = (s.1.2 p).map (shift n δ))
    (hstep : batchStep m tombstones s c = some t) :
    ∃ t', batchStep m tombstones s' c = some t' ∧ Alike n δ t t' ∧
      ∀ p, (s'.1.2 p = (s.1.2 p).map (shift n δ) ∨ ∃ x ∈ c.admittedEntry m tombstones, x.path = p) →
        t'.1.2 p = (t.1.2 p).map (shift n δ) := by
  have hsteps := batchStep_iff.1 hstep
  have hsequenced := hsteps.sequenced h.sequenced
  cases hsteps with
  | skip hx hadm =>
    refine ⟨s', batchStep_iff.2 (.skip hx hadm), h, fun p hp => hp.resolve_right ?_⟩
    rintro ⟨x, hx', -⟩
    obtain ⟨hx', hadm'⟩ := admittedEntry_eq_some.1 hx'
    obtain rfl := Option.some.inj (hx'.symm.trans hx)
    rw [hadm] at hadm'
    cases hadm'
  | @upsert x i db hx hup =>
    have hparent := resolveParent hn (hdir x hx)
    obtain ⟨hsame, hrows⟩ := @Db.upsert_renumbered (shift n δ) _ _ (shift_injective n δ) h.rows
      m.mountId (x.toRefresh (Stratosync.resolveParent s.1.2 x.path) 0) x.itemId h.nextInode
    have hentry : upsertEntry m s'.1.2 0 s'.1.1 x = s'.1.1.upsertRemoteFileByIdOrPath m.mountId
        ((x.toRefresh (Stratosync.resolveParent s.1.2 x.path) 0).renumbered (shift n δ))
        x.itemId := by
      rw [upsertEntry, hparent]
      rfl
    rw [← hentry, show s.1.1.upsertRemoteFileByIdOrPath m.mountId _ x.itemId = (some i, db) from
      hup] at hsame hrows
    cases hagain : upsertEntry m s'.1.2 0 s'.1.1 x with
    | mk o db' =>
      rw [hagain] at hsame hrows
      obtain rfl : o = some (shift n δ i) := hsame
      refine ⟨_, batchStep_iff.2 (.upsert hx hagain),
        ⟨hrows, h.seq_of_upsert hup (hentry.symm.trans hagain), hsequenced.1,
          h.le.trans hsequenced.2, h.files⟩, fun p hp => ?_⟩
      dsimp only
      by_cases he : p = x.path
      · rw [he, Function.update_self, Function.update_self, Option.map_some]
      · rw [Function.update_of_ne he, Function.update_of_ne he]
        refine hp.resolve_right ?_
        rintro ⟨y, hy, hyp⟩
        obtain rfl := Option.some.inj (hx.symm.trans hy)
        exact he hyp.symm
  | @delete path itemId found db hc hdel =>
    subst hc
    rcases Db.deleteRemoteEntry_renumbered (shift_injective n δ) h.rows
      (h.deletedRow (m := m) path itemId) with ⟨hd, -⟩ | ⟨d, d', hd, hd', hfound, hrows⟩
    · rw [hd] at hdel
      cases hdel
    · obtain rfl := Option.some.inj (hd.symm.trans hdel)
      obtain ⟨found', db'⟩ := d'
      dsimp only at hfound hrows
      refine ⟨_, batchStep_iff.2 (.delete rfl hd'),
        ⟨hrows, ?_, hsequenced.1, h.le.trans hsequenced.2, fun p hp => ?_⟩,
        fun p hp => hp.resolve_right (by rintro ⟨x, hx, -⟩; cases hx)⟩
      · dsimp only
        rw [(Db.seq_deleteRemoteEntry hdel).2, (Db.seq_deleteRemoteEntry hd').2, h.seq]
      · dsimp only at hp ⊢
        rw [hfound] at hp
        rcases List.mem_append.1 hp with hp | hp
        · refine List.mem_append_left _ ?_
          cases found with
          | none => exact hp
          | some f => exact hp
        · exact List.mem_append_right _ (h.files p hp)

/-- **What is left of the batch runs over both indexes alike.** -/
theorem run {rest : List RemoteChange} {known : Str → Prop} (h : Alike n δ s s')
    (hn : fuseRootInode ≤ n) (hknown : ∀ p, known p → s'.1.2 p = (s.1.2 p).map (shift n δ))
    (hdirs : DirectoriesKnown m tombstones known rest)
    (hrun : Runs.run (batchStep m tombstones) s rest = some t) :
    ∃ t', Runs.run (batchStep m tombstones) s' rest = some t' ∧ Alike n δ t t' := by
  induction rest generalizing s s' known with
  | nil =>
    obtain rfl := Option.some.inj hrun
    exact ⟨s', rfl, h⟩
  | cons c rest ih =>
    obtain ⟨u, hu, hrest⟩ := run_cons_eq_some.1 hrun
    obtain ⟨u', hu', halike, hpaths⟩ :=
      h.step hn (fun x hx p hp => hknown p (hdirs.1 x hx p hp)) hu
    obtain ⟨t', ht', hdone⟩ :=
      ih halike (fun p hp => hpaths p (hp.imp_left (hknown p))) hdirs.2 hrest
    exact ⟨t', by rw [run_cons, hu', Option.bind_some, ht'], hdone⟩

/-- After the replay of the first changes the two polls agree. -/
theorem start {base : Db} {done : List RemoteChange} {paths : PathToInode}
    {files : List PathBuf} (hbase : base.Sequenced)
    (h : Repeated m tombstones base done [] s)
    (hnew : ∀ r ∈ s.1.1.fileIndex.rows, (base.getByInode r.inode).isSome = true) :
    Alike base.seq (s.1.1.seq - base.seq) ((base, paths), files) s := by
  obtain ⟨⟨f, new, hrows, hf, hfresh⟩, -, -, hfiles, -, hseq⟩ := h
  obtain rfl : new = [] := by
    refine List.eq_nil_iff_forall_not_mem.2 fun q hq => ?_
    have hsome := hnew q (hrows ▸ List.mem_append_right _ hq)
    rw [(hfresh q hq).1] at hsome
    cases hsome
  refine ⟨?_, (Nat.add_sub_cancel' hseq).symm, hbase, le_rfl, fun p hp => ?_⟩
  · rw [Db.Renumbered, hrows, List.append_nil, List.map_map]
    refine List.map_congr_left fun r hr => ?_
    have hi := shift_of_le (δ := s.1.1.seq - base.seq) (hbase.rows r hr)
    have hp : r.parent.map (shift base.seq (s.1.1.seq - base.seq)) = r.parent := by
      cases hp : r.parent with
      | none => rfl
      | some p => exact congrArg some (shift_of_le (hbase.parent_le hr hp))
    rw [Function.comp_apply, (hf r hr).2 (fun _ => by rintro ⟨_, hc, -⟩; cases hc),
      FileEntry.renumbered, hi, hp]
  · rw [hfiles] at hp
    cases hp

/-- Polls that agree list the same rows. -/
theorem sameListed (h : Alike n δ s s') {before : Db}
    (hbefore : ∀ r ∈ before.fileIndex.rows, r.inode ≤ n) :
    SameListed m before s.1.1 s'.1.1 := by
  constructor
  · intro path
    rcases Db.getByRemotePath_renumbered h.rows m.mountId path with ⟨hr, hq⟩ | ⟨r, q, hr, hq, he⟩
    · rw [hr, hq]
      rfl
    · have hup : (q.parent.bind s'.1.1.getByInode).map FileEntry.remotePath =
          (r.parent.bind s.1.1.getByInode).map FileEntry.remotePath := by
        rw [he.parent_eq]
        cases r.parent with
        | none => rfl
        | some p =>
          rw [Option.map_some, Option.bind_some, Option.bind_some]
          rcases Db.getByInode_renumbered (shift_injective n δ) h.rows p with
            ⟨ha, hb⟩ | ⟨a, b, ha, hb, hab⟩
          · rw [ha, hb]
          · rw [ha, hb, Option.map_some, Option.map_some, hab.remotePath_eq]
      rw [hr, hq, Option.map_some, Option.map_some, rowColumns, rowColumns, he.remotePath_eq,
        he.remoteItemId_eq, he.etag_eq, hup]
  · intro path r hr hsome q hq
    obtain ⟨b, hb⟩ := Option.isSome_iff_exists.1 hsome
    have hle := hbefore b (Db.mem_rows_of_getByInode hb)
    rw [Db.inode_of_getByInode hb] at hle
    rcases Db.getByRemotePath_renumbered h.rows m.mountId path with
      ⟨hr', -⟩ | ⟨r', q', hr', hq', he⟩
    · rw [hr'] at hr
      cases hr
    · obtain rfl := Option.some.inj (hr'.symm.trans hr)
      obtain rfl := Option.some.inj (hq'.symm.trans hq)
      rw [he.inode_eq, shift_of_le hle]

end Alike

/-! ## The replay -/

theorem sequenced_of_run {s t : (Db × PathToInode) × List PathBuf} {cs : List RemoteChange}
    (h : run (batchStep m tombstones) s cs = some t) (hs : s.1.1.Sequenced) :
    t.1.1.Sequenced ∧ s.1.1.seq ≤ t.1.1.seq :=
  inv_of_run (I := fun u => u.1.1.Sequenced ∧ s.1.1.seq ≤ u.1.1.seq) (G := fun _ _ => True)
    (fun _ _ _ hu _ hstep =>
      have hnext := (batchStep_iff.1 hstep).sequenced hu.1
      ⟨hnext.1, hu.2.trans hnext.2⟩)
    ⟨hs, le_rfl⟩ (guarded_of_forall (fun _ _ _ => trivial) _) h

/-- A row that is gone does not come back under its inode. -/
theorem getByInode_none_of_run {s t : (Db × PathToInode) × List PathBuf} {cs : List RemoteChange}
    (h : run (batchStep m tombstones) s cs = some t) {i : Inode} (hi : i ≤ s.1.1.seq)
    (hnone : s.1.1.getByInode i = none) : t.1.1.getByInode i = none := by
  have hstep : ∀ u (c : RemoteChange) v, (i ≤ u.1.1.seq ∧ u.1.1.getByInode i = none) → True →
      batchStep m tombstones u c = some v → i ≤ v.1.1.seq ∧ v.1.1.getByInode i = none := by
    rintro u c v ⟨hle, hgone⟩ - hv
    cases batchStep_iff.1 hv with
    | skip => exact ⟨hle, hgone⟩
    | @upsert x j db _ hup =>
      have hrows := rowsListed_applyRemote (.upsert m.mountId
        (x.toRefresh (resolveParent u.1.2 x.path) 0) x.itemId) u.1.1
      rw [Db.applyRemote, show u.1.1.upsertRemoteFileByIdOrPath m.mountId _ x.itemId = (some j, db)
        from hup] at hrows
      refine ⟨hle.trans hrows.seq, ?_⟩
      by_contra hsome
      obtain ⟨r, hr⟩ := Option.ne_none_iff_exists'.1 hsome
      rcases hrows.rows i r hr with ⟨q, hq, -⟩ | ⟨-, hlt, -⟩
      · rw [hgone] at hq
        cases hq
      · exact absurd hle (Nat.not_le.2 hlt)
    | delete _ hdel =>
      refine ⟨hle.trans (Db.seq_deleteRemoteEntry hdel).2.ge, ?_⟩
      dsimp only
      rw [deleteRemoteEntry_rows hdel fun _ hq => isUnsynced_of_deletedRow hq, hgone, ite_self]
  exact (inv_of_run (I := fun u => i ≤ u.1.1.seq ∧ u.1.1.getByInode i = none) hstep ⟨hi, hnone⟩
    (guarded_of_forall (fun _ _ _ => trivial) _) h).2

/-- **A replay that loses a row does something else**: where it comes to an index without a row
that was there before the batch and that the uninterrupted poll keeps. -/
theorem not_replayedAsOnce_of_lost {db crashed : Db} {done rest pre post : List RemoteChange}
    {s₁ s₂ u : (Db × PathToInode) × List PathBuf} (hdb : db.Sequenced)
    (hdone : run (batchStep m tombstones) (startOf m db, []) done = some s₁)
    (hcrash : Crashed m tombstones s₁.1 rest crashed)
    (hrest : run (batchStep m tombstones) s₁ rest = some s₂) (hbatch : done ++ rest = pre ++ post)
    (hu : run (batchStep m tombstones) (startOf m crashed, []) pre = some u) {r : FileEntry}
    (hbefore : (db.getByInode r.inode).isSome = true)
    (hkept : s₂.1.1.getByInode r.inode = some r) (hm : r.mountId = m.mountId)
    (hlost : u.1.1.getByInode r.inode = none) :
    ¬ReplayedAsOnce m tombstones db done rest crashed := by
  intro h
  obtain ⟨s₃, hs₃, hsame, -⟩ := h s₁ s₂ hdone hcrash hrest
  rw [hbatch, run_append, hu, Option.bind_some] at hs₃
  obtain ⟨hs, hle⟩ := sequenced_of_run hdone hdb
  obtain ⟨hcrashed, hseq⟩ := hcrash.sequenced hs
  have hi : r.inode ≤ u.1.1.seq := by
    obtain ⟨b, hb⟩ := Option.isSome_iff_exists.1 hbefore
    rw [← Db.inode_of_getByInode hb]
    exact (hdb.rows b (Db.mem_rows_of_getByInode hb)).trans
      (hle.trans (hseq.ge.trans (sequenced_of_run hu hcrashed).2))
  have hgone := getByInode_none_of_run hs₃ hi hlost
  have hat : s₂.1.1.getByRemotePath m.mountId r.remotePath = some r :=
    Db.getByRemotePath_eq_some.2 ⟨hkept, hm, rfl⟩
  have hcolumns := hsame.columns r.remotePath
  rw [hat] at hcolumns
  obtain ⟨q, hq, -⟩ := Option.map_eq_some_iff.1 hcolumns.symm
  have hqi := hsame.inode r.remotePath r hat hbefore q hq
  rw [← hqi, (Db.getByRemotePath_spec hq).1] at hgone
  cases hgone

/-! ## A batch that replays, and one that does not -/

instance (db : Db) (mountId : ℕ) (x : Refresh) (itemId : Option Str) :
    Decidable (db.Acceptable mountId x itemId) :=
  decidable_of_iff ((db.getByInode x.parent).isSome = true ∧
      (∀ c ∈ db.fileIndex.rows, c.mountId = mountId → c.parent = some x.parent →
        c.name = x.name → c.remotePath = x.remotePath ∨
          ∃ t ∈ db.upsertTarget mountId x itemId, t.inode = c.inode) ∧
      (∀ r ∈ itemId.bind (db.getByItemId mountId), r.remotePath ≠ x.remotePath →
        ∀ d ∈ db.getByRemotePath mountId x.remotePath,
          (db.deleteEntry d.inode).isSome = true ∧ d.inode ≠ x.parent) ∧
      ∀ t ∈ db.upsertTarget mountId x itemId, x.kind = .file →
        t.status.isUnsynced = true → t.cachePath.isSome = true)
    ⟨fun ⟨h₁, h₂, h₃, h₄⟩ => ⟨h₁, h₂, h₃, h₄⟩, fun h => ⟨h.1, h.2, h.3, h.4⟩⟩

instance decidableUpsertSpares (m : Mount) (tombstones : List Str) (crashed : Db)
    (later : List RemoteChange) (s : Db × PathToInode) (x : RemoteMetadata) :
    Decidable (UpsertSpares m tombstones crashed later s x) :=
  decidable_of_iff (_ ∧ _ ∧ _ ∧ _)
    ⟨fun ⟨h₁, h₂, h₃, h₄⟩ => ⟨h₁, h₂, h₃, h₄⟩, fun h => ⟨h.1, h.2, h.3, h.4⟩⟩

instance decidableSpares (m : Mount) (tombstones : List Str) (crashed : Db)
    (later : List RemoteChange) (s : Db × PathToInode) : (c : RemoteChange) →
      Decidable (Spares m tombstones crashed later s c)
  | .added _ | .modified _ _ => inferInstanceAs (Decidable (_ = true → UpsertSpares ..))
  | .deleted path itemId => inferInstanceAs
      (Decidable (∀ r ∈ s.1.deletedRow m.mountId path itemId, _ ∧ _))

instance decidableReplays (m : Mount) (tombstones : List Str) (crashed : Db) :
    (s : Db × PathToInode) → (cs : List RemoteChange) →
      Decidable (Replays m tombstones crashed s cs)
  | s, [] => inferInstanceAs
      (Decidable (∀ r ∈ s.1.fileIndex.rows, (crashed.getByInode r.inode).isSome = true))
  | s, c :: later =>
    have : Decidable (∀ s', changeStep m tombstones s c = some s' →
        Replays m tombstones crashed s' later) :=
      match changeStep m tombstones s c with
      | none => .isTrue fun _ h' => nomatch h'
      | some t =>
        @decidable_of_iff _ (Replays m tombstones crashed t later)
          ⟨fun hg _ h' => Option.some.inj h' ▸ hg, fun hg => hg t rfl⟩
          (decidableReplays m tombstones crashed t later)
    inferInstanceAs (Decidable (_ ∧ _))

instance decidableDirectoriesKnown (m : Mount) (tombstones : List Str) :
    (known : Str → Prop) → [DecidablePred known] → (cs : List RemoteChange) →
      Decidable (DirectoriesKnown m tombstones known cs)
  | _, _, [] => .isTrue trivial
  | known, _, c :: later =>
    have := decidableDirectoriesKnown m tombstones
      (fun p => known p ∨ ∃ x ∈ c.admittedEntry m tombstones, x.path = p) later
    inferInstanceAs (Decidable (_ ∧ _))

/-- The index after some changes to an empty one. -/
def indexAfter (cs : List RemoteChange) : Db :=
  ((run (changeStep sampleMount []) (startOf sampleMount (Db.empty 1 0)) cs).map Prod.fst).getD
    (Db.empty 1 0)

/-- Two files. -/
def twoReported : List RemoteChange :=
  [.added (reportedItem ['a'] ['x']), .added (reportedItem ['b'] ['y'])]

/-- The first of them is deleted, a directory comes with a file in it, another file comes and goes,
and the second of the two is renamed. -/
def manyChanges : List RemoteChange :=
  [.deleted ['a'] (some ['x']), .added { reportedItem ['d'] ['q'] with isDir := true },
    .added { reportedItem ['d', '/', 'n'] ['n'] with name := ['n'] },
    .added (reportedItem ['t'] ['t']), .deleted ['t'] (some ['t']),
    .modified (reportedItem ['e'] ['y']) none]

/-- What comes after them: another file in the directory, and the deletion of the first. -/
def moreChanges : List RemoteChange :=
  [.added { reportedItem ['d', '/', 'o'] ['o'] with name := ['o'] },
    .deleted ['d', '/', 'n'] (some ['n'])]

/-- The index the crash leaves. -/
def afterMany : Db :=
  ((run (changeStep sampleMount []) (startOf sampleMount (indexAfter twoReported))
    manyChanges).map Prod.fst).getD (Db.empty 1 0)

/-- A file `a` is deleted and `b` renamed to it. -/
def renamedOver : List RemoteChange :=
  [.deleted ['a'] (some ['x']), .added (reportedItem ['a'] ['y'])]

end Stratosync

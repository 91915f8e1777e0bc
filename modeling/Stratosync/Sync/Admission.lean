import Stratosync.Fuse.Listing
import Stratosync.State.Upserts
import Stratosync.Daemon.Step
import Stratosync.Sync.Changes
import Mathlib.Data.List.Infix

/-!
# The filters of the listing routes

Rows enter the index from the remote on four routes: a full poll, a delta poll, the listing of a
directory and the prefetch of its child directories. The two polls leave out what the selective
sync patterns match, what a tombstone covers, the conflict namespace and the unsafe paths. A
listing only knows the tombstones beside a check of the child's own name, a prefetch only that
check. `admitAlike_iff` says for which entries this makes no difference.
-/

namespace Stratosync

/-- The routes on which rows enter the index from the remote. -/
inductive ListingRoute
  | poll
  | delta
  | populate
  | prefetch
  deriving DecidableEq, Repr

/-- A child of the directory `dir` as the recursive listings and the feeds report it. -/
def RemoteMetadata.below (x : RemoteMetadata) (dir : Str) : RemoteMetadata :=
  { x with path := joinRemote dir x.name }

@[simp] theorem RemoteMetadata.below_path (x : RemoteMetadata) (dir : Str) :
    (x.below dir).path = joinRemote dir x.name := rfl

@[simp] theorem RemoteMetadata.below_name (x : RemoteMetadata) (dir : Str) :
    (x.below dir).name = x.name := rfl

namespace ListingRoute

variable (m : Mount) (tombstones : List Str) (dir : FileEntry) (x : RemoteMetadata)

/-- The child `x` of `dir`, which has no row, passes the filter of the route. -/
def admits : ListingRoute → Bool
  | poll => verdict m tombstones (fun _ => none) (x.below dir.remotePath) = .upsert
  | delta => admitted m tombstones (x.below dir.remotePath)
  | populate => !(listedEntries tombstones dir [x]).isEmpty
  | prefetch => !(listedEntries [] dir [x]).isEmpty

/-- What the route makes of the index when `x` is all it is given, and whether the database
accepted its writes. -/
def index (paths : PathToInode) (generation : ℕ) (db : Db) : ListingRoute → Bool × Db
  | poll =>
    match toUpsert m tombstones (db.snapshotRemoteIndex m.mountId) [x.below dir.remotePath] with
    | y :: _ => (upsertEntry m paths generation db y).map Option.isSome id
    | [] => (true, db)
  | delta => (applyChange m tombstones db paths (.added (x.below dir.remotePath))).map
      Option.isSome id
  | populate =>
    db.batchUpsertRemoteFilesGen m.mountId dir.inode (listedEntries tombstones dir [x]) 0
  | prefetch => db.batchUpsertRemoteFilesGen m.mountId dir.inode (listedEntries [] dir [x]) 0

end ListingRoute

/-- The path is ignored, tombstoned, inside the conflict namespace or unsafe. -/
def excluded (m : Mount) (tombstones : List Str) (x : RemoteMetadata) : Bool :=
  m.ignore x.path || tombstoned tombstones x.path || inConflictNamespace x.path || unsafeEntry x

/-- **The routes agree on the entry, and none of them admits an excluded path.** -/
def AdmitAlike (m : Mount) (tombstones : List Str) (dir : FileEntry) (x : RemoteMetadata) : Prop :=
  (∀ route, ListingRoute.admits m tombstones dir x route = true →
    excluded m tombstones (x.below dir.remotePath) = false) ∧
  ∀ route route', ListingRoute.admits m tombstones dir x route =
    ListingRoute.admits m tombstones dir x route'

/-! ## Names and the paths that end in them -/

theorem suffix_joinRemote (dir name : Str) : name <:+ joinRemote dir name := by
  simp only [joinRemote]
  split
  · exact List.suffix_rfl
  · exact (List.suffix_cons _ _).trans (List.suffix_append _ _)

theorem containsDotDot_of_suffix {name path : Str} (hs : name <:+ path)
    (h : containsDotDot name = true) : containsDotDot path = true := by
  rw [containsDotDot, List.any_eq_true] at h ⊢
  obtain ⟨t, ht, hdots⟩ := h
  exact ⟨t, (List.mem_tails t path).2 (((List.mem_tails t name).1 ht).trans hs), hdots⟩

/-- A child whose path is safe has a safe name. -/
theorem safeListedName_of_safe {x : RemoteMetadata} {dir : Str}
    (h : unsafeEntry (x.below dir) = false) : safeListedName x.name = true := by
  have hsuffix := suffix_joinRemote dir x.name
  simp only [unsafeEntry, RemoteMetadata.below_path, RemoteMetadata.below_name,
    Bool.or_eq_false_iff] at h
  obtain ⟨⟨hdots, hnul⟩, hslash⟩ := h
  have hdots' : containsDotDot x.name = false := by
    by_contra hn
    rw [containsDotDot_of_suffix hsuffix (by simpa using hn)] at hdots
    cases hdots
  have hnul' : x.name.contains '\x00' = false := by
    by_contra hn
    have hmem := hsuffix.subset (List.contains_iff_mem.1 (by simpa using hn))
    rw [List.contains_iff_mem.2 hmem] at hnul
    cases hnul
  rw [safeListedName, hdots', hnul', hslash]
  rfl

/-! ## The four filters -/

section Filters

variable (m : Mount) (tombstones : List Str) (dir : FileEntry) (x : RemoteMetadata)

theorem admits_poll : ListingRoute.admits m tombstones dir x .poll =
    !excluded m tombstones (x.below dir.remotePath) := by
  rw [ListingRoute.admits, verdict, excluded]
  cases unsafeEntry (x.below dir.remotePath) <;>
    cases inConflictNamespace (x.below dir.remotePath).path <;>
    cases tombstoned tombstones (x.below dir.remotePath).path <;>
    cases m.ignore (x.below dir.remotePath).path <;> rfl

theorem admits_delta : ListingRoute.admits m tombstones dir x .delta =
    !excluded m tombstones (x.below dir.remotePath) := by
  rw [ListingRoute.admits, admitted, excluded]
  cases unsafeEntry (x.below dir.remotePath) <;>
    cases inConflictNamespace (x.below dir.remotePath).path <;>
    cases tombstoned tombstones (x.below dir.remotePath).path <;>
    cases m.ignore (x.below dir.remotePath).path <;> rfl

theorem admits_populate : ListingRoute.admits m tombstones dir x .populate =
    (safeListedName x.name && !tombstoned tombstones (joinRemote dir.remotePath x.name)) := by
  rw [ListingRoute.admits, listedEntries, tombstoned, List.filter_singleton]
  cases safeListedName x.name <;>
    cases tombstones.any (atOrBelow · (joinRemote dir.remotePath x.name)) <;> rfl

theorem admits_prefetch :
    ListingRoute.admits m tombstones dir x .prefetch = safeListedName x.name := by
  rw [ListingRoute.admits, listedEntries, List.filter_singleton]
  cases safeListedName x.name <;> rfl

end Filters

/-! ## What the filters decide -/

section Index

variable {m : Mount} {tombstones : List Str} {dir : FileEntry} {x : RemoteMetadata}
  {paths : PathToInode} {generation : ℕ} {db : Db}

/-- A batch of one entry writes it, or it is refused and nothing is written. -/
theorem batchUpsert_singleton (e : ListedEntry) :
    db.batchUpsertRemoteFilesGen m.mountId dir.inode [e] 0 =
      match db.upsertByPath m.mountId (e.toRefresh dir.inode 0) none with
      | some db' => (true, db')
      | none => (false, db) := by
  rw [Db.batchUpsertRemoteFilesGen, show chunks 1000 [e] = [[e]] from rfl, Db.upsertChunks,
    Db.upsertChunk, List.foldlM_cons]
  cases db.upsertByPath m.mountId (e.toRefresh dir.inode 0) none <;> rfl

theorem toUpsert_singleton (snap : Snapshot) (y : RemoteMetadata) :
    toUpsert m tombstones snap [y] = if verdict m tombstones snap y = .upsert then [y] else [] := by
  rw [toUpsert, List.filter_singleton]
  split <;> simp_all

/-- The verdict on an entry without a row. -/
theorem verdict_of_no_row
    (hnone : db.getByRemotePath m.mountId (joinRemote dir.remotePath x.name) = none) :
    verdict m tombstones (db.snapshotRemoteIndex m.mountId) (x.below dir.remotePath) =
      verdict m tombstones (fun _ => none) (x.below dir.remotePath) := by
  have hsnap : db.snapshotRemoteIndex m.mountId (x.below dir.remotePath).path = none := by
    rw [Db.snapshotRemoteIndex, RemoteMetadata.below_path, hnone, Option.map_none]
  rw [verdict, verdict, hsnap]

/-- A route that does not admit an entry leaves the index as it is. -/
theorem index_of_not_admits {route : ListingRoute}
    (hnone : db.getByRemotePath m.mountId (joinRemote dir.remotePath x.name) = none)
    (h : ListingRoute.admits m tombstones dir x route = false) :
    ListingRoute.index m tombstones dir x paths generation db route = (true, db) := by
  cases route with
  | poll =>
    rw [ListingRoute.admits, decide_eq_false_iff_not, ← verdict_of_no_row hnone] at h
    rw [ListingRoute.index, toUpsert_singleton, if_neg h]
  | delta =>
    rw [ListingRoute.admits] at h
    rw [ListingRoute.index, applyChange, h]
    rfl
  | populate =>
    rw [ListingRoute.admits, Bool.not_eq_false', List.isEmpty_iff] at h
    rw [ListingRoute.index, h]
    rfl
  | prefetch =>
    rw [ListingRoute.admits, Bool.not_eq_false', List.isEmpty_iff] at h
    rw [ListingRoute.index, h]
    rfl

theorem upsertEntry_indexes {y : RemoteMetadata} {g : ℕ}
    (h : (upsertEntry m paths g db y).1.isSome = true) :
    ((upsertEntry m paths g db y).2.getByRemotePath m.mountId y.path).isSome = true := by
  cases hcall : upsertEntry m paths g db y with
  | mk o db' =>
    rw [hcall] at h
    obtain ⟨i, rfl⟩ := Option.isSome_iff_exists.1 h
    rw [upsertEntry] at hcall
    obtain ⟨r, -, hr⟩ := (Db.upsert_outcome hcall).getByRemotePath_written
    exact Option.isSome_iff_exists.2 ⟨r, hr⟩

/-- The entry of a listing that has one. -/
theorem listedEntries_singleton {ts : List Str} (h : (listedEntries ts dir [x]).isEmpty = false) :
    ∃ e, listedEntries ts dir [x] = [e] ∧ e.remotePath = joinRemote dir.remotePath x.name ∧
      e.etag = x.etag := by
  rw [listedEntries, List.filter_singleton] at h ⊢
  cases hpass : safeListedName x.name &&
      !ts.any fun t => atOrBelow t (joinRemote dir.remotePath x.name) with
  | true => exact ⟨_, by rw [cond_true]; rfl, rfl, rfl⟩
  | false =>
    rw [hpass] at h
    cases h

/-- A route that admits an entry without a row gives it one, unless the database refuses. -/
theorem row_of_admits {route : ListingRoute}
    (hnone : db.getByRemotePath m.mountId (joinRemote dir.remotePath x.name) = none)
    (h : ListingRoute.admits m tombstones dir x route = true)
    (hok : (ListingRoute.index m tombstones dir x paths generation db route).1 = true) :
    ((ListingRoute.index m tombstones dir x paths generation db route).2.getByRemotePath m.mountId
      (joinRemote dir.remotePath x.name)).isSome = true := by
  have hbatch : ∀ ts : List Str, (listedEntries ts dir [x]).isEmpty = false →
      (db.batchUpsertRemoteFilesGen m.mountId dir.inode (listedEntries ts dir [x]) 0).1 = true →
      ((db.batchUpsertRemoteFilesGen m.mountId dir.inode
        (listedEntries ts dir [x]) 0).2.getByRemotePath m.mountId
          (joinRemote dir.remotePath x.name)).isSome = true := by
    intro ts hne hok
    obtain ⟨e, he, hpath, -⟩ := listedEntries_singleton hne
    rw [he, batchUpsert_singleton] at hok ⊢
    cases hup : db.upsertByPath m.mountId (e.toRefresh dir.inode 0) none with
    | none =>
      rw [hup] at hok
      cases hok
    | some db' =>
      rw [← hpath]
      exact Db.getByRemotePath_isSome_of_upsertByPath hup
  cases route with
  | poll =>
    rw [ListingRoute.admits, decide_eq_true_iff, ← verdict_of_no_row hnone] at h
    rw [ListingRoute.index, toUpsert_singleton, if_pos h] at hok ⊢
    exact upsertEntry_indexes hok
  | delta =>
    rw [ListingRoute.admits] at h
    rw [ListingRoute.index, applyChange, if_pos h] at hok ⊢
    cases hcall : upsertEntry m paths 0 db (x.below dir.remotePath) with
    | mk o db' =>
      rw [hcall] at hok
      cases o with
      | none => cases hok
      | some i =>
        have hsome : (upsertEntry m paths 0 db (x.below dir.remotePath)).1.isSome = true := by
          rw [hcall]
          rfl
        have hrow := upsertEntry_indexes hsome
        rw [hcall] at hrow
        exact hrow
  | populate => exact hbatch tombstones (by simpa [ListingRoute.admits] using h) hok
  | prefetch => exact hbatch [] (by simpa [ListingRoute.admits] using h) hok

end Index

variable {m : Mount} {tombstones : List Str} {dir : FileEntry} {x : RemoteMetadata}

/-- **Where the four filters come to the same**: for the entries whose own name fails the check of
the listings, and for those whose path is not excluded. -/
theorem admitAlike_iff (m : Mount) (tombstones : List Str) (dir : FileEntry) (x : RemoteMetadata) :
    AdmitAlike m tombstones dir x ↔
      (safeListedName x.name = true → excluded m tombstones (x.below dir.remotePath) = false) := by
  constructor
  · intro h hname
    exact h.1 .prefetch ((admits_prefetch m tombstones dir x).trans hname)
  · intro h
    cases hex : excluded m tombstones (x.below dir.remotePath) with
    | true =>
      have hname : safeListedName x.name = false := by
        by_contra hn
        rw [h (by simpa using hn)] at hex
        cases hex
      have hno : ∀ route, ListingRoute.admits m tombstones dir x route = false := by
        intro route
        cases route with
        | poll => rw [admits_poll, hex, Bool.not_true]
        | delta => rw [admits_delta, hex, Bool.not_true]
        | populate => rw [admits_populate, hname, Bool.false_and]
        | prefetch => rw [admits_prefetch, hname]
      refine ⟨fun route hr => ?_, fun route route' => (hno route).trans (hno route').symm⟩
      rw [hno route] at hr
      cases hr
    | false =>
      have hunsafe : unsafeEntry (x.below dir.remotePath) = false := by
        simp only [excluded, Bool.or_eq_false_iff] at hex
        exact hex.2
      have htomb : tombstoned tombstones (joinRemote dir.remotePath x.name) = false := by
        simp only [excluded, Bool.or_eq_false_iff] at hex
        exact hex.1.1.2
      have hname := safeListedName_of_safe hunsafe
      have hall : ∀ route, ListingRoute.admits m tombstones dir x route = true := by
        intro route
        cases route with
        | poll => rw [admits_poll, hex, Bool.not_false]
        | delta => rw [admits_delta, hex, Bool.not_false]
        | populate => rw [admits_populate, hname, htomb, Bool.not_false, Bool.and_true]
        | prefetch => rw [admits_prefetch, hname]
      exact ⟨fun _ _ => hex, fun route route' => (hall route).trans (hall route').symm⟩

/-- A file `a` in the root. -/
def listedChild : RemoteMetadata :=
  { path := ['a'], name := ['a'], size := 1, mtime := 0, isDir := false, etag := none
    itemId := none }

/-- A mount that ignores the file `a`. -/
def ignoringMount : Mount := { sampleMount with ignore := fun path => path = ['a'] }

/-- The listing of the root admits the ignored file. -/
theorem not_admitAlike_ignored :
    ¬∀ (m : Mount) (tombstones : List Str) (dir : FileEntry) (x : RemoteMetadata),
      AdmitAlike m tombstones dir x := by
  intro h
  have hadmits :
      ListingRoute.admits ignoringMount [] (rootEntry 1) listedChild .populate = true := by
    decide
  have hex := (h ignoringMount [] (rootEntry 1) listedChild).1 .populate hadmits
  exact absurd hex (by decide)

end Stratosync

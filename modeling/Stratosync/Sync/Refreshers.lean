import Stratosync.Sync.Admission

/-!
# What makes a row stale

A row is refreshed by the listing of its directory, by a delta change and by a full poll. The two
upserts make every row stale that has no local edit, whether or not anything has changed; a full
poll first compares etag and size with the row, and the etags of the two sides come from `lsjson`
or from a delta feed, which may name one content differently. `refreshersAgree_iff` says when the
routes nevertheless leave a row with the same status, and with the right one.
-/

namespace Stratosync

/-! ## What the producers report -/

/-- An entry that `rclone lsjson` prints. A time it cannot read is `none`. -/
structure RcloneLsJsonEntry where
  path : Str
  name : Str
  size : ℤ
  modTime : Option ℕ
  isDir : Bool
  hashes : Option (List (Str × Str))
  id : Option Str
  deriving DecidableEq, Repr

namespace RcloneLsJsonEntry

variable (e : RcloneLsJsonEntry)

/-- The hash that stands for the content: SHA-1 before MD5 before quickXor. -/
def contentHash : Option Str :=
  e.hashes.bind fun h =>
    h.lookup "sha1".toList <|> h.lookup "SHA-1".toList <|> h.lookup "md5".toList <|>
      h.lookup "MD5".toList <|> h.lookup "quickxor".toList

/-- `RemoteMetadata::try_from`: the etag is a content hash, or else the id. -/
def toMetadata : RemoteMetadata where
  path := e.path
  name := e.name
  size := e.size.toNat
  mtime := e.modTime.getD 0
  isDir := e.isDir
  etag := e.contentHash <|> e.id
  itemId := e.id

end RcloneLsJsonEntry

/-- A version of a remote object: its content, what `lsjson` prints for it and what the delta feed
reports. -/
structure ObjectVersion where
  data : Bytes
  listed : RcloneLsJsonEntry
  fed : RemoteMetadata
  deriving DecidableEq, Repr

/-- What wrote the etag of a row: a refresh, or the `stat` after an upload. -/
inductive EtagSource
  | refresh (route : ListingRoute)
  | upload
  deriving DecidableEq, Repr

namespace ObjectVersion

variable (v : ObjectVersion)

/-- The metadata a route has of a version. -/
def seenBy : ListingRoute → RemoteMetadata
  | .delta => v.fed
  | .poll | .populate | .prefetch => v.listed.toMetadata

/-- The metadata that were recorded in a row. -/
def recordedBy : EtagSource → RemoteMetadata
  | .refresh route => v.seenBy route
  | .upload => v.listed.toMetadata

end ObjectVersion

/-! ## A row and the object at its path -/

/-- A row, recorded from the version `recorded`, and the version `current` that is now at its path
and that every route reports. No filter leaves the object out, its item id is that of no other row,
and the database accepts what each route writes. -/
structure RefreshCase (m : Mount) where
  db : Db
  tombstones : List Str
  dir : FileEntry
  paths : PathToInode
  generation : ℕ
  row : FileEntry
  source : EtagSource
  recorded : ObjectVersion
  current : ObjectVersion
  fed_name : current.fed.name = current.listed.name
  row_eq : db.getByRemotePath m.mountId (joinRemote dir.remotePath current.listed.name) = some row
  etag_eq : row.etag = (recorded.recordedBy source).etag
  size_eq : row.size = (recorded.recordedBy source).size
  admitted : ∀ route,
    excluded m tombstones ((current.seenBy route).below dir.remotePath) = false
  itemId_eq : ∀ route, ∀ q ∈ (current.seenBy route).itemId.bind (db.getByItemId m.mountId), q = row
  accepted : ∀ route, (ListingRoute.index m tombstones dir (current.seenBy route) paths generation
    db route).1 = true

namespace RefreshCase

variable {m : Mount} (c : RefreshCase m)

/-- The status a route leaves the row with. -/
def status (route : ListingRoute) : Option SyncStatus :=
  ((ListingRoute.index m c.tombstones c.dir (c.current.seenBy route) c.paths c.generation c.db
    route).2.getByInode c.row.inode).map FileEntry.status

/-- The row records the etag and the size `lsjson` reports now. -/
def SameName : Prop :=
  (c.recorded.recordedBy c.source).etag = c.current.listed.toMetadata.etag ∧
    (c.recorded.recordedBy c.source).size = c.current.listed.toMetadata.size

instance : Decidable c.SameName := inferInstanceAs (Decidable (_ ∧ _))

/-- **The routes agree on the status, a cached row stays cached when its object has not changed
and becomes stale when it has.** -/
structure Agree : Prop where
  same : ∀ route route', c.status route = c.status route'
  unchanged : c.row.status = .cached → c.recorded.data = c.current.data →
    ∀ route, c.status route = some .cached
  changed : c.row.status = .cached → c.recorded.data ≠ c.current.data →
    ∀ route, c.status route = some .stale

end RefreshCase

/-! ## The status each route leaves -/

/-- The routes see a child of the same name. -/
theorem RefreshCase.seenBy_name {m : Mount} (c : RefreshCase m) (route : ListingRoute) :
    (c.current.seenBy route).name = c.current.listed.name := by
  cases route with
  | delta => exact c.fed_name
  | poll | populate | prefetch => rfl

/-- An upsert of the entry at a row's path makes the row stale, unless it has a local edit. -/
theorem status_of_upsertEntry {m : Mount} {paths : PathToInode} {g : ℕ} {db db' : Db}
    {y : RemoteMetadata} {row : FileEntry} {i : Inode}
    (hrow : db.getByRemotePath m.mountId y.path = some row)
    (hid : ∀ q ∈ y.itemId.bind (db.getByItemId m.mountId), q = row)
    (h : upsertEntry m paths g db y = (some i, db')) :
    (db'.getByInode row.inode).map FileEntry.status = some row.status.refreshed := by
  rw [upsertEntry] at h
  cases Db.upsert_outcome h with
  | inserted _ hpath =>
    have hpath : db.getByRemotePath m.mountId y.path = none := hpath
    rw [hrow] at hpath
    cases hpath
  | @refreshed r _ hpath hrows =>
    obtain rfl := Option.some.inj (hrow.symm.trans hpath)
    rw [hrows, if_pos rfl]
    rfl
  | @moved r hfound hrows =>
    obtain rfl := hid r hfound
    rw [hrows, if_pos rfl]
    rfl

/-- So does the listing of its directory. -/
theorem status_of_batchUpsert {m : Mount} {dir : FileEntry} {db : Db} {x : RemoteMetadata}
    {ts : List Str} {row : FileEntry}
    (hrow : db.getByRemotePath m.mountId (joinRemote dir.remotePath x.name) = some row)
    (hlisted : (listedEntries ts dir [x]).isEmpty = false)
    (hok : (db.batchUpsertRemoteFilesGen m.mountId dir.inode (listedEntries ts dir [x]) 0).1 =
      true) :
    ((db.batchUpsertRemoteFilesGen m.mountId dir.inode (listedEntries ts dir [x]) 0).2.getByInode
      row.inode).map FileEntry.status = some row.status.refreshed := by
  obtain ⟨e, he, hpath, -⟩ := listedEntries_singleton hlisted
  rw [he, batchUpsert_singleton] at hok ⊢
  cases hup : db.upsertByPath m.mountId (e.toRefresh dir.inode 0) none with
  | none =>
    rw [hup] at hok
    cases hok
  | some db' =>
    dsimp only
    rcases Db.upsertByPath_cases hup with ⟨r, hr, hmap⟩ | ⟨hnone, -⟩
    · have hr : db.getByRemotePath m.mountId e.remotePath = some r := hr
      rw [hpath] at hr
      obtain rfl := Option.some.inj (hrow.symm.trans hr)
      rw [hmap.of_some (Db.getByRemotePath_spec hrow).1, if_pos rfl]
      rfl
    · have hnone : db.getByRemotePath m.mountId e.remotePath = none := hnone
      rw [hpath, hrow] at hnone
      cases hnone

/-- The verdict of a full poll on an entry it does not filter and that has a row. -/
theorem verdict_of_row {m : Mount} {tombstones : List Str} {db : Db} {y : RemoteMetadata}
    {row : FileEntry} (hex : excluded m tombstones y = false)
    (hrow : db.getByRemotePath m.mountId y.path = some row) :
    verdict m tombstones (db.snapshotRemoteIndex m.mountId) y =
      if row.etag = y.etag ∧ row.size = y.size then .unchanged row.inode else .upsert := by
  have hsnap : db.snapshotRemoteIndex m.mountId y.path = some ⟨row.inode, row.etag, row.size⟩ := by
    rw [Db.snapshotRemoteIndex, hrow, Option.map_some]
  simp only [excluded, Bool.or_eq_false_iff] at hex
  obtain ⟨⟨⟨hignore, htomb⟩, hconf⟩, hsafe⟩ := hex
  simp [verdict, hsafe, hconf, htomb, hignore, hsnap]

namespace RefreshCase

variable {m : Mount} (c : RefreshCase m)

theorem row_at (route : ListingRoute) : c.db.getByRemotePath m.mountId
    ((c.current.seenBy route).below c.dir.remotePath).path = some c.row := by
  rw [RemoteMetadata.below_path, c.seenBy_name]
  exact c.row_eq

theorem listed_nonempty {route : ListingRoute} {ts : List Str} (hts : ∀ t ∈ ts, t ∈ c.tombstones) :
    (listedEntries ts c.dir [c.current.seenBy route]).isEmpty = false := by
  have hex := c.admitted route
  simp only [excluded, Bool.or_eq_false_iff] at hex
  have hname := safeListedName_of_safe hex.2
  have htomb : (ts.any fun t => atOrBelow t
      (joinRemote c.dir.remotePath (c.current.seenBy route).name)) = false := by
    rw [List.any_eq_false]
    exact fun t ht => by simpa using List.any_eq_false.1 hex.1.1.2 t (hts t ht)
  rw [listedEntries, List.filter_singleton, hname, htomb]
  rfl

/-- **The status each route leaves**: a full poll keeps that of a row it finds unchanged, and
everything else makes a row without a local edit stale. -/
theorem status_eq (route : ListingRoute) :
    c.status route =
      some (if route = .poll ∧ c.SameName then c.row.status else c.row.status.refreshed) := by
  have hok := c.accepted route
  have hrow := c.row_at route
  have hid := c.itemId_eq route
  rw [status]
  cases route with
  | poll =>
    have hverdict : verdict m c.tombstones (c.db.snapshotRemoteIndex m.mountId)
        ((c.current.seenBy .poll).below c.dir.remotePath) =
          if c.SameName then .unchanged c.row.inode else .upsert := by
      rw [verdict_of_row (c.admitted .poll) hrow, c.etag_eq, c.size_eq]
      rfl
    simp only [ListingRoute.index, toUpsert_singleton, hverdict] at hok ⊢
    by_cases hsame : c.SameName
    · simp only [hsame, and_self, if_true]
      rw [if_neg (by simp), (Db.getByRemotePath_spec hrow).1]
      rfl
    · simp only [if_neg hsame, if_true] at hok ⊢
      rw [if_neg fun h => hsame h.2]
      cases hcall : upsertEntry m c.paths c.generation c.db
          ((c.current.seenBy .poll).below c.dir.remotePath) with
      | mk o db' =>
        rw [hcall] at hok
        obtain ⟨i, rfl⟩ := Option.isSome_iff_exists.1 (show o.isSome = true from hok)
        exact status_of_upsertEntry hrow hid hcall
  | delta =>
    have hadm : Stratosync.admitted m c.tombstones
        ((c.current.seenBy .delta).below c.dir.remotePath) = true := by
      rw [← ListingRoute.admits, admits_delta, c.admitted .delta, Bool.not_false]
    simp only [ListingRoute.index, applyChange, if_pos hadm] at hok ⊢
    rw [if_neg (by simp)]
    cases hcall : upsertEntry m c.paths 0 c.db
        ((c.current.seenBy .delta).below c.dir.remotePath) with
    | mk o db' =>
      rw [hcall] at hok
      cases o with
      | none => cases hok
      | some i => exact status_of_upsertEntry hrow hid hcall
  | populate =>
    rw [if_neg (by simp)]
    exact status_of_batchUpsert hrow (c.listed_nonempty fun _ ht => ht) hok
  | prefetch =>
    rw [if_neg (by simp)]
    exact status_of_batchUpsert hrow (c.listed_nonempty (by simp)) hok

/-- **When the routes agree, and rightly**: for a row that is dirty, uploading or stale already,
and for one whose etag or size is not what `lsjson` reports now, unless it is a cached row of an
object that has the same content. -/
theorem agree_iff (m : Mount) (c : RefreshCase m) :
    c.Agree ↔ c.row.status.refreshed = c.row.status ∨
      (¬c.SameName ∧ (c.row.status = .cached → c.recorded.data ≠ c.current.data)) := by
  have hpopulate : c.status .populate = some c.row.status.refreshed := by
    rw [c.status_eq, if_neg (by simp)]
  have hcached : c.row.status = .cached → c.row.status.refreshed = .stale := by
    intro h
    rw [h]
    rfl
  constructor
  · intro h
    by_cases hfix : c.row.status.refreshed = c.row.status
    · exact .inl hfix
    refine .inr ⟨fun hsame => ?_, fun hs hdata => ?_⟩
    · have hpoll : c.status .poll = some c.row.status := by
        rw [c.status_eq, if_pos ⟨rfl, hsame⟩]
      exact hfix (Option.some.inj (hpopulate.symm.trans ((h.same _ _).trans hpoll)))
    · have := h.unchanged hs hdata .populate
      rw [hpopulate, hcached hs] at this
      cases this
  · rintro (hfix | ⟨hname, hdata⟩)
    · have hall : ∀ route, c.status route = some c.row.status := by
        intro route
        rw [c.status_eq, hfix, ite_self]
      have hne : c.row.status ≠ .cached := by
        intro hs
        have := (hcached hs).symm.trans hfix
        rw [hs] at this
        cases this
      exact ⟨fun _ _ => (hall _).trans (hall _).symm, fun hs => absurd hs hne,
        fun hs => absurd hs hne⟩
    · have hall : ∀ route, c.status route = some c.row.status.refreshed := by
        intro route
        rw [c.status_eq, if_neg fun h => hname h.2]
      refine ⟨fun _ _ => (hall _).trans (hall _).symm, fun hs he => absurd he (hdata hs),
        fun hs _ route => ?_⟩
      rw [hall, hcached hs]

end RefreshCase

/-- A version of the file `a`, which `lsjson` and the feed name alike. -/
def sampleVersion : ObjectVersion where
  data := [7]
  listed := { path := ['a'], name := ['a'], size := 1, modTime := none, isDir := false
              hashes := some [("md5".toList, ['v'])], id := none }
  fed := { path := ['a'], name := ['a'], size := 1, mtime := 0, isDir := false, etag := some ['v']
           itemId := none }

/-- The file `a` is cached, and nothing has changed since. -/
def unchangedFile : RefreshCase sampleMount where
  db := (((Db.empty 1 0).applyRemote (reportedFile ['a'] 1 ['v'])).setCached 2 [['a']] 1
    (some ['v']) 0 1).getD (Db.empty 1 0)
  tombstones := []
  dir := rootEntry 1
  paths := fun _ => none
  generation := 1
  row := { inode := 2, mountId := 1, parent := some 1, name := ['a'], remotePath := ['a']
           kind := .file, size := 1, mtime := 0, etag := some ['v'], status := .cached
           cachePath := some [['a']], cacheSize := some 1, dirListed := none, pollGeneration := 0
           remoteItemId := none }
  source := .upload
  recorded := sampleVersion
  current := sampleVersion
  fed_name := rfl
  row_eq := rfl
  etag_eq := rfl
  size_eq := rfl
  admitted := by
    intro route
    cases route <;> rfl
  itemId_eq := by
    intro route
    cases route <;> exact fun q hq => by cases hq
  accepted := by
    intro route
    cases route <;> rfl

/-- The listing of the directory makes the unchanged file stale, a full poll does not. -/
theorem not_agree_unchangedFile : ¬∀ (m : Mount) (c : RefreshCase m), c.Agree := by
  intro h
  have hsame := (h sampleMount unchangedFile).same .populate .poll
  exact absurd hsame (by decide)

end Stratosync

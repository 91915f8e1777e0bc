import Stratosync.State.Upserts
import Stratosync.Sync.RemovedDirs

/-!
# Item ids

A row keeps the identity of the remote object it stands for in its item id. An upsert matches by
item id first and by path otherwise, where it fills in an id that is missing but leaves another
one in place; a deletion falls back from the id to the path. `idsKept_iff` says which batches of
changes keep rows and objects together: exactly those in which neither fallback runs into a row
that is known to be another object's.
-/

namespace Stratosync

open Foundations.Runs

/-- The index and the map of known paths, under the changes of a batch; a call that fails ends
it. -/
def changeStep (m : Mount) (tombstones : List Str) :
    Db × PathToInode → RemoteChange → Option (Db × PathToInode)
  | (db, paths), c =>
    match applyChange m tombstones db paths c with
    | (some a, db') => some (db', a.paths)
    | (none, _) => none

/-- **The row at the path of an upsert carries the item id that was upserted, and the deletion of
an item removes no row of another.** -/
def IdsKept (m : Mount) (tombstones : List Str) (s : Db × PathToInode) (c : RemoteChange)
    (s' : Db × PathToInode) : Prop :=
  (∀ x ∈ c.metadata, admitted m tombstones x = true → ∀ id ∈ x.itemId,
    ∀ r ∈ s'.1.getByRemotePath m.mountId x.path, r.status.isUnsynced = false →
      r.remoteItemId = some id) ∧
    ∀ path id, c = .deleted path (some id) → ∀ i r, s.1.getByInode i = some r →
      (∀ other ∈ r.remoteItemId, other ≠ id → s'.1.getByInode i = some r)

/-- The row the fallback of an upsert or of a deletion finds at the path has no known id. -/
def FallbackFree (m : Mount) (tombstones : List Str) (db : Db) : RemoteChange → Prop
  | .added x | .modified x _ =>
    admitted m tombstones x = true → x.itemId.isSome = true →
      x.itemId.bind (db.getByItemId m.mountId) = none →
        ∀ r ∈ db.getByRemotePath m.mountId x.path,
          r.status.isUnsynced = false → r.remoteItemId = none
  | .deleted path itemId =>
    itemId.isSome = true →
      (itemId.bind (db.getByItemId m.mountId)).all (fun r => r.status.isUnsynced) = true →
        ∀ r ∈ db.getByRemotePath m.mountId path,
          r.status.isUnsynced = false → r.remoteItemId = none

variable {m : Mount} {tombstones : List Str}

/-! ## Upserts -/

/-- An upsert with an id leaves another id at its path exactly when its fallback finds one. -/
theorem upsert_itemId_iff {db db' : Db} {x : Refresh} {id : Str} {i : Inode}
    (h : db.upsertRemoteFileByIdOrPath m.mountId x (some id) = (some i, db')) :
    (∀ r ∈ db'.getByRemotePath m.mountId x.remotePath, r.status.isUnsynced = false →
        r.remoteItemId = some id) ↔
      (db.getByItemId m.mountId id = none →
        ∀ r ∈ db.getByRemotePath m.mountId x.remotePath,
          r.status.isUnsynced = false → r.remoteItemId = none) := by
  have hout := Db.upsert_outcome h
  obtain ⟨q, hq, hat⟩ := hout.getByRemotePath_written
  simp only [hat, Option.mem_some_iff, forall_eq']
  cases hout with
  | inserted hid hpath hnew hrows =>
    rw [hrows, if_pos rfl] at hq
    obtain rfl := Option.some.inj hq
    simp [hpath, Db.insertedRow]
  | @refreshed r hid hpath hrows =>
    have hid : db.getByItemId m.mountId id = none := hid
    rw [hrows, if_pos rfl] at hq
    obtain rfl := Option.some.inj hq
    obtain ⟨hri, hrm, -⟩ := Db.getByRemotePath_spec hpath
    have hne : r.remoteItemId ≠ some id := by
      intro hr
      have := List.find?_eq_none.1 hid r (Db.mem_rows_of_getByInode hri)
      simp [hrm, hr] at this
    simp only [hid, hpath, Option.mem_some_iff, forall_eq', forall_const]
    change (r.status.refreshed.isUnsynced = false →
      (r.remoteItemId <|> some id) = some id) ↔ _
    rw [SyncStatus.isUnsynced_refreshed]
    cases hr : r.remoteItemId with
    | none => simp
    | some other =>
      have hne : other ≠ id := by simpa [hr] using hne
      simp [hne]
  | @moved r hid hrows =>
    have hid : db.getByItemId m.mountId id = some r := hid
    rw [hrows, if_pos rfl] at hq
    obtain rfl := Option.some.inj hq
    simp [hid, refreshRow, (Db.getByItemId_spec hid).2.2]

/-! ## Deletions -/

theorem deleteRemoteEntry_rows {db db' : Db} {found : Option FileEntry}
    {dropped : Option (Inode × Option PathBuf)}
    (h : db.deleteRemoteEntry found = some (dropped, db'))
    (hfound : ∀ r ∈ found, r.status.isUnsynced = false) (i : Inode) :
    db'.getByInode i = if ∃ r ∈ found, r.inode = i then none else db.getByInode i := by
  cases found with
  | none =>
    obtain ⟨-, rfl⟩ := Prod.mk.inj (Option.some.inj h)
    simp
  | some r =>
    rw [Db.deleteRemoteEntry, Option.filter_some, hfound r rfl, Bool.not_false, if_pos rfl] at h
    obtain ⟨d, hd, he⟩ := Option.map_eq_some_iff.1 h
    obtain ⟨-, rfl⟩ := Prod.mk.inj he
    rw [Db.getByInode_deleteEntry hd]
    simp [eq_comm]

theorem getByInode_of_deletedRow {db : Db} {path : Str} {itemId : Option Str} {r : FileEntry}
    (h : db.deletedRow m.mountId path itemId = some r) : db.getByInode r.inode = some r := by
  rcases Option.or_eq_some_iff.1 h with h | ⟨-, h⟩
  · exact (Db.foundById (Option.filter_eq_some_iff.1 h).1).1
  · exact (Db.getByRemotePath_spec (Option.filter_eq_some_iff.1 h).1).1

/-- The row a deletion finds is another item's exactly when it is found by the fallback. -/
theorem deletedRow_itemId_iff {db : Db} {path : Str} {id : Str} :
    (∀ r ∈ db.deletedRow m.mountId path (some id), ∀ other ∈ r.remoteItemId, other = id) ↔
      ((db.getByItemId m.mountId id).all (fun r => r.status.isUnsynced) = true →
        ∀ r ∈ db.getByRemotePath m.mountId path,
          r.status.isUnsynced = false → r.remoteItemId = none) := by
  rw [Db.deletedRow, Option.bind_some]
  cases hid : (db.getByItemId m.mountId id).filter fun r => !r.status.isUnsynced with
  | some r =>
    obtain ⟨hr, hs⟩ := Option.filter_eq_some_iff.1 hid
    have hs : r.status.isUnsynced = false := by simpa using hs
    simp [hr, hs, (Db.getByItemId_spec hr).2.2]
  | none =>
    have hall : (db.getByItemId m.mountId id).all (fun r => r.status.isUnsynced) = true := by
      cases hr : db.getByItemId m.mountId id with
      | none => rfl
      | some r =>
        rw [hr, Option.filter_eq_none_iff] at hid
        simpa using hid r rfl
    simp only [hall, Option.none_or, forall_const]
    cases hp : db.getByRemotePath m.mountId path with
    | none => simp
    | some r =>
      cases hs : r.status.isUnsynced with
      | true => simp [hs]
      | false =>
        simp only [Option.filter_some, hs, Bool.not_false, if_pos, Option.mem_some_iff,
          forall_eq', forall_const]
        -- a row with this very id would have been found by it
        have hne : r.remoteItemId ≠ some id := by
          intro hr
          obtain ⟨hri, hrm, -⟩ := Db.getByRemotePath_spec hp
          cases hq : db.getByItemId m.mountId id with
          | none =>
            have := List.find?_eq_none.1 hq r (Db.mem_rows_of_getByInode hri)
            simp [hrm, hr] at this
          | some q =>
            obtain ⟨hqi, hqm, hqid⟩ := Db.getByItemId_spec hq
            obtain rfl : q = r := Foundations.Table.eq_of_unique
              (fun h => ⟨h.1.symm, h.2.2 ▸ h.2.1, h.2.2.symm⟩) db.fileIndex.ok.itemIdUnique
              (Db.mem_rows_of_getByInode hqi) (Db.mem_rows_of_getByInode hri)
              ⟨hqm.trans hrm.symm, by simp [hqid], hqid.trans hr.symm⟩
            rw [hq] at hall
            simp [hs] at hall
        cases hr : r.remoteItemId with
        | none => simp
        | some other => simpa [hr] using hne

/-! ## A batch -/

theorem idsKept_iff_of_upsert {s s' : Db × PathToInode} {c : RemoteChange} {x : RemoteMetadata}
    (hx : c.metadata = some x) (h : changeStep m tombstones s c = some s') :
    IdsKept m tombstones s c s' ↔
      (admitted m tombstones x = true → x.itemId.isSome = true →
        x.itemId.bind (s.1.getByItemId m.mountId) = none →
          ∀ r ∈ s.1.getByRemotePath m.mountId x.path,
            r.status.isUnsynced = false → r.remoteItemId = none) := by
  obtain ⟨db, paths⟩ := s
  rw [changeStep, applyChange_of_metadata hx] at h
  have hnodel : ∀ path id, c ≠ .deleted path (some id) := by
    rintro path id rfl
    cases hx
  simp only [IdsKept, hx, Option.mem_some_iff, forall_eq', hnodel, false_implies, implies_true,
    and_true]
  by_cases ha : admitted m tombstones x = true
  · simp only [ha, if_pos, forall_const] at h ⊢
    cases hid : x.itemId with
    | none => simp
    | some id =>
      simp only [Option.mem_some_iff, forall_eq', Option.isSome_some, forall_const,
        Option.bind_some]
      split at h
      · rename_i a db' hu
        split at hu
        · rename_i i db₁ hup
          obtain ⟨-, rfl⟩ := Prod.mk.inj hu
          obtain rfl := Option.some.inj h
          rw [upsertEntry, hid] at hup
          exact upsert_itemId_iff hup
        · cases (Prod.mk.inj hu).1
      · cases h
  · simp [ha]

theorem idsKept_iff_of_deletion {s s' : Db × PathToInode} {path : Str} {id : Str}
    (h : changeStep m tombstones s (.deleted path (some id)) = some s') :
    IdsKept m tombstones s (.deleted path (some id)) s' ↔
      ∀ r ∈ s.1.deletedRow m.mountId path (some id), ∀ other ∈ r.remoteItemId, other = id := by
  obtain ⟨db, paths⟩ := s
  rw [changeStep, applyChange, deleteChanged_eq] at h
  cases hd : db.deleteRemoteEntry (db.deletedRow m.mountId path (some id)) with
  | none => simp [hd] at h
  | some y =>
    obtain ⟨found, db'⟩ := y
    simp only [hd, Option.some.injEq] at h
    subst h
    have hrows := deleteRemoteEntry_rows hd fun r hr => isUnsynced_of_deletedRow hr
    constructor
    · intro hk r hr other ho
      by_contra hne
      have hgone := hrows r.inode
      rw [if_pos ⟨r, hr, rfl⟩] at hgone
      have hrow := getByInode_of_deletedRow hr
      have := hk.2 path id rfl r.inode r hrow other ho hne
      rw [hgone] at this
      cases this
    · intro hall
      refine ⟨fun x hx => (by cases hx), ?_⟩
      rintro _ _ ⟨⟩ i r hr other ho hne
      change db'.getByInode i = some r
      rw [hrows i, if_neg]
      · exact hr
      · rintro ⟨q, hq, rfl⟩
        obtain rfl := Option.some.inj ((getByInode_of_deletedRow hq).symm.trans hr)
        exact hne (hall q hq other ho)

theorem idsKept_iff_of_step {s s' : Db × PathToInode} {c : RemoteChange}
    (h : changeStep m tombstones s c = some s') :
    IdsKept m tombstones s c s' ↔ FallbackFree m tombstones s.1 c := by
  cases c with
  | added x => exact idsKept_iff_of_upsert rfl h
  | modified x oldEtag => exact idsKept_iff_of_upsert rfl h
  | deleted path itemId =>
    cases itemId with
    | none => simp [IdsKept, FallbackFree, RemoteChange.metadata]
    | some id =>
      rw [idsKept_iff_of_deletion h, deletedRow_itemId_iff]
      simp [FallbackFree]

/-- **When a batch keeps rows and objects together**, from any index and in any order: exactly
when no fallback of its steps finds a row of another object. -/
theorem idsKept_iff (m : Mount) (tombstones : List Str) (s : Db × PathToInode)
    (cs : List RemoteChange) :
    Along (changeStep m tombstones) (IdsKept m tombstones) s cs ↔
      Along (changeStep m tombstones) (fun s c _ => FallbackFree m tombstones s.1 c) s cs :=
  @along_congr _ _ (changeStep m tombstones) _ _ (fun _ _ _ h => idsKept_iff_of_step h) s cs

/-- After an upsert some row is at its path, with its item id or with a local edit. -/
theorem row_of_upsert {s s' : Db × PathToInode} {x : RemoteMetadata} {id : Str}
    (hadm : admitted m tombstones x = true) (hid : x.itemId = some id)
    (hfree : FallbackFree m tombstones s.1 (.added x))
    (h : changeStep m tombstones s (.added x) = some s') :
    ∃ r, s'.1.getByRemotePath m.mountId x.path = some r ∧
      (r.status.isUnsynced = false → r.remoteItemId = some id) := by
  have hk := ((idsKept_iff_of_step h).2 hfree).1 x rfl hadm id hid
  obtain ⟨db, paths⟩ := s
  rw [changeStep, applyChange_of_metadata rfl, if_pos hadm] at h
  split at h
  · rename_i a db' hu
    split at hu
    · rename_i i db₁ hup
      obtain ⟨-, rfl⟩ := Prod.mk.inj hu
      obtain rfl := Option.some.inj h
      obtain ⟨r, -, hr⟩ := (Db.upsert_outcome hup).getByRemotePath_written
      exact ⟨r, hr, hk r hr⟩
    · cases (Prod.mk.inj hu).1
  · cases h

/-- **An object recreated at the path of a deleted one keeps its row**, whichever of the two
changes comes first. -/
theorem row_of_recreated {s s' : Db × PathToInode} {x : RemoteMetadata} {id other : Str}
    (hadm : admitted m tombstones x = true) (hid : x.itemId = some id) (hne : id ≠ other)
    {cs : List RemoteChange}
    (hcs : cs = [.deleted x.path (some other), .added x] ∨
      cs = [.added x, .deleted x.path (some other)])
    (hfree : Along (changeStep m tombstones) (fun s c _ => FallbackFree m tombstones s.1 c) s cs)
    (hr : run (changeStep m tombstones) s cs = some s') :
    ∃ r, s'.1.getByRemotePath m.mountId x.path = some r := by
  rcases hcs with rfl | rfl
  · obtain ⟨t, ht, hr⟩ := run_cons_eq_some.1 hr
    obtain ⟨t', ht', hr⟩ := run_cons_eq_some.1 hr
    obtain rfl := Option.some.inj hr
    obtain ⟨r, hrow, -⟩ := row_of_upsert hadm hid ((hfree t ht).2 t' ht').1 ht'
    exact ⟨r, hrow⟩
  · obtain ⟨t, ht, hr⟩ := run_cons_eq_some.1 hr
    obtain ⟨t', ht', hr⟩ := run_cons_eq_some.1 hr
    obtain rfl := Option.some.inj hr
    obtain ⟨r, hrow, hitem⟩ := row_of_upsert hadm hid (hfree t ht).1 ht
    obtain ⟨hri, hrm, hrp⟩ := Db.getByRemotePath_spec hrow
    -- the deletion spares a row with a local edit, and one with another id
    have hstays : t'.1.getByInode r.inode = some r := by
      obtain ⟨db, paths⟩ := t
      have hk := (idsKept_iff_of_step ht').2 ((hfree _ ht).2 t' ht').1
      cases hs : r.status.isUnsynced with
      | false => exact hk.2 x.path other rfl r.inode r hri id (hitem hs) hne
      | true =>
        rw [changeStep, applyChange, deleteChanged_eq] at ht'
        cases hd : db.deleteRemoteEntry (db.deletedRow m.mountId x.path (some other)) with
        | none => simp [hd] at ht'
        | some y =>
          simp only [hd, Option.some.injEq] at ht'
          subst ht'
          have hrows := deleteRemoteEntry_rows hd fun r hr => isUnsynced_of_deletedRow hr
          refine (hrows r.inode).trans ((if_neg ?_).trans hri)
          rintro ⟨q, hq, hqi⟩
          have hqr := getByInode_of_deletedRow hq
          rw [hqi] at hqr
          obtain rfl := Option.some.inj (hqr.symm.trans hri)
          rw [isUnsynced_of_deletedRow hq] at hs
          cases hs
    exact ⟨r, hrm ▸ hrp ▸ Db.getByRemotePath_self hstays⟩

/-- A file of the remote, as a feed reports it. -/
def reportedItem (path id : Str) : RemoteMetadata :=
  { path, name := path, size := 1, mtime := 0, isDir := false, etag := none, itemId := some id }

/-- A file `a` is deleted and another created in its place; the creation comes first. -/
def recreatedFirst : List RemoteChange :=
  [.added (reportedItem ['a'] ['x']), .added (reportedItem ['a'] ['y']),
    .deleted ['a'] (some ['x'])]

/-- The new file's row has the old file's id, and goes with it. -/
theorem not_idsKept_recreatedFirst :
    ¬∀ (m : Mount) (tombstones : List Str) (s : Db × PathToInode) (cs : List RemoteChange),
      Along (changeStep m tombstones) (IdsKept m tombstones) s cs := by
  intro h
  obtain ⟨s₁, s₂, h₁, h₂, hrow⟩ : ∃ s₁ s₂,
      changeStep sampleMount [] (Db.empty 1 0, fun _ => none) (.added (reportedItem ['a'] ['x'])) =
        some s₁ ∧
      changeStep sampleMount [] s₁ (.added (reportedItem ['a'] ['y'])) = some s₂ ∧
      (s₂.1.getByRemotePath 1 ['a']).map (fun r => (r.status, r.remoteItemId)) =
        some (.stale, some ['x']) := ⟨_, _, rfl, rfl, rfl⟩
  have hkept := ((h sampleMount [] _ recreatedFirst s₁ h₁).2 s₂ h₂).1.1
  obtain ⟨r, hr, he⟩ := Option.map_eq_some_iff.1 hrow
  obtain ⟨hs, hid⟩ := Prod.mk.inj he
  have hy := hkept _ rfl rfl ['y'] rfl r hr (by rw [hs]; rfl)
  rw [hid] at hy
  exact absurd hy (by decide)

end Stratosync

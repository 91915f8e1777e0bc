import Stratosync.State.RemoteOps

/-!
# What an upsert makes of the index

`UpsertOutcome` says everything an upsert by item id or path can do when it succeeds: it inserts a
row, refreshes the row at its path, or moves the row with its item id and deletes the row it finds
at the new path. The facts about upserts that follow are read off its three cases.
-/

namespace Stratosync

open Foundations

namespace Db

/-- The row an upsert inserts. -/
def insertedRow (db : Db) (mountId : ℕ) (x : Refresh) (itemId : Option Str) : FileEntry :=
  { inode := db.nextInode, mountId, parent := some x.parent, name := x.name
    remotePath := x.remotePath, kind := x.kind, size := x.size, mtime := x.mtime
    etag := x.etag, status := .remote, cachePath := none, cacheSize := none
    dirListed := none, pollGeneration := x.pollGeneration, remoteItemId := itemId }

/-- What a successful upsert does, with the inode of the row it wrote. -/
inductive UpsertOutcome (db : Db) (mountId : ℕ) (x : Refresh) (itemId : Option Str) (db' : Db) :
    Inode → Prop
  | inserted (hid : itemId.bind (db.getByItemId mountId) = none)
      (hpath : db.getByRemotePath mountId x.remotePath = none)
      (hnew : db.getByInode db.nextInode = none)
      (hrows : ∀ j, db'.getByInode j =
        if j = db.nextInode then some (db.insertedRow mountId x itemId) else db.getByInode j) :
      UpsertOutcome db mountId x itemId db' db.nextInode
  | refreshed {r : FileEntry} (hid : itemId.bind (db.getByItemId mountId) = none)
      (hpath : db.getByRemotePath mountId x.remotePath = some r)
      (hrows : ∀ j, db'.getByInode j =
        if j = r.inode then some (refreshByPath x itemId r) else db.getByInode j) :
      UpsertOutcome db mountId x itemId db' r.inode
  | moved {r : FileEntry} (hid : itemId.bind (db.getByItemId mountId) = some r)
      (hrows : ∀ j, db'.getByInode j =
        if j = r.inode then some (refreshRow x r)
        else (db.getByInode j).filter
          fun q => !(q.mountId = mountId ∧ q.remotePath = x.remotePath)) :
      UpsertOutcome db mountId x itemId db' r.inode

variable {db db' : Db} {mountId : ℕ} {x : Refresh} {itemId : Option Str} {i : Inode}

theorem getByItemId_spec {id : Str} {r : FileEntry} (h : db.getByItemId mountId id = some r) :
    db.getByInode r.inode = some r ∧ r.mountId = mountId ∧ r.remoteItemId = some id :=
  ⟨getByInode_of_mem (List.mem_of_find?_eq_some h), by simpa using List.find?_some h⟩

/-- The row an upsert finds by item id. -/
theorem foundById {r : FileEntry} (h : itemId.bind (db.getByItemId mountId) = some r) :
    db.getByInode r.inode = some r ∧ r.mountId = mountId ∧ r.remoteItemId = itemId := by
  obtain ⟨id, rfl, hr⟩ := Option.bind_eq_some_iff.1 h
  exact getByItemId_spec hr

/-- The row at a path, found through its inode. -/
theorem getByRemotePath_eq_some {path : Str} {r : FileEntry} :
    db.getByRemotePath mountId path = some r ↔
      db.getByInode r.inode = some r ∧ r.mountId = mountId ∧ r.remotePath = path := by
  refine ⟨getByRemotePath_spec, ?_⟩
  rintro ⟨hr, rfl, rfl⟩
  exact getByRemotePath_self hr

theorem getByRemotePath_eq_none {path : Str} :
    db.getByRemotePath mountId path = none ↔
      ∀ i r, db.getByInode i = some r → r.mountId = mountId → r.remotePath ≠ path := by
  constructor
  · rintro hn i r hr rfl rfl
    rw [getByRemotePath_self hr] at hn
    cases hn
  · intro h
    cases hq : db.getByRemotePath mountId path with
    | none => rfl
    | some q =>
      obtain ⟨hi, hm, hp⟩ := getByRemotePath_spec hq
      exact absurd hp (h _ q hi hm)

/-- An upsert by path refreshes the row at the path or inserts one. -/
theorem upsertByPath_cases (h : db.upsertByPath mountId x itemId = some db') :
    (∃ r, db.getByRemotePath mountId x.remotePath = some r ∧
      RowMapped db db' r.inode (refreshByPath x itemId)) ∨
    (db.getByRemotePath mountId x.remotePath = none ∧ db.getByInode db.nextInode = none ∧
      ∀ j, db'.getByInode j =
        if j = db.nextInode then some (db.insertedRow mountId x itemId) else db.getByInode j) := by
  rw [upsertByPath] at h
  split at h
  · rename_i r hr
    exact .inl ⟨r, hr, rowMapped_of_updateRow h fun _ => rfl⟩
  · rename_i hnone
    exact .inr ⟨hnone, getByInode_of_insertRow h, getByInode_insertRow h⟩

theorem RowMapped.of_some {f : FileEntry → FileEntry} {r : FileEntry} (h : RowMapped db db' i f)
    (hr : db.getByInode i = some r) (j : Inode) :
    db'.getByInode j = if j = i then some (f r) else db.getByInode j := by
  rw [h.rows j]
  split
  · rename_i hj
    rw [hj, hr, Option.map_some]
  · rfl

/-- **Every successful upsert is one of the three outcomes.** -/
theorem upsert_outcome (h : db.upsertRemoteFileByIdOrPath mountId x itemId = (some i, db')) :
    UpsertOutcome db mountId x itemId db' i := by
  rw [upsertRemoteFileByIdOrPath] at h
  cases hid : itemId.bind (db.getByItemId mountId) with
  | none =>
    simp only [hid] at h
    split at h
    · cases (Prod.mk.inj h).1
    rename_i db₁ h₁
    obtain ⟨hi, rfl⟩ := Prod.mk.inj h
    -- the row at the path afterwards is the one that was written
    obtain ⟨q, hq, rfl⟩ := Option.map_eq_some_iff.1 hi
    have hat : ∀ j r, db₁.getByInode j = some r → r.mountId = mountId →
        r.remotePath = x.remotePath → q.inode = j := by
      rintro j r hr rfl hp
      obtain rfl := Option.some.inj ((getByRemotePath_self hr).symm.trans (hp ▸ hq))
      exact inode_of_getByInode hr
    rcases upsertByPath_cases h₁ with ⟨r, hr, hmap⟩ | ⟨hnone, hnew, hrows⟩
    · obtain ⟨hri, hrm, hrp⟩ := getByRemotePath_spec hr
      have hself := hmap.self
      rw [hri, Option.map_some] at hself
      rw [hat _ _ hself hrm rfl]
      exact .refreshed hid hr (hmap.of_some hri)
    · have hself := hrows db.nextInode
      rw [if_pos rfl] at hself
      rw [hat _ _ hself rfl rfl]
      exact .inserted hid hnone hnew hrows
  | some r =>
    simp only [hid] at h
    obtain ⟨hri, hrm, -⟩ := foundById hid
    split at h
    · cases (Prod.mk.inj h).1
    rename_i db₁ hclear
    split at h
    · cases (Prod.mk.inj h).1
    rename_i db₂ hmove
    obtain ⟨hi, rfl⟩ := Prod.mk.inj h
    obtain rfl := Option.some.inj hi
    have hcleared : ∀ j, j ≠ r.inode → db₁.getByInode j =
        (db.getByInode j).filter
          fun q => !(q.mountId = mountId ∧ q.remotePath = x.remotePath) := by
      intro j hj
      split at hclear
      · -- no other row is at the path of `r`
        rename_i hp
        obtain rfl := Option.some.inj hclear
        cases hq : db.getByInode j with
        | none => rfl
        | some q =>
          refine (Option.filter_eq_some_iff.2 ⟨rfl, ?_⟩).symm
          simp only [Bool.not_eq_eq_eq_not, Bool.not_true, decide_eq_false_iff_not]
          rintro ⟨hqm, hqp⟩
          have hq' := getByRemotePath_self hq
          rw [hqm, hqp, ← hp, ← hrm, getByRemotePath_self hri] at hq'
          obtain rfl := Option.some.inj hq'
          exact hj (inode_of_getByInode hq).symm
      · rw [getByInode_deleteRows hclear]
        cases hq : db.getByInode j with
        | none => rfl
        | some q =>
          have hqi := inode_of_getByInode hq
          simp [Option.filter, hqi, hj]
    have hr₁ : db₁.getByInode r.inode = some r := by
      split at hclear
      · exact Option.some.inj hclear ▸ hri
      · rw [getByInode_deleteRows hclear, hri]
        simp
    refine .moved hid fun j => ?_
    rw [(rowMapped_of_updateRow hmove fun _ => rfl).of_some hr₁]
    split
    · rfl
    · exact hcleared j ‹_›

/-! ## Facts about every outcome -/

namespace UpsertOutcome

variable (h : UpsertOutcome db mountId x itemId db' i)
include h

/-- The row an upsert wrote. -/
theorem written :
    ∃ r, db'.getByInode i = some r ∧ r.mountId = mountId ∧ r.remotePath = x.remotePath ∧
      r.parent = some x.parent ∧ r.name = x.name ∧ r.kind = x.kind ∧ r.size = x.size ∧
      r.etag = x.etag ∧ r.pollGeneration = x.pollGeneration := by
  cases h with
  | inserted _ _ _ hrows =>
    exact ⟨_, (hrows _).trans (if_pos rfl), rfl, rfl, rfl, rfl, rfl, rfl, rfl, rfl⟩
  | @refreshed r _ hpath hrows =>
    exact ⟨_, (hrows _).trans (if_pos rfl), (getByRemotePath_spec hpath).2.1, rfl, rfl, rfl, rfl,
      rfl, rfl, rfl⟩
  | @moved r hid hrows =>
    exact ⟨_, (hrows _).trans (if_pos rfl), (foundById hid).2.1, rfl, rfl, rfl, rfl, rfl, rfl, rfl⟩

/-- The row at the path of an upsert is the one it wrote. -/
theorem getByRemotePath_written : ∃ r, db'.getByInode i = some r ∧
    db'.getByRemotePath mountId x.remotePath = some r := by
  obtain ⟨r, hr, hm, hp, -⟩ := h.written
  exact ⟨r, hr, hm ▸ hp ▸ getByRemotePath_self hr⟩

/-- It is the only one there. -/
theorem eq_of_path {j : Inode} {r : FileEntry} (hr : db'.getByInode j = some r)
    (hm : r.mountId = mountId) (hp : r.remotePath = x.remotePath) : j = i := by
  obtain ⟨w, hw, hat⟩ := h.getByRemotePath_written
  have hself := Db.getByRemotePath_self hr
  rw [hm, hp, hat] at hself
  obtain rfl := Option.some.inj hself
  exact (inode_of_getByInode hr).symm.trans (inode_of_getByInode hw)

/-- Every other row stays, unless it was at the path of a row that moved there. -/
theorem other {j : Inode} {r : FileEntry} (hj : j ≠ i) (hr : db'.getByInode j = some r) :
    db.getByInode j = some r := by
  cases h with
  | inserted _ _ _ hrows => rwa [hrows j, if_neg hj] at hr
  | refreshed _ _ hrows => rwa [hrows j, if_neg hj] at hr
  | moved _ hrows =>
    rw [hrows j, if_neg hj] at hr
    exact (Option.filter_eq_some_iff.1 hr).1

/-- An upsert adds no path but its own. -/
theorem absent {path : Str} (hp : path ≠ x.remotePath)
    (hnone : db.getByRemotePath mountId path = none) :
    db'.getByRemotePath mountId path = none := by
  obtain ⟨w, hwi, hwm, hwp, -⟩ := h.written
  refine getByRemotePath_eq_none.2 fun j r hr hm he => ?_
  by_cases hj : j = i
  · obtain rfl := Option.some.inj (hr.symm.trans (hj ▸ hwi))
    exact hp (he.symm.trans hwp)
  · exact getByRemotePath_eq_none.1 hnone j r (h.other hj hr) hm he

omit h in
/-- Two rows of a mount with one item id are one. -/
theorem eq_of_itemId {r q : FileEntry} (hr : r ∈ db.fileIndex.rows) (hq : q ∈ db.fileIndex.rows)
    (hm : r.mountId = q.mountId) (hsome : r.remoteItemId.isSome)
    (hid : r.remoteItemId = q.remoteItemId) : r = q :=
  Table.eq_of_unique (fun h => ⟨h.1.symm, h.2.2 ▸ h.2.1, h.2.2.symm⟩) db.fileIndex.ok.itemIdUnique
    hr hq ⟨hm, hsome, hid⟩

/-- A row with the item id of an upsert is the one it writes. -/
theorem eq_of_matches {j : Inode} {r : FileEntry} (hr : db.getByInode j = some r)
    (hm : r.mountId = mountId) (hsome : itemId.isSome) (hid : r.remoteItemId = itemId) : j = i := by
  obtain ⟨id, rfl⟩ := Option.isSome_iff_exists.1 hsome
  have hfound : (some id).bind (db.getByItemId mountId) = some r := by
    rw [Option.bind_some]
    cases hq : db.getByItemId mountId id with
    | none =>
      have := List.find?_eq_none.1 hq r (mem_rows_of_getByInode hr)
      simp [hm, hid] at this
    | some q =>
      obtain ⟨hqi, hqm, hqid⟩ := getByItemId_spec hq
      rw [eq_of_itemId (mem_rows_of_getByInode hqi) (mem_rows_of_getByInode hr)
        (hqm.trans hm.symm) (hqid ▸ rfl) (hqid.trans hid.symm)]
  cases h with
  | inserted hnone => exact absurd (hnone.symm.trans hfound) (by simp)
  | refreshed hnone => exact absurd (hnone.symm.trans hfound) (by simp)
  | moved hq =>
    obtain rfl := Option.some.inj (hq.symm.trans hfound)
    exact (inode_of_getByInode hr).symm

/-- A row that is neither written nor at the path of the upsert stays. -/
theorem keeps {j : Inode} {r : FileEntry} (hj : j ≠ i) (hr : db.getByInode j = some r)
    (hp : r.mountId = mountId → r.remotePath ≠ x.remotePath) : db'.getByInode j = some r := by
  cases h with
  | inserted _ _ _ hrows => rwa [hrows j, if_neg hj]
  | refreshed _ _ hrows => rwa [hrows j, if_neg hj]
  | moved _ hrows =>
    rw [hrows j, if_neg hj, hr]
    refine Option.filter_eq_some_iff.2 ⟨rfl, ?_⟩
    simpa [imp_iff_not_or] using hp

/-- A row at another path is written only when it is found by item id. -/
theorem moved_of_path_ne {r : FileEntry} (hr : db.getByInode i = some r)
    (hp : r.remotePath ≠ x.remotePath) : itemId.bind (db.getByItemId mountId) = some r := by
  cases h with
  | inserted _ _ hnew _ => exact absurd (hnew.symm.trans hr) (by simp)
  | refreshed _ hpath _ =>
    obtain ⟨hi, -, hq⟩ := getByRemotePath_spec hpath
    obtain rfl := Option.some.inj (hi.symm.trans hr)
    exact absurd hq hp
  | moved hid _ =>
    rw [hid, ← (foundById hid).1, hr]

end UpsertOutcome

/-! ## What a refused upsert and a batch leave -/

/-- The row of an upsert by path is found at its path. -/
theorem getByRemotePath_isSome_of_upsertByPath (h : db.upsertByPath mountId x itemId = some db') :
    (db'.getByRemotePath mountId x.remotePath).isSome = true := by
  rw [Option.isSome_iff_ne_none]
  intro hnone
  rcases upsertByPath_cases h with ⟨q, hq, hmap⟩ | ⟨-, -, hrows⟩
  · obtain ⟨hqi, hqm, -⟩ := getByRemotePath_spec hq
    have hself := hmap.self
    rw [hqi, Option.map_some] at hself
    exact getByRemotePath_eq_none.1 hnone _ _ hself hqm rfl
  · have hself := hrows db.nextInode
    rw [if_pos rfl] at hself
    exact getByRemotePath_eq_none.1 hnone _ _ hself rfl rfl

/-- An upsert that is refused deletes at most a row at its path. -/
theorem refused_cases (h : db.upsertRemoteFileByIdOrPath mountId x itemId = (none, db')) :
    db' = db ∨ ∃ p : FileEntry → Bool, db.deleteRows p = some db' ∧
      ∀ q, p q = true → q.mountId = mountId ∧ q.remotePath = x.remotePath := by
  rw [upsertRemoteFileByIdOrPath] at h
  cases hid : itemId.bind (db.getByItemId mountId) with
  | some q =>
    simp only [hid] at h
    split at h
    · exact .inl (Prod.mk.inj h).2.symm
    rename_i d hclear
    split at h
    · obtain ⟨-, rfl⟩ := Prod.mk.inj h
      split at hclear
      · exact .inl (Option.some.inj hclear).symm
      · refine .inr ⟨_, hclear, fun r hr => ?_⟩
        rw [decide_eq_true_eq] at hr
        exact ⟨hr.1, hr.2.1⟩
    · cases (Prod.mk.inj h).1
  | none =>
    simp only [hid] at h
    split at h
    · exact .inl (Prod.mk.inj h).2.symm
    rename_i d hd
    have hfound := getByRemotePath_isSome_of_upsertByPath hd
    rw [← Option.isSome_map (f := FileEntry.inode), (Prod.mk.inj h).1] at hfound
    cases hfound

/-- An upsert that is refused adds and changes nothing. -/
theorem of_refused (h : db.upsertRemoteFileByIdOrPath mountId x itemId = (none, db'))
    {j : Inode} {r : FileEntry} (hr : db'.getByInode j = some r) : db.getByInode j = some r := by
  rcases refused_cases h with rfl | ⟨p, hdel, -⟩
  · exact hr
  · rw [getByInode_deleteRows hdel] at hr
    exact (Option.filter_eq_some_iff.1 hr).1

end Db

end Stratosync

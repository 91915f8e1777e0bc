import Stratosync.State.Upserts

/-!
# What the constraints accept

A statement that writes one row is refused when the row breaks a constraint against the others.
`Db.Fits` says that it breaks none; then an update to it, or its insertion, goes through
(`updateRow_isSome_of_fits`, `insertRow_isSome_of_fits`).
-/

namespace Stratosync

open Foundations

namespace Db

/-- The row breaks no constraint against the rows of other inodes. -/
structure Fits (db : Db) (r : FileEntry) : Prop where
  path : ∀ c ∈ db.fileIndex.rows, c.inode ≠ r.inode → c.mountId = r.mountId →
    c.remotePath ≠ r.remotePath
  name : ∀ c ∈ db.fileIndex.rows, c.inode ≠ r.inode → c.mountId = r.mountId →
    c.parent.isSome → c.parent = r.parent → c.name ≠ r.name
  itemId : ∀ c ∈ db.fileIndex.rows, c.inode ≠ r.inode → c.mountId = r.mountId →
    c.remoteItemId.isSome → c.remoteItemId ≠ r.remoteItemId
  parent : ∀ p ∈ r.parent, ∃ q ∈ db.fileIndex.rows, q.inode = p
  cachePath : r.kind = .file → r.status.claimsCacheFile = true → r.cachePath.isSome = true

variable {db : Db} {i : Inode} {r : FileEntry}

/-- An update to a row that fits goes through. -/
theorem updateRow_isSome_of_fits {f : FileEntry → FileEntry} (hr : db.getByInode i = some r)
    (hf : ∀ r, (f r).inode = r.inode) (h : db.Fits (f r)) : (db.updateRow i f).isSome = true := by
  have ok := db.fileIndex.ok
  have hi : (f r).inode = i := (hf r).trans (inode_of_getByInode hr)
  have hself : ∀ q ∈ db.fileIndex.rows, q.inode = i → q = r := fun q hq hqi =>
    Option.some.inj ((getByInode_of_mem hq).symm.trans (hqi ▸ hr))
  rw [updateRow, Option.isSome_map, Table.update, Table.commit_isSome]
  simp only [decide_eq_true_eq]
  constructor
  · have hmap : (db.fileIndex.rows.map fun q => (if q.inode = i then f q else q).inode) =
        db.fileIndex.rows.map FileEntry.inode :=
      List.map_congr_left fun q _ => by split <;> simp [hf]
    rw [List.map_map]
    exact hmap ▸ ok.inodeUnique
  · refine Table.pairwise_update ok.inodeUnique ok.pathUnique
      (fun h h' => h ⟨h'.1.symm, h'.2.symm⟩) fun q hq hqi c hc hci => ?_
    obtain rfl := hself q hq hqi
    rintro ⟨hm, hp⟩
    exact h.path c hc (hi ▸ hci) hm hp
  · refine Table.pairwise_update ok.inodeUnique ok.nameUnique
      (fun h h' => h ⟨h'.1.symm, h'.2.2.1 ▸ h'.2.1, h'.2.2.1.symm, h'.2.2.2.symm⟩)
      fun q hq hqi c hc hci => ?_
    obtain rfl := hself q hq hqi
    rintro ⟨hm, hs, hp, hn⟩
    exact h.name c hc (hi ▸ hci) hm hs hp hn
  · refine Table.pairwise_update ok.inodeUnique ok.itemIdUnique
      (fun h h' => h ⟨h'.1.symm, h'.2.2 ▸ h'.2.1, h'.2.2.symm⟩) fun q hq hqi c hc hci => ?_
    obtain rfl := hself q hq hqi
    rintro ⟨hm, hs, hid⟩
    exact h.itemId c hc (hi ▸ hci) hm hs hid
  · -- a reference is to an inode, and those stay
    have hkeep : ∀ p, (∃ q ∈ db.fileIndex.rows, q.inode = p) →
        ∃ q ∈ db.fileIndex.rows.map fun q => if q.inode = i then f q else q, q.inode = p := by
      rintro p ⟨q, hq, rfl⟩
      refine ⟨_, List.mem_map_of_mem hq, ?_⟩
      split <;> simp [hf]
    intro q' hq' p hp
    obtain ⟨q, hq, rfl⟩ := List.mem_map.1 hq'
    split at hp
    · obtain rfl := hself q hq ‹_›
      exact hkeep p (h.parent p hp)
    · exact hkeep p (ok.parentExists q hq p hp)
  · intro q' hq'
    obtain ⟨q, hq, rfl⟩ := List.mem_map.1 hq'
    split
    · obtain rfl := hself q hq ‹_›
      exact h.cachePath
    · exact ok.cachePathRecorded q hq

/-- An update of a row goes through exactly when the new row fits. -/
theorem updateRow_isSome_iff {f : FileEntry → FileEntry} (hr : db.getByInode i = some r)
    (hf : ∀ r, (f r).inode = r.inode) : (db.updateRow i f).isSome = true ↔ db.Fits (f r) := by
  refine ⟨fun h => ?_, updateRow_isSome_of_fits hr hf⟩
  have hri := inode_of_getByInode hr
  obtain ⟨db', h⟩ := Option.isSome_iff_exists.1 h
  obtain ⟨t, ht, -⟩ := Option.map_eq_some_iff.1 h
  have hrows : t.rows = db.fileIndex.rows.map fun q => if q.inode = i then f q else q := by
    have h := Table.commit_eq_some.1 ht
    simpa only [decide_eq_true_eq] using h
  have hself : f r ∈ t.rows := by
    rw [hrows]
    refine List.mem_map.2 ⟨r, mem_rows_of_getByInode hr, ?_⟩
    rw [if_pos hri]
  have hother : ∀ c ∈ db.fileIndex.rows, c.inode ≠ (f r).inode → c ∈ t.rows := by
    intro c hc hne
    rw [hrows]
    refine List.mem_map.2 ⟨c, hc, ?_⟩
    rw [if_neg fun hci => hne (hci.trans (hri.symm.trans (hf r).symm))]
  have ok := t.ok
  constructor
  · intro c hc hne hm hp
    have heq := Table.eq_of_unique (fun h => ⟨h.1.symm, h.2.symm⟩) ok.pathUnique (hother c hc hne)
      hself ⟨hm, hp⟩
    exact hne (congrArg FileEntry.inode heq)
  · intro c hc hne hm hs hp hn
    have heq := Table.eq_of_unique
      (fun h => ⟨h.1.symm, h.2.2.1 ▸ h.2.1, h.2.2.1.symm, h.2.2.2.symm⟩) ok.nameUnique
      (hother c hc hne) hself ⟨hm, hs, hp, hn⟩
    exact hne (congrArg FileEntry.inode heq)
  · intro c hc hne hm hs hid
    have heq := Table.eq_of_unique (fun h => ⟨h.1.symm, h.2.2 ▸ h.2.1, h.2.2.symm⟩)
      ok.itemIdUnique (hother c hc hne) hself ⟨hm, hs, hid⟩
    exact hne (congrArg FileEntry.inode heq)
  · intro p hp
    obtain ⟨q', hq', rfl⟩ := ok.parentExists _ hself p hp
    rw [hrows] at hq'
    obtain ⟨q, hq, rfl⟩ := List.mem_map.1 hq'
    refine ⟨q, hq, ?_⟩
    split <;> simp [hf]
  · exact ok.cachePathRecorded _ hself

/-- The insertion of a row that fits goes through, when its inode is new. -/
theorem insertRow_isSome_of_fits (hnew : ∀ c ∈ db.fileIndex.rows, c.inode ≠ r.inode)
    (h : db.Fits r) : (db.insertRow r).isSome = true := by
  have ok := db.fileIndex.ok
  rw [insertRow, Option.isSome_map, Table.insert, Table.commit_isSome]
  constructor
  · rw [List.map_append, List.nodup_append]
    refine ⟨ok.inodeUnique, List.nodup_singleton _, ?_⟩
    rintro _ hi _ hj rfl
    obtain ⟨c, hc, hci⟩ := List.mem_map.1 hi
    exact hnew c hc (hci.trans (List.mem_singleton.1 hj))
  · refine List.pairwise_append.2 ⟨ok.pathUnique, List.pairwise_singleton _ _, fun c hc q hq => ?_⟩
    obtain rfl := List.mem_singleton.1 hq
    rintro ⟨hm, hp⟩
    exact h.path c hc (hnew c hc) hm hp
  · refine List.pairwise_append.2 ⟨ok.nameUnique, List.pairwise_singleton _ _, fun c hc q hq => ?_⟩
    obtain rfl := List.mem_singleton.1 hq
    rintro ⟨hm, hs, hp, hn⟩
    exact h.name c hc (hnew c hc) hm hs hp hn
  · refine List.pairwise_append.2
      ⟨ok.itemIdUnique, List.pairwise_singleton _ _, fun c hc q hq => ?_⟩
    obtain rfl := List.mem_singleton.1 hq
    rintro ⟨hm, hs, hid⟩
    exact h.itemId c hc (hnew c hc) hm hs hid
  · have hkeep : ∀ p, (∃ q ∈ db.fileIndex.rows, q.inode = p) →
        ∃ q ∈ db.fileIndex.rows ++ [r], q.inode = p := by
      rintro p ⟨q, hq, rfl⟩
      exact ⟨q, List.mem_append_left _ hq, rfl⟩
    intro q hq p hp
    rcases List.mem_append.1 hq with hq | hq
    · exact hkeep p (ok.parentExists q hq p hp)
    · obtain rfl := List.mem_singleton.1 hq
      exact hkeep p (h.parent p hp)
  · intro q hq
    rcases List.mem_append.1 hq with hq | hq
    · exact ok.cachePathRecorded q hq
    · obtain rfl := List.mem_singleton.1 hq
      exact h.cachePath

/-- An update that is put on top of the LRU list is accepted exactly where there is a row. -/
theorem updateRow_touchLru_isSome_iff {f : FileEntry → FileEntry} (hk : ∀ r, SameKeys r (f r))
    (hc : ∀ r, db.getByInode i = some r → (f r).kind = .file →
      (f r).status.claimsCacheFile = true → (f r).cachePath.isSome = true) :
    ((db.updateRow i f).bind fun db' => db'.touchLru i).isSome = true ↔
      (db.getByInode i).isSome = true := by
  obtain ⟨db₁, h₁⟩ := Option.isSome_iff_exists.1 (updateRow_isSome hk hc)
  have hrow : (db₁.getByInode i).isSome = (db.getByInode i).isSome := by
    rw [(rowMapped_of_updateRow h₁ fun r => (hk r).1).rows i, if_pos rfl, Option.isSome_map]
  rw [h₁, Option.bind_some, touchLru]
  cases hi : db₁.getByInode i with
  | none =>
    rw [hi] at hrow
    simp [← hrow]
  | some r =>
    rw [hi] at hrow
    rw [← hrow]
    simp only [Option.isNone_some, Bool.false_eq_true, if_false, Option.isSome_some]
    split <;> simp

/-- A row can be marked as cached when it is there. -/
theorem setCached_isSome_iff {p : PathBuf} {n m k : ℕ} {e : Option Str} :
    (db.setCached i p n e m k).isSome = true ↔ (db.getByInode i).isSome = true :=
  updateRow_touchLru_isSome_iff (fun _ => ⟨rfl, rfl, rfl, rfl, rfl, rfl⟩) fun _ _ _ _ => rfl

/-- The upload of a row that has a cache path can be recorded. -/
theorem setUploaded_isSome {n m k : ℕ} {e : Option Str} (hr : db.getByInode i = some r)
    (hp : r.cachePath.isSome = true) : (db.setUploaded i n e m k).isSome = true := by
  rw [setUploaded, updateRow_touchLru_isSome_iff, hr]
  · rfl
  · exact fun _ => ⟨rfl, rfl, rfl, rfl, rfl, rfl⟩
  · intro r' hr' _ _
    obtain rfl := Option.some.inj (hr.symm.trans hr')
    exact hp

/-- A row can be inserted in a directory exactly where neither its path nor its name is taken. -/
theorem insertFile_isSome_iff {e : NewFileEntry} (hparent : (db.getByInode e.parent).isSome = true)
    (hs : e.kind = .file → e.status.claimsCacheFile = true → e.cachePath.isSome = true) :
    (db.insertFile e).isSome = true ↔ ∀ c ∈ db.fileIndex.rows, c.mountId = e.mountId →
      c.remotePath ≠ e.remotePath ∧ (c.parent = some e.parent → c.name ≠ e.name) := by
  constructor
  · intro h
    obtain ⟨⟨i, db'⟩, h⟩ := Option.isSome_iff_exists.1 h
    obtain ⟨db₁, h₁, -⟩ := Option.map_eq_some_iff.1 h
    obtain ⟨t, ht, -⟩ := Option.map_eq_some_iff.1 h₁
    have ok := t.ok
    rw [Table.commit_eq_some.1 ht] at ok
    intro c hc hm
    have hpath := (List.pairwise_append.1 ok.pathUnique).2.2 c hc _ (List.mem_singleton_self _)
    have hname := (List.pairwise_append.1 ok.nameUnique).2.2 c hc _ (List.mem_singleton_self _)
    exact ⟨fun hp => hpath ⟨hm, hp⟩, fun hp hn => hname ⟨hm, by rw [hp]; rfl, hp, hn⟩⟩
  · intro hfree
    obtain ⟨q, hq⟩ := Option.isSome_iff_exists.1 hparent
    rw [insertFile, Option.isSome_map]
    refine insertRow_isSome_of_fits (fun c hc hci => absurd hci (inode_lt_nextInode hc).ne)
      ⟨fun c hc _ hm hp => (hfree c hc hm).1 hp, fun c hc _ hm _ hp hn => (hfree c hc hm).2 hp hn,
        fun c _ _ _ hsome heq => ?_, ?_, hs⟩
    · rw [heq] at hsome
      cases hsome
    · rintro p ⟨⟩
      exact ⟨q, mem_rows_of_getByInode hq, inode_of_getByInode hq⟩

/-! ## Upserts -/

variable {mountId : ℕ} {x : Refresh} {itemId : Option Str}

/-- The row an upsert writes, when there is one. -/
def upsertTarget (db : Db) (mountId : ℕ) (x : Refresh) (itemId : Option Str) :
    Option FileEntry :=
  (itemId.bind (db.getByItemId mountId)).or (db.getByRemotePath mountId x.remotePath)

/-- The upsert breaks no constraint: its directory has a row, the name is taken in it by no row
that stays, the row it replaces can go, and no local edit loses its cache path. -/
structure Acceptable (db : Db) (mountId : ℕ) (x : Refresh) (itemId : Option Str) : Prop where
  parent : (db.getByInode x.parent).isSome = true
  name : ∀ c ∈ db.fileIndex.rows, c.mountId = mountId → c.parent = some x.parent →
    c.name = x.name → c.remotePath = x.remotePath ∨
      ∃ t ∈ db.upsertTarget mountId x itemId, t.inode = c.inode
  clear : ∀ r ∈ itemId.bind (db.getByItemId mountId), r.remotePath ≠ x.remotePath →
    ∀ d ∈ db.getByRemotePath mountId x.remotePath,
      (db.deleteEntry d.inode).isSome = true ∧ d.inode ≠ x.parent
  cachePath : ∀ t ∈ db.upsertTarget mountId x itemId, x.kind = .file →
    t.status.isUnsynced = true → t.cachePath.isSome = true

/-- A deletion depends on its condition only through the rows there are. -/
theorem deleteRows_congr {p q : FileEntry → Bool} (h : ∀ r ∈ db.fileIndex.rows, p r = q r) :
    db.deleteRows p = db.deleteRows q := by
  have hrows : db.fileIndex.delete p = db.fileIndex.delete q :=
    congrArg Table.commit (List.filter_congr fun r hr => by rw [h r hr])
  have hany : ∀ j, (db.getByInode j).any p = (db.getByInode j).any q := by
    intro j
    cases hj : db.getByInode j with
    | none => rfl
    | some r => exact h r (mem_rows_of_getByInode hj)
  rw [deleteRows, deleteRows, hrows]
  simp only [hany]

theorem claimsCacheFile_refreshed {s : SyncStatus} (h : s.refreshed.claimsCacheFile = true) :
    s.isUnsynced = true := by
  cases s <;> simp_all [SyncStatus.refreshed, SyncStatus.isUnsynced, SyncStatus.claimsCacheFile]

/-- A row at a path is the row there. -/
theorem eq_of_remotePath {c : FileEntry} (hc : c ∈ db.fileIndex.rows) (hm : c.mountId = mountId)
    (hr : db.getByRemotePath mountId c.remotePath = some r) : c = r := by
  subst hm
  exact Option.some.inj ((getByRemotePath_self (getByInode_of_mem hc)).symm.trans hr)

/-- An upsert by path that breaks no constraint goes through. -/
theorem upsertByPath_isSome (hid : itemId.bind (db.getByItemId mountId) = none)
    (h : db.Acceptable mountId x itemId) : (db.upsertByPath mountId x itemId).isSome = true := by
  have hparent : ∃ q ∈ db.fileIndex.rows, q.inode = x.parent := by
    obtain ⟨q, hq⟩ := Option.isSome_iff_exists.1 h.parent
    exact ⟨q, mem_rows_of_getByInode hq, inode_of_getByInode hq⟩
  have htarget : db.upsertTarget mountId x itemId = db.getByRemotePath mountId x.remotePath := by
    rw [upsertTarget, hid, Option.none_or]
  -- no row has the item id, since it would have been found
  have hnoId : ∀ c ∈ db.fileIndex.rows, c.mountId = mountId → c.remoteItemId.isSome = true →
      c.remoteItemId ≠ itemId := by
    rintro c hc rfl hs rfl
    obtain ⟨id, hsome⟩ := Option.isSome_iff_exists.1 hs
    rw [hsome, Option.bind_some] at hid
    simpa [hsome] using List.find?_eq_none.1 hid c hc
  have hname := h.name
  have hcache := h.cachePath
  rw [htarget] at hname hcache
  rw [upsertByPath]
  cases hr : db.getByRemotePath mountId x.remotePath with
  | some r =>
    obtain ⟨hri, hrm, hrp⟩ := getByRemotePath_spec hr
    have hat : ∀ c ∈ db.fileIndex.rows, c.mountId = mountId → c.remotePath = x.remotePath →
        c.inode = r.inode :=
      fun c hc hm hp => congrArg FileEntry.inode (eq_of_remotePath hc hm (hp ▸ hr))
    refine updateRow_isSome_of_fits hri (fun _ => rfl) ⟨?_, ?_, ?_, ?_, ?_⟩
    · exact fun c hc hci hm hp => hci (hat c hc (hm.trans hrm) hp)
    · intro c hc hci hm _ hp hn
      rcases hname c hc (hm.trans hrm) hp hn with hpath | ⟨t, ht, hti⟩
      · exact hci (hat c hc (hm.trans hrm) hpath)
      · obtain rfl := Option.some.inj (hr.symm.trans ht)
        exact hci hti.symm
    · intro c hc hci hm hs heq
      have heq : c.remoteItemId = (r.remoteItemId <|> itemId) := heq
      cases hrid : r.remoteItemId with
      | none =>
        rw [hrid] at heq
        exact hnoId c hc (hm.trans hrm) hs heq
      | some id =>
        rw [hrid] at heq
        have hcr : c = r := UpsertOutcome.eq_of_itemId hc (mem_rows_of_getByInode hri) hm hs
          (heq.trans hrid.symm)
        exact hci (by rw [hcr]; rfl)
    · rintro p ⟨⟩
      exact hparent
    · exact fun hk hs => hcache r hr hk (claimsCacheFile_refreshed hs)
  | none =>
    refine insertRow_isSome_of_fits (fun c hc hci => ?_) ⟨?_, ?_, ?_, ?_, ?_⟩
    · exact absurd hci (inode_lt_nextInode hc).ne
    · intro c hc _ hm hp
      exact getByRemotePath_eq_none.1 hr _ _ (getByInode_of_mem hc) hm hp
    · intro c hc _ hm _ hp hn
      rcases hname c hc hm hp hn with hpath | ⟨t, ht, -⟩
      · exact getByRemotePath_eq_none.1 hr _ _ (getByInode_of_mem hc) hm hpath
      · rw [hr] at ht
        cases ht
    · exact fun c hc _ => hnoId c hc
    · rintro p ⟨⟩
      exact hparent
    · intro _ hs
      cases hs

theorem mem_rows_deleteRows {db' : Db} {p : FileEntry → Bool} (h : db.deleteRows p = some db')
    {c : FileEntry} : c ∈ db'.fileIndex.rows ↔ c ∈ db.fileIndex.rows ∧ p c = false := by
  obtain ⟨t, ht, rfl⟩ := Option.map_eq_some_iff.1 h
  change c ∈ t.rows ↔ _
  rw [Table.commit_eq_some.1 ht]
  simp

/-- A deletion of nothing goes through and leaves the index as it was. -/
theorem deleteRows_of_none {p : FileEntry → Bool} (h : ∀ c ∈ db.fileIndex.rows, p c = false) :
    db.deleteRows p = some db := by
  have hrows : (db.fileIndex.rows.filter fun c => !p c) = db.fileIndex.rows :=
    List.filter_eq_self.2 fun c hc => by rw [h c hc]; rfl
  have hany : ∀ i, (db.getByInode i).any p = false := by
    intro i
    cases hi : db.getByInode i with
    | none => rfl
    | some c => exact h c (mem_rows_of_getByInode hi)
  have hcommit : db.fileIndex.delete p = some db.fileIndex := Table.commit_eq_some.2 hrows.symm
  rw [deleteRows, hcommit]
  simp only [hany, Bool.not_false, List.filter_true, Option.map_some]

/-- The first statement of a move goes through when the row at the new path can go. -/
theorem clear_isSome {path : Str} {parent : Inode}
    (h : ∀ d ∈ db.getByRemotePath mountId path,
      (db.deleteEntry d.inode).isSome = true ∧ d.inode ≠ parent) (i : Inode) :
    (db.deleteRows fun q => q.mountId = mountId ∧ q.remotePath = path ∧ q.inode ≠ i).isSome =
      true := by
  have hat : ∀ c ∈ db.fileIndex.rows, c.mountId = mountId → c.remotePath = path →
      db.getByRemotePath mountId path = some c := by
    rintro c hc rfl rfl
    exact getByRemotePath_self (getByInode_of_mem hc)
  by_cases hd : ∃ d ∈ db.getByRemotePath mountId path, d.inode ≠ i
  · obtain ⟨d, hd, hdi⟩ := hd
    obtain ⟨hdrow, hdm, hdp⟩ := getByRemotePath_spec hd
    refine deleteRows_congr (fun c hc => ?_) ▸ (h d hd).1
    rw [decide_eq_decide]
    constructor
    · intro hci
      obtain rfl := Option.some.inj ((hci ▸ getByInode_of_mem hc).symm.trans hdrow)
      exact ⟨hdm, hdp, hdi⟩
    · rintro ⟨hm, hp, -⟩
      rw [Option.some.inj ((hat c hc hm hp).symm.trans hd)]
  · rw [deleteRows_of_none fun c hc => ?_]
    · rfl
    rw [decide_eq_false_iff_not]
    rintro ⟨hm, hp, hci⟩
    exact hd ⟨c, hat c hc hm hp, hci⟩

/-- **An upsert that breaks no constraint goes through.** -/
theorem upsert_isSome (h : db.Acceptable mountId x itemId) :
    (db.upsertRemoteFileByIdOrPath mountId x itemId).1.isSome = true := by
  rw [upsertRemoteFileByIdOrPath]
  cases hid : itemId.bind (db.getByItemId mountId) with
  | none =>
    have hsome := upsertByPath_isSome hid h
    dsimp only
    cases hup : db.upsertByPath mountId x itemId with
    | none =>
      rw [hup] at hsome
      cases hsome
    | some db' =>
      rw [Option.isSome_map]
      exact getByRemotePath_isSome_of_upsertByPath hup
  | some r =>
    obtain ⟨hri, hrm, hrid⟩ := foundById hid
    have htarget : db.upsertTarget mountId x itemId = some r := by
      rw [upsertTarget, hid, Option.some_or]
    have hmem := mem_rows_of_getByInode hri
    have hat : ∀ c ∈ db.fileIndex.rows, c.mountId = mountId → c.remotePath = x.remotePath →
        db.getByRemotePath mountId x.remotePath = some c := by
      rintro c hc rfl hp
      exact hp ▸ getByRemotePath_self (getByInode_of_mem hc)
    -- the row at the new path goes, and only that one
    obtain ⟨db₁, hclear, hrows⟩ : ∃ db₁,
        (if r.remotePath = x.remotePath then some db
          else db.deleteRows fun q =>
            q.mountId = mountId ∧ q.remotePath = x.remotePath ∧ q.inode ≠ r.inode) = some db₁ ∧
        ∀ c, c ∈ db₁.fileIndex.rows ↔ c ∈ db.fileIndex.rows ∧
          (c.mountId = mountId → c.remotePath = x.remotePath → c.inode = r.inode) := by
      split
      · rename_i hp
        refine ⟨db, rfl, fun c => ⟨fun hc => ⟨hc, fun hm hcp => ?_⟩, And.left⟩⟩
        rw [Option.some.inj ((hat c hc hm hcp).symm.trans (hat r hmem hrm hp))]
      · rename_i hp
        obtain ⟨db₁, h₁⟩ := Option.isSome_iff_exists.1 (clear_isSome (h.clear r hid hp) r.inode)
        refine ⟨db₁, h₁, fun c => ?_⟩
        rw [mem_rows_deleteRows h₁]
        simp
    have hfits : db₁.Fits (refreshRow x r) := by
      refine ⟨?_, ?_, ?_, ?_, ?_⟩
      · exact fun c hc hci hm hp => hci (((hrows c).1 hc).2 (hm.trans hrm) hp)
      · intro c hc hci hm _ hp hn
        obtain ⟨hc, hpath⟩ := (hrows c).1 hc
        rcases h.name c hc (hm.trans hrm) hp hn with hcp | ⟨t, ht, hti⟩
        · exact hci (hpath (hm.trans hrm) hcp)
        · obtain rfl := Option.some.inj (htarget.symm.trans ht)
          exact hci hti.symm
      · intro c hc hci hm hs heq
        have hcr : c = r := UpsertOutcome.eq_of_itemId ((hrows c).1 hc).1 hmem hm hs heq
        exact hci (by rw [hcr]; rfl)
      · rintro p ⟨⟩
        obtain ⟨q, hq⟩ := Option.isSome_iff_exists.1 h.parent
        have hqi := inode_of_getByInode hq
        have hqmem := mem_rows_of_getByInode hq
        refine ⟨q, (hrows q).2 ⟨hqmem, fun hm hp => ?_⟩, hqi⟩
        by_cases hrp : r.remotePath = x.remotePath
        · rw [Option.some.inj ((hat q hqmem hm hp).symm.trans (hat r hmem hrm hrp))]
        · exact absurd hqi (h.clear r hid hrp q (hat q hqmem hm hp)).2
      · exact fun hk hs => h.cachePath r htarget hk (claimsCacheFile_refreshed hs)
    have hr₁ : db₁.getByInode r.inode = some r :=
      getByInode_of_mem ((hrows r).2 ⟨hmem, fun _ _ => rfl⟩)
    obtain ⟨db₂, h₂⟩ := Option.isSome_iff_exists.1
      (updateRow_isSome_of_fits (f := refreshRow x) hr₁ (fun _ => rfl) hfits)
    dsimp only
    rw [hclear]
    dsimp only
    rw [h₂]
    rfl

end Db

end Stratosync

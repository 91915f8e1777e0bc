import Stratosync.State.Db

/-!
# Base versions and version history

The `base_versions` and `version_history` tables of migrations 0004 and 0005 and the methods of
`StateDb` on them. Both name blobs of the base store by their hash; `names` has the rows with the
blobs they name.

A row of either goes with the row of `file_index` that it refers to.
-/

namespace Stratosync

open Foundations

/-- A row of `base_versions`. -/
structure BaseVersion where
  inode : Inode
  mountId : ℕ
  objectHash : Str
  fileSize : ℕ
  updatedAt : ℕ
  deriving DecidableEq, Repr

inductive VersionSource
  | beforePoll
  | afterUpload
  | manual
  deriving DecidableEq, Repr

/-- A row of `version_history`. -/
structure VersionEntry where
  id : ℕ
  inode : Inode
  mountId : ℕ
  objectHash : Str
  recordedAt : ℕ
  fileSize : ℕ
  etag : Option Str
  source : VersionSource
  deriving DecidableEq, Repr

def BaseVersion.key (b : BaseVersion) : Inode × ℕ := (b.inode, b.mountId)

abbrev BaseKeys (rows : List BaseVersion) : Prop := (rows.map BaseVersion.key).Nodup

abbrev VersionIds (rows : List VersionEntry) : Prop := (rows.map VersionEntry.id).Nodup

/-- The tables that name blobs, beside the others. -/
structure VersionDb where
  db : Db
  bases : Table BaseVersion BaseKeys
  history : Table VersionEntry VersionIds
  seq : ℕ

namespace VersionDb

variable (v : VersionDb)

/-! ## Base versions -/

/-- Record the hash of the last known-good base version for a file. -/
def setBaseHash (i : Inode) (mountId : ℕ) (hash : Str) (size : ℕ) : Option VersionDb :=
  if !(v.db.getByInode i).isSome then none
  else
    (if v.bases.rows.any fun b => b.key = (i, mountId) then
      v.bases.update (fun b => b.key = (i, mountId)) fun b =>
        { b with objectHash := hash, fileSize := size, updatedAt := v.db.now }
    else v.bases.insert ⟨i, mountId, hash, size, v.db.now⟩).map fun t => { v with bases := t }

def getBaseHash (i : Inode) (mountId : ℕ) : Option Str :=
  (v.bases.get BaseVersion.key (i, mountId)).map BaseVersion.objectHash

def removeBaseHash (i : Inode) (mountId : ℕ) : Option VersionDb :=
  (v.bases.delete fun b => b.key = (i, mountId)).map fun t => { v with bases := t }

/-- How many rows of `base_versions` name the blob. -/
def baseHashRefCount (hash : Str) : ℕ :=
  (v.bases.rows.filter fun b => b.objectHash = hash).length

/-- The rows of `base_versions` of files that are neither dirty nor uploading, last updated more
than `maxAgeDays` ago. -/
def staleBaseEntries (mountId maxAgeDays limit : ℕ) : List (Inode × Str × ℕ) :=
  let stale := v.bases.rows.filter fun b =>
    b.mountId = mountId &&
      (v.db.getByInode b.inode).any (fun r => r.mountId = b.mountId && !r.status.isUnsynced) &&
        b.updatedAt + maxAgeDays * 86400 < v.db.now
  ((stale.insertionSort fun a b => a.updatedAt ≤ b.updatedAt).take limit).map fun b =>
    (b.inode, b.objectHash, b.fileSize)

/-! ## Version history -/

/-- `AUTOINCREMENT`. -/
def nextVersion : ℕ := (v.history.rows.map VersionEntry.id).foldl max v.seq + 1

/-- Insert a row into `version_history`. Returns its id. -/
def insertVersionHistory (i : Inode) (mountId : ℕ) (hash : Str) (size : ℕ) (etag : Option Str)
    (source : VersionSource) : Option (ℕ × VersionDb) :=
  if !(v.db.getByInode i).isSome then none
  else
    (v.history.insert ⟨v.nextVersion, i, mountId, hash, v.db.now, size, etag, source⟩).map
      fun t => (v.nextVersion, { v with history := t, seq := v.nextVersion })

/-- The versions of a file, newest first. -/
def listVersionHistory (i : Inode) : List VersionEntry :=
  (v.history.rows.filter fun e => e.inode = i).insertionSort fun a b =>
    b.recordedAt < a.recordedAt ∨ b.recordedAt = a.recordedAt ∧ b.id ≤ a.id

/-- The versions of a file but the newest `keep`. -/
def staleVersions (i : Inode) (keep : ℕ) : List VersionEntry := (v.listVersionHistory i).drop keep

/-- A row of either table names the blob. -/
def references (hash : Str) : Bool :=
  v.history.rows.any (fun e => e.objectHash = hash) ||
    v.bases.rows.any fun b => b.objectHash = hash

/-- The tables without the versions of a file but the newest `keep`. -/
def dropStaleVersions (i : Inode) (keep : ℕ) : Option VersionDb :=
  let stale := v.staleVersions i keep
  (v.history.delete fun e => stale.any fun s => s.id = e.id).map fun t => { v with history := t }

/-- Trim the history of a file to the newest `keep` rows. Returns the blobs of the dropped rows
that no row names any more. -/
def pruneVersionHistory (i : Inode) (keep : ℕ) : Option (List Str × VersionDb) :=
  let stale := v.staleVersions i keep
  if stale = [] then some ([], v)
  else (v.dropStaleVersions i keep).map fun v' =>
    ((stale.map VersionEntry.objectHash).filter fun hash => !v'.references hash, v')

/-- Another state of `file_index` and the clock; the rows that refer to a dropped row go with it. -/
def withFiles (db : Db) : Option VersionDb :=
  (v.bases.delete fun b => !(db.getByInode b.inode).isSome).bind fun bases =>
    (v.history.delete fun e => !(db.getByInode e.inode).isSome).map fun history =>
      { v with db, bases, history }

/-! ## The blobs that are named -/

/-- A row of one of the tables. -/
inductive Row
  | base (key : Inode × ℕ)
  | version (id : ℕ)
  deriving DecidableEq, Repr

/-- The row names the blob. -/
def Names (r : Row) (hash : Str) : Prop :=
  match r with
  | .base key => ∃ b ∈ v.bases.rows, b.key = key ∧ b.objectHash = hash
  | .version id => ∃ e ∈ v.history.rows, e.id = id ∧ e.objectHash = hash

def names : Set (Row × Str) := { x | v.Names x.1 x.2 }

variable {v v' : VersionDb} {i : Inode} {mountId : ℕ} {hash : Str}

theorem references_iff : v.references hash = true ↔ ∃ r, v.Names r hash := by
  rw [references, Bool.or_eq_true, List.any_eq_true, List.any_eq_true]
  constructor
  · rintro (⟨e, he, hh⟩ | ⟨b, hb, hh⟩)
    · exact ⟨.version e.id, e, he, rfl, of_decide_eq_true hh⟩
    · exact ⟨.base b.key, b, hb, rfl, of_decide_eq_true hh⟩
  · rintro ⟨key | id, b, hb, -, hh⟩
    · exact .inr ⟨b, hb, decide_eq_true hh⟩
    · exact .inl ⟨b, hb, decide_eq_true hh⟩

theorem names_mono (hb : ∀ b ∈ v'.bases.rows, b ∈ v.bases.rows)
    (hh : ∀ e ∈ v'.history.rows, e ∈ v.history.rows) : v'.names ⊆ v.names := by
  rintro ⟨key | id, hash⟩ ⟨b, hmem, hx⟩
  · exact ⟨b, hb b hmem, hx⟩
  · exact ⟨b, hh b hmem, hx⟩

theorem setBaseHash_rows {size : ℕ} (h : v.setBaseHash i mountId hash size = some v') :
    v'.history = v.history ∧ ∀ b ∈ v'.bases.rows,
      b.key = (i, mountId) ∧ b.objectHash = hash ∨ b ∈ v.bases.rows := by
  rw [setBaseHash] at h
  split at h
  · cases h
  obtain ⟨t, ht, rfl⟩ := Option.map_eq_some_iff.1 h
  refine ⟨rfl, fun b hb => ?_⟩
  split at ht
  · rw [show t.rows = _ from Table.commit_eq_some.1 ht] at hb
    obtain ⟨b₀, hb₀, rfl⟩ := List.mem_map.1 hb
    split
    · rename_i hkey
      exact .inl ⟨of_decide_eq_true hkey, rfl⟩
    · exact .inr hb₀
  · rw [show t.rows = _ from Table.commit_eq_some.1 ht] at hb
    obtain hb | hb := List.mem_append.1 hb
    · exact .inr hb
    · rw [List.mem_singleton.1 hb]
      exact .inl ⟨rfl, rfl⟩

/-- The hash that is recorded for a file is the one that is looked up, and that of no other. -/
theorem getBaseHash_setBaseHash {size : ℕ} (h : v.setBaseHash i mountId hash size = some v')
    (j : Inode) (n : ℕ) : v'.getBaseHash j n =
      if (j, n) = (i, mountId) then some hash else v.getBaseHash j n := by
  have hkey : Table.IsKey BaseVersion.key BaseKeys := fun _ hk => hk
  have hsame : ∀ b : BaseVersion,
      { b with objectHash := hash, fileSize := size, updatedAt := v.db.now }.key = b.key :=
    fun _ => rfl
  rw [setBaseHash] at h
  split at h
  · cases h
  obtain ⟨t, ht, rfl⟩ := Option.map_eq_some_iff.1 h
  change (t.get BaseVersion.key (j, n)).map BaseVersion.objectHash = _
  split at ht
  · rename_i hany
    rw [Table.get_update hsame ht, getBaseHash]
    split
    · rename_i hjn
      obtain ⟨b, hb, hbk⟩ := List.any_eq_true.1 hany
      have hget := (Table.mem_rows_iff hkey).1 hb
      rw [of_decide_eq_true hbk] at hget
      rw [hjn, hget, Option.map_some, if_pos hbk]
      rfl
    · rename_i hjn
      cases hget : v.bases.get BaseVersion.key (j, n) with
      | none => rfl
      | some b =>
        rw [Option.map_some, if_neg]
        rw [decide_eq_true_eq, Table.key_of_get hget]
        exact hjn
  · have hget := Table.get_insert hkey ht (j, n)
    split
    · rename_i hjn
      rw [hget.trans (if_pos hjn)]
      rfl
    · rename_i hjn
      rw [hget.trans (if_neg hjn)]
      rfl

theorem names_setBaseHash {size : ℕ} (h : v.setBaseHash i mountId hash size = some v') :
    v'.names ⊆ insert (.base (i, mountId), hash) v.names := by
  obtain ⟨hhist, hrows⟩ := setBaseHash_rows h
  rintro ⟨key | id, hash'⟩ ⟨b, hb, hkey, hh⟩
  · obtain ⟨hkey', hh'⟩ | hb := hrows b hb
    · exact .inl (Prod.ext (congrArg Row.base (hkey.symm.trans hkey')) (hh.symm.trans hh'))
    · exact .inr ⟨b, hb, hkey, hh⟩
  · exact .inr ⟨b, hhist ▸ hb, hkey, hh⟩

theorem removeBaseHash_rows (h : v.removeBaseHash i mountId = some v') :
    v'.history = v.history ∧ ∀ b, b ∈ v'.bases.rows ↔ b ∈ v.bases.rows ∧ b.key ≠ (i, mountId) := by
  obtain ⟨t, ht, rfl⟩ := Option.map_eq_some_iff.1 h
  refine ⟨rfl, fun b => ?_⟩
  rw [show t.rows = _ from Table.commit_eq_some.1 ht, List.mem_filter]
  simp

theorem names_removeBaseHash (h : v.removeBaseHash i mountId = some v') :
    v'.names ⊆ v.names ∧ ∀ hash, (.base (i, mountId), hash) ∉ v'.names := by
  obtain ⟨hhist, hrows⟩ := removeBaseHash_rows h
  refine ⟨names_mono (fun b hb => ((hrows b).1 hb).1) fun e he => hhist ▸ he, ?_⟩
  rintro hash ⟨b, hb, hkey, -⟩
  exact ((hrows b).1 hb).2 hkey

theorem names_insertVersionHistory {size id : ℕ} {etag : Option Str} {source : VersionSource}
    (h : v.insertVersionHistory i mountId hash size etag source = some (id, v')) :
    v'.names ⊆ insert (.version id, hash) v.names := by
  rw [insertVersionHistory] at h
  split at h
  · cases h
  obtain ⟨t, ht, he⟩ := Option.map_eq_some_iff.1 h
  obtain ⟨rfl, rfl⟩ := Prod.mk.inj he
  rintro ⟨key | id, hash'⟩ ⟨b, hb, hid, hh⟩
  · exact .inr ⟨b, hb, hid, hh⟩
  · rw [show t.rows = _ from Table.commit_eq_some.1 ht] at hb
    obtain hb | hb := List.mem_append.1 hb
    · exact .inr ⟨b, hb, hid, hh⟩
    · rw [List.mem_singleton.1 hb] at hid hh
      exact .inl (Prod.ext (congrArg Row.version hid.symm) hh.symm)

theorem names_dropStaleVersions {keep : ℕ} (h : v.dropStaleVersions i keep = some v') :
    v'.names ⊆ v.names := by
  obtain ⟨t, ht, rfl⟩ := Option.map_eq_some_iff.1 h
  refine names_mono (fun b hb => hb) fun e he => ?_
  rw [show t.rows = _ from Table.commit_eq_some.1 ht] at he
  exact (List.mem_filter.1 he).1

/-- **What is pruned is named by no row**; the other rows stay. -/
theorem names_pruneVersionHistory {keep : ℕ} {orphans : List Str}
    (h : v.pruneVersionHistory i keep = some (orphans, v')) :
    v'.names ⊆ v.names ∧ ∀ hash ∈ orphans, v'.references hash = false ∧
      v.dropStaleVersions i keep = some v' ∧
        ∃ e ∈ v.staleVersions i keep, e.objectHash = hash := by
  rw [pruneVersionHistory] at h
  split at h
  · obtain ⟨rfl, rfl⟩ := Prod.mk.inj (Option.some.inj h)
    exact ⟨subset_rfl, nofun⟩
  obtain ⟨t, ht, he⟩ := Option.map_eq_some_iff.1 h
  obtain ⟨rfl, rfl⟩ := Prod.mk.inj he
  refine ⟨names_dropStaleVersions ht, fun hash hmem => ?_⟩
  obtain ⟨hstale, hnot⟩ := List.mem_filter.1 hmem
  rw [Bool.not_eq_true'] at hnot
  exact ⟨hnot, ht, List.mem_map.1 hstale⟩

theorem names_withFiles {db : Db} (h : v.withFiles db = some v') : v'.names ⊆ v.names := by
  obtain ⟨bases, hb, h⟩ := Option.bind_eq_some_iff.1 h
  obtain ⟨history, hh, rfl⟩ := Option.map_eq_some_iff.1 h
  refine names_mono (fun b hmem => ?_) fun e hmem => ?_
  · rw [show bases.rows = _ from Table.commit_eq_some.1 hb] at hmem
    exact (List.mem_filter.1 hmem).1
  · rw [show history.rows = _ from Table.commit_eq_some.1 hh] at hmem
    exact (List.mem_filter.1 hmem).1

end VersionDb

end Stratosync

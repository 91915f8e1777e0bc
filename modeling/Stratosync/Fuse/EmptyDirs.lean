import Stratosync.Daemon.Step
import Stratosync.Fuse.Listing

/-!
# Removing directories

`handle_rmdir` takes a directory to be empty when the index has no row in it, and then purges it
on the remote with all that is below. The history variable `Deleted` has the remote paths this
client deleted. `purgesDeleted_iff` says when the purge takes nothing else: exactly when the index
has some row in each directory with other objects below it.

`populateDirectory` is how the index learns of the objects in a directory. Its filters leave out
unsafe names and what a tombstone covers. After a listing it did not have to leave anything out of,
the index has such a row (`purgesDeleted_of_populated`); `lookup` and `readdir` make one first
where a directory was never listed, `rmdir` does not.
-/

namespace Stratosync

open Foundations Foundations.Runs

/-! ## Listing a directory -/

/-- `populate_directory`, given what the backend answers to the listing. Says whether it succeeded;
a directory that exists locally counts as empty when it cannot be listed. -/
def populateDirectory (db : Db) (mountId : ℕ) (dir : FileEntry)
    (listing : Except SyncError (List RemoteMetadata)) : Bool × Db :=
  match listing with
  | .error _ =>
    if dir.status.needsHydration then (false, db)
    else
      match db.markDirListed dir.inode with
      | some db' => (true, db')
      | none => (false, db)
  | .ok children =>
    let entries := listedEntries (db.activeTombstones mountId) dir children
    match db.batchUpsertRemoteFilesGen mountId dir.inode entries 0 with
    | (false, db₁) => (false, db₁)
    | (true, db₁) =>
      match db₁.markDirListed dir.inode with
      | some db₂ => (true, db₂)
      | none => (false, db₁)

/-! ## What this client deleted -/

/-- Remote paths. -/
abbrev Deleted := List Str

/-- The paths of the rows a request deletes when it succeeds: by an unlink, an rmdir, or a rename
over them. -/
def recordDeleted (m : Mount) (w : World) (ev : Event) (_ : World) (g : Deleted) : Deleted :=
  match ev with
  | .request (.unlink p n) =>
    if (handleUnlink m w p n).1 = .ok () then
      ((w.db.getByParentName m.mountId p n).map FileEntry.remotePath).toList ++ g
    else g
  | .request (.rmdir p n) =>
    if (handleRmdir m w p n).1 = .ok () then
      ((w.db.getByParentName m.mountId p n).map FileEntry.remotePath).toList ++ g
    else g
  | .request (.rename p n p' n') =>
    if (handleRename m w p n p' n').1 = .ok () then
      ((w.db.getByParentName m.mountId p' n').map FileEntry.remotePath).toList ++ g
    else g
  | _ => g

/-- The system with the history of deleted paths. -/
abbrev deletedStep (m : Mount) : World × Deleted → Event → Option (World × Deleted) :=
  withHistory (step m) (recordDeleted m)

/-- There is an object or a directory below the path that this client did not delete. -/
def HoldsOthers (remote : Remote) (g : Deleted) (dir : Str) : Prop :=
  ∃ q, atOrBelow dir q = true ∧ q ≠ dir ∧ (remote q).isSome = true ∧ q ∉ g

/-- **The purge an rmdir issues takes nothing but what this client deleted.** -/
def PurgesDeleted (m : Mount) (x : World × Deleted) (p : Inode) (n : Str) : Prop :=
  ∀ path, (handleRmdir m x.1 p n).2.background = x.1.background ++ [.rmdir path] →
    ¬HoldsOthers x.1.remote x.2 path

/-- The index has a row in the directory at `(p, n)` if there is something below it that this
client did not delete. -/
def IndexHolds (m : Mount) (x : World × Deleted) (p : Inode) (n : Str) : Prop :=
  ∀ r, x.1.db.getByParentName m.mountId p n = some r → r.kind = .directory →
    HoldsOthers x.1.remote x.2 r.remotePath → ∃ c ∈ x.1.db.fileIndex.rows, c.parent = some r.inode

variable {m : Mount} {w : World} {p : Inode} {n : Str}

/-- **When a directory is removed**: the index has no row in it. -/
theorem handleRmdir_background {path : Str} :
    (handleRmdir m w p n).2.background = w.background ++ [.rmdir path] ↔
      ∃ r, w.db.getByParentName m.mountId p n = some r ∧ r.kind = .directory ∧
        r.remotePath = path ∧ ∀ c ∈ w.db.fileIndex.rows, c.parent ≠ some r.inode := by
  have hself : w.background ≠ w.background ++ [.rmdir path] := by simp
  rw [handleRmdir]
  cases hr : w.db.getByParentName m.mountId p n with
  | none => simp
  | some r =>
    by_cases hk : r.kind = .directory
    swap
    · simp [hk]
    simp only [hk, ne_eq, not_true_eq_false, if_false, Option.some.injEq, exists_eq_left',
      true_and]
    by_cases hc : w.db.listChildren m.mountId r.inode = []
    · rw [if_neg (not_not_intro hc)]
      cases hd : w.db.deleteEntry r.inode with
      | none =>
        -- a row of another mount is in the directory
        simp only [hself, false_iff]
        rintro ⟨-, hall⟩
        have := Db.deleteEntry_isSome_iff.2 fun c hc _ => hall c hc
        simp [hd] at this
      | some db =>
        simp only [List.append_cancel_left_eq, List.cons.injEq, Background.rmdir.injEq, and_true]
        refine ⟨fun h => ⟨h, fun c hc' hp => ?_⟩, And.left⟩
        by_cases hi : c.inode = r.inode
        · have hrow := (Db.getByParentName_spec hr).1
          obtain rfl : c = r := Option.some.inj
            ((Db.getByInode_of_mem hc').symm.trans (hi ▸ hrow))
          have hmem := Db.mem_listChildren.2 ⟨hc', (Db.getByParentName_spec hr).2.1, hp⟩
          rw [hc] at hmem
          cases hmem
        · exact Db.deleteEntry_isSome_iff.1 (by rw [hd]; rfl) c hc' hi hp
    · rw [if_pos hc]
      simp only [hself, false_iff]
      rintro ⟨-, hall⟩
      obtain ⟨c, hmem⟩ := List.exists_mem_of_ne_nil _ hc
      obtain ⟨hc', -, hp⟩ := Db.mem_listChildren.1 hmem
      exact hall c hc' hp

/-- **An rmdir takes nothing but what this client deleted** exactly when the index knows of
something in each directory that holds anything else. -/
theorem purgesDeleted_iff (m : Mount) (x : World × Deleted) (p : Inode) (n : Str) :
    PurgesDeleted m x p n ↔ IndexHolds m x p n := by
  constructor
  · intro h r hr hk hothers
    by_contra hnone
    push Not at hnone
    exact h r.remotePath (handleRmdir_background.2 ⟨r, hr, hk, rfl, hnone⟩) hothers
  · intro h path hback hothers
    obtain ⟨r, hr, hk, rfl, hnone⟩ := handleRmdir_background.1 hback
    obtain ⟨c, hc, hp⟩ := h r hr hk hothers
    exact hnone c hc hp

/-- A directory of the remote is reported and removed before it was ever listed. -/
def reportDirectory : List Event :=
  [.foreign (.put ['d', '/', 'x'] ⟨[1], some ['v'], 0, none⟩),
    .poll (.upsert 1
      { parent := fuseRootInode, name := ['d'], remotePath := ['d'], kind := .directory, size := 0
        mtime := 0, etag := none, pollGeneration := 0 } none)]

theorem not_purgesDeleted_reportDirectory :
    ¬∀ (m : Mount) (evs : List Event) (x : World × Deleted) (p : Inode) (n : Str),
      run (deletedStep m) (World.init m 0, []) evs = some x → PurgesDeleted m x p n := by
  intro h
  exact h sampleMount reportDirectory _ fuseRootInode ['d'] rfl ['d'] rfl
    ⟨['d', '/', 'x'], by decide, by decide, rfl, List.not_mem_nil⟩

/-! ## After a listing -/

/-- Some row is in the directory with inode `i`. -/
def HasRowIn (db : Db) (i : Inode) : Prop := ∃ c ∈ db.fileIndex.rows, c.parent = some i

variable {db db' : Db} {mountId : ℕ} {i : Inode}

theorem hasRowIn_iff : HasRowIn db i ↔ ∃ j c, db.getByInode j = some c ∧ c.parent = some i :=
  ⟨fun ⟨c, hc, hp⟩ => ⟨_, c, Db.getByInode_of_mem hc, hp⟩,
    fun ⟨_, c, hc, hp⟩ => ⟨c, Db.mem_rows_of_getByInode hc, hp⟩⟩

/-- An upsert of an entry of the directory puts a row in it, and takes none out. -/
theorem hasRowIn_of_upsertByPath {e : ListedEntry} {g : ℕ} {id : Option Str}
    (h : db.upsertByPath mountId (e.toRefresh i g) id = some db') : HasRowIn db' i := by
  rw [Db.upsertByPath] at h
  split at h
  · rename_i r hr
    have hmap := Db.rowMapped_of_updateRow h fun _ => rfl
    have hrow := hmap.self
    rw [(Db.getByRemotePath_spec hr).1] at hrow
    exact hasRowIn_iff.2 ⟨_, _, hrow, rfl⟩
  · have hrow := Db.getByInode_insertRow h db.nextInode
    rw [if_pos rfl] at hrow
    exact hasRowIn_iff.2 ⟨_, _, hrow, rfl⟩

theorem hasRowIn_of_upsertChunk {g : ℕ} {c : List ListedEntry} (hc : HasRowIn db i ∨ c ≠ [])
    (h : db.upsertChunk mountId i g c = some db') : HasRowIn db' i := by
  induction c generalizing db with
  | nil =>
    rw [Db.upsertChunk, List.foldlM_nil] at h
    exact Option.some.inj h ▸ hc.resolve_right (absurd rfl)
  | cons e c ih =>
    rw [Db.upsertChunk, List.foldlM_cons] at h
    obtain ⟨db₁, h₁, h₂⟩ := Option.bind_eq_some_iff.1 h
    exact ih (.inl (hasRowIn_of_upsertByPath h₁)) h₂

theorem hasRowIn_of_upsertChunks {g : ℕ} {cs : List (List ListedEntry)}
    (hcs : HasRowIn db i ∨ cs.flatten ≠ [])
    (h : Db.upsertChunks mountId i g db cs = (true, db')) : HasRowIn db' i := by
  induction cs generalizing db with
  | nil =>
    obtain ⟨-, rfl⟩ := Prod.mk.inj h
    exact hcs.resolve_right (absurd rfl)
  | cons c cs ih =>
    rw [Db.upsertChunks] at h
    split at h
    · rename_i db₁ h₁
      by_cases hc : HasRowIn db i ∨ c ≠ []
      · exact ih (.inl (hasRowIn_of_upsertChunk hc h₁)) h
      · push Not at hc
        refine ih (.inr ?_) h
        simpa [hc.2] using hcs.resolve_left hc.1
    · cases h

/-- **A listing puts a row in its directory** unless it leaves out every entry. -/
theorem hasRowIn_of_populateDirectory {dir : FileEntry} {children : List RemoteMetadata}
    (hne : listedEntries (db.activeTombstones mountId) dir children ≠ [])
    (h : populateDirectory db mountId dir (.ok children) = (true, db')) :
    HasRowIn db' dir.inode := by
  simp only [populateDirectory] at h
  split at h
  · cases h
  rename_i db₁ h₁
  have hbatch : HasRowIn db₁ dir.inode :=
    hasRowIn_of_upsertChunks (.inr (by rwa [flatten_chunks])) h₁
  split at h
  · rename_i db₂ h₂
    obtain ⟨-, rfl⟩ := Prod.mk.inj h
    obtain ⟨j, c, hc, hp⟩ := hasRowIn_iff.1 hbatch
    have hrow := (Db.rowMapped_of_updateRow h₂ fun _ => rfl).rows j
    rw [hc] at hrow
    split at hrow
    · exact hasRowIn_iff.2 ⟨j, _, hrow, hp⟩
    · exact hasRowIn_iff.2 ⟨j, _, hrow, hp⟩
  · cases h

/-- The listing has everything in the directory, its names are safe, and what the tombstones hide
is what this client deleted. -/
structure ListsAll (m : Mount) (x : World × Deleted) (dir : FileEntry)
    (children : List RemoteMetadata) : Prop where
  complete : ∀ q, atOrBelow dir.remotePath q = true → q ≠ dir.remotePath →
    (x.1.remote q).isSome = true →
      ∃ c ∈ children, atOrBelow (joinRemote dir.remotePath c.name) q = true
  safe : ∀ c ∈ children, safeListedName c.name = true
  tombstones : ∀ t ∈ x.1.db.activeTombstones m.mountId, ∀ q, atOrBelow t q = true →
    (x.1.remote q).isSome = true → q ∈ x.2

/-- **A listed directory is safe to remove**: an rmdir right after a listing that left nothing out
takes nothing but what this client deleted. -/
theorem purgesDeleted_of_populated {x : World × Deleted} {dir r : FileEntry}
    {children : List RemoteMetadata} (hl : ListsAll m x dir children)
    (h : populateDirectory x.1.db m.mountId dir (.ok children) = (true, db'))
    (hr : db'.getByParentName m.mountId p n = some r) (hi : r.inode = dir.inode)
    (hp : r.remotePath = dir.remotePath) :
    PurgesDeleted m ({ x.1 with db := db' }, x.2) p n := by
  rw [purgesDeleted_iff]
  intro r' hr' _ hothers
  obtain rfl : r = r' := Option.some.inj (hr.symm.trans hr')
  obtain ⟨q, hbelow, hne, hsome, hother⟩ := hothers
  rw [hp] at hbelow hne
  obtain ⟨c, hc, hcq⟩ := hl.complete q hbelow hne hsome
  rw [hi]
  refine hasRowIn_of_populateDirectory (fun hnil => ?_) h
  -- the entry the object is at or below is not left out
  have hkept : ∀ t ∈ x.1.db.activeTombstones m.mountId,
      atOrBelow t (joinRemote dir.remotePath c.name) = false := by
    intro t ht
    by_contra hbt
    exact hother (hl.tombstones t ht q (atOrBelow_trans (by simpa using hbt) hcq) hsome)
  rw [listedEntries, List.map_eq_nil_iff, List.filter_eq_nil_iff] at hnil
  refine hnil c hc ?_
  rw [hl.safe c hc, Bool.true_and, Bool.not_eq_true', List.any_eq_false]
  exact fun t ht => by simp [hkept t ht]

end Stratosync

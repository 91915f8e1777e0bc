import Stratosync.State.RemoteOps

/-!
# The pins of `cache_lru`

A pin is a flag of an inode's entry in `cache_lru`, and the entry goes when the row of the inode
does. Every statement leaves the pins of the rows it leaves, with two exceptions: `set_evicted` and
`revert_dirty_with_missing_cache` delete the entry and leave the row. `LruStep lost` is what all of
them do, `lost` the inodes whose entries these two delete.
-/

namespace Stratosync

namespace Db

/-- `cache_lru` has the inode as pinned. -/
def isPinned (db : Db) (i : Inode) : Bool := db.cacheLru.any fun l => l.inode = i && l.pinned

/-- The reference of `cache_lru` to `file_index`. -/
def LruRows (db : Db) : Prop := ∀ l ∈ db.cacheLru, (db.getByInode l.inode).isSome = true

/-- What statements do to the pins. `lost` are the inodes that lose their entries and keep their
rows. -/
structure LruStep (lost : Set Inode) (db db' : Db) : Prop where
  seq : db.seq ≤ db'.seq
  rows : ∀ i ≤ db.seq, (db'.getByInode i).isSome = true → (db.getByInode i).isSome = true
  kept : ∀ i ≤ db.seq, i ∉ lost → db.isPinned i = true → (db'.getByInode i).isSome = true →
    db'.isPinned i = true
  gone : ∀ i ∈ lost, db'.isPinned i = false
  old : ∀ i, db'.isPinned i = true → db.isPinned i = true
  keys : db.LruRows → db'.LruRows

variable {db db' db'' : Db} {i j : Inode}

theorem isPinned_iff :
    db.isPinned i = true ↔ ∃ l ∈ db.cacheLru, l.inode = i ∧ l.pinned = true := by
  simp [isPinned]

theorem isPinned_congr (h : db'.cacheLru = db.cacheLru) (i : Inode) :
    db'.isPinned i = db.isPinned i := by
  rw [isPinned, h, isPinned]

/-- A pinned inode has a row. -/
theorem LruRows.isSome (h : db.LruRows) (hi : db.isPinned i = true) :
    (db.getByInode i).isSome = true := by
  obtain ⟨l, hl, rfl, -⟩ := isPinned_iff.1 hi
  exact h l hl

theorem LruStep.refl : LruStep ∅ db db :=
  ⟨le_rfl, fun _ _ h => h, fun _ _ _ h _ => h, fun _ h => h.elim, fun _ h => h, fun h => h⟩

theorem LruStep.trans (h : LruStep ∅ db db') (h' : LruStep ∅ db' db'') : LruStep ∅ db db'' where
  seq := h.seq.trans h'.seq
  rows i hi hr := h.rows i hi (h'.rows i (hi.trans h.seq) hr)
  kept i hi hl hp hr := by
    have hr' := h'.rows i (hi.trans h.seq) hr
    exact h'.kept i (hi.trans h.seq) hl (h.kept i hi hl hp hr') hr
  gone _ hi := hi.elim
  old i hp := h.old i (h'.old i hp)
  keys hk := h'.keys (h.keys hk)

/-- A statement that leaves `cache_lru`, and under the old inodes enters no row and deletes none. -/
theorem lruStep_of_rows (hl : db'.cacheLru = db.cacheLru) (hseq : db.seq ≤ db'.seq)
    (hrows : ∀ i ≤ db.seq, (db'.getByInode i).isSome = true → (db.getByInode i).isSome = true)
    (hkept : ∀ i, (db.getByInode i).isSome = true → (db'.getByInode i).isSome = true) :
    LruStep ∅ db db' where
  seq := hseq
  rows := hrows
  kept i _ _ hp _ := isPinned_congr hl i ▸ hp
  gone _ hi := hi.elim
  old i hp := isPinned_congr hl i ▸ hp
  keys hk l hl' := hkept _ (hk l (hl ▸ hl'))

/-- A statement that leaves both tables. -/
theorem lruStep_of_eq (hl : db'.cacheLru = db.cacheLru) (h : SameRows db db') :
    LruStep ∅ db db' :=
  lruStep_of_rows hl h.seq.ge (fun i _ hr => h.rows i ▸ hr) fun i hr => (h.rows i).symm ▸ hr

/-- `UPDATE file_index`. -/
theorem lruStep_updateWhere {p : FileEntry → Bool} {f : FileEntry → FileEntry}
    (h : db.updateWhere p f = some db') (hf : ∀ r, (f r).inode = r.inode) : LruStep ∅ db db' := by
  have hrows := getByInode_updateWhere h hf
  obtain ⟨t, -, rfl⟩ := Option.map_eq_some_iff.1 h
  exact lruStep_of_rows rfl le_rfl (fun i _ hr => by simpa [hrows] using hr)
    fun i hr => by simpa [hrows] using hr

theorem lruStep_updateRow {f : FileEntry → FileEntry} (h : db.updateRow i f = some db')
    (hf : ∀ r, (f r).inode = r.inode) : LruStep ∅ db db' :=
  lruStep_updateWhere h hf

/-- `INSERT INTO cache_lru .. ON CONFLICT(inode) DO UPDATE SET last_access`. -/
theorem lruStep_touchLru (h : db.touchLru i = some db') : LruStep ∅ db db' := by
  have hsame := sameRows_of_touchLru h
  have hpins : (∀ j, db'.isPinned j = db.isPinned j) ∧ (db.LruRows → db'.LruRows) := by
    rw [touchLru] at h
    split at h
    · cases h
    rename_i hrow
    split at h <;> rw [← Option.some.inj h]
    · constructor
      · intro j
        simp only [isPinned, List.any_map, Function.comp_def]
        congr 1
        funext l
        split <;> rfl
      · intro hk l hl
        obtain ⟨q, hq, rfl⟩ := List.mem_map.1 hl
        have hkey : (db.getByInode q.inode).isSome = true := hk q hq
        split <;> exact hkey
    · constructor
      · intro j
        simp [isPinned]
      · intro hk l hl
        obtain hl | hl := List.mem_append.1 hl
        · exact hk l hl
        · obtain rfl := List.mem_singleton.1 hl
          have hsome : (db.getByInode i).isSome = true :=
            Option.isSome_iff_ne_none.2 (by simpa using hrow)
          exact hsome
  exact {
    seq := hsame.seq.ge
    rows := fun j _ hr => hsame.rows j ▸ hr
    kept := fun j _ _ hp _ => (hpins.1 j).symm ▸ hp
    gone := fun _ hj => hj.elim
    old := fun j hp => hpins.1 j ▸ hp
    keys := hpins.2 }

/-- `DELETE FROM file_index`, which deletes the entries of its rows. -/
theorem lruStep_deleteRows {p : FileEntry → Bool} (h : db.deleteRows p = some db') :
    LruStep ∅ db db' := by
  have hrows := getByInode_deleteRows h
  have hseq := seq_deleteRows h
  obtain ⟨t, -, rfl⟩ := Option.map_eq_some_iff.1 h
  have hstay : ∀ j r, db.getByInode j = some r →
      (Option.filter (fun r => !p r) (db.getByInode j)).isSome = true → p r = false := by
    intro j r hr hs
    rw [hr] at hs
    simpa [Option.filter, apply_ite Option.isSome] using hs
  refine ⟨hseq.ge, fun i _ hr => ?_, fun i _ _ hp hr => ?_, fun _ hi => hi.elim, fun i hp => ?_,
    fun hk l hl => ?_⟩
  · rw [hrows] at hr
    cases hi : db.getByInode i with
    | none => simp [hi] at hr
    | some r => rfl
  · obtain ⟨l, hl, rfl, hpin⟩ := isPinned_iff.1 hp
    refine isPinned_iff.2 ⟨l, List.mem_filter.2 ⟨hl, ?_⟩, rfl, hpin⟩
    rw [hrows] at hr
    cases hi : db.getByInode l.inode with
    | none => rfl
    | some r => simp [hstay l.inode r hi hr]
  · obtain ⟨l, hl, hi, hpin⟩ := isPinned_iff.1 hp
    exact isPinned_iff.2 ⟨l, List.mem_of_mem_filter hl, hi, hpin⟩
  · obtain ⟨hl, hany⟩ := List.mem_filter.1 hl
    rw [hrows]
    obtain ⟨r, hr⟩ := Option.isSome_iff_exists.1 (hk l hl)
    rw [hr] at hany ⊢
    simpa [Option.filter, apply_ite Option.isSome] using hany

theorem lruStep_deleteEntry (h : db.deleteEntry i = some db') : LruStep ∅ db db' :=
  lruStep_deleteRows h

/-- `INSERT INTO file_index`. -/
theorem lruStep_insertRow {r : FileEntry} (h : db.insertRow r = some db') (hr : db.seq < r.inode) :
    LruStep ∅ db db' := by
  have hrows := getByInode_insertRow h
  have hseq := seq_insertRow h
  obtain ⟨t, -, rfl⟩ := Option.map_eq_some_iff.1 h
  refine lruStep_of_rows rfl (hseq ▸ hr.le) (fun i hi hs => ?_) fun i hs => ?_
  · rwa [hrows, if_neg (hi.trans_lt hr).ne] at hs
  · rw [hrows]
    split
    · rfl
    · exact hs

/-- `DELETE FROM cache_lru` after an update of the row. -/
theorem lruStep_dropLru (h : LruStep ∅ db db') : LruStep {i} db (db'.dropLru i) where
  seq := h.seq
  rows := h.rows
  kept j hj hne hp hr := by
    obtain ⟨l, hl, rfl, hpin⟩ := isPinned_iff.1 (h.kept j hj (by exact id) hp hr)
    exact isPinned_iff.2 ⟨l, List.mem_filter.2 ⟨hl, by simpa using hne⟩, rfl, hpin⟩
  gone j hj := by
    rw [Bool.eq_false_iff]
    intro hp
    obtain ⟨l, hl, rfl, -⟩ := isPinned_iff.1 hp
    have hne : l.inode ≠ i := by simpa using (List.mem_filter.1 hl).2
    exact hne hj
  old j hp := by
    obtain ⟨l, hl, hi, hpin⟩ := isPinned_iff.1 hp
    exact h.old j (isPinned_iff.2 ⟨l, List.mem_of_mem_filter hl, hi, hpin⟩)
  keys hk l hl := h.keys hk l (List.mem_of_mem_filter hl)

/-! ## The methods -/

theorem lruStep_setStatus {s : SyncStatus} (h : db.setStatus i s = some db') :
    LruStep ∅ db db' :=
  lruStep_updateRow h fun _ => rfl

theorem lruStep_setDirtySize {n : ℕ} (h : db.setDirtySize i n = some db') : LruStep ∅ db db' :=
  lruStep_updateRow h fun _ => rfl

theorem lruStep_setDirtyWithCachePath {p : PathBuf} {n : ℕ}
    (h : db.setDirtyWithCachePath i p n = some db') : LruStep ∅ db db' :=
  lruStep_updateRow h fun _ => rfl

theorem lruStep_setCached {p : PathBuf} {n k size : ℕ} {e : Option Str}
    (h : db.setCached i p n e k size = some db') : LruStep ∅ db db' := by
  obtain ⟨db₁, h₁, h₂⟩ := Option.bind_eq_some_iff.1 h
  exact (lruStep_updateRow h₁ fun _ => rfl).trans (lruStep_touchLru h₂)

theorem lruStep_setUploaded {n k size : ℕ} {e : Option Str}
    (h : db.setUploaded i n e k size = some db') : LruStep ∅ db db' := by
  obtain ⟨db₁, h₁, h₂⟩ := Option.bind_eq_some_iff.1 h
  exact (lruStep_updateRow h₁ fun _ => rfl).trans (lruStep_touchLru h₂)

theorem lruStep_setItemIdIfAbsent {id : Str} (h : db.setItemIdIfAbsent i id = some db') :
    LruStep ∅ db db' :=
  lruStep_updateRow h fun _ => rfl

theorem lruStep_renameEntry {q : Inode} {n p : Str} {c : Option PathBuf}
    (h : db.renameEntry i q n p c = some db') : LruStep ∅ db db' :=
  lruStep_updateRow h fun _ => rfl

theorem lruStep_insertFile {e : NewFileEntry} (h : db.insertFile e = some (i, db')) :
    LruStep ∅ db db' := by
  obtain ⟨db₁, h₁, he⟩ := Option.map_eq_some_iff.1 h
  obtain ⟨-, rfl⟩ := Prod.mk.inj he
  exact lruStep_insertRow h₁ db.seq_lt_nextInode

/-- **`set_evicted` deletes the entry of the row it leaves.** -/
theorem lruStep_setEvicted (h : db.setEvicted i = some db') : LruStep {i} db db' := by
  obtain ⟨db₁, h₁, rfl⟩ := Option.map_eq_some_iff.1 h
  exact lruStep_dropLru (lruStep_updateRow h₁ fun _ => rfl)

/-- **`revert_dirty_with_missing_cache` deletes the entry of the row it reverts.** -/
theorem lruStep_revertDirtyWithMissingCache {p : PathBuf} {b : Bool}
    (h : db.revertDirtyWithMissingCache i p = some (b, db')) :
    LruStep {j | j = i ∧ (db.getByInode i).any (isDirtyAt p) = true} db db' := by
  rw [revertDirtyWithMissingCache] at h
  split at h
  · rename_i hd
    obtain ⟨db₁, h₁, he⟩ := Option.map_eq_some_iff.1 h
    obtain ⟨-, rfl⟩ := Prod.mk.inj he
    simpa [hd] using lruStep_dropLru (lruStep_updateRow h₁ fun _ => rfl)
  · rename_i hd
    obtain ⟨-, rfl⟩ := Prod.mk.inj (Option.some.inj h)
    simpa [hd] using LruStep.refl

/-! ## Remote changes -/

theorem lruStep_of_statement {op : RemoteOp} {d d' : Db} (h : RemoteStatement op db d d') :
    LruStep ∅ d d' := by
  cases h with
  | upsert _ _ h =>
    rw [upsertByPath] at h
    split at h
    · exact lruStep_updateRow h fun _ => rfl
    · exact lruStep_insertRow h d.seq_lt_nextInode
  | delete _ h => exact lruStep_deleteEntry h
  | clear _ _ _ h => exact lruStep_deleteRows h
  | move _ _ _ h => exact lruStep_updateRow h fun _ => rfl

theorem lruStep_applyRemote (op : RemoteOp) (db : Db) : LruStep ∅ db (db.applyRemote op) := by
  have h := applyRemote_steps op db
  generalize db.applyRemote op = db' at h
  induction h with
  | refl => exact .refl
  | tail _ h ih => exact ih.trans (lruStep_of_statement h)

end Db

end Stratosync

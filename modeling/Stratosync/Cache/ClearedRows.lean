import Stratosync.Cache.Clear

/-!
# What a clear touches

`clear_cache_for_mount` selects the rows, updates the rows and deletes their entries of
`cache_lru` in separate statements. `clearCacheForMount_exact`: the three agree on the rows, the
report is of these rows, and nothing else changes; a clear that follows at once finds none.
-/

namespace Stratosync

open Foundations

namespace Db

variable {db db' : Db} {mountId : ℕ} {includePinned : Bool} {r : FileEntry}

/-- A file row of the mount that has content and no local work, unpinned unless pinned rows are
included. -/
def Clearable (db : Db) (mountId : ℕ) (includePinned : Bool) (r : FileEntry) : Prop :=
  r.mountId = mountId ∧ r.kind = .file ∧ (r.status = .cached ∨ r.status = .stale) ∧
    r.cachePath ≠ none ∧ (includePinned = false → db.isPinned r.inode = false)

instance : Decidable (Clearable db mountId includePinned r) :=
  inferInstanceAs (Decidable (_ ∧ _))

theorem clears_iff : db.clears mountId includePinned r = true ↔
    Clearable db mountId includePinned r := by
  cases includePinned <;>
    simp [clears, Clearable, Option.isSome_iff_ne_none, and_assoc]

/-- The rows that are cleared, in the order of the table. -/
def clearable (db : Db) (mountId : ℕ) (includePinned : Bool) : List FileEntry :=
  db.fileIndex.rows.filter fun r => Clearable db mountId includePinned r

/-- **A clear touches only what it reports.** -/
structure ClearsExactly (db : Db) (mountId : ℕ) (includePinned : Bool) (report : CacheClearReport)
    (db' : Db) : Prop where
  rows : db'.fileIndex.rows = db.fileIndex.rows.map fun r =>
    if Clearable db mountId includePinned r then
      { r with status := .remote, cachePath := none, cacheSize := none }
    else r
  lru : db'.cacheLru = db.cacheLru.filter fun l =>
    l.inode ∉ (clearable db mountId includePinned).map FileEntry.inode
  rest : db'.seq = db.seq ∧ db'.tombstones = db.tombstones ∧ db'.now = db.now
  filesCleared : report.filesCleared = (clearable db mountId includePinned).length
  cachePaths : report.cachePaths.map some =
    (clearable db mountId includePinned).map FileEntry.cachePath
  bytesFreed : report.bytesFreed =
    ((clearable db mountId includePinned).map fun r => r.cacheSize.getD 0).sum
  /-- Unsynced, hydrating and conflicting rows stay, and all those of other mounts. -/
  kept : ∀ r ∈ db.fileIndex.rows,
    r.mountId ≠ mountId ∨ r.status = .dirty ∨ r.status = .uploading ∨ r.status = .hydrating ∨
      r.status = .conflict → r ∈ db'.fileIndex.rows
  /-- So do the entries, with the pins, of the rows that stay. -/
  pins : ∀ l ∈ db.cacheLru,
    (∀ r ∈ db.fileIndex.rows, r.inode = l.inode → ¬Clearable db mountId includePinned r) →
      l ∈ db'.cacheLru
  again : db'.clearCacheForMount mountId includePinned = some (⟨0, 0, []⟩, db')

theorem eq_of_inode {r r' : FileEntry} (hr : r ∈ db.fileIndex.rows) (hr' : r' ∈ db.fileIndex.rows)
    (h : r.inode = r'.inode) : r = r' := by
  have hget := getByInode_of_mem hr
  rw [h, getByInode_of_mem hr'] at hget
  exact (Option.some.inj hget).symm

/-- The rows that a clear selects are the rows that it updates. -/
theorem filter_clears (db : Db) (mountId : ℕ) (includePinned : Bool) :
    db.fileIndex.rows.filter (db.clears mountId includePinned) =
      clearable db mountId includePinned := by
  refine List.filter_congr fun r _ => ?_
  rw [Bool.eq_iff_iff, clears_iff, decide_eq_true_eq]

theorem foldl_dropLru (rows : List FileEntry) (db : Db) :
    rows.foldl (fun d r => d.dropLru r.inode) db =
      { db with cacheLru := db.cacheLru.filter fun l => l.inode ∉ rows.map FileEntry.inode } := by
  induction rows generalizing db with
  | nil => simp
  | cons r rows ih =>
    rw [List.foldl_cons, ih, dropLru]
    congr 1
    rw [List.filter_filter]
    refine List.filter_congr fun l _ => ?_
    rw [List.map_cons, Bool.eq_iff_iff, Bool.and_eq_true, decide_eq_true_eq, decide_eq_true_eq,
      decide_eq_true_eq, List.mem_cons, not_or, and_comm]

/-- A clear never breaks a constraint. -/
theorem updateWhere_evicted_isSome (db : Db) (p : FileEntry → Bool) :
    (db.updateWhere p FileEntry.evicted).isSome = true :=
  updateWhere_isSome (fun _ => ⟨rfl, rfl, rfl, rfl, rfl, rfl⟩) fun _ _ _ _ hc => by cases hc

/-- What a clear leaves of the index and what it reports. -/
theorem clearCacheForMount_spec (db : Db) (mountId : ℕ) (includePinned : Bool) :
    ∃ (t : Table FileEntry IndexConstraints) (report : CacheClearReport),
      t.rows = (db.fileIndex.rows.map fun r =>
        if Clearable db mountId includePinned r then r.evicted else r) ∧
      report =
        { filesCleared := (clearable db mountId includePinned).length
          bytesFreed :=
            ((clearable db mountId includePinned).map fun r => r.cacheSize.getD 0).sum
          cachePaths := (clearable db mountId includePinned).filterMap FileEntry.cachePath } ∧
      db.clearCacheForMount mountId includePinned = some (report,
        { db with
          fileIndex := t
          cacheLru := db.cacheLru.filter fun l =>
            l.inode ∉ (clearable db mountId includePinned).map FileEntry.inode }) := by
  obtain ⟨db₁, h₁⟩ := Option.isSome_iff_exists.1
    (updateWhere_evicted_isSome db (db.clears mountId includePinned))
  have hclear : db.clearCacheForMount mountId includePinned = _ :=
    congrArg (Option.map _) h₁
  obtain ⟨t, ht, rfl⟩ := Option.map_eq_some_iff.1 h₁
  refine ⟨t, _, ?_, rfl, ?_⟩
  · rw [Table.commit_eq_some.1 ht]
    refine List.map_congr_left fun r _ => ?_
    simp only [clears_iff]
  · rw [hclear, Option.map_some, foldl_dropLru, filter_clears]

/-- A clear of an index without clearable rows changes nothing. -/
theorem clearCacheForMount_of_none
    (h : ∀ r ∈ db.fileIndex.rows, ¬Clearable db mountId includePinned r) :
    db.clearCacheForMount mountId includePinned = some (⟨0, 0, []⟩, db) := by
  have hnone : clearable db mountId includePinned = [] :=
    List.filter_eq_nil_iff.2 fun r hr => by simpa using h r hr
  obtain ⟨t, report, hrows, hreport, hclear⟩ := clearCacheForMount_spec db mountId includePinned
  have hsame : t = db.fileIndex := by
    have hid : t.rows = db.fileIndex.rows := by
      rw [hrows]
      refine (List.map_congr_left fun r hr => ?_).trans (List.map_id _)
      exact if_neg (h r hr)
    cases t
    cases hdb : db.fileIndex
    rw [hdb] at hid
    congr
  have hlru : (db.cacheLru.filter fun l =>
      l.inode ∉ (clearable db mountId includePinned).map FileEntry.inode) = db.cacheLru := by
    rw [hnone]
    exact List.filter_eq_self.2 fun _ _ => decide_eq_true List.not_mem_nil
  rw [hclear, hreport, hlru, hsame, hnone]
  rfl

/-- A row that stays is as little clearable afterwards: its pin, if that is the reason, stays. -/
theorem not_clearable_of_kept {r : FileEntry} (hr : r ∈ db.fileIndex.rows)
    (hkeep : ¬Clearable db mountId includePinned r)
    (hlru : db'.cacheLru = db.cacheLru.filter fun l =>
      l.inode ∉ (clearable db mountId includePinned).map FileEntry.inode) :
    ¬Clearable db' mountId includePinned r := by
  rintro ⟨hmount, hkind, hstatus, hpath, hpin⟩
  refine hkeep ⟨hmount, hkind, hstatus, hpath, fun hinc => ?_⟩
  have hunpinned := hpin hinc
  by_contra hpinned
  rw [Bool.not_eq_false, isPinned_iff] at hpinned
  obtain ⟨l, hl, hinode, hlpin⟩ := hpinned
  have hstays : l ∈ db'.cacheLru := by
    rw [hlru, List.mem_filter, decide_eq_true_eq]
    refine ⟨hl, fun hmem => ?_⟩
    obtain ⟨q, hq, hqi⟩ := List.mem_map.1 hmem
    obtain ⟨hq, hclear⟩ := List.mem_filter.1 hq
    rw [eq_of_inode hq hr (hqi.trans hinode), decide_eq_true_eq] at hclear
    exact hkeep hclear
  rw [isPinned_iff.2 ⟨l, hstays, hinode, hlpin⟩] at hunpinned
  cases hunpinned

/-- **A clear touches only what it reports**, for every index, and leaves nothing to clear. -/
theorem clearCacheForMount_exact (db : Db) (mountId : ℕ) (includePinned : Bool) :
    ∃ report db', db.clearCacheForMount mountId includePinned = some (report, db') ∧
      ClearsExactly db mountId includePinned report db' := by
  obtain ⟨t, report, hrows, hreport, hclear⟩ := clearCacheForMount_spec db mountId includePinned
  refine ⟨report, _, hclear, hrows, rfl, ⟨rfl, rfl, rfl⟩, ?_, ?_, ?_, fun r hr hstay => ?_,
    fun l hl hstay => ?_, clearCacheForMount_of_none fun r' hr' => ?_⟩
  · rw [hreport]
  · rw [hreport, List.map_filterMap_some_eq_filter_map_isSome, List.filter_eq_self]
    -- every cleared row has a path
    intro path hpath
    obtain ⟨r, hr, rfl⟩ := List.mem_map.1 hpath
    obtain ⟨-, -, -, hsome, -⟩ := of_decide_eq_true (List.mem_filter.1 hr).2
    exact Option.isSome_iff_ne_none.2 hsome
  · rw [hreport]
  · rw [hrows]
    refine List.mem_map.2 ⟨r, hr, if_neg fun hc => ?_⟩
    obtain ⟨hmount, -, hstatus, -⟩ := hc
    rcases hstay with h | h | h | h | h
    · exact h hmount
    all_goals
      rw [h] at hstatus
      rcases hstatus with h | h <;> cases h
  · refine List.mem_filter.2 ⟨hl, decide_eq_true fun hmem => ?_⟩
    obtain ⟨r, hr, hri⟩ := List.mem_map.1 hmem
    obtain ⟨hr, hc⟩ := List.mem_filter.1 hr
    exact hstay r hr hri (of_decide_eq_true hc)
  · rw [hrows] at hr'
    obtain ⟨r, hr, rfl⟩ := List.mem_map.1 hr'
    split
    · rintro ⟨-, -, hstatus, -⟩
      rcases hstatus with h | h <;> cases h
    · rename_i hkeep
      exact not_clearable_of_kept hr hkeep rfl

end Db

end Stratosync

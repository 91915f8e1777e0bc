import Stratosync.Foundations.Ranking
import Stratosync.State.Versions

/-!
# Pruning the history of a file

`prune_version_history` reads the hashes of the versions after the newest `keep`, deletes these
versions, and then looks for each hash whether a row of either table has it. `prunesExactly`: the
newest versions stay, in the order of `list_version_history`, and so do those of the other files;
what is returned are the hashes of the deleted versions that no row has any more.
-/

namespace Stratosync

open Foundations

/-- `ORDER BY recorded_at DESC, id DESC`. -/
abbrev VersionEntry.NoOlder (a b : VersionEntry) : Prop :=
  b.recordedAt < a.recordedAt ∨ b.recordedAt = a.recordedAt ∧ b.id ≤ a.id

namespace VersionEntry

instance : Std.Total NoOlder := ⟨fun a b => by omega⟩

instance : IsTrans VersionEntry NoOlder := ⟨fun a b c hab hbc => by omega⟩

theorem NoOlder.id_eq {a b : VersionEntry} (h : a.NoOlder b) (h' : b.NoOlder a) : a.id = b.id := by
  omega

end VersionEntry

namespace VersionDb

/-- **A pruning keeps exactly the newest versions**, and returns what is no longer referred to. -/
structure PrunesExactly (v : VersionDb) (i : Inode) (keep : ℕ) (orphans : List Str)
    (v' : VersionDb) : Prop where
  newest : v'.listVersionHistory i = (v.listVersionHistory i).take keep
  number : (v'.listVersionHistory i).length = min (v.listVersionHistory i).length keep
  /-- Every version that goes is older than every version that stays, or as old and recorded
  before it. -/
  older : ∀ e ∈ v.listVersionHistory i, e ∉ v'.listVersionHistory i →
    ∀ q ∈ v'.listVersionHistory i,
      e.recordedAt < q.recordedAt ∨ e.recordedAt = q.recordedAt ∧ e.id < q.id
  /-- No other row changes. -/
  rows : v'.history.rows =
    v.history.rows.filter fun e => e.inode ≠ i ∨ e ∈ (v.listVersionHistory i).take keep
  tables : v'.db = v.db ∧ v'.bases = v.bases ∧ v'.seq = v.seq
  orphans : ∀ hash, hash ∈ orphans ↔
    (∃ e ∈ v.history.rows, e ∉ v'.history.rows ∧ e.objectHash = hash) ∧
      (∀ e ∈ v'.history.rows, e.objectHash ≠ hash) ∧ ∀ b ∈ v'.bases.rows, b.objectHash ≠ hash

variable {v v' : VersionDb} {i : Inode} {keep : ℕ} {e : VersionEntry}

/-! ## The versions of a file -/

theorem mem_listVersionHistory :
    e ∈ v.listVersionHistory i ↔ e ∈ v.history.rows ∧ e.inode = i := by
  rw [listVersionHistory, List.mem_insertionSort, List.mem_filter, decide_eq_true_eq]

theorem eq_of_id {a b : VersionEntry} (ha : a ∈ v.history.rows) (hb : b ∈ v.history.rows)
    (h : a.id = b.id) : a = b :=
  List.inj_on_of_nodup_map v.history.ok ha hb h

/-- The rows of a file, in the order of the table. -/
def fileRows (v : VersionDb) (i : Inode) : List VersionEntry :=
  v.history.rows.filter fun e => e.inode = i

theorem nodup_fileRows : (v.fileRows i).Nodup := v.history.ok.of_map.filter _

theorem mem_fileRows : e ∈ v.fileRows i ↔ e ∈ v.history.rows ∧ e.inode = i := by
  rw [fileRows, List.mem_filter, decide_eq_true_eq]

theorem take_listVersionHistory :
    (v.listVersionHistory i).take keep = Ranking.top VersionEntry.NoOlder keep (v.fileRows i) := rfl

theorem staleVersions_eq :
    v.staleVersions i keep = Ranking.rest VersionEntry.NoOlder keep (v.fileRows i) := rfl

theorem mem_of_mem_staleVersions (h : e ∈ v.staleVersions i keep) :
    e ∈ v.history.rows ∧ e.inode = i :=
  mem_listVersionHistory.1 (List.mem_of_mem_drop h)

/-! ## What is left -/

theorem mem_dropStaleVersions (h : v.dropStaleVersions i keep = some v') :
    v'.db = v.db ∧ ∀ e, e ∈ v'.history.rows ↔
      e ∈ v.history.rows ∧ ∀ x ∈ v.staleVersions i keep, x.id ≠ e.id := by
  obtain ⟨t, ht, rfl⟩ := Option.map_eq_some_iff.1 h
  refine ⟨rfl, fun e => ?_⟩
  rw [show t.rows = _ from Table.commit_eq_some.1 ht, List.mem_filter]
  simp

theorem dropStaleVersions_isSome (v : VersionDb) (i : Inode) (keep : ℕ) :
    (v.dropStaleVersions i keep).isSome = true := by
  rw [dropStaleVersions, Option.isSome_map, Table.delete, Table.commit_isSome]
  exact v.history.ok.sublist (List.filter_sublist.map VersionEntry.id)

/-- With no stale version nothing is deleted. -/
theorem dropStaleVersions_of_nil (h : v.staleVersions i keep = []) :
    v.dropStaleVersions i keep = some v := by
  rw [dropStaleVersions, h, Table.delete, Table.commit_eq_some.2, Option.map_some]
  exact (List.filter_true _).symm

/-- A pruning is a deletion and a look at the hashes of what is deleted. -/
theorem pruneVersionHistory_eq (h : v.dropStaleVersions i keep = some v') :
    v.pruneVersionHistory i keep =
      some (((v.staleVersions i keep).map VersionEntry.objectHash).filter
        fun hash => !v'.references hash, v') := by
  rw [pruneVersionHistory]
  split
  · rename_i hnil
    rw [dropStaleVersions_of_nil hnil, Option.some.injEq] at h
    rw [hnil, h]
    rfl
  · rw [h, Option.map_some]

/-- What a pruning leaves: the versions that are not stale, which name none of the orphans. -/
theorem pruneVersionHistory_spec (v : VersionDb) (i : Inode) (keep : ℕ) :
    ∃ orphans v', v.pruneVersionHistory i keep = some (orphans, v') ∧ v'.db = v.db ∧
      (∀ e, e ∈ v'.history.rows ↔
        e ∈ v.history.rows ∧ ∀ x ∈ v.staleVersions i keep, x.id ≠ e.id) ∧
      ∀ hash ∈ orphans, v'.references hash = false := by
  obtain ⟨v', hv'⟩ := Option.isSome_iff_exists.1 (v.dropStaleVersions_isSome i keep)
  obtain ⟨hdb, hrows⟩ := mem_dropStaleVersions hv'
  refine ⟨_, v', pruneVersionHistory_eq hv', hdb, hrows, fun hash hh => ?_⟩
  simpa using (List.mem_filter.1 hh).2

/-- The rows after the deletion are those that are not stale, in their order. -/
theorem rows_dropStaleVersions (h : v.dropStaleVersions i keep = some v') :
    v'.history.rows = v.history.rows.filter fun e => e ∉ v.staleVersions i keep := by
  obtain ⟨t, ht, rfl⟩ := Option.map_eq_some_iff.1 h
  rw [show t.rows = _ from Table.commit_eq_some.1 ht]
  refine List.filter_congr fun e he => ?_
  rw [Bool.eq_iff_iff, Bool.not_eq_true', decide_eq_true_eq, ← Bool.not_eq_true, not_iff_not,
    List.any_eq_true]
  constructor
  · rintro ⟨x, hx, hid⟩
    rw [← eq_of_id (mem_of_mem_staleVersions hx).1 he (of_decide_eq_true hid)]
    exact hx
  · intro hstale
    exact ⟨e, hstale, decide_eq_true rfl⟩

theorem mem_rows_dropStaleVersions (h : v.dropStaleVersions i keep = some v') :
    e ∈ v'.history.rows ↔ e ∈ v.history.rows ∧ e ∉ v.staleVersions i keep := by
  rw [rows_dropStaleVersions h, List.mem_filter, decide_eq_true_eq]

/-- **The newest versions are left.** -/
theorem listVersionHistory_dropStaleVersions (h : v.dropStaleVersions i keep = some v') :
    v'.listVersionHistory i = (v.listVersionHistory i).take keep := by
  have htop : (v'.fileRows i).insertionSort VersionEntry.NoOlder =
      Ranking.top VersionEntry.NoOlder keep (v.fileRows i) := by
    refine Ranking.insertionSort_eq_top nodup_fileRows nodup_fileRows ?_ fun e => ?_
    · intro a ha b hb hab hba
      exact eq_of_id (mem_fileRows.1 ha).1 (mem_fileRows.1 hb).1
        (VersionEntry.NoOlder.id_eq hab hba)
    · rw [mem_fileRows, mem_fileRows, mem_rows_dropStaleVersions h, staleVersions_eq]
      exact and_right_comm
  exact htop

/-- A version that stays is newer than one that is stale, or as new and recorded later. -/
theorem lt_of_mem_staleVersions {q : VersionEntry} (hq : q ∈ (v.listVersionHistory i).take keep)
    (he : e ∈ v.staleVersions i keep) :
    e.recordedAt < q.recordedAt ∨ e.recordedAt = q.recordedAt ∧ e.id < q.id := by
  have hrows := (mem_of_mem_staleVersions he).1
  rw [take_listVersionHistory] at hq
  rw [staleVersions_eq] at he
  have hle : q.NoOlder e := Ranking.rel_of_mem hq he
  obtain ⟨hmem, hstays⟩ := (Ranking.mem_top_iff nodup_fileRows).1 hq
  have hne : e.id ≠ q.id := by
    intro hid
    rw [eq_of_id hrows (mem_fileRows.1 hmem).1 hid] at he
    exact hstays he
  omega

theorem references_eq_false_iff {hash : Str} : v.references hash = false ↔
    (∀ e ∈ v.history.rows, e.objectHash ≠ hash) ∧ ∀ b ∈ v.bases.rows, b.objectHash ≠ hash := by
  simp [references]

/-- **Pruning keeps exactly the newest**, for every history and every number. -/
theorem prunesExactly (v : VersionDb) (i : Inode) (keep : ℕ) :
    ∃ orphans v', v.pruneVersionHistory i keep = some (orphans, v') ∧
      PrunesExactly v i keep orphans v' := by
  obtain ⟨v', hv'⟩ := Option.isSome_iff_exists.1 (v.dropStaleVersions_isSome i keep)
  have hnewest := listVersionHistory_dropStaleVersions hv'
  have hrow (e : VersionEntry) := mem_rows_dropStaleVersions (e := e) hv'
  have hlist : ∀ e ∈ v.history.rows, e.inode = i →
      (e ∈ v'.listVersionHistory i ↔ e ∉ v.staleVersions i keep) := by
    intro e he hi
    rw [mem_listVersionHistory, hrow, and_iff_left hi, and_iff_right he]
  refine ⟨_, v', pruneVersionHistory_eq hv', hnewest, ?_, fun e he hgone q hq => ?_, ?_, ?_,
    fun hash => ?_⟩
  · rw [hnewest, List.length_take, Nat.min_comm]
  · obtain ⟨hmem, hi⟩ := mem_listVersionHistory.1 he
    rw [hlist e hmem hi, not_not] at hgone
    exact lt_of_mem_staleVersions (hnewest ▸ hq) hgone
  · rw [rows_dropStaleVersions hv', ← hnewest]
    refine List.filter_congr fun e he => ?_
    rw [decide_eq_decide]
    by_cases hi : e.inode = i
    · rw [hlist e he hi, or_iff_right (not_not.2 hi)]
    · exact iff_of_true (fun hstale => hi (mem_of_mem_staleVersions hstale).2) (.inl hi)
  · obtain ⟨t, -, rfl⟩ := Option.map_eq_some_iff.1 hv'
    exact ⟨rfl, rfl, rfl⟩
  · rw [List.mem_filter, Bool.not_eq_true', references_eq_false_iff, List.mem_map]
    refine and_congr_left fun _ => exists_congr fun e => ?_
    rw [hrow, ← and_assoc]
    refine and_congr_left fun _ => ?_
    constructor
    · intro hstale
      exact ⟨(mem_of_mem_staleVersions hstale).1, fun h => h.2 hstale⟩
    · rintro ⟨he, hgone⟩
      by_contra hkept
      exact hgone ⟨he, hkept⟩

end VersionDb

end Stratosync

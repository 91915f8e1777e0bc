import Stratosync.Cache.Blobs
import Stratosync.State.Pruning

/-!
# What a capture leaves

`capture` in one go, as it ends when nothing runs beside it and no call fails (`ticks_capture`). The
version it records is the newest of its file, so that it is not among those it prunes, and the blob
it names is none of those it removes (`hasVersion_capture`). It takes the version of no other file.
-/

namespace Stratosync

open Foundations

namespace BlobState

variable (c : BlobConfig) (s : BlobState)

/-- `store_base` of a file with content `data`. -/
def storeBase (data : Bytes) : BlobState :=
  let hash := c.sha256 data
  if (s.objects hash).isSome then s
  else { s with
    objects := Function.update s.objects hash (some data)
    temps := Function.update s.temps hash none }

/-- `capture` of a file with content `content`. -/
def capture (content : Option Bytes) (a : VersionSnapshot) : BlobState :=
  if c.retention = 0 || c.maxSize < a.size then s
  else
    match content with
    -- never hydrated
    | none => s
    | some data =>
      let stored := s.storeBase c data
      match stored.tables.insertVersionHistory a.inode c.mountId (c.sha256 data) a.size a.etag
        a.source with
      | none => stored
      | some (_, tables) =>
        match tables.pruneVersionHistory a.inode c.retention with
        | none => { stored with tables }
        | some (orphans, tables) => orphans.foldl removeObject { stored with tables }

end BlobState

/-- The version that a capture of content `data` records. -/
structure VersionEntry.Of (c : BlobConfig) (a : VersionSnapshot) (data : Bytes) (e : VersionEntry) :
    Prop where
  inode : e.inode = a.inode
  mountId : e.mountId = c.mountId
  hash : e.objectHash = c.sha256 data
  size : e.fileSize = a.size
  etag : e.etag = a.etag
  source : e.source = a.source

/-- **The version is recorded and its blob is stored.** -/
def BlobState.HasVersion (c : BlobConfig) (s : BlobState) (a : VersionSnapshot) (data : Bytes) :
    Prop :=
  ∃ e ∈ s.tables.history.rows, e.Of c a data ∧ (s.objects e.objectHash).isSome = true

/-- No version is recorded later than now. -/
def VersionDb.NoneLater (v : VersionDb) : Prop := ∀ e ∈ v.history.rows, e.recordedAt ≤ v.db.now

/-! ## A task that runs alone -/

section Alone

variable (c : BlobConfig) (env : BlobEnv)

/-- A task with nothing beside it. -/
def BlobTask.alone : BlobState × Option BlobTask → BlobState × Option BlobTask
  | (s, some t) => t.tick c s env
  | (s, none) => (s, none)

/-- A task that runs alone comes to `y`. -/
def BlobTask.Reaches (x y : BlobState × Option BlobTask) : Prop :=
  ∃ n, (BlobTask.alone c env)^[n] x = y

variable {c env} {s s' : BlobState} {t : BlobTask} {o : Option BlobTask}

theorem BlobTask.Reaches.tick (h : BlobTask.Reaches c env (t.tick c s env) (s', o)) :
    BlobTask.Reaches c env (s, some t) (s', o) := by
  obtain ⟨n, hn⟩ := h
  exact ⟨n + 1, hn⟩

theorem BlobTask.Reaches.refl (x : BlobState × Option BlobTask) : BlobTask.Reaches c env x x :=
  ⟨0, rfl⟩

/-- The blobs are removed one by one. -/
theorem reaches_sweep (hf : env.fault = false) (a : VersionSnapshot) (orphans : List Str)
    (s : BlobState) : BlobTask.Reaches c env (s, some (.capture a (.sweep orphans)))
      (orphans.foldl BlobState.removeObject s, none) := by
  induction orphans generalizing s with
  | nil => exact BlobTask.Reaches.tick (.refl _)
  | cons hash orphans ih =>
    refine BlobTask.Reaches.tick ?_
    rw [BlobTask.tick, CapturePc.tick, hf]
    exact ih (s.removeObject hash)

/-- The row is inserted, the history is pruned and the orphans are removed. -/
theorem reaches_insert (hf : env.fault = false) (a : VersionSnapshot) (hash : Str) (s : BlobState) :
    BlobTask.Reaches c env (s, some (.capture a (.insert hash)))
      (match s.tables.insertVersionHistory a.inode c.mountId hash a.size a.etag a.source with
        | none => s
        | some (_, tables) =>
          match tables.pruneVersionHistory a.inode c.retention with
          | none => { s with tables }
          | some (orphans, tables) => orphans.foldl BlobState.removeObject { s with tables },
        none) := by
  refine BlobTask.Reaches.tick ?_
  rw [BlobTask.tick, CapturePc.tick, BlobState.tryTables, hf]
  cases s.tables.insertVersionHistory a.inode c.mountId hash a.size a.etag a.source with
  | none => exact .refl _
  | some r =>
    obtain ⟨id, tables⟩ := r
    refine BlobTask.Reaches.tick ?_
    rw [BlobTask.tick, CapturePc.tick, hf]
    dsimp only
    cases tables.pruneVersionHistory a.inode c.retention with
    | none => exact .refl _
    | some r =>
      obtain ⟨orphans, tables⟩ := r
      exact reaches_sweep hf a orphans _

/-- **A capture that runs alone without a failure ends as `capture` says.** -/
theorem ticks_capture (hf : env.fault = false) (a : VersionSnapshot) (s : BlobState) :
    BlobTask.Reaches c env (s, some (.capture a .check)) (s.capture c env.content a, none) := by
  refine BlobTask.Reaches.tick ?_
  rw [BlobTask.tick, CapturePc.tick, BlobState.capture.eq_def]
  by_cases hskip : (c.retention = 0 || c.maxSize < a.size) = true
  · rw [hskip, Bool.true_or, if_pos rfl, if_pos rfl]
    exact .refl _
  rw [Bool.not_eq_true] at hskip
  rw [hskip, Bool.false_or]
  cases hcontent : env.content with
  | none => exact .refl _
  | some data =>
    refine BlobTask.Reaches.tick ?_
    rw [BlobTask.tick, CapturePc.tick, StorePc.tick, hf, hcontent]
    refine BlobTask.Reaches.tick ?_
    rw [BlobTask.tick, CapturePc.tick, StorePc.tick]
    by_cases hobj : (s.objects (c.sha256 data)).isSome = true
    · have hsame : s.storeBase c data = s := if_pos hobj
      simp only [hobj, if_true, Bool.false_eq_true, if_false, hsame]
      exact reaches_insert hf a _ s
    · simp only [hobj, Bool.false_eq_true, if_false]
      refine BlobTask.Reaches.tick ?_
      rw [BlobTask.tick, CapturePc.tick, StorePc.tick, hf, hcontent]
      refine BlobTask.Reaches.tick ?_
      rw [BlobTask.tick, CapturePc.tick, StorePc.tick, hf]
      have hstored : s.storeBase c data = { s with
          objects := Function.update s.objects (c.sha256 data) (some data)
          temps := Function.update s.temps (c.sha256 data) none } := if_neg hobj
      simp only [Option.elim_some, Bool.false_eq_true, if_false, Function.update_self,
        Function.update_idem, ← hstored]
      exact reaches_insert hf a _ _

end Alone

/-! ## The newest version of a file -/

namespace VersionDb

variable {v v' : VersionDb} {i : Inode} {keep : ℕ} {e : VersionEntry}

/-- **The newest version of a file is not stale**, if one version is kept at all. -/
theorem ne_of_mem_staleVersions (hkeep : 0 < keep) (he : e ∈ v.history.rows)
    (hnew : ∀ q ∈ v.history.rows, q ≠ e → q.recordedAt ≤ e.recordedAt ∧ q.id < e.id)
    {x : VersionEntry} (hx : x ∈ v.staleVersions i keep) : x.id ≠ e.id := by
  intro hid
  obtain rfl := eq_of_id (mem_of_mem_staleVersions hx).1 he hid
  -- some version is kept, and it is newer than a stale one
  have hne : (v.listVersionHistory i).take keep ≠ [] := by
    have hmem : x ∈ v.listVersionHistory i := List.mem_of_mem_drop hx
    rw [Ne, List.take_eq_nil_iff, not_or]
    exact ⟨hkeep.ne', List.ne_nil_of_mem hmem⟩
  obtain ⟨q, hq⟩ := List.exists_mem_of_ne_nil _ hne
  have hlt := lt_of_mem_staleVersions hq hx
  by_cases hqx : q = x
  · subst hqx
    omega
  · have hold := hnew q (mem_listVersionHistory.1 (List.mem_of_mem_take hq)).1 hqx
    omega

theorem lt_nextVersion {q : VersionEntry} (hq : q ∈ v.history.rows) : q.id < v.nextVersion :=
  Nat.lt_succ_of_le (Db.le_foldl_max_of_mem (List.mem_map_of_mem hq) _)

/-- A version of a file that has a row is accepted. -/
theorem insertVersionHistory_spec (mountId : ℕ) (hash : Str) (size : ℕ) (etag : Option Str)
    (source : VersionSource) (hrow : (v.db.getByInode i).isSome = true) :
    ∃ v', v.insertVersionHistory i mountId hash size etag source = some (v.nextVersion, v') ∧
      v'.db = v.db ∧ v'.history.rows = v.history.rows ++
        [⟨v.nextVersion, i, mountId, hash, v.db.now, size, etag, source⟩] := by
  have hok : (v.history.insert
      ⟨v.nextVersion, i, mountId, hash, v.db.now, size, etag, source⟩).isSome = true := by
    rw [Table.insert, Table.commit_isSome, VersionIds, List.map_append, List.nodup_append]
    refine ⟨v.history.ok, List.nodup_singleton _, ?_⟩
    simp only [List.mem_map, List.map_cons, List.map_nil, List.mem_singleton, forall_eq]
    rintro _ ⟨q, hq, rfl⟩
    exact (lt_nextVersion hq).ne
  obtain ⟨t, ht⟩ := Option.isSome_iff_exists.1 hok
  refine ⟨{ v with history := t, seq := v.nextVersion }, ?_, rfl, Table.commit_eq_some.1 ht⟩
  rw [insertVersionHistory, hrow, ht]
  rfl

/-- The versions whose rows are still there stay. -/
theorem withFiles_spec (v : VersionDb) (db : Db) :
    ∃ v', v.withFiles db = some v' ∧ v'.db = db ∧ ∀ e, e ∈ v'.history.rows ↔
      e ∈ v.history.rows ∧ (db.getByInode e.inode).isSome = true := by
  have hb : (v.bases.delete fun b => !(db.getByInode b.inode).isSome).isSome = true := by
    rw [Table.delete, Table.commit_isSome]
    exact v.bases.ok.sublist (List.filter_sublist.map BaseVersion.key)
  have hh : (v.history.delete fun e => !(db.getByInode e.inode).isSome).isSome = true := by
    rw [Table.delete, Table.commit_isSome]
    exact v.history.ok.sublist (List.filter_sublist.map VersionEntry.id)
  obtain ⟨bases, hbases⟩ := Option.isSome_iff_exists.1 hb
  obtain ⟨history, hhistory⟩ := Option.isSome_iff_exists.1 hh
  refine ⟨{ v with db, bases, history }, ?_, rfl, fun e => ?_⟩
  · rw [withFiles, hbases, Option.bind_some, hhistory, Option.map_some]
  · rw [show history.rows = _ from Table.commit_eq_some.1 hhistory, List.mem_filter]
    simp

end VersionDb

/-! ## The version of a capture -/

section Outcome

variable {c : BlobConfig} {s : BlobState} {a a' : VersionSnapshot} {data : Bytes}

/-- What a capture leaves that records the version `e`. -/
structure Recorded (c : BlobConfig) (s : BlobState) (a : VersionSnapshot) (data : Bytes)
    (e : VersionEntry) (s' : BlobState) : Prop where
  of : e.Of c a data
  now : e.recordedAt = s.tables.db.now
  id_lt : ∀ q ∈ s.tables.history.rows, q.id < e.id
  db : s'.tables.db = s.tables.db
  rows : ∃ v : VersionDb, v.history.rows = s.tables.history.rows ++ [e] ∧
    ∀ q, q ∈ s'.tables.history.rows ↔
      q ∈ v.history.rows ∧ ∀ x ∈ v.staleVersions a.inode c.retention, x.id ≠ q.id
  objects : ∀ hash, s'.tables.references hash = true →
    ((s.objects hash).isSome = true ∨ hash = e.objectHash) → (s'.objects hash).isSome = true

theorem storeBase_tables : (s.storeBase c data).tables = s.tables := by
  rw [BlobState.storeBase]
  split <;> rfl

/-- A blob is stored and the others stay. -/
theorem storeBase_objects {hash : Str}
    (h : (s.objects hash).isSome = true ∨ hash = c.sha256 data) :
    ((s.storeBase c data).objects hash).isSome = true := by
  rw [BlobState.storeBase]
  split
  · rename_i hobj
    obtain h | rfl := h
    · exact h
    · exact hobj
  · by_cases hh : hash = c.sha256 data
    · rw [hh]
      simp
    · simpa [Function.update_of_ne hh] using h.resolve_right hh

/-- Only these blobs are removed. -/
theorem foldl_removeObject (orphans : List Str) (s : BlobState) :
    (orphans.foldl BlobState.removeObject s).tables = s.tables ∧
      ∀ hash, hash ∉ orphans → (orphans.foldl BlobState.removeObject s).objects hash =
        s.objects hash := by
  induction orphans generalizing s with
  | nil => exact ⟨rfl, fun _ _ => rfl⟩
  | cons h orphans ih =>
    obtain ⟨htables, hobjects⟩ := ih (s.removeObject h)
    refine ⟨htables, fun hash hh => ?_⟩
    rw [List.mem_cons, not_or] at hh
    exact (hobjects hash hh.2).trans (Function.update_of_ne hh.1 _ _)

/-- **A capture of a file with a row and content records its version**, unless versioning is off or
the file is too large. -/
theorem recorded_capture (data : Bytes) (hret : 0 < c.retention) (hsize : a.size ≤ c.maxSize)
    (hrow : (s.tables.db.getByInode a.inode).isSome = true) :
    ∃ e, Recorded c s a data e (s.capture c (some data) a) := by
  have hskip : (c.retention = 0 || c.maxSize < a.size) = false := by
    rw [Bool.or_eq_false_iff, decide_eq_false_iff_not, decide_eq_false_iff_not]
    exact ⟨hret.ne', not_lt.2 hsize⟩
  obtain ⟨v, hinsert, hvdb, hvrows⟩ := VersionDb.insertVersionHistory_spec (v := s.tables)
    c.mountId (c.sha256 data) a.size a.etag a.source hrow
  obtain ⟨orphans, v', hprune, hdb, hrows, horphans⟩ :=
    v.pruneVersionHistory_spec a.inode c.retention
  have hcapture : s.capture c (some data) a =
      orphans.foldl BlobState.removeObject { s.storeBase c data with tables := v' } := by
    rw [BlobState.capture.eq_def, hskip]
    simp only [Bool.false_eq_true, if_false, storeBase_tables, hinsert, hprune]
  obtain ⟨htables, hobjects⟩ :=
    foldl_removeObject orphans { s.storeBase c data with tables := v' }
  rw [hcapture]
  refine ⟨_, ⟨rfl, rfl, rfl, rfl, rfl, rfl⟩, rfl, fun q hq => VersionDb.lt_nextVersion hq, ?_,
    ⟨v, hvrows, ?_⟩, ?_⟩
  · rw [htables]
    exact hdb.trans hvdb
  · rw [htables]
    exact hrows
  · intro hash href hh
    rw [htables] at href
    have hnot : hash ∉ orphans := by
      intro hmem
      rw [horphans hash hmem] at href
      cases href
    rw [hobjects hash hnot]
    exact storeBase_objects hh

/-- A capture records a version or leaves the tables and the blobs. -/
theorem capture_cases (c : BlobConfig) (s : BlobState) (content : Option Bytes)
    (a : VersionSnapshot) :
    ((s.capture c content a).tables = s.tables ∧
      ∀ hash, (s.objects hash).isSome = true →
        ((s.capture c content a).objects hash).isSome = true) ∨
      ∃ data e, content = some data ∧ Recorded c s a data e (s.capture c content a) := by
  cases hskip : c.retention = 0 || c.maxSize < a.size with
  | true =>
    refine .inl ?_
    rw [BlobState.capture.eq_def, hskip]
    exact ⟨rfl, fun _ h => h⟩
  | false =>
    cases content with
    | none =>
      refine .inl ?_
      rw [BlobState.capture.eq_def, hskip]
      exact ⟨rfl, fun _ h => h⟩
    | some data =>
      cases hrow : (s.tables.db.getByInode a.inode).isSome with
      | true =>
        rw [Bool.or_eq_false_iff, decide_eq_false_iff_not, decide_eq_false_iff_not] at hskip
        obtain ⟨e, he⟩ := recorded_capture data (Nat.pos_of_ne_zero hskip.1)
          (not_lt.1 hskip.2) hrow
        exact .inr ⟨data, e, rfl, he⟩
      | false =>
        have hcapture : s.capture c (some data) a = s.storeBase c data := by
          rw [BlobState.capture.eq_def, hskip]
          simp only [Bool.false_eq_true, if_false, storeBase_tables,
            VersionDb.insertVersionHistory, hrow, Bool.not_false, if_true]
        rw [hcapture]
        exact .inl ⟨storeBase_tables, fun hash h => storeBase_objects (.inl h)⟩

theorem capture_db (c : BlobConfig) (s : BlobState) (content : Option Bytes)
    (a : VersionSnapshot) : (s.capture c content a).tables.db = s.tables.db := by
  obtain ⟨htables, -⟩ | ⟨data, e, -, h⟩ := capture_cases c s content a
  · rw [htables]
  · exact h.db

theorem noneLater_capture (h : s.tables.NoneLater) (content : Option Bytes)
    (a : VersionSnapshot) : (s.capture c content a).tables.NoneLater := by
  obtain ⟨htables, -⟩ | ⟨data, e, -, hrec⟩ := capture_cases c s content a
  · rw [htables]
    exact h
  · intro q hq
    rw [hrec.db]
    obtain ⟨v, hv, hrows⟩ := hrec.rows
    have hq := ((hrows q).1 hq).1
    rw [hv] at hq
    obtain hq | hq := List.mem_append.1 hq
    · exact h q hq
    · rw [List.mem_singleton.1 hq]
      exact hrec.now.le

theorem references_of_mem {v : VersionDb} {e : VersionEntry} (he : e ∈ v.history.rows) :
    v.references e.objectHash = true := by
  rw [VersionDb.references, Bool.or_eq_true, List.any_eq_true]
  exact .inl ⟨e, he, decide_eq_true rfl⟩

/-- **The version that is captured is there afterwards.** -/
theorem hasVersion_capture (hret : 0 < c.retention) (hsize : a.size ≤ c.maxSize)
    (hrow : (s.tables.db.getByInode a.inode).isSome = true) (hnone : s.tables.NoneLater) :
    (s.capture c (some data) a).HasVersion c a data := by
  obtain ⟨e, he⟩ := recorded_capture data hret hsize hrow
  obtain ⟨v, hv, hrows⟩ := he.rows
  have hev : e ∈ v.history.rows := by
    rw [hv]
    exact List.mem_append_right _ (List.mem_singleton_self e)
  have hnew : ∀ q ∈ v.history.rows, q ≠ e → q.recordedAt ≤ e.recordedAt ∧ q.id < e.id := by
    intro q hq hne
    rw [hv] at hq
    have hq := (List.mem_append.1 hq).resolve_right fun h => hne (List.mem_singleton.1 h)
    exact ⟨(hnone q hq).trans he.now.ge, he.id_lt q hq⟩
  have hkept : e ∈ (s.capture c (some data) a).tables.history.rows :=
    (hrows e).2 ⟨hev, fun x hx =>
      VersionDb.ne_of_mem_staleVersions hret hev hnew hx⟩
  exact ⟨e, hkept, he.of, he.objects _ (references_of_mem hkept) (.inr rfl)⟩

/-- The capture of another file leaves it. -/
theorem BlobState.HasVersion.capture (h : s.HasVersion c a data) (hne : a'.inode ≠ a.inode)
    (content : Option Bytes) : (s.capture c content a').HasVersion c a data := by
  obtain ⟨e, hmem, he, hobj⟩ := h
  obtain ⟨htables, hobjects⟩ | ⟨data', e', -, hrec⟩ := capture_cases c s content a'
  · exact ⟨e, htables ▸ hmem, he, hobjects _ hobj⟩
  · obtain ⟨v, hv, hrows⟩ := hrec.rows
    have hev : e ∈ v.history.rows := by
      rw [hv]
      exact List.mem_append_left _ hmem
    have hkept : e ∈ (s.capture c content a').tables.history.rows := by
      refine (hrows e).2 ⟨hev, fun x hx hid => hne ?_⟩
      have hx := VersionDb.mem_listVersionHistory.1 (List.mem_of_mem_drop hx)
      obtain rfl : x = e := List.inj_on_of_nodup_map v.history.ok hx.1 hev hid
      exact hx.2.symm.trans he.inode
    exact ⟨e, hkept, he, hrec.objects _ (references_of_mem hkept) (.inl hobj)⟩

end Outcome

end Stratosync

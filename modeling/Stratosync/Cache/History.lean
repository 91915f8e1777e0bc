import Stratosync.Cache.Captured
import Stratosync.Cache.KeptBlobs
import Stratosync.Foundations.Runs

/-!
# The history of a file over many captures

Captures run beside each other and beside everything else that uses the base store, and any call
may fail. `history_of_run`: as long as the clock is not set back, `list_version_history` lists the
last versions recorded since the file is there, newest first, without a gap. They are at least
`retention`, or all, and no more than `retention` and those recorded since the history was last
pruned. With a clock that is set back, a pruning drops the newest version before the others.
-/

namespace Stratosync

open Foundations Foundations.Pool Foundations.Runs

/-! ## A stack that is cut -/

/-- `l` has the first elements of `all`: at least `k` of them, or all, and `u` more at most. -/
structure KeptOf {α : Type*} (k u : ℕ) (l all : List α) : Prop where
  isPrefix : l <+: all
  enough : min k all.length ≤ l.length
  notMore : l.length ≤ k + u

section KeptOf

variable {α : Type*} {k u u' : ℕ} {l all : List α}

theorem KeptOf.nil : KeptOf k u ([] : List α) [] := ⟨List.nil_prefix, by simp, by simp⟩

theorem KeptOf.push (h : KeptOf k u l all) (a : α) : KeptOf k (u + 1) (a :: l) (a :: all) := by
  refine ⟨List.cons_prefix_cons.2 ⟨rfl, h.isPrefix⟩, ?_, ?_⟩
  · have := h.enough
    simp only [List.length_cons]
    omega
  · have := h.notMore
    simp only [List.length_cons]
    omega

theorem KeptOf.cut (h : KeptOf k u l all) : KeptOf k 0 (l.take k) all := by
  refine ⟨(List.take_prefix k l).trans h.isPrefix, ?_, ?_⟩
  · have := h.enough
    rw [List.length_take]
    omega
  · rw [List.length_take]
    omega

end KeptOf

/-! ## The log -/

/-- The version that a call inserts. -/
def BlobTask.recorded (c : BlobConfig) (s : BlobState) (env : BlobEnv) :
    BlobTask → Option VersionEntry
  | .capture a (.insert hash) =>
    if env.fault then none
    else (s.tables.insertVersionHistory a.inode c.mountId hash a.size a.etag a.source).map
      fun r => ⟨r.1, a.inode, c.mountId, hash, s.tables.db.now, a.size, a.etag, a.source⟩
  | _ => none

/-- The file whose history a call prunes. -/
def BlobTask.pruned (env : BlobEnv) : BlobTask → Option Inode
  | .capture a .prune => if env.fault then none else some a.inode
  | _ => none

/-- The versions recorded of the files that are there, oldest first, and for each file how many were
recorded since its history was last pruned. -/
structure VersionLog where
  recorded : List VersionEntry
  unpruned : Inode → ℕ

namespace VersionLog

def record (g : VersionLog) (e : VersionEntry) : VersionLog :=
  { recorded := g.recorded ++ [e]
    unpruned := Function.update g.unpruned e.inode (g.unpruned e.inode + 1) }

def prune (g : VersionLog) (i : Inode) : VersionLog :=
  { g with unpruned := Function.update g.unpruned i 0 }

def next (c : BlobConfig) (s : BlobState) (e : BlobEvent) (_ : BlobState) (g : VersionLog) :
    VersionLog :=
  match e with
  | .start _ => g
  | .tick k env =>
    match s.tasks[k]? with
    | none => g
    | some t =>
      match t.recorded c s env, t.pruned env with
      | some e, _ => g.record e
      | none, some i => g.prune i
      | none, none => g
  | .files db => { g with recorded := g.recorded.filter fun e => (db.getByInode e.inode).isSome }

/-- The versions recorded of a file, newest first. -/
def captures (g : VersionLog) (i : Inode) : List VersionEntry :=
  (g.recorded.filter fun e => e.inode = i).reverse

end VersionLog

/-- The runs with their log. -/
abbrev versionStep (c : BlobConfig) :
    BlobState × VersionLog → BlobEvent → Option (BlobState × VersionLog) :=
  withHistory (blobStep c) (VersionLog.next c)

/-- The clock is not set back. -/
def ClockForward (x : BlobState × VersionLog) : BlobEvent → Prop
  | .files db => x.1.tables.db.now ≤ db.now
  | _ => True

instance (x : BlobState × VersionLog) (e : BlobEvent) : Decidable (ClockForward x e) :=
  match e with
  | .files db => inferInstanceAs (Decidable (x.1.tables.db.now ≤ db.now))
  | .start _ => .isTrue trivial
  | .tick _ _ => .isTrue trivial

/-! ## What a call does to the history -/

namespace VersionDb

variable {v v' : VersionDb} {i j : Inode} {keep : ℕ}

/-- The rows stand in the order in which they were recorded. -/
def Chronological (v : VersionDb) : Prop :=
  v.history.rows.Pairwise fun a b => a.id < b.id ∧ a.recordedAt ≤ b.recordedAt

/-- Then the newest first is the last first. -/
theorem listVersionHistory_eq_reverse (h : v.Chronological) (i : Inode) :
    v.listVersionHistory i = (v.fileRows i).reverse := by
  have hperm : (v.listVersionHistory i).Perm (v.fileRows i).reverse :=
    (List.perm_insertionSort _ _).trans (List.reverse_perm _).symm
  refine hperm.eq_of_pairwise (fun a b ha hb hab hba => ?_) (List.pairwise_insertionSort _ _) ?_
  · have ha := (mem_listVersionHistory.1 ha).1
    have hb := (mem_fileRows.1 (List.mem_reverse.1 hb)).1
    exact eq_of_id ha hb (VersionEntry.NoOlder.id_eq hab hba)
  · rw [List.pairwise_reverse]
    refine (h.sublist List.filter_sublist).imp fun {a b} hab => ?_
    omega

theorem of_insertVersionHistory {hash : Str} {mountId size id : ℕ} {etag : Option Str}
    {source : VersionSource}
    (h : v.insertVersionHistory i mountId hash size etag source = some (id, v')) :
    id = v.nextVersion ∧ v'.db = v.db ∧ v'.history.rows =
      v.history.rows ++ [⟨id, i, mountId, hash, v.db.now, size, etag, source⟩] := by
  rw [insertVersionHistory] at h
  split at h
  · cases h
  · obtain ⟨t, ht, hpair⟩ := Option.map_eq_some_iff.1 h
    obtain ⟨rfl, rfl⟩ := Prod.mk.inj hpair
    exact ⟨rfl, rfl, Table.commit_eq_some.1 ht⟩

theorem of_withFiles {db : Db} (h : v.withFiles db = some v') :
    v'.db = db ∧
      v'.history.rows = v.history.rows.filter fun e => (db.getByInode e.inode).isSome := by
  obtain ⟨bases, -, h⟩ := Option.bind_eq_some_iff.1 h
  obtain ⟨history, hhistory, rfl⟩ := Option.map_eq_some_iff.1 h
  refine ⟨rfl, (Table.commit_eq_some.1 hhistory).trans ?_⟩
  simp only [Bool.not_not]

/-- A pruning of one file leaves the rows of the others. -/
theorem fileRows_of_prune {orphans : List Str}
    (h : v.pruneVersionHistory i keep = some (orphans, v')) (hij : j ≠ i) :
    v'.fileRows j = v.fileRows j := by
  obtain ⟨orphans', w, hw, hprunes⟩ := prunesExactly v i keep
  obtain ⟨rfl, rfl⟩ := Prod.mk.inj (Option.some.inj (h.symm.trans hw))
  rw [fileRows, hprunes.rows, List.filter_filter, fileRows]
  refine List.filter_congr fun e _ => ?_
  by_cases he : e.inode = j
  · simp [he, hij]
  · simp [he]

end VersionDb

section Ticks

variable {c : BlobConfig} {s s' : BlobState} {env : BlobEnv}

theorem tables_of_store (pc : StorePc) : (pc.tick c s env).1.tables = s.tables := by
  cases pc <;> simp only [StorePc.tick] <;> (try split) <;> rfl

/-- **What a call does to the history**: it inserts a version, prunes the history of a file, or
leaves the table as it is. -/
structure TickOf (c : BlobConfig) (s : BlobState) (env : BlobEnv) (t : BlobTask) (v : VersionDb) :
    Prop where
  db : v.db = s.tables.db
  recorded : ∀ e, t.recorded c s env = some e → v.history.rows = s.tables.history.rows ++ [e] ∧
    e.id = s.tables.nextVersion ∧ e.recordedAt = s.tables.db.now
  pruned : ∀ i, t.pruned env = some i →
    ∃ orphans, s.tables.pruneVersionHistory i c.retention = some (orphans, v)
  other : t.recorded c s env = none → t.pruned env = none → v.history = s.tables.history

theorem TickOf.refl {t : BlobTask} (hrecorded : t.recorded c s env = none)
    (hpruned : t.pruned env = none) : TickOf c s env t s.tables :=
  ⟨rfl, fun e he => by simp [hrecorded] at he, fun i hi => by simp [hpruned] at hi, fun _ _ => rfl⟩

theorem tickOf_tick (t : BlobTask) : TickOf c s env t (t.tick c s env).1.tables := by
  cases t with
  | capture a pc =>
    cases pc with
    | check => exact .refl rfl rfl
    | store pc =>
      rw [show (BlobTask.tick c s env (.capture a (.store pc))).1.tables = s.tables from
        tables_of_store pc]
      exact .refl rfl rfl
    | insert hash =>
      simp only [BlobTask.tick, CapturePc.tick, BlobState.tryTables]
      cases hf : env.fault with
      | true =>
        refine .refl ?_ rfl
        rw [BlobTask.recorded, hf, if_pos rfl]
      | false =>
        rw [if_neg Bool.false_ne_true]
        cases hinsert : s.tables.insertVersionHistory a.inode c.mountId hash a.size a.etag
          a.source with
        | none =>
          refine .refl ?_ rfl
          rw [BlobTask.recorded, hf, if_neg Bool.false_ne_true, hinsert, Option.map_none]
        | some r =>
          obtain ⟨hid, hdb, hrows⟩ := VersionDb.of_insertVersionHistory hinsert
          have hrec : BlobTask.recorded c s env (.capture a (.insert hash)) =
              some ⟨r.1, a.inode, c.mountId, hash, s.tables.db.now, a.size, a.etag, a.source⟩ := by
            rw [BlobTask.recorded, hf, if_neg Bool.false_ne_true, hinsert, Option.map_some]
          refine ⟨hdb, fun e he => ?_, (fun _ h => by cases h), fun hnone => ?_⟩
          · obtain rfl := Option.some.inj (hrec.symm.trans he)
            exact ⟨hrows, hid, rfl⟩
          · cases hrec.symm.trans hnone
    | prune =>
      simp only [BlobTask.tick, CapturePc.tick]
      cases hf : env.fault with
      | true =>
        refine .refl rfl ?_
        rw [BlobTask.pruned, hf, if_pos rfl]
      | false =>
        rw [if_neg Bool.false_ne_true]
        obtain ⟨orphans, v, hv, hprunes⟩ := VersionDb.prunesExactly s.tables a.inode c.retention
        have hpruned : BlobTask.pruned env (.capture a .prune) = some a.inode := by
          rw [BlobTask.pruned, hf, if_neg Bool.false_ne_true]
        simp only [hv]
        refine ⟨hprunes.tables.1, (fun _ h => by cases h), fun i hi => ?_, fun _ hnone => ?_⟩
        · obtain rfl := Option.some.inj (hpruned.symm.trans hi)
          exact ⟨orphans, hv⟩
        · cases hpruned.symm.trans hnone
    | sweep orphans =>
      cases orphans with
      | nil => exact .refl rfl rfl
      | cons hash orphans =>
        have htables : (BlobTask.tick c s env (.capture a (.sweep (hash :: orphans)))).1.tables =
            s.tables := by
          simp only [BlobTask.tick, CapturePc.tick]
          split <;> rfl
        rw [htables]
        exact .refl rfl rfl
  | base i pc =>
    cases pc with
    | store pc =>
      rw [show (BlobTask.tick c s env (.base i (.store pc))).1.tables = s.tables from
        tables_of_store pc]
      exact .refl rfl rfl
    | record hash =>
      simp only [BlobTask.tick, BasePc.tick]
      split
      · exact .refl rfl rfl
      · rename_i tables htables
        obtain ⟨-, hset⟩ := Option.ite_none_left_eq_some.1 htables
        have hsame : tables.db = s.tables.db ∧ tables.history = s.tables.history := by
          rw [VersionDb.setBaseHash] at hset
          split at hset
          · cases hset
          · obtain ⟨t, -, rfl⟩ := Option.map_eq_some_iff.1 hset
            exact ⟨rfl, rfl⟩
        exact ⟨hsame.1, (fun _ h => by cases h), (fun _ h => by cases h), fun _ _ => hsame.2⟩
  | evict pc =>
    cases pc with
    | query => exact .refl rfl rfl
    | count left =>
      have htables : (BlobTask.tick c s env (.evict (.count left))).1.tables = s.tables := by
        simp only [BlobTask.tick]
        cases left <;> rfl
      rw [htables]
      exact .refl rfl rfl
    | dropBase i hash last left =>
      simp only [BlobTask.tick, EvictPc.tick, BlobState.tryTables]
      split
      · exact .refl rfl rfl
      · rename_i tables htables
        obtain ⟨-, hremove⟩ := Option.ite_none_left_eq_some.1 htables
        obtain ⟨t, -, rfl⟩ := Option.map_eq_some_iff.1 hremove
        exact ⟨rfl, (fun _ h => by cases h), (fun _ h => by cases h), fun _ _ => rfl⟩
    | removeObject hash left =>
      have htables : (BlobTask.tick c s env (.evict (.removeObject hash left))).1.tables =
          s.tables := by
        simp only [BlobTask.tick, EvictPc.tick]
        split <;> rfl
      rw [htables]
      exact .refl rfl rfl

end Ticks

/-! ## Runs -/

/-- What holds in every reachable state. -/
structure HistoryKept (c : BlobConfig) (x : BlobState × VersionLog) : Prop where
  chronological : x.1.tables.Chronological
  noneLater : x.1.tables.NoneLater
  kept : ∀ i, KeptOf c.retention (x.2.unpruned i) (x.1.tables.fileRows i).reverse (x.2.captures i)

section Runs

variable {c : BlobConfig} {s s' : BlobState} {g : VersionLog} {e : BlobEvent} {i : Inode}

/-- A version is recorded. -/
theorem HistoryKept.record {v : VersionDb} {q : VersionEntry} (h : HistoryKept c (s, g))
    (hdb : v.db = s.tables.db) (hrows : v.history.rows = s.tables.history.rows ++ [q])
    (hid : q.id = s.tables.nextVersion) (hnow : q.recordedAt = s.tables.db.now)
    {tasks : List BlobTask} {objects temps : Str → Option Bytes} :
    HistoryKept c (⟨v, objects, temps, tasks⟩, g.record q) := by
  refine ⟨?_, fun e he => ?_, fun i => ?_⟩
  · change v.history.rows.Pairwise _
    rw [hrows]
    refine List.pairwise_append.2 ⟨h.chronological, List.pairwise_singleton _ _, ?_⟩
    intro a ha b hb
    obtain rfl := List.mem_singleton.1 hb
    exact ⟨hid ▸ VersionDb.lt_nextVersion ha, hnow ▸ h.noneLater a ha⟩
  · rw [hdb]
    obtain he | he := List.mem_append.1 (hrows ▸ he)
    · exact h.noneLater e he
    · rw [List.mem_singleton.1 he, hnow]
  · have hkept := h.kept i
    simp only [VersionDb.fileRows, VersionLog.captures, VersionLog.record, hrows,
      List.filter_append, List.reverse_append, Function.update_apply] at hkept ⊢
    by_cases hi : q.inode = i
    · rw [if_pos hi.symm, hi]
      simpa [hi] using hkept.push q
    · rw [if_neg (Ne.symm hi)]
      simpa [hi] using hkept

/-- The history of a file is pruned. -/
theorem HistoryKept.prune {v : VersionDb} {orphans : List Str} (h : HistoryKept c (s, g))
    (hv : s.tables.pruneVersionHistory i c.retention = some (orphans, v))
    {tasks : List BlobTask} {objects temps : Str → Option Bytes} :
    HistoryKept c (⟨v, objects, temps, tasks⟩, g.prune i) := by
  obtain ⟨orphans', w, hw, hprunes⟩ := VersionDb.prunesExactly s.tables i c.retention
  obtain ⟨rfl, rfl⟩ := Prod.mk.inj (Option.some.inj (hv.symm.trans hw))
  have hsub : v.history.rows.Sublist s.tables.history.rows := by
    rw [hprunes.rows]
    exact List.filter_sublist
  have hchronological : v.Chronological := h.chronological.sublist hsub
  refine ⟨hchronological, fun e he => ?_, fun j => ?_⟩
  · rw [hprunes.tables.1]
    exact h.noneLater e (hsub.subset he)
  · by_cases hj : j = i
    · obtain rfl := hj
      have hrows : (v.fileRows j).reverse = ((s.tables.fileRows j).reverse).take c.retention := by
        rw [← VersionDb.listVersionHistory_eq_reverse hchronological, hprunes.newest,
          VersionDb.listVersionHistory_eq_reverse h.chronological]
      have hunpruned : (g.prune j).unpruned j = 0 := Function.update_self _ _ _
      rw [hunpruned]
      change KeptOf c.retention 0 (v.fileRows j).reverse (g.captures j)
      rw [hrows]
      exact (h.kept j).cut
    · have hunpruned : (g.prune i).unpruned j = g.unpruned j := Function.update_of_ne hj _ _
      rw [hunpruned]
      change KeptOf c.retention _ (v.fileRows j).reverse (g.captures j)
      rw [VersionDb.fileRows_of_prune hv hj]
      exact h.kept j

/-- Rows of `file_index` go, and their versions with them. -/
theorem HistoryKept.files {v : VersionDb} {db : Db} (h : HistoryKept c (s, g))
    (hclock : s.tables.db.now ≤ db.now) (hv : s.tables.withFiles db = some v) :
    HistoryKept c ({ s with tables := v },
      { g with recorded := g.recorded.filter fun e => (db.getByInode e.inode).isSome }) := by
  obtain ⟨hdb, hrows⟩ := VersionDb.of_withFiles hv
  have hsub : v.history.rows.Sublist s.tables.history.rows := by
    rw [hrows]
    exact List.filter_sublist
  refine ⟨h.chronological.sublist hsub, fun e he => ?_, fun i => ?_⟩
  · rw [show (({ s with tables := v } : BlobState)).tables.db = db from hdb]
    exact (h.noneLater e (hsub.subset he)).trans hclock
  · have hfilter : ∀ l : List VersionEntry,
        (l.filter fun e => (db.getByInode e.inode).isSome).filter (fun e => e.inode = i) =
          if (db.getByInode i).isSome then l.filter fun e => e.inode = i else [] := by
      intro l
      rw [List.filter_filter]
      split
      · rename_i hi
        refine List.filter_congr fun e _ => ?_
        by_cases he : e.inode = i
        · simp [he, hi]
        · simp [he]
      · rename_i hi
        refine List.filter_eq_nil_iff.2 fun e _ => ?_
        simp only [Bool.and_eq_true, decide_eq_true_eq, not_and]
        rintro rfl
        exact hi
    have hkept := h.kept i
    simp only [VersionDb.fileRows, VersionLog.captures, hrows, hfilter] at hkept ⊢
    split
    · exact hkept
    · exact ⟨List.nil_prefix, by simp, by simp⟩

theorem HistoryKept.step {x y : BlobState × VersionLog} (hx : HistoryKept c x)
    (hg : ClockForward x e) (h : versionStep c x e = some y) : HistoryKept c y := by
  obtain ⟨s, g⟩ := x
  obtain ⟨s', g'⟩ := y
  obtain ⟨hstep, hnext⟩ := withHistory_eq_some.1 h
  dsimp only at hstep hnext
  subst hnext
  cases e with
  | start job =>
    obtain rfl := Option.some.inj hstep
    exact ⟨hx.chronological, hx.noneLater, hx.kept⟩
  | files db =>
    obtain ⟨v, hv, rfl⟩ := Option.map_eq_some_iff.1 hstep
    exact hx.files hg hv
  | tick k env =>
    obtain ⟨t, ht, rfl⟩ := Option.map_eq_some_iff.1 hstep
    have hof : TickOf c s env t (t.tick c s env).1.tables := tickOf_tick t
    simp only [VersionLog.next, ht]
    cases hrecorded : t.recorded c s env with
    | some q =>
      obtain ⟨hrows, hid, hnow⟩ := hof.recorded q hrecorded
      exact hx.record hof.db hrows hid hnow
    | none =>
      cases hpruned : t.pruned env with
      | some i =>
        obtain ⟨orphans, hv⟩ := hof.pruned i hpruned
        exact hx.prune hv
      | none =>
        have hsame := hof.other hrecorded hpruned
        refine ⟨?_, fun e he => ?_, fun i => ?_⟩
        · rw [VersionDb.Chronological, hsame]
          exact hx.chronological
        · rw [hof.db]
          exact hx.noneLater e (hsame ▸ he)
        · have hkept := hx.kept i
          rw [VersionDb.fileRows, ← hsame] at hkept
          exact hkept

end Runs

/-- **The history of a file has its newest versions**, in every run in which the clock is not set
back, whatever runs beside the captures. -/
theorem history_of_run (c : BlobConfig) (db : Db) {es : List BlobEvent} {s : BlobState}
    {g : VersionLog}
    (hclock : Guarded (versionStep c) ClockForward (.init db, ⟨[], fun _ => 0⟩) es)
    (h : run (versionStep c) (.init db, ⟨[], fun _ => 0⟩) es = some (s, g)) (i : Inode) :
    s.tables.listVersionHistory i <+: g.captures i ∧
      min c.retention (g.captures i).length ≤ (s.tables.listVersionHistory i).length ∧
      (s.tables.listVersionHistory i).length ≤ c.retention + g.unpruned i := by
  have hinit : HistoryKept c (.init db, ⟨[], fun _ => 0⟩) :=
    ⟨List.Pairwise.nil, nofun, fun _ => .nil⟩
  have hx : HistoryKept c (s, g) := inv_of_run (fun _ _ _ hx hg h => hx.step hg h) hinit hclock h
  obtain ⟨hlisted, henough, hnotMore⟩ := hx.kept i
  rw [← VersionDb.listVersionHistory_eq_reverse hx.chronological] at hlisted henough hnotMore
  exact ⟨hlisted, henough, hnotMore⟩

/-- Two captures of a file, of which one version is kept, run beside each other: both record their
version before one prunes. -/
def capturesSideBySide : List BlobEvent :=
  let a : VersionSnapshot := ⟨2, 1, none, .afterUpload⟩
  [.files (oneFile 0), .start (.capture a)] ++ calls 6 [7] ++ [.start (.capture a)] ++
    List.replicate 6 (.tick 1 ⟨false, some [8]⟩) ++ [.tick 0 ⟨false, none⟩]

theorem history_of_capturesSideBySide : ∃ s g,
    run (versionStep { sampleBlobs with retention := 1 })
      (.init (Db.empty 1 0), ⟨[], fun _ => 0⟩) capturesSideBySide = some (s, g) ∧
    (g.captures 2).length = 2 ∧
    s.tables.listVersionHistory 2 <+: g.captures 2 ∧
    min 1 (g.captures 2).length ≤ (s.tables.listVersionHistory 2).length ∧
    (s.tables.listVersionHistory 2).length ≤ 1 + g.unpruned 2 := by
  have hclock : Guarded (versionStep { sampleBlobs with retention := 1 }) ClockForward
      (.init (Db.empty 1 0), ⟨[], fun _ => 0⟩) capturesSideBySide := by decide
  exact ⟨_, _, rfl, rfl, history_of_run _ _ hclock rfl 2⟩

end Stratosync

import Stratosync.Daemon.Rows
import Stratosync.Foundations.Batches
import Stratosync.Foundations.Runs

/-!
# Where the eviction ends

An eviction that no one disturbs and whose removals succeed drains the list of evictable rows in
batches (`drains_of_query`): each candidate it takes leaves the list and the total. It always ends;
`maybeEvict_converges_iff` says when the total is then at the low-water mark or no evictable file is
left. A batch of empty files ends it before, and so does a row whose cache columns are not set.
-/

namespace Stratosync

open Foundations.Runs Foundations.Batches

/-- The bytes a row counts for. -/
def FileEntry.countedBytes (r : FileEntry) : ℕ := r.cacheSize.getD 0

/-- The row as the eviction reads it. -/
def FileEntry.candidate (r : FileEntry) : Option EvictionCandidate :=
  r.cachePath.bind fun p => r.cacheSize.map fun n => ⟨r.inode, p, n⟩

/-- Its cache columns are set. -/
def FileEntry.Measured (r : FileEntry) : Prop := r.candidate.isSome = true

instance : DecidablePred FileEntry.Measured := fun r =>
  inferInstanceAs (Decidable (r.candidate.isSome = true))

namespace Db

/-- `lru_eviction_candidates` without the limit. -/
def evictable (db : Db) (mountId : ℕ) : List FileEntry :=
  ((db.cacheLru.filter fun l => !l.pinned).insertionSort fun a b =>
    a.lastAccess ≤ b.lastAccess).filterMap fun l =>
      (db.getByInode l.inode).filter fun r => r.mountId = mountId ∧ r.status = .cached

/-- The primary key of `cache_lru`. -/
def LruKeys (db : Db) : Prop := (db.cacheLru.map LruEntry.inode).Nodup

instance : DecidablePred LruKeys := fun _ => inferInstanceAs (Decidable (List.Nodup _))

theorem lruEvictionCandidates_eq (db : Db) (mountId limit : ℕ) :
    db.lruEvictionCandidates mountId limit =
      ((db.evictable mountId).take limit).mapM FileEntry.candidate := rfl

end Db

/-! ## Lists -/

section Lists

variable {α β : Type*}

theorem filter_orderedInsert {r : α → α → Prop} [DecidableRel r] [IsTrans α r] (p : α → Bool)
    (a : α) {l : List α} (hl : l.Pairwise r) :
    (l.orderedInsert r a).filter p =
      if p a then (l.filter p).orderedInsert r a else l.filter p := by
  induction l with
  | nil => cases hp : p a <;> simp [hp]
  | cons b l ih =>
    obtain ⟨hb, hl⟩ := List.pairwise_cons.1 hl
    by_cases hab : r a b
    · rw [List.orderedInsert_cons, if_pos hab]
      cases hp : p a with
      | false => simp [hp]
      | true =>
        -- what is left of the list still starts with something above `a`
        rw [List.filter_cons_of_pos hp, if_pos rfl]
        have habove : ∀ c ∈ (b :: l).filter p, r a c := by
          intro c hc
          obtain rfl | hc := List.mem_cons.1 (List.mem_of_mem_filter hc)
          · exact hab
          · exact IsTrans.trans a b c hab (hb c hc)
        cases hf : (b :: l).filter p with
        | nil => rfl
        | cons c l' =>
          rw [List.orderedInsert_cons, if_pos (habove c (hf ▸ List.mem_cons_self))]
    · rw [List.orderedInsert_cons, if_neg hab]
      cases hq : p b with
      | false =>
        rw [List.filter_cons_of_neg (by simp [hq]), ih hl, List.filter_cons_of_neg (by simp [hq])]
      | true =>
        rw [List.filter_cons_of_pos hq, ih hl, List.filter_cons_of_pos hq]
        split
        · rw [List.orderedInsert_cons, if_neg hab]
        · rfl

/-- A sort by insertion and a filter may change places. -/
theorem filter_insertionSort {r : α → α → Prop} [DecidableRel r] [IsTrans α r] [Std.Total r]
    (p : α → Bool) (l : List α) :
    (l.insertionSort r).filter p = (l.filter p).insertionSort r := by
  induction l with
  | nil => rfl
  | cons a l ih =>
    rw [List.insertionSort_cons, filter_orderedInsert p a (List.pairwise_insertionSort r l), ih]
    split
    · rw [List.filter_cons_of_pos ‹_›, List.insertionSort_cons]
    · rw [List.filter_cons_of_neg ‹_›]

theorem mapM_eq_some_iff {f : α → Option β} {l : List α} {cs : List β} :
    l.mapM f = some cs ↔ List.Forall₂ (fun a c => f a = some c) l cs := by
  induction l generalizing cs with
  | nil => simp [eq_comm]
  | cons a l ih =>
    rw [List.mapM_cons]
    constructor
    · intro h
      obtain ⟨c, hc, h⟩ := Option.bind_eq_some_iff.1 h
      obtain ⟨cs', hcs', h⟩ := Option.bind_eq_some_iff.1 h
      obtain rfl := Option.some.inj h
      exact .cons hc (ih.1 hcs')
    · intro h
      cases h with
      | cons hc h => exact Option.bind_eq_some_iff.2 ⟨_, hc, by simp [ih.2 h]⟩

theorem mapM_isSome_iff {f : α → Option β} {l : List α} :
    (l.mapM f).isSome = true ↔ ∀ a ∈ l, (f a).isSome = true := by
  induction l with
  | nil => simp
  | cons a l ih =>
    rw [List.mapM_cons, List.forall_mem_cons, ← ih]
    cases ha : f a with
    | none => simp
    | some c => cases hl : l.mapM f <;> simp

end Lists

/-! ## One candidate -/

namespace Db

variable {db db' : Db} {mountId : ℕ} {r : FileEntry} {rest : List FileEntry}

theorem mem_evictable {q : FileEntry} (h : q ∈ db.evictable mountId) :
    db.getByInode q.inode = some q ∧ q.mountId = mountId ∧ q.status = .cached := by
  obtain ⟨l, -, hl⟩ := List.mem_filterMap.1 h
  obtain ⟨hq, hp⟩ := Option.filter_eq_some_iff.1 hl
  exact ⟨inode_of_getByInode hq ▸ hq, by simpa using hp⟩

theorem inodes_sublist (lru : List LruEntry) :
    ((lru.filterMap fun l => (db.getByInode l.inode).filter fun r =>
      r.mountId = mountId ∧ r.status = .cached).map FileEntry.inode).Sublist
        (lru.map LruEntry.inode) := by
  induction lru with
  | nil => exact .slnil
  | cons l lru ih =>
    rw [List.filterMap_cons, List.map_cons]
    split
    · exact ih.cons _
    · rename_i q hq
      rw [List.map_cons, inode_of_getByInode (Option.filter_eq_some_iff.1 hq).1]
      exact ih.cons_cons _

/-- The list has a row once. -/
theorem nodup_evictable (hk : db.LruKeys) : ((db.evictable mountId).map FileEntry.inode).Nodup := by
  have hperm := List.perm_insertionSort (fun a b : LruEntry => a.lastAccess ≤ b.lastAccess)
    (db.cacheLru.filter fun l => !l.pinned)
  refine List.Nodup.sublist (inodes_sublist _) ?_
  exact (hperm.map LruEntry.inode).nodup_iff.2 (hk.sublist (List.filter_sublist.map _))

/-- The rows whose inode is not this one, once its row and its entry of `cache_lru` are gone from
the candidates. -/
theorem evictable_setEvicted {i : Inode} (h : db.setEvicted i = some db') :
    db'.evictable mountId = (db.evictable mountId).filter fun q => q.inode ≠ i := by
  have hrows := setEvicted_rows h
  have hlru : db'.cacheLru = db.cacheLru.filter fun l => l.inode ≠ i := by
    obtain ⟨db₁, h₁, rfl⟩ := Option.map_eq_some_iff.1 h
    obtain ⟨t, -, rfl⟩ := Option.map_eq_some_iff.1 h₁
    rfl
  have hfilter : (db'.cacheLru.filter fun l => !l.pinned) =
      (db.cacheLru.filter fun l => !l.pinned).filter fun l => l.inode ≠ i := by
    rw [hlru, List.filter_filter, List.filter_filter]
    exact List.filter_congr fun l _ => Bool.and_comm _ _
  rw [evictable, hfilter, ← filter_insertionSort, evictable, List.filter_filterMap,
    List.filterMap_filter]
  refine List.filterMap_congr fun l _ => ?_
  by_cases hl : l.inode = i
  · subst hl
    cases hr : db.getByInode l.inode with
    | none => simp
    | some q =>
      have hq := inode_of_getByInode hr
      by_cases hp : q.mountId = mountId ∧ q.status = .cached <;> simp [Option.filter, hp, hq]
  · rw [hrows.of_ne hl]
    cases hr : db.getByInode l.inode with
    | none => simp [hl]
    | some q =>
      have hq := inode_of_getByInode hr
      by_cases hp : q.mountId = mountId ∧ q.status = .cached <;> simp [Option.filter, hp, hq, hl]

/-- The bytes some rows of a mount count for. -/
def bytesOf (mountId : ℕ) (rows : List FileEntry) : ℕ :=
  ((rows.filter fun r => r.mountId = mountId).filterMap FileEntry.cacheSize).sum

theorem bytesOf_cons (q : FileEntry) (rows : List FileEntry) :
    bytesOf mountId (q :: rows) =
      (if q.mountId = mountId then q.countedBytes else 0) + bytesOf mountId rows := by
  rw [bytesOf, List.filter_cons]
  by_cases hq : q.mountId = mountId
  · cases hs : q.cacheSize <;> simp [hq, hs, FileEntry.countedBytes, bytesOf]
  · simp [hq, bytesOf]

theorem bytesOf_evicted {rows : List FileEntry} (hn : (rows.map FileEntry.inode).Nodup)
    (hr : r ∈ rows) (hm : r.mountId = mountId) :
    bytesOf mountId (rows.map fun q => if q.inode = r.inode then q.evicted else q) +
      r.countedBytes = bytesOf mountId rows := by
  induction rows with
  | nil => cases hr
  | cons q rows ih =>
    rw [List.map_cons, List.nodup_cons] at hn
    rw [List.map_cons, bytesOf_cons, bytesOf_cons]
    obtain rfl | hr := List.mem_cons.1 hr
    · have hrest : (rows.map fun q => if q.inode = r.inode then q.evicted else q) = rows := by
        refine (List.map_congr_left fun q hq => ?_).trans (List.map_id rows)
        have hne : q.inode ≠ r.inode := fun e => hn.1 (e ▸ List.mem_map_of_mem hq)
        rw [if_neg hne, id]
      have hzero : r.evicted.countedBytes = 0 := rfl
      have hmount : r.evicted.mountId = r.mountId := rfl
      rw [hrest, if_pos rfl, hmount, if_pos hm, if_pos hm, hzero]
      omega
    · have hne : q.inode ≠ r.inode := fun e => hn.1 (e ▸ List.mem_map_of_mem hr)
      have := ih hn.2 hr
      rw [if_neg hne]
      omega

/-- **An eviction takes the bytes of the row off the total.** -/
theorem totalCacheBytes_setEvicted {i : Inode} (h : db.setEvicted i = some db')
    (hr : db.getByInode i = some r) (hm : r.mountId = mountId) :
    db'.totalCacheBytes mountId + r.countedBytes = db.totalCacheBytes mountId := by
  obtain rfl := inode_of_getByInode hr
  obtain ⟨db₁, h₁, rfl⟩ := Option.map_eq_some_iff.1 h
  obtain ⟨t, ht, rfl⟩ := Option.map_eq_some_iff.1 h₁
  have hrows := Foundations.Table.commit_eq_some.1 ht
  have hbytes := bytesOf_evicted db.fileIndex.ok.inodeUnique (mem_rows_of_getByInode hr) hm
  change bytesOf mountId t.rows + _ = bytesOf mountId db.fileIndex.rows
  rw [hrows, ← hbytes]
  simp only [decide_eq_true_eq]
  rfl

theorem lruKeys_setEvicted {i : Inode} (hk : db.LruKeys) (h : db.setEvicted i = some db') :
    db'.LruKeys := by
  obtain ⟨db₁, h₁, rfl⟩ := Option.map_eq_some_iff.1 h
  obtain ⟨t, -, rfl⟩ := Option.map_eq_some_iff.1 h₁
  exact hk.sublist (List.filter_sublist.map _)

theorem setEvicted_isSome (db : Db) (i : Inode) : (db.setEvicted i).isSome = true := by
  rw [setEvicted, Option.isSome_map]
  exact updateRow_isSome (fun _ => ⟨rfl, rfl, rfl, rfl, rfl, rfl⟩) fun _ _ _ hc => by cases hc

/-- **The first candidate leaves the list.** -/
theorem evictable_of_head (hk : db.LruKeys) (he : db.evictable mountId = r :: rest)
    (h : db.setEvicted r.inode = some db') : db'.evictable mountId = rest := by
  have hn : ((db.evictable mountId).map FileEntry.inode).Nodup := nodup_evictable hk
  rw [he, List.map_cons, List.nodup_cons] at hn
  rw [evictable_setEvicted h, he, List.filter_cons_of_neg (by simp), List.filter_eq_self]
  intro q hq
  have hne : q.inode ≠ r.inode := fun e => hn.1 (e ▸ List.mem_map_of_mem hq)
  simpa using hne

end Db

/-! ## The calls of an eviction -/

section Runs

variable {m : Mount} {w w' w'' : World}

/-- The eviction takes calls in which nothing fails, and no one else does anything. -/
def Evicts (m : Mount) (w w' : World) : Prop :=
  ∃ n, run (step m) w (List.replicate n (.eviction .fine)) = some w'

theorem Evicts.trans (h : Evicts m w w') (h' : Evicts m w' w'') : Evicts m w w'' := by
  obtain ⟨n, hn⟩ := h
  obtain ⟨n', hn'⟩ := h'
  refine ⟨n + n', ?_⟩
  rw [List.replicate_add, run_append, hn, Option.bind_some, hn']

/-- The next call. -/
theorem evicts_call {ev : Eviction} {next : Option Eviction} (hw : w.eviction = some ev)
    (h : ev.tick m w .fine = (w', next)) :
    ∃ w'', Evicts m w w'' ∧ w''.eviction = next ∧ w''.db = w'.db := by
  refine ⟨{ w' with eviction := next }, ⟨1, ?_⟩, rfl, rfl⟩
  simp [step, evictionStep, hw, h]

/-- The next candidate, read from the row at the head of the list, is evicted. -/
theorem evicts_candidate {toFree freed passFreed : ℕ} {c : EvictionCandidate}
    {cs : List EvictionCandidate} {r : FileEntry} {rest : List FileEntry}
    (hw : w.eviction = some ⟨toFree, freed, .recheck (c :: cs) passFreed⟩)
    (hgoal : freed + passFreed < toFree) (hc : r.candidate = some c)
    (he : w.db.evictable m.mountId = r :: rest) (hk : w.db.LruKeys) :
    ∃ w', Evicts m w w' ∧
      w'.eviction = some ⟨toFree, freed, .recheck cs (passFreed + r.countedBytes)⟩ ∧
      w'.db.evictable m.mountId = rest ∧ w'.db.LruKeys ∧
      w'.db.totalCacheBytes m.mountId + r.countedBytes = w.db.totalCacheBytes m.mountId := by
  obtain ⟨p, -, hc⟩ := Option.bind_eq_some_iff.1 hc
  obtain ⟨n, hn, rfl⟩ := Option.map_eq_some_iff.1 hc
  have hbytes : r.countedBytes = n := by rw [FileEntry.countedBytes, hn, Option.getD_some]
  obtain ⟨hr, hm, hs⟩ := Db.mem_evictable (he ▸ List.mem_cons_self)
  obtain ⟨db, hdb⟩ := Option.isSome_iff_exists.1 (w.db.setEvicted_isSome r.inode)
  have hcached : (w.db.getByInode r.inode).any (fun q => decide (q.status = .cached)) = true := by
    simp [hr, hs]
  have hfine : ¬Env.fine.fault = true := Bool.false_ne_true
  obtain ⟨w₁, h₁, hev₁, hdb₁⟩ := evicts_call  hw
    (show Eviction.tick m w .fine _ = (w, some ⟨toFree, freed, .remove _ cs passFreed⟩) by
      simp only [Eviction.tick]
      rw [if_neg (Nat.not_le.2 hgoal), if_neg hfine, if_pos hcached])
  obtain ⟨w₂, h₂, hev₂, hdb₂⟩ := evicts_call  hev₁
    (show Eviction.tick m w₁ .fine _ =
      ({ w₁ with fs := w₁.fs.removeIfPresent (some p) },
        some ⟨toFree, freed, .evicted ⟨r.inode, p, n⟩ cs passFreed⟩) from rfl)
  have htry : World.tryDb Env.fine (w₂.db.setEvicted r.inode) = some db := by
    rw [hdb₂, hdb₁]
    exact hdb
  obtain ⟨w₃, h₃, hev₃, rfl⟩ := evicts_call  hev₂
    (show Eviction.tick m w₂ .fine _ =
      ({ w₂ with db }, some ⟨toFree, freed, .recheck cs (passFreed + n)⟩) by
      simp only [Eviction.tick, htry])
  exact ⟨w₃, (h₁.trans h₂).trans h₃, hbytes ▸ hev₃, Db.evictable_of_head hk he hdb,
    Db.lruKeys_setEvicted hk hdb, Db.totalCacheBytes_setEvicted hdb hr hm⟩

/-- **A pass** evicts the rows at the front, until the goal is reached. -/
theorem evicts_pass {toFree freed : ℕ} {l tail : List FileEntry} {cs : List EvictionCandidate}
    (hc : List.Forall₂ (fun r c => r.candidate = some c) l cs) {passFreed : ℕ} {w : World}
    (hw : w.eviction = some ⟨toFree, freed, .recheck cs passFreed⟩)
    (he : w.db.evictable m.mountId = l ++ tail) (hk : w.db.LruKeys) {n : ℕ}
    (hn : n = cut FileEntry.countedBytes (toFree - (freed + passFreed)) l) :
    ∃ w' pc, Evicts m w w' ∧
      w'.eviction = (Eviction.mk toFree freed pc).endPass
        (passFreed + total FileEntry.countedBytes (l.take n)) ∧
      w'.db.evictable m.mountId = l.drop n ++ tail ∧ w'.db.LruKeys ∧
      w'.db.totalCacheBytes m.mountId + total FileEntry.countedBytes (l.take n) =
        w.db.totalCacheBytes m.mountId := by
  have hfine : ¬Env.fine.fault = true := Bool.false_ne_true
  induction hc generalizing passFreed w n with
  | nil =>
    obtain ⟨w', h, hev, hdb⟩ := evicts_call hw rfl
    subst hn
    exact ⟨w', _, h, hev, hdb ▸ he, hdb ▸ hk, hdb ▸ rfl⟩
  | @cons r c l cs hc _ ih =>
    by_cases hgoal : toFree ≤ freed + passFreed
    · rw [Nat.sub_eq_zero_of_le hgoal, cut_zero] at hn
      subst hn
      obtain ⟨w', h, hev, hdb⟩ := evicts_call hw
        (show Eviction.tick m w .fine _ = (w, _) by
          simp only [Eviction.tick]
          rw [if_pos hgoal])
      exact ⟨w', _, h, hev, hdb ▸ he, hdb ▸ hk, hdb ▸ rfl⟩
    · have hgoal : freed + passFreed < toFree := by omega
      obtain ⟨w₁, h₁, hev₁, he₁, hk₁, htotal₁⟩ := evicts_candidate hw hgoal hc he hk
      obtain ⟨g, hg⟩ := Nat.exists_eq_add_of_lt hgoal
      have hn' : n = cut FileEntry.countedBytes
          (toFree - (freed + (passFreed + r.countedBytes))) l + 1 := by
        rw [hn, show toFree - (freed + passFreed) = g + 1 by omega, cut,
          show toFree - (freed + (passFreed + r.countedBytes)) = g + 1 - r.countedBytes by omega]
      obtain ⟨w₂, pc, h₂, hev₂, he₂, hk₂, htotal₂⟩ := ih hev₁ he₁ hk₁ rfl
      subst hn'
      refine ⟨w₂, pc, h₁.trans h₂, ?_, he₂, hk₂, ?_⟩
      · rw [hev₂, List.take_succ_cons, total_cons, Nat.add_assoc]
      · rw [List.take_succ_cons, total_cons]
        omega

/-- A query that fails or finds nothing ends the eviction. -/
theorem tick_query_end {toFree freed : ℕ} (hgoal : freed < toFree)
    (h : w.db.lruEvictionCandidates m.mountId evictionBatch = none ∨
      w.db.lruEvictionCandidates m.mountId evictionBatch = some []) :
    Eviction.tick m w .fine ⟨toFree, freed, .query⟩ = (w, none) := by
  have hfine : ¬Env.fine.fault = true := Bool.false_ne_true
  simp only [Eviction.tick]
  rw [if_neg (Nat.not_le.2 hgoal), if_neg hfine]
  obtain h | h := h <;> rw [h]

theorem tick_query_pass {toFree freed : ℕ} (hgoal : freed < toFree) {c : EvictionCandidate}
    {cs : List EvictionCandidate}
    (h : w.db.lruEvictionCandidates m.mountId evictionBatch = some (c :: cs)) :
    Eviction.tick m w .fine ⟨toFree, freed, .query⟩ =
      (w, some ⟨toFree, freed, .recheck (c :: cs) 0⟩) := by
  have hfine : ¬Env.fine.fault = true := Bool.false_ne_true
  simp only [Eviction.tick]
  rw [if_neg (Nat.not_le.2 hgoal), if_neg hfine, h]

/-- A query and the pass over its batch. -/
theorem evicts_batch {toFree freed : ℕ} {L : List FileEntry} {c : EvictionCandidate}
    {cs : List EvictionCandidate} (hw : w.eviction = some ⟨toFree, freed, .query⟩)
    (hgoal : freed < toFree) (he : w.db.evictable m.mountId = L) (hk : w.db.LruKeys)
    (hq : w.db.lruEvictionCandidates m.mountId evictionBatch = some (c :: cs)) {n : ℕ}
    (hn : n = cut FileEntry.countedBytes (toFree - freed) (L.take evictionBatch)) :
    ∃ w' pc, Evicts m w w' ∧
      w'.eviction = (Eviction.mk toFree freed pc).endPass
        (total FileEntry.countedBytes (L.take n)) ∧
      w'.db.evictable m.mountId = L.drop n ∧ w'.db.LruKeys ∧
      w'.db.totalCacheBytes m.mountId + total FileEntry.countedBytes (L.take n) =
        w.db.totalCacheBytes m.mountId := by
  subst he
  obtain ⟨w₁, h₁, hev₁, hdb₁⟩ := evicts_call hw (tick_query_pass hgoal hq)
  have hsplit : w₁.db.evictable m.mountId = (w.db.evictable m.mountId).take evictionBatch ++
      (w.db.evictable m.mountId).drop evictionBatch := by
    rw [hdb₁, List.take_append_drop]
  have hc : List.Forall₂ (fun r c => r.candidate = some c)
      ((w.db.evictable m.mountId).take evictionBatch) (c :: cs) := mapM_eq_some_iff.1 hq
  obtain ⟨w₂, pc, h₂, hev₂, he₂, hk₂, htotal₂⟩ := evicts_pass hc hev₁ hsplit (hdb₁.symm ▸ hk) hn
  subst hn
  rw [take_cut, Nat.zero_add] at hev₂
  rw [drop_cut] at he₂
  rw [take_cut, hdb₁] at htotal₂
  exact ⟨w₂, pc, h₁.trans h₂, hev₂, he₂, hk₂, htotal₂⟩

/-- What is left of the rows and of the total when the eviction is over. -/
structure Drained (m : Mount) (goal : ℕ) (w w' : World) : Prop where
  ended : w'.eviction = none
  rows : Drains FileEntry.countedBytes FileEntry.Measured evictionBatch goal
    (w.db.evictable m.mountId) (w'.db.evictable m.mountId)
  bytes : w'.db.totalCacheBytes m.mountId +
      total FileEntry.countedBytes (w.db.evictable m.mountId) =
    w.db.totalCacheBytes m.mountId + total FileEntry.countedBytes (w'.db.evictable m.mountId)

/-- The eviction ends where it is. -/
theorem drained_of_call {toFree freed : ℕ} (hw : w.eviction = some ⟨toFree, freed, .query⟩)
    (h : Eviction.tick m w .fine ⟨toFree, freed, .query⟩ = (w, none))
    (hd : Drains FileEntry.countedBytes FileEntry.Measured evictionBatch (toFree - freed)
      (w.db.evictable m.mountId) (w.db.evictable m.mountId)) :
    ∃ w', Evicts m w w' ∧ Drained m (toFree - freed) w w' := by
  obtain ⟨w', h', hev, hdb⟩ := evicts_call hw h
  exact ⟨w', h', hev, hdb.symm ▸ hd, hdb.symm ▸ rfl⟩

/-- **The loop** drains the list of the evictable rows, and then the eviction is over. -/
theorem drains_of_query {toFree : ℕ} (freed : ℕ) {w : World}
    (hw : w.eviction = some ⟨toFree, freed, .query⟩) (hk : w.db.LruKeys) :
    ∃ w', Evicts m w w' ∧ Drained m (toFree - freed) w w' := by
  -- on the length of the list: a pass that gains something takes a row
  induction hlen : (w.db.evictable m.mountId).length using Nat.strong_induction_on
    generalizing freed w with
  | _ len ih =>
    subst hlen
    by_cases hgoal : toFree ≤ freed
    · refine drained_of_call hw ?_ (Nat.sub_eq_zero_of_le hgoal ▸ .reached)
      simp only [Eviction.tick]
      rw [if_pos hgoal]
    have hgoal : freed < toFree := by omega
    have hpos : 0 < toFree - freed := by omega
    cases hq : w.db.lruEvictionCandidates m.mountId evictionBatch with
    | none =>
      refine drained_of_call hw (tick_query_end hgoal (.inl hq)) (.unreadable hpos fun hr => ?_)
      have hsome := mapM_isSome_iff.2 hr
      rw [← Db.lruEvictionCandidates_eq, hq] at hsome
      cases hsome
    | some cs =>
      have hc : List.Forall₂ (fun r c => r.candidate = some c)
          ((w.db.evictable m.mountId).take evictionBatch) cs := mapM_eq_some_iff.1 hq
      have hread : ∀ r ∈ (w.db.evictable m.mountId).take evictionBatch, r.Measured :=
        mapM_isSome_iff.1 (Option.isSome_iff_exists.2 ⟨cs, hq⟩)
      cases cs with
      | nil =>
        have hnil : w.db.evictable m.mountId = [] := by
          simpa [evictionBatch] using List.forall₂_nil_right_iff.1 hc
        exact drained_of_call hw (tick_query_end hgoal (.inr hq)) (hnil ▸ .empty)
      | cons c cs =>
        generalize hL : w.db.evictable m.mountId = L at *
        obtain ⟨w₁, pc, h₁, hev₁, he₁, hk₁, htotal₁⟩ := evicts_batch hw hgoal hL hk hq rfl
        generalize hn : cut FileEntry.countedBytes (toFree - freed) (L.take evictionBatch) = n at *
        have hsum : total FileEntry.countedBytes (L.take n) +
            total FileEntry.countedBytes (L.drop n) = total FileEntry.countedBytes L :=
          total_take_add_drop n L
        by_cases hzero : total FileEntry.countedBytes (L.take n) = 0
        · rw [hzero, Eviction.endPass, if_pos rfl] at hev₁
          obtain ⟨hbatch, hdrop⟩ : L.take n = L.take evictionBatch ∧
              L.drop n = L.drop evictionBatch := by
            subst hn
            exact batch_of_lt (by omega)
          refine ⟨w₁, h₁, hev₁, ?_, ?_⟩
          · rw [hL, he₁, hdrop]
            exact .stuck hpos hread (hbatch ▸ hzero)
          · rw [hL, he₁]
            omega
        · rw [Eviction.endPass, if_neg hzero] at hev₁
          have hlen : (w₁.db.evictable m.mountId).length < L.length := by
            have hne : n ≠ 0 := by
              rintro rfl
              exact hzero rfl
            have hpos' : 0 < L.length := by
              rw [List.length_pos_iff]
              rintro rfl
              exact hzero (by simp)
            rw [he₁, List.length_drop]
            omega
          obtain ⟨w₂, h₂, hd⟩ := ih _ hlen _ hev₁ hk₁ rfl
          have hbytes := hd.bytes
          have hrows := hd.rows
          rw [he₁] at hbytes hrows
          refine ⟨w₂, h₁.trans h₂, hd.ended, ?_, ?_⟩
          · rw [hL]
            exact .pass hpos hread hn.symm (Nat.pos_of_ne_zero hzero)
              (by rwa [Nat.sub_sub])
          · rw [hL]
            omega

/-! ## What the eviction is for -/

/-- `maybe_evict` without concurrent writers and without a failing call, from its start to its
end. -/
def MaybeEvict (m : Mount) (w w' : World) : Prop :=
  if (startEviction m w).isNone then w' = w
  else
    w'.eviction = none ∧
      ∃ n, run (step m) w (.startEviction :: List.replicate n (.eviction .fine)) = some w'

/-- The total is at the low-water mark, or no evictable file is left. -/
def EvictionReached (m : Mount) (w : World) : Prop :=
  w.db.totalCacheBytes m.mountId ≤ m.lowMark ∨
    ∀ r ∈ w.db.evictable m.mountId, r.kind ≠ .file

/-- Each batch of candidates that the eviction comes to can be read and has a file with content,
unless no file is at it or behind. -/
def Db.BatchesFree (db : Db) (m : Mount) : Prop :=
  Free FileEntry.countedBytes FileEntry.Measured (fun r => r.kind = .file) evictionBatch
    (db.totalCacheBytes m.mountId - m.lowMark) (db.evictable m.mountId)

theorem startEviction_isNone_iff :
    (startEviction m w).isNone = true ↔ w.db.totalCacheBytes m.mountId ≤ m.highMark := by
  simp only [startEviction]
  split <;> simp [*]

/-- An eviction that is over makes no further call. -/
theorem eq_of_evicts {n n' : ℕ}
    (h : run (step m) w (List.replicate n (.eviction .fine)) = some w')
    (h' : run (step m) w (List.replicate n' (.eviction .fine)) = some w'')
    (hev : w'.eviction = none) (hev' : w''.eviction = none) : w' = w'' := by
  induction n generalizing w n' with
  | zero =>
    obtain rfl := Option.some.inj h
    cases n' with
    | zero => exact Option.some.inj h'
    | succ n' => simp [List.replicate_succ, step, evictionStep, hev] at h'
  | succ n ih =>
    cases n' with
    | zero =>
      obtain rfl := Option.some.inj h'
      simp [List.replicate_succ, step, evictionStep, hev'] at h
    | succ n' =>
      rw [List.replicate_succ] at h h'
      obtain ⟨t, ht, h⟩ := run_cons_eq_some.1 h
      obtain ⟨t', ht', h'⟩ := run_cons_eq_some.1 h'
      obtain rfl := Option.some.inj (ht.symm.trans ht')
      exact ih h h'

theorem maybeEvict_unique (h : MaybeEvict m w w') (h' : MaybeEvict m w w'') : w' = w'' := by
  rw [MaybeEvict] at h h'
  split at h
  · rw [if_pos ‹_›] at h'
    exact h.trans h'.symm
  · rw [if_neg ‹_›] at h'
    obtain ⟨hev, n, h⟩ := h
    obtain ⟨hev', n', h'⟩ := h'
    obtain ⟨t, ht, h⟩ := run_cons_eq_some.1 h
    obtain ⟨t', ht', h'⟩ := run_cons_eq_some.1 h'
    obtain rfl := Option.some.inj (ht.symm.trans ht')
    exact eq_of_evicts h h' hev hev'

/-- **An eviction ends**, and reaches what it is for if and only if no batch stops it. -/
theorem exists_maybeEvict (hidle : w.eviction = none) (hk : w.db.LruKeys)
    (hused : m.highMark < w.db.totalCacheBytes m.mountId) :
    ∃ w', MaybeEvict m w w' ∧ (EvictionReached m w' ↔ w.db.BatchesFree m) := by
  have hstart : step m w .startEviction = some { w with
      eviction := some ⟨w.db.totalCacheBytes m.mountId - m.lowMark, 0, .query⟩ } := by
    simp [step, hidle, startEviction, Nat.not_le.2 hused]
  obtain ⟨w', ⟨n, hn⟩, hover, hrows, hbytes⟩ := drains_of_query (m := m) 0 (w := { w with
      eviction := some ⟨w.db.totalCacheBytes m.mountId - m.lowMark, 0, .query⟩ }) rfl hk
  refine ⟨w', ?_, ?_⟩
  · rw [MaybeEvict, if_neg (startEviction_isNone_iff.not.2 (Nat.not_le.2 hused))]
    exact ⟨hover, n, run_cons_eq_some.2 ⟨_, hstart, hn⟩⟩
  · have hle := hrows.total_le
    dsimp only at hbytes hle
    refine Iff.trans ?_ (drains_iff hrows)
    exact or_congr_left (by omega)

/-- **Where the eviction ends.** It always does, and then the total is at the low-water mark or no
evictable file is left if and only if no batch of candidates has stopped it. -/
theorem maybeEvict_converges_iff (hidle : w.eviction = none) (hk : w.db.LruKeys) :
    (∃ w', MaybeEvict m w w') ∧
      ∀ w', MaybeEvict m w w' →
        ((m.highMark < w.db.totalCacheBytes m.mountId → EvictionReached m w') ↔
          (m.highMark < w.db.totalCacheBytes m.mountId → w.db.BatchesFree m)) := by
  by_cases hused : m.highMark < w.db.totalCacheBytes m.mountId
  · obtain ⟨w₁, h₁, hiff⟩ := exists_maybeEvict hidle hk hused
    refine ⟨⟨w₁, h₁⟩, fun w' h => ?_⟩
    rw [maybeEvict_unique h h₁]
    exact imp_congr_right fun _ => hiff
  · refine ⟨⟨w, ?_⟩, fun w' _ => by simp [hused]⟩
    rw [MaybeEvict, if_pos (startEviction_isNone_iff.2 (Nat.not_lt.1 hused))]

end Runs

/-- A written and uploaded file of one byte, over both marks. -/
theorem maybeEvict_uploadFirst :
    ∃ w, run (step sampleMount) (World.init sampleMount 0) uploadFirst = some w ∧
      (∃ w', MaybeEvict sampleMount w w') ∧
        ∀ w', MaybeEvict sampleMount w w' →
          ((sampleMount.highMark < w.db.totalCacheBytes sampleMount.mountId →
              EvictionReached sampleMount w') ↔
            (sampleMount.highMark < w.db.totalCacheBytes sampleMount.mountId →
              w.db.BatchesFree sampleMount)) :=
  ⟨_, rfl, maybeEvict_converges_iff rfl (by decide)⟩

/-! ## Empty files -/

section EmptyFiles

/-- A cached file of the given size. -/
def cachedFile (k size : ℕ) : FileEntry :=
  { inode := k + 2, mountId := 1, parent := some fuseRootInode
    name := List.replicate (k + 1) 'a', remotePath := List.replicate (k + 1) 'a', kind := .file
    size, mtime := 0, etag := none, status := .cached
    cachePath := some [['c'], List.replicate (k + 1) 'a'], cacheSize := some size
    dirListed := none, pollGeneration := 0, remoteItemId := none }

/-- Empty files, and one of one byte that was used last. -/
def emptyFiles (n : ℕ) : List FileEntry :=
  (List.range (n + 1)).map fun k => cachedFile k (if k = n then 1 else 0)

theorem emptyFiles_eq (n : ℕ) :
    emptyFiles n = (List.range n).map (cachedFile · 0) ++ [cachedFile n 1] := by
  rw [emptyFiles, List.range_succ, List.map_append, List.map_singleton, if_pos rfl]
  congr 1
  refine List.map_congr_left fun k hk => ?_
  rw [if_neg (List.mem_range.1 hk).ne]

theorem pairwise_emptyFiles {R : FileEntry → FileEntry → Prop} (n : ℕ)
    (h : ∀ k k' s s', k < k' → R (cachedFile k s) (cachedFile k' s')) :
    (emptyFiles n).Pairwise R :=
  List.pairwise_map.2 (List.pairwise_lt_range.imp fun hlt => h _ _ _ _ hlt)

theorem mem_emptyFiles {n : ℕ} {r : FileEntry} (h : r ∈ emptyFiles n) :
    ∃ k s, r = cachedFile k s := by
  obtain ⟨k, -, rfl⟩ := List.mem_map.1 h
  exact ⟨k, _, rfl⟩

theorem indexConstraints_emptyFiles (n : ℕ) :
    IndexConstraints (rootEntry 1 :: emptyFiles n) := by
  constructor
  · rw [List.map_cons, List.nodup_cons]
    refine ⟨fun h => ?_, List.pairwise_map.2 (pairwise_emptyFiles n fun k k' s s' hlt he => ?_)⟩
    · obtain ⟨r, hr, he⟩ := List.mem_map.1 h
      obtain ⟨k, s, rfl⟩ := mem_emptyFiles hr
      cases he
    · exact hlt.ne (Nat.add_right_cancel he)
  · refine List.pairwise_cons.2 ⟨fun r hr => ?_, pairwise_emptyFiles n fun k k' s s' hlt he => ?_⟩
    · obtain ⟨k, s, rfl⟩ := mem_emptyFiles hr
      rintro ⟨-, he⟩
      cases he
    · exact hlt.ne (Nat.add_right_cancel (List.replicate_left_injective 'a' he.2))
  · refine List.pairwise_cons.2 ⟨fun r _ h => ?_, pairwise_emptyFiles n fun k k' s s' hlt he => ?_⟩
    · cases h.2.1
    · exact hlt.ne (Nat.add_right_cancel (List.replicate_left_injective 'a' he.2.2.2))
  · refine List.pairwise_cons.2 ⟨fun r _ h => ?_, pairwise_emptyFiles n fun k k' s s' _ he => ?_⟩
    · cases h.2.1
    · cases he.2.1
  · rintro r hr p hp
    obtain rfl | hr := List.mem_cons.1 hr
    · cases hp
    · obtain ⟨k, s, rfl⟩ := mem_emptyFiles hr
      obtain rfl : fuseRootInode = p := Option.some.inj hp
      exact ⟨_, List.mem_cons_self, rfl⟩
  · rintro r hr hk -
    obtain rfl | hr := List.mem_cons.1 hr
    · cases hk
    · obtain ⟨k, s, rfl⟩ := mem_emptyFiles hr
      rfl

/-- An index with the files, in the order of their use. -/
def emptyFilesDb (n : ℕ) : Db :=
  { fileIndex := ⟨rootEntry 1 :: emptyFiles n, indexConstraints_emptyFiles n⟩
    seq := n + 2, cacheLru := (List.range (n + 1)).map fun k => ⟨k + 2, k, false⟩
    tombstones := [], now := n }

theorem getByInode_emptyFilesDb {n : ℕ} {r : FileEntry} (h : r ∈ emptyFiles n) :
    (emptyFilesDb n).getByInode r.inode = some r :=
  Db.getByInode_of_mem (List.mem_cons_of_mem _ h)

theorem evictable_emptyFilesDb (n : ℕ) : (emptyFilesDb n).evictable 1 = emptyFiles n := by
  have hunpinned : (emptyFilesDb n).cacheLru.filter (fun l => !l.pinned) =
      (emptyFilesDb n).cacheLru := by
    refine List.filter_eq_self.2 fun l hl => ?_
    obtain ⟨k, -, rfl⟩ := List.mem_map.1 hl
    rfl
  have hsorted : (emptyFilesDb n).cacheLru.Pairwise fun a b => a.lastAccess ≤ b.lastAccess :=
    List.pairwise_map.2 (List.pairwise_lt_range.imp fun hlt => hlt.le)
  rw [Db.evictable, hunpinned, hsorted.insertionSort_eq]
  rw [show (emptyFilesDb n).cacheLru = (List.range (n + 1)).map fun k => ⟨k + 2, k, false⟩ from rfl,
    List.filterMap_map, emptyFiles, ← List.filterMap_eq_map]
  refine List.filterMap_congr fun k hk => ?_
  have hr : (emptyFilesDb n).getByInode (k + 2) = some (cachedFile k (if k = n then 1 else 0)) :=
    getByInode_emptyFilesDb (List.mem_map_of_mem hk)
  simp [hr, cachedFile]

theorem total_emptyFiles (n : ℕ) :
    total FileEntry.countedBytes ((emptyFiles n).take n) = 0 ∧
      total FileEntry.countedBytes (emptyFiles n) = 1 := by
  have hempty : total FileEntry.countedBytes ((List.range n).map (cachedFile · 0)) = 0 := by
    refine List.sum_eq_zero fun b hb => ?_
    obtain ⟨r, hr, rfl⟩ := List.mem_map.1 hb
    obtain ⟨k, -, rfl⟩ := List.mem_map.1 hr
    rfl
  rw [emptyFiles_eq, total_append, hempty, List.take_left' (by simp), hempty]
  exact ⟨rfl, rfl⟩

theorem totalCacheBytes_emptyFilesDb (n : ℕ) : (emptyFilesDb n).totalCacheBytes 1 = 1 := by
  have hbytes : ∀ rows : List FileEntry, (∀ r ∈ rows, r.mountId = 1) →
      Db.bytesOf 1 rows = total FileEntry.countedBytes rows := by
    intro rows hm
    induction rows with
    | nil => rfl
    | cons r rows ih =>
      obtain ⟨hr, hm⟩ := List.forall_mem_cons.1 hm
      rw [Db.bytesOf_cons, if_pos hr, ih hm, total_cons]
  change Db.bytesOf 1 (rootEntry 1 :: emptyFiles n) = 1
  rw [Db.bytesOf_cons, hbytes _ fun r hr => ?_, (total_emptyFiles n).2]
  · rfl
  · obtain ⟨k, s, rfl⟩ := mem_emptyFiles hr
    rfl

theorem lruKeys_emptyFilesDb (n : ℕ) : (emptyFilesDb n).LruKeys := by
  rw [Db.LruKeys]
  refine List.pairwise_map.2 (List.pairwise_map.2 (List.pairwise_lt_range.imp fun hlt he => ?_))
  exact hlt.ne (Nat.add_right_cancel he)

/-- The first batch frees nothing, and a file with content is behind it. -/
theorem exists_not_batchesFree :
    ∃ db : Db, db.LruKeys ∧ 0 < db.totalCacheBytes 1 ∧ ¬db.BatchesFree sampleMount := by
  obtain ⟨n, hn⟩ : ∃ n, n = evictionBatch := ⟨_, rfl⟩
  have htotal := totalCacheBytes_emptyFilesDb n
  refine ⟨emptyFilesDb n, lruKeys_emptyFilesDb n, htotal.symm ▸ Nat.one_pos, fun hfree => ?_⟩
  rw [Db.BatchesFree, show sampleMount.mountId = 1 from rfl, htotal, evictable_emptyFilesDb,
    ← hn] at hfree
  have hlast : cachedFile n 1 ∈ (emptyFiles n).drop n := by
    rw [emptyFiles_eq, List.drop_left' (by simp)]
    exact List.mem_singleton_self _
  obtain hnone | ⟨-, hpos | hnone⟩ := hfree 0 Nat.one_pos
  · exact hnone _ (List.mem_of_mem_drop hlast) rfl
  · rw [Nat.mul_zero, List.drop_zero, (total_emptyFiles n).1] at hpos
    exact absurd hpos (lt_irrefl 0)
  · exact hnone _ (by rwa [Nat.zero_add, Nat.mul_one]) rfl

end EmptyFiles

/-- A batch of empty files comes before a file with content, and the eviction gives up. -/
theorem not_evictionReached_emptyFiles :
    ¬∀ (m : Mount) (w : World), w.eviction = none → w.db.LruKeys →
      ∃ w', MaybeEvict m w w' ∧
        (m.highMark < w.db.totalCacheBytes m.mountId → EvictionReached m w') := by
  intro h
  obtain ⟨db, hk, hused, hfree⟩ := exists_not_batchesFree
  have hk' : ({ World.init sampleMount 0 with db } : World).db.LruKeys := hk
  obtain ⟨w₁, h₁, hiff⟩ := exists_maybeEvict (m := sampleMount) rfl hk' hused
  obtain ⟨w₂, h₂, hconv⟩ := h sampleMount _ rfl hk'
  rw [maybeEvict_unique h₂ h₁] at hconv
  exact hfree (hiff.1 (hconv hused))

end Stratosync

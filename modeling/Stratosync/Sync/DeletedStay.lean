import Stratosync.Daemon.Frame
import Stratosync.Foundations.Runs
import Stratosync.State.Upserts
import Stratosync.Sync.Convergence

/-!
# Deleted entries stay away

Four routes write what a listing or a change feed of the remote had: full polls, delta polls,
directory listings and prefetches. A tombstone hides a deleted entry from the first three until
the remote delete is done. Each route loads the tombstones once, after the listing and before the
upserts, and a prefetch never does; `deletedStay_of_run` says that a deleted entry comes back only
through these gaps.
-/

namespace Stratosync

open Foundations.Runs Foundations.Pool Db

/-! ## What must stay away -/

/-- The path a spawned operation deletes for an unlink or an rmdir. -/
def Background.deletedPath : Background → Option Str
  | .delete path | .rmdir path => some path
  | _ => none

/-- The deleted paths whose remote delete has not taken effect. -/
def World.deletesPending (w : World) : List Str := w.background.filterMap Background.deletedPath

/-- The paths a step deletes. -/
def newDeletes (w w' : World) : List Str :=
  (w'.background.drop w.background.length).filterMap Background.deletedPath

/-- What the listing that a route holds does not know of: the paths whose remote delete was pending
when it was taken and those deleted since. -/
structure Outdated where
  poll : List Str
  populations : List (List Str)

/-- The poller is about to list the remote or to ask for its changes. -/
def PollerPc.lists : PollerPc → Bool
  | .full .list | .delta (.full _ .list) | .delta (.changes _) => true
  | _ => false

def PopulationPc.lists : PopulationPc → Bool
  | .list => true
  | _ => false

/-- A listing that is taken is out of date about the deletes that are pending. -/
def outdatedHistory (m : Mount) (s : Site) (ev : SiteEvent) (s' : Site) (h : Outdated) :
    Outdated :=
  match ev with
  | .daemon _ =>
    let new := newDeletes s.world s'.world
    ⟨h.poll ++ new, h.populations.map fun paths => paths ++ new⟩
  | .poll _ => if s.poller.any PollerPc.lists then { h with poll := s.world.deletesPending } else h
  | .populate _ => { h with populations := h.populations ++ [[]] }
  | .population k env =>
    match s.populations[k]? with
    | none => h
    | some p =>
      let t := p.tick m s.world env.fault env.listing
      let paths :=
        if p.pc.lists then s.world.deletesPending else (h.populations[k]?).getD []
      { h with
        populations := advance h.populations k (t.2.1.map fun _ => paths) ++ t.2.2.map fun _ => [] }

/-- No entry gets to a path at or below one of the deleted ones. -/
def StayAway (m : Mount) (db db' : Db) (deleted : List Str) : Prop :=
  ∀ d ∈ deleted, ∀ path, atOrBelow d path = true →
    db.getByRemotePath m.mountId path = none → db'.getByRemotePath m.mountId path = none

/-- **A step of a route brings no deleted entry back.** -/
structure DeletedStay (m : Mount) (s : Site) (h : Outdated) (ev : SiteEvent) (s' : Site) :
    Prop where
  poll : ∀ env, ev = .poll env → StayAway m s.world.db s'.world.db h.poll
  population : ∀ k env, ev = .population k env → ∀ paths, h.populations[k]? = some paths →
    StayAway m s.world.db s'.world.db paths

/-! ## The condition -/

/-- The paths of the entries a full poll has still to write. -/
def FullPollPc.toWrite : FullPollPc → List Str
  | .upsert _ todo _ => todo.map RemoteMetadata.path
  | _ => []

/-- The paths of the changes that a delta poll writes. -/
def admittedPaths (m : Mount) (active : List Str) (cs : List RemoteChange) : List Str :=
  ((cs.filterMap RemoteChange.metadata).filter fun x => admitted m active x).map
    RemoteMetadata.path

/-- The paths of the entries a delta poll has still to write. -/
def DeltaPollPc.toWrite (m : Mount) : DeltaPollPc → List Str
  | .full _ pc => pc.toWrite
  | .snapshot cs _ active | .apply active cs _ _ | .removeFile _ active cs _ _ =>
    admittedPaths m active cs
  | _ => []

/-- The paths of the entries the poller has still to write. -/
def PollerPc.toWrite (m : Mount) : PollerPc → List Str
  | .full pc => pc.toWrite
  | .delta pc => pc.toWrite m

/-- The paths of the entries a listing has still to write. -/
def PopulationPc.toWrite : PopulationPc → List Str
  | .upsert rest => rest.flatten.map ListedEntry.remotePath
  | _ => []

/-- A route has an entry at or below the path still to write. -/
def Site.writesBelow (m : Mount) (s : Site) (path : Str) : Bool :=
  (s.poller.any fun pc => (pc.toWrite m).any (atOrBelow path)) ||
    s.populations.any fun p => p.pc.toWrite.any (atOrBelow path)

/-- The row a request deletes. -/
def Request.deletes (m : Mount) (db : Db) : Request → Option FileEntry
  | .unlink p n =>
    (db.getByParentName m.mountId p n).filter fun r => (db.deleteEntry r.inode).isSome
  | .rmdir p n =>
    (db.getByParentName m.mountId p n).filter fun r =>
      r.kind = .directory && (db.deleteEntry r.inode).isSome
  | _ => none

/-- Each deleted path has a tombstone among the loaded ones, or no entry to write is at or below
it. -/
def coversDeleted (tombstones deleted paths : List Str) : Bool :=
  deleted.all fun d => tombstoned tombstones d || paths.all fun path => !atOrBelow d path

/-- The paths that a full poll is left with when it filters its listing. -/
def FullPollPc.filters (m : Mount) (active : List Str) : FullPollPc → Option (List Str)
  | .tombstones listing snap _ => some ((toUpsert m active snap listing).map RemoteMetadata.path)
  | _ => none

/-- The paths that the poller is left with when it filters what it has. -/
def PollerPc.filters (m : Mount) (active : List Str) : PollerPc → Option (List Str)
  | .full pc | .delta (.full _ pc) => pc.filters m active
  | .delta (.tombstones cs _) => some (admittedPaths m active cs)
  | _ => none

/-- The listing filters what it has so that nothing deleted is left. -/
def Population.filtersDeleted (m : Mount) (w : World) (deleted : List Str) (env : PollEnv)
    (p : Population) : Bool :=
  match p.pc with
  | .tombstones children =>
    let active := if env.fault then [] else w.db.activeTombstones m.mountId
    coversDeleted active deleted
      ((listedEntries active p.dir children).map ListedEntry.remotePath)
  | .list =>
    match env.listing with
    | .ok children =>
      !p.prefetch || coversDeleted [] w.deletesPending
        ((listedEntries [] p.dir children).map ListedEntry.remotePath)
    | .error _ => true
  | _ => true

/-- Tombstones are there when a route loads them, and a deletion finds no route that has entries
at or below its path still to write. -/
def hidesDeleted (m : Mount) (x : Site × Outdated) : SiteEvent → Bool
  | .daemon (.request r) => (r.deletes m x.1.world.db).all fun q => !x.1.writesBelow m q.remotePath
  | .poll env =>
    let active := x.1.loadTombstones m env
    (x.1.poller.bind fun pc => pc.filters m active).all fun paths =>
      coversDeleted active x.2.poll paths
  | .population k env =>
    x.1.populations[k]?.all
      (Population.filtersDeleted m x.1.world ((x.2.populations[k]?).getD []) env)
  | _ => true

/-! ## The paths a step adds -/

/-- A statement adds no path that is not in the list. -/
def Db.AddsOnly (mountId : ℕ) (paths : List Str) (db db' : Db) : Prop :=
  ∀ path, path ∉ paths → db.getByRemotePath mountId path = none →
    db'.getByRemotePath mountId path = none

section Adds

variable {mountId : ℕ} {paths : List Str} {db db' : Db}

theorem Db.AddsOnly.refl (db : Db) : AddsOnly mountId paths db db := fun _ _ h => h

theorem Db.AddsOnly.trans {db'' : Db} (h : AddsOnly mountId paths db db')
    (h' : AddsOnly mountId paths db' db'') : AddsOnly mountId paths db db'' :=
  fun path hp hnone => h' path hp (h path hp hnone)

/-- Rows that are where a row was. -/
theorem addsOnly_of_rows (h : ∀ i r', db'.getByInode i = some r' →
    ∃ r, db.getByInode i = some r ∧ r.mountId = r'.mountId ∧ r.remotePath = r'.remotePath) :
    AddsOnly mountId paths db db' := by
  intro path _ hnone
  refine getByRemotePath_eq_none.2 fun i r' hr' hm => ?_
  obtain ⟨r, hr, hrm, hrp⟩ := h i r' hr'
  exact hrp ▸ getByRemotePath_eq_none.1 hnone i r hr (hrm.trans hm)

theorem addsOnly_of_upsertEntry {m : Mount} {p : PathToInode} {g : ℕ} {x : RemoteMetadata}
    {o : Option Inode} (h : upsertEntry m p g db x = (o, db')) (hx : x.path ∈ paths) :
    AddsOnly m.mountId paths db db' := by
  cases o with
  | some i =>
    intro path hp hnone
    refine (upsert_outcome h).absent ?_ hnone
    rintro rfl
    exact hp hx
  | none => exact addsOnly_of_rows fun i r hr => ⟨r, of_refused h hr, rfl, rfl⟩

theorem addsOnly_of_upsertChunk {dir : Inode} {g : ℕ} {chunk : List ListedEntry}
    (h : db.upsertChunk mountId dir g chunk = some db')
    (hc : ∀ e ∈ chunk, e.remotePath ∈ paths) : AddsOnly mountId paths db db' := by
  induction chunk generalizing db with
  | nil =>
    obtain rfl := Option.some.inj h
    exact .refl db
  | cons e chunk ih =>
    rw [upsertChunk, List.foldlM_cons] at h
    obtain ⟨d, hd, h⟩ := Option.bind_eq_some_iff.1 h
    have hrest := ih h fun e' he' => hc e' (List.mem_cons_of_mem _ he')
    refine .trans (fun path hp hnone => ?_) hrest
    refine getByRemotePath_eq_none.2 fun j r' hr' hm he => ?_
    have hne : r'.remotePath ≠ e.remotePath := by
      rintro heq
      exact hp (he ▸ heq ▸ hc e List.mem_cons_self)
    rcases upsertByPath_cases hd with ⟨q, hq, hmap⟩ | ⟨-, -, hrows⟩
    · obtain ⟨r, hr, ⟨rfl, rfl⟩ | ⟨-, rfl⟩⟩ := hmap.inv hr'
      · exact hne rfl
      · exact getByRemotePath_eq_none.1 hnone j r' hr hm he
    · rw [hrows j] at hr'
      split at hr'
      · obtain rfl := Option.some.inj hr'
        exact hne rfl
      · exact getByRemotePath_eq_none.1 hnone j r' hr' hm he

end Adds

variable {m : Mount} {s s' : Site} {env : PollEnv}

theorem addsOnly_of_fullStep {pc : FullPollPc} {n : PollNext FullPollPc}
    (h : FullPollStep m s env pc s' n) :
    AddsOnly m.mountId pc.toWrite s.world.db s'.world.db := by
  cases h with
  | upserted _ h => exact addsOnly_of_upsertEntry h List.mem_cons_self
  | upsertRefused _ h => exact addsOnly_of_upsertEntry h List.mem_cons_self
  | marked h =>
    refine addsOnly_of_rows fun i r' hr' => ?_
    rw [Site.withDb_db, markGeneration_rows h] at hr'
    obtain ⟨r, hr, rfl⟩ := Option.map_eq_some_iff.1 hr'
    refine ⟨r, hr, ?_⟩
    split <;> exact ⟨rfl, rfl⟩
  | swept _ h =>
    rw [foldl_dropHeader_db]
    exact addsOnly_of_rows fun i r hr =>
      ⟨r, getByInode_of_deleteStaleEntries h hr, rfl, rfl⟩
  | sweepRefused _ h =>
    exact addsOnly_of_rows fun i r hr =>
      ⟨r, getByInode_of_deleteStaleEntries h hr, rfl, rfl⟩
  | fileRemoved =>
    rw [Site.removeFile_db]
    exact .refl _
  | cleaned h => rcases h with rfl | rfl <;> exact .refl _
  | finished h =>
    rcases h with rfl | h
    · exact .refl _
    · refine addsOnly_of_rows fun i r' hr' => ?_
      rw [Site.withDb_db, batchMarkDirsListed_rows h] at hr'
      obtain ⟨r, hr, rfl⟩ := Option.map_eq_some_iff.1 hr'
      refine ⟨r, hr, ?_⟩
      split <;> exact ⟨rfl, rfl⟩
  | _ => exact .refl _

theorem addsOnly_of_applyChange {active : List Str} {db db' : Db} {paths : PathToInode}
    {c : RemoteChange} {todo : List RemoteChange} {o : Option Applied}
    (h : applyChange m active db paths c = (o, db')) :
    AddsOnly m.mountId (admittedPaths m active (c :: todo)) db db' := by
  have hupsert : ∀ x, c.metadata = some x →
      AddsOnly m.mountId (admittedPaths m active (c :: todo)) db db' := by
    intro x hx
    rw [applyChange_of_metadata hx] at h
    split at h
    · rename_i ha
      have hmem : x.path ∈ admittedPaths m active (c :: todo) := by
        simp [admittedPaths, hx, ha]
      split at h
      all_goals
        obtain ⟨-, rfl⟩ := Prod.mk.inj h
        exact addsOnly_of_upsertEntry ‹_› hmem
    · obtain ⟨-, rfl⟩ := Prod.mk.inj h
      exact .refl db
  cases c with
  | added x | modified x _ => exact hupsert x rfl
  | deleted path id =>
    rw [applyChange] at h
    split at h
    · obtain ⟨-, rfl⟩ := Prod.mk.inj h
      exact addsOnly_of_rows fun i r hr =>
        ⟨r, getByInode_of_deleteChanged ‹_› hr, rfl, rfl⟩
    · obtain ⟨-, rfl⟩ := Prod.mk.inj h
      exact .refl db

theorem addsOnly_of_deltaStep {pc : DeltaPollPc} {n : PollNext DeltaPollPc}
    (h : DeltaPollStep m s env pc s' n) :
    AddsOnly m.mountId (pc.toWrite m) s.world.db s'.world.db := by
  cases h with
  | full h | fullDone h | fallbackFailed h => exact addsOnly_of_fullStep h
  | @applied _ _ todo _ _ a db _ h =>
    have hadds : AddsOnly m.mountId (admittedPaths m _ (_ :: todo)) s.world.db db :=
      addsOnly_of_applyChange h
    cases a.touched <;> exact hadds
  | applyRefused _ h => exact addsOnly_of_applyChange h
  | fileRemoved =>
    rw [Site.removeFile_db]
    exact .refl _
  | cleaned h => rcases h with rfl | rfl <;> exact .refl _
  | _ => exact .refl _

theorem addsOnly_of_populationStep {w w' : World} {fault : Bool}
    {listing : Except SyncError (List RemoteMetadata)} {p : Population}
    {next : Option PopulationPc} {started : List Population}
    (h : PopulationStep m w fault listing p w' next started) :
    AddsOnly m.mountId p.pc.toWrite w.db w'.db := by
  cases h with
  | upserted hpc _ h =>
    refine addsOnly_of_upsertChunk h fun e he => ?_
    rw [hpc, PopulationPc.toWrite, List.flatten_cons, List.map_append]
    exact List.mem_append_left _ (List.mem_map_of_mem he)
  | marked _ h =>
    refine addsOnly_of_rows fun i r' hr' => ?_
    obtain ⟨r, hr, ⟨-, rfl⟩ | ⟨-, rfl⟩⟩ := (markDirListed_rows h).inv hr'
    · exact ⟨r, hr, rfl, rfl⟩
    · exact ⟨r', hr, rfl, rfl⟩
  | _ => exact .refl _

/-! ## The invariant -/

/-- No path is at or below a deleted one. -/
def Clear (deleted paths : List Str) : Prop :=
  ∀ d ∈ deleted, ∀ path ∈ paths, atOrBelow d path = false

/-- What the steps that meet the condition keep: no route has an entry to write that it should not
know of. -/
structure ClearInv (m : Mount) (s : Site) (h : Outdated) : Prop where
  poll : ∀ pc, s.poller = some pc → Clear h.poll (pc.toWrite m)
  populations : List.Forall₂ (fun p deleted => Clear deleted p.pc.toWrite) s.populations
    h.populations

theorem Clear.nil (deleted : List Str) : Clear deleted [] := fun _ _ => nofun

theorem Clear.of_subset {deleted paths paths' : List Str} (h : Clear deleted paths)
    (hsub : ∀ path ∈ paths', path ∈ paths) : Clear deleted paths' :=
  fun d hd path hp => h d hd path (hsub path hp)

theorem Clear.append {deleted new paths : List Str} (h : Clear deleted paths)
    (h' : Clear new paths) : Clear (deleted ++ new) paths := fun d hd =>
  (List.mem_append.1 hd).elim (h d) (h' d)

theorem StayAway.of_clear {db db' : Db} {deleted paths : List Str} (h : Clear deleted paths)
    (hadds : AddsOnly m.mountId paths db db') : StayAway m db db' deleted := by
  intro d hd path hpath hnone
  refine hadds path (fun hmem => ?_) hnone
  rw [h d hd path hmem] at hpath
  cases hpath

/-- A tombstone covers what is at or below a path it covers. -/
theorem tombstoned_trans {active : List Str} {d path : Str} (hd : tombstoned active d = true)
    (hp : atOrBelow d path = true) : tombstoned active path = true := by
  obtain ⟨t, ht, htd⟩ := List.any_eq_true.1 hd
  exact List.any_eq_true.2 ⟨t, ht, atOrBelow_trans htd hp⟩

/-- **Loaded tombstones do their work**: what passes a filter that respects them is clear of the
paths they cover. -/
theorem clear_of_covers {active deleted paths : List Str}
    (hc : coversDeleted active deleted paths = true)
    (hfilter : ∀ path ∈ paths, tombstoned active path = false) : Clear deleted paths := by
  intro d hd path hp
  have hd := List.all_eq_true.1 hc d hd
  rw [Bool.or_eq_true] at hd
  rcases hd with ht | hall
  · rw [Bool.eq_false_iff]
    intro hbelow
    have hout := hfilter path hp
    rw [tombstoned_trans ht hbelow] at hout
    cases hout
  · simpa using List.all_eq_true.1 hall path hp

theorem not_tombstoned_of_toUpsert {active : List Str} {snap : Snapshot}
    {listing : List RemoteMetadata} {path : Str}
    (h : path ∈ (toUpsert m active snap listing).map RemoteMetadata.path) :
    tombstoned active path = false := by
  obtain ⟨x, hx, rfl⟩ := List.mem_map.1 h
  obtain ⟨-, hv⟩ := mem_toUpsert.1 hx
  rw [Bool.eq_false_iff]
  intro ht
  simp only [verdict, ht, if_true] at hv
  repeat' split at hv
  all_goals cases hv

theorem not_tombstoned_of_admittedPaths {active : List Str} {cs : List RemoteChange} {path : Str}
    (h : path ∈ admittedPaths m active cs) : tombstoned active path = false := by
  obtain ⟨x, hx, rfl⟩ := List.mem_map.1 h
  have ha := (List.mem_filter.1 hx).2
  simp only [admitted, Bool.not_eq_eq_eq_not, Bool.not_true, Bool.or_eq_false_iff] at ha
  exact ha.1.1.2

theorem not_tombstoned_of_listedEntries {active : List Str} {dir : FileEntry}
    {children : List RemoteMetadata} {path : Str}
    (h : path ∈ (listedEntries active dir children).map ListedEntry.remotePath) :
    tombstoned active path = false := by
  obtain ⟨e, he, rfl⟩ := List.mem_map.1 h
  obtain ⟨c, hc, rfl⟩ := List.mem_map.1 he
  have hsafe := (List.mem_filter.1 hc).2
  rw [Bool.and_eq_true, Bool.not_eq_true'] at hsafe
  exact hsafe.2

/-! ## The steps -/

theorem deletedPath_of_renameBackground {dest : Option FileEntry} {move : Bool} {old new : Str}
    {b : Background} (hb : b ∈ renameBackground dest move old new) : b.deletedPath = none := by
  cases dest <;> cases move <;> simp_all [renameBackground, Background.deletedPath]

/-- What a request spawns deletes nothing but the row it deletes. -/
theorem started_of_serve (m : Mount) (w : World) (r : Request) :
    ∃ bs, (serve m w r).background = w.background ++ bs ∧ ∀ b ∈ bs, ∀ d,
      b.deletedPath = some d → ∃ q, r.deletes m w.db = some q ∧ q.remotePath = d := by
  have hsame : ∀ {w' : World}, w'.background = w.background →
      ∃ bs, w'.background = w.background ++ bs ∧ ∀ b ∈ bs, ∀ d,
        b.deletedPath = some d → ∃ q, r.deletes m w.db = some q ∧ q.remotePath = d :=
    fun h => ⟨[], by rw [h, List.append_nil], fun _ => nofun⟩
  cases r with
  | unlink p n =>
    simp only [serve, handleUnlink]
    split
    · exact hsame rfl
    rename_i q hq
    split
    · exact hsame rfl
    rename_i db hdel
    refine ⟨_, rfl, fun b hb d he => ⟨q, ?_, ?_⟩⟩
    · simp [Request.deletes, hq, hdel]
    · obtain rfl := List.mem_singleton.1 hb
      exact Option.some.inj he
  | rmdir p n =>
    simp only [serve, handleRmdir]
    split
    · exact hsame rfl
    rename_i q hq
    split
    · exact hsame rfl
    rename_i hk
    split
    · exact hsame rfl
    split
    · exact hsame rfl
    rename_i db hdel
    refine ⟨_, rfl, fun b hb d he => ⟨q, ?_, ?_⟩⟩
    · simp only [ne_eq, not_not] at hk
      simp [Request.deletes, hq, hdel, hk]
    · obtain rfl := List.mem_singleton.1 hb
      exact Option.some.inj he
  | mkdir p n =>
    simp only [serve, handleMkdir]
    repeat' split
    all_goals first
      | exact hsame rfl
      | (refine ⟨_, rfl, fun b hb d he => ?_⟩
         obtain rfl := List.mem_singleton.1 hb
         cases he)
  | rename p n p' n' =>
    simp only [serve, handleRename]
    repeat' split
    all_goals first
      | exact hsame rfl
      | (refine ⟨_, rfl, fun b hb d he => ?_⟩
         rw [deletedPath_of_renameBackground hb] at he
         cases he)
  | _ =>
    refine hsame ?_
    simp only [serve, handleWrite, handleSetattr, handleOpen, handleRelease, handleFsync,
      handleRead, handleCreate, World.allocFh, World.enqueue]
    repeat' split
    all_goals rfl

/-- A step deletes nothing but the row its request deletes. -/
theorem deletes_of_step {ev : Event} {w w' : World} (h : step m w ev = some w') {d : Str}
    (hd : d ∈ newDeletes w w') :
    ∃ r q, ev = .request r ∧ r.deletes m w.db = some q ∧ q.remotePath = d := by
  rcases background_of_step h with hb | ⟨r, rfl⟩ | ⟨k, env, b, -, hb, hw⟩
  · rw [newDeletes, hb, List.drop_length] at hd
    cases hd
  · obtain ⟨-, rfl⟩ := step_request h
    obtain ⟨bs, hbs, hdel⟩ := started_of_serve m w r
    rw [newDeletes, hbs, List.drop_left] at hd
    obtain ⟨b, hb, he⟩ := List.mem_filterMap.1 hd
    obtain ⟨q, hq, hp⟩ := hdel b hb d he
    exact ⟨r, q, rfl, hq, hp⟩
  · rw [newDeletes, List.drop_eq_nil_of_le] at hd
    · cases hd
    · rw [hw]
      exact length_advance_le

/-- The entries a full poll has to write, after each of its calls. -/
theorem toWrite_of_fullStep {pc pc' : FullPollPc} (h : FullPollStep m s env pc s' (.goto pc')) :
    pc.filters m (s.loadTombstones m env) = some pc'.toWrite ∨
      ∀ path ∈ pc'.toWrite, path ∈ pc.toWrite := by
  cases h with
  | filtered => exact .inl rfl
  | upserted => exact .inr fun path hp => List.mem_cons_of_mem _ hp
  | _ => exact .inr fun _ => nofun

theorem not_tombstoned_of_fullFilters {active paths : List Str} {pc : FullPollPc}
    (h : pc.filters m active = some paths) : ∀ path ∈ paths, tombstoned active path = false := by
  cases pc with
  | tombstones listing snap g =>
    obtain rfl := Option.some.inj h
    exact fun path => not_tombstoned_of_toUpsert
  | _ => cases h

/-- What passes the filter of a poll has no tombstone. -/
theorem not_tombstoned_of_filters {active paths : List Str} {pc : PollerPc}
    (h : pc.filters m active = some paths) : ∀ path ∈ paths, tombstoned active path = false := by
  cases pc with
  | full pc => exact not_tombstoned_of_fullFilters h
  | delta pc =>
    cases pc with
    | full initial pc => exact not_tombstoned_of_fullFilters h
    | tombstones cs next =>
      obtain rfl := Option.some.inj h
      exact fun path => not_tombstoned_of_admittedPaths
    | _ => cases h

theorem toWrite_of_deltaStep {pc pc' : DeltaPollPc}
    (h : DeltaPollStep m s env pc s' (.goto pc')) :
    (PollerPc.delta pc).filters m (s.loadTombstones m env) = some (pc'.toWrite m) ∨
      ∀ path ∈ pc'.toWrite m, path ∈ pc.toWrite m := by
  generalize hn : PollNext.goto pc' = n at h
  cases h with
  | full h =>
    obtain rfl := PollNext.goto.inj hn
    exact toWrite_of_fullStep h
  | tombstones =>
    obtain rfl := PollNext.goto.inj hn
    exact .inl rfl
  | snapshot | fileRemoved =>
    obtain rfl := PollNext.goto.inj hn
    exact .inr fun _ h => h
  | @applied active c todo paths next a =>
    obtain rfl := PollNext.goto.inj hn
    have hsub : ∀ path ∈ admittedPaths m active todo,
        path ∈ admittedPaths m active (c :: todo) := by
      intro path hp
      obtain ⟨x, hx, rfl⟩ := List.mem_map.1 hp
      obtain ⟨hx, ha⟩ := List.mem_filter.1 hx
      exact List.mem_map_of_mem (List.mem_filter.2
        ⟨((List.sublist_cons_self c todo).filterMap _).subset hx, ha⟩)
    right
    cases a.dropped <;> exact hsub
  | stored =>
    split at hn
    · obtain rfl := PollNext.goto.inj hn
      exact .inr fun _ => nofun
    · cases hn
  | fail | fallbackFailed | startFailed | startStored | storeStartFailed | applyRefused | cleaned =>
    cases hn
  | _ =>
    obtain rfl := PollNext.goto.inj hn
    exact .inr fun _ => nofun

/-- The entries the poller has to write, after each of its steps. -/
theorem toWrite_of_pollerStep {useDelta : Bool} (h : pollerStep m useDelta s env = s')
    {pc' : PollerPc} (hpc : s'.poller = some pc') :
    pc'.toWrite m = [] ∨ ∃ pc, s.poller = some pc ∧
      (pc.filters m (s.loadTombstones m env) = some (pc'.toWrite m) ∨
        ∀ path ∈ pc'.toWrite m, path ∈ pc.toWrite m) := by
  cases pollerStep_cases h with
  | wakes =>
    obtain rfl := Option.some.inj hpc
    cases useDelta <;> exact .inl rfl
  | full hp hstep =>
    obtain ⟨pc', rfl, rfl⟩ := PollNext.pc_eq_some.1 hpc
    exact .inr ⟨_, hp, toWrite_of_fullStep hstep⟩
  | delta hp hstep =>
    obtain ⟨pc', rfl, rfl⟩ := PollNext.pc_eq_some.1 hpc
    exact .inr ⟨_, hp, toWrite_of_deltaStep hstep⟩

theorem addsOnly_of_pollerStep {useDelta : Bool} (h : pollerStep m useDelta s env = s') :
    AddsOnly m.mountId (s.poller.elim [] (PollerPc.toWrite m)) s.world.db s'.world.db := by
  cases pollerStep_cases h with
  | wakes => exact .refl _
  | full hp hstep =>
    rw [hp]
    have hadds := addsOnly_of_fullStep hstep
    exact hadds
  | delta hp hstep =>
    rw [hp]
    have hadds := addsOnly_of_deltaStep hstep
    exact hadds

/-- A poll that is about to list has nothing to write. -/
theorem toWrite_of_lists {pc : PollerPc} (h : pc.lists = true) (active : List Str) :
    pc.toWrite m = [] ∧ pc.filters m active = none := by
  cases pc with
  | full pc => cases pc <;> first | exact ⟨rfl, rfl⟩ | cases h
  | delta pc =>
    cases pc with
    | full initial pc => cases pc <;> first | exact ⟨rfl, rfl⟩ | cases h
    | changes => exact ⟨rfl, rfl⟩
    | _ => cases h

/-- The listings a listing starts have nothing to write yet. -/
theorem toWrite_of_started {w w' : World} {fault : Bool}
    {listing : Except SyncError (List RemoteMetadata)} {p : Population}
    {next : Option PopulationPc} {started : List Population}
    (h : PopulationStep m w fault listing p w' next started) :
    ∀ q ∈ started, q.pc.toWrite = [] := by
  cases h with
  | lookedAhead =>
    intro q hq
    obtain ⟨r, -, rfl⟩ := List.mem_map.1 hq
    rfl
  | _ => exact fun _ => nofun

/-- A listing that filters what it has keeps clear of the deleted paths. -/
theorem clear_of_populationStep {w w' : World} {p : Population} {pc' : PopulationPc}
    {started : List Population} {deleted : List Str}
    (h : PopulationStep m w env.fault env.listing p w' (some pc') started)
    (hclear : Clear deleted p.pc.toWrite) (hg : p.filtersDeleted m w deleted env = true) :
    Clear (if p.pc.lists then w.deletesPending else deleted) pc'.toWrite := by
  generalize hn : some pc' = next at h
  cases h with
  | stop | lookedAhead => cases hn
  | listed | unlistable | upsertsDone =>
    obtain rfl := Option.some.inj hn
    exact .nil _
  | @prefetched children hpc hp hl =>
    obtain rfl := Option.some.inj hn
    rw [hpc, PopulationPc.toWrite, flatten_chunks]
    change Clear w.deletesPending _
    simp only [Population.filtersDeleted, hpc, hl, hp, Bool.not_true, Bool.false_or] at hg
    exact clear_of_covers hg fun path => not_tombstoned_of_listedEntries
  | @filtered children hpc =>
    obtain rfl := Option.some.inj hn
    rw [hpc, PopulationPc.toWrite, flatten_chunks]
    change Clear deleted _
    simp only [Population.filtersDeleted, hpc] at hg
    exact clear_of_covers hg fun path => not_tombstoned_of_listedEntries
  | @upserted chunk rest db hpc =>
    obtain rfl := Option.some.inj hn
    rw [hpc] at hclear ⊢
    refine hclear.of_subset fun path hp => ?_
    rw [PopulationPc.toWrite, List.flatten_cons, List.map_append]
    exact List.mem_append_right _ hp
  | marked =>
    split at hn
    · obtain rfl := Option.some.inj hn
      exact .nil _
    · cases hn

/-- A deletion that finds no route with entries to write below its path. -/
theorem clear_of_newDeletes {ev : Event} {w : World}
    (hg : ∀ h : Outdated, hidesDeleted m (s, h) (.daemon ev) = true)
    (hw : step m s.world ev = some w) :
    (∀ pc, s.poller = some pc → Clear (newDeletes s.world w) (pc.toWrite m)) ∧
      ∀ p ∈ s.populations, Clear (newDeletes s.world w) p.pc.toWrite := by
  have hfree : ∀ d ∈ newDeletes s.world w, s.writesBelow m d = false := by
    intro d hd
    obtain ⟨r, q, rfl, hq, rfl⟩ := deletes_of_step hw hd
    simpa [hidesDeleted, hq] using hg ⟨[], []⟩
  constructor
  · intro pc hpc d hd path hp
    have hd := (Bool.or_eq_false_iff.1 (hfree d hd)).1
    rw [hpc, Option.any_some, List.any_eq_false] at hd
    simpa using hd path hp
  · intro p hpm d hd path hp
    have hd := (Bool.or_eq_false_iff.1 (hfree d hd)).2
    rw [List.any_eq_false] at hd
    have hp' := hd p hpm
    rw [Bool.not_eq_true, List.any_eq_false] at hp'
    simpa using hp' path hp

theorem populations_of_pollerStep {useDelta : Bool} (h : pollerStep m useDelta s env = s') :
    s'.populations = s.populations := by
  cases pollerStep_cases h with
  | wakes => rfl
  | full _ hstep =>
    have hpop := populations_of_fullStep hstep
    exact hpop
  | delta _ hstep =>
    have hpop := populations_of_deltaStep hstep
    exact hpop

theorem clearInv_of_poll {useDelta : Bool} {h : Outdated} (hinv : ClearInv m s h)
    (hg : hidesDeleted m (s, h) (.poll env) = true) (hs : pollerStep m useDelta s env = s') :
    ClearInv m s' (outdatedHistory m s (.poll env) s' h) := by
  have hpopulations : (outdatedHistory m s (.poll env) s' h).populations = h.populations := by
    rw [outdatedHistory]
    split <;> rfl
  refine ⟨fun pc' hpc' => ?_, ?_⟩
  · rcases toWrite_of_pollerStep hs hpc' with hnil | ⟨pc, hpc, hto⟩
    · rw [hnil]
      exact .nil _
    cases hl : pc.lists with
    | true =>
      obtain ⟨hnil, hfilters⟩ := toWrite_of_lists (m := m) hl (s.loadTombstones m env)
      rw [hfilters, hnil] at hto
      exact (Clear.nil _).of_subset (hto.resolve_left nofun)
    | false =>
      have hsame : (outdatedHistory m s (.poll env) s' h).poll = h.poll := by
        simp [outdatedHistory, hpc, hl]
      rw [hsame]
      rcases hto with hfilters | hsub
      · simp only [hidesDeleted, hpc, Option.bind_some, hfilters, Option.all_some] at hg
        exact clear_of_covers hg (not_tombstoned_of_filters hfilters)
      · exact (hinv.poll pc hpc).of_subset hsub
  · rw [populations_of_pollerStep hs, hpopulations]
    exact hinv.populations

theorem clearInv_of_population {h : Outdated} {k : ℕ} (s' : Site) (hinv : ClearInv m s h)
    (hg : hidesDeleted m (s, h) (.population k env) = true) {p : Population} {w : World}
    {next : Option PopulationPc} {started : List Population} (hp : s.populations[k]? = some p)
    (ht : p.tick m s.world env.fault env.listing = (w, next, started)) :
    List.Forall₂ (fun p deleted => Clear deleted p.pc.toWrite)
      (advance s.populations k (next.map fun pc => { p with pc }) ++ started)
      (outdatedHistory m s (.population k env) s' h).populations := by
  obtain ⟨deleted, hd, hclear⟩ := forall₂_getElem? hinv.populations hp
  have hstep := ht ▸ populationStep_tick m s.world env.fault env.listing p
  simp only [hidesDeleted, hp, hd, Option.all_some, Option.getD_some] at hg
  simp only [outdatedHistory, hp, ht, hd, Option.getD_some]
  refine forall₂_append (forall₂_advance hinv.populations k ?_) ?_
  · cases next with
    | none => exact .none
    | some pc' => exact .some (clear_of_populationStep hstep hclear hg)
  · rw [List.forall₂_map_right_iff]
    refine List.forall₂_same.2 fun q hq => ?_
    rw [toWrite_of_started hstep q hq]
    exact .nil _

theorem clearInv_of_step {useDelta : Bool} {x x' : Site × Outdated} {ev : SiteEvent}
    (hinv : ClearInv m x.1 x.2) (hg : hidesDeleted m x ev = true)
    (hx : withHistory (siteStep m useDelta) (outdatedHistory m) x ev = some x') :
    ClearInv m x'.1 x'.2 := by
  obtain ⟨s, h⟩ := x
  obtain ⟨s', h'⟩ := x'
  obtain ⟨hstep, hh⟩ : siteStep m useDelta s ev = some s' ∧ h' = outdatedHistory m s ev s' h :=
    withHistory_eq_some.1 hx
  subst hh
  cases siteStep_cases hstep with
  | @daemon ev w hpoll hkernel hw =>
    obtain ⟨hpoller, hpops⟩ := clear_of_newDeletes (fun h' => by cases ev <;> exact hg) hw
    refine ⟨fun pc hpc => (hinv.poll pc hpc).append (hpoller pc hpc), ?_⟩
    refine List.forall₂_map_right_iff.2 ?_
    exact .imp (fun p deleted h => h.2.append h.1)
      (List.forall₂_and_left _ _ |>.2 ⟨hpops, hinv.populations⟩)
  | poll env => exact clearInv_of_poll hinv hg rfl
  | populate => exact ⟨hinv.poll, forall₂_append hinv.populations (.cons (.nil _) .nil)⟩
  | @population k env p w next started hp ht =>
    have hpoll : (outdatedHistory m s (.population k env) s h).poll = h.poll := by
      simp only [outdatedHistory, hp]
    refine ⟨fun pc hpc => ?_, clearInv_of_population s hinv hg hp ht⟩
    have hclear := hinv.poll pc hpc
    rw [← hpoll] at hclear
    exact hclear

/-- **A step that meets the condition brings no deleted entry back.** -/
theorem deletedStay_of_step {useDelta : Bool} {h : Outdated} {ev : SiteEvent}
    (hinv : ClearInv m s h) (hs : siteStep m useDelta s ev = some s') :
    DeletedStay m s h ev s' where
  poll env hev := by
    subst hev
    obtain rfl := Option.some.inj hs
    have hclear : Clear h.poll (s.poller.elim [] (PollerPc.toWrite m)) := by
      cases hp : s.poller with
      | none => exact .nil _
      | some pc => exact hinv.poll pc hp
    exact .of_clear hclear (addsOnly_of_pollerStep rfl)
  population k env hev deleted hd := by
    subst hev
    cases siteStep_cases hs with
    | @population _ _ p w next started hp ht =>
      have hstep := ht ▸ populationStep_tick m s.world env.fault env.listing p
      obtain ⟨deleted', hd', hclear⟩ := forall₂_getElem? hinv.populations hp
      obtain rfl := Option.some.inj (hd.symm.trans hd')
      exact .of_clear hclear (addsOnly_of_populationStep hstep)

/-- **Deleted entries stay away** in a run in which the tombstones are there when a route loads
them, prefetches find nothing below a pending delete, and nothing is deleted that a route is about
to write. -/
theorem deletedStay_of_run (m : Mount) (useDelta : Bool) (now : ℕ) (evs : List SiteEvent)
    (hg : Guarded (withHistory (siteStep m useDelta) (outdatedHistory m))
      (fun x ev => hidesDeleted m x ev = true) (Site.init m now, ⟨[], []⟩) evs) :
    Along (withHistory (siteStep m useDelta) (outdatedHistory m))
      (fun x ev x' => DeletedStay m x.1 x.2 ev x'.1) (Site.init m now, ⟨[], []⟩) evs := by
  have hinit : ClearInv m (Site.init m now) ⟨[], []⟩ := ⟨fun _ => nofun, .nil⟩
  refine along_of_guarded (I := fun x => ClearInv m x.1 x.2)
    (fun x ev x' hinv hg hx => clearInv_of_step hinv hg hx) ?_ hinit hg
  rintro ⟨s, h⟩ ev ⟨s', h'⟩ hinv - hx
  exact deletedStay_of_step hinv (withHistory_eq_some.1 hx).1

/-- A poll of a remote with one file. -/
def pollOne : SiteEvent := .poll (.ofListing [listedFile ['a']])

/-- After a first poll the file is unlinked, and the next poll lists the remote before the file is
deleted there. -/
def unlinkBesidePoll : List SiteEvent :=
  .daemon (foreignVersion ['a'] [1] ['v']) :: List.replicate 13 pollOne ++
    [.daemon (.request (.unlink fuseRootInode ['a'])), pollOne, pollOne]

/-- The poll loads the tombstones, and then the file is deleted. -/
def loadBeforeDelete : List SiteEvent :=
  unlinkBesidePoll ++ List.replicate 4 pollOne ++ [.daemon (.background 0 .fine)]

theorem deletedStay_of_loadBeforeDelete :
    (∃ s, run (siteStep sampleMount false) (Site.init sampleMount 0) loadBeforeDelete = some s ∧
      s.world.db.getByRemotePath 1 ['a'] = none) ∧
      Along (withHistory (siteStep sampleMount false) (outdatedHistory sampleMount))
        (fun x ev x' => DeletedStay sampleMount x.1 x.2 ev x'.1)
        (Site.init sampleMount 0, ⟨[], []⟩) loadBeforeDelete :=
  ⟨⟨_, rfl, rfl⟩, deletedStay_of_run sampleMount false 0 loadBeforeDelete (by decide)⟩

/-- The file is deleted and its tombstone removed; then the poll loads the tombstones. -/
def deleteBeforeLoad : List SiteEvent :=
  unlinkBesidePoll ++ [.daemon (.background 0 .fine), .daemon (.background 0 .fine)] ++
    List.replicate 3 pollOne

theorem not_deletedStay_of_deleteBeforeLoad :
    ¬∀ (m : Mount) (useDelta : Bool) (now : ℕ) (evs : List SiteEvent),
      Along (withHistory (siteStep m useDelta) (outdatedHistory m))
        (fun x ev x' => DeletedStay m x.1 x.2 ev x'.1) (Site.init m now, ⟨[], []⟩) evs := by
  intro h
  have hall := h sampleMount false 0 (deleteBeforeLoad ++ [pollOne])
  obtain ⟨hback, -⟩ := hall.drop (show run _ _ _ = some (_, _) from rfl) _ rfl
  have hnone := hback.poll _ rfl ['a'] (by decide) ['a'] (by decide) rfl
  cases hnone

end Stratosync

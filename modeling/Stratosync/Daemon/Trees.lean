import Stratosync.Foundations.Forests
import Stratosync.Foundations.Runs
import Stratosync.Daemon.Lives
import Stratosync.Sync.ListingApplies

/-!
# The rows of the index are a tree

A user of the mount finds a row by its names from the root, one `lookup` after another
(`Db.walk`). The database checks that the parent of a row exists and that a directory has a name
once; that every row can be found, and in one way, is left to those who write the parents: the
index is a tree exactly as long as none of them puts a row into itself or below itself
(`isTree_iff_noneBelowItself`).
-/

namespace Stratosync

open Foundations.Runs Foundations.Forests Db

/-- What a row says of its place in the tree. -/
def FileEntry.node (r : FileEntry) : Node Inode Str FileKind := ⟨r.parent, r.name, r.kind⟩

namespace Db

variable (db : Db)

/-- The tree the rows of the index say. -/
def forest : Forest Inode Str FileKind := fun i => (db.getByInode i).map FileEntry.node

/-- The row at the end of a path of names, looked up one after the other from the root. -/
def walk (mountId : ℕ) (names : List Str) : Option FileEntry :=
  (db.getByInode fuseRootInode).bind fun root =>
    names.foldlM (fun r name => db.getByParentName mountId r.inode name) root

/-- **Every row is found by its path, and by no other.** -/
def IsTree (mountId : ℕ) : Prop :=
  ∀ i r, db.getByInode i = some r → ∃! names, db.walk mountId names = some r

end Db

/-- A row that is put into another one was not above it. -/
def NoneBelowItself (w : World) (_ : LifeEvent) (w' : World) : Prop :=
  ∀ p i, w'.db.forest.IsIn p i → ¬w.db.forest.IsIn p i → ¬w.db.forest.Above i p

/-- The mount of which an operation changes the rows. -/
def RemoteOp.mountId : RemoteOp → ℕ
  | .batchUpsert mountId .. | .upsert mountId .. | .deleteByPath mountId _
  | .deleteByItemId mountId _ | .deleteStale mountId _ => mountId

/-- The poller works on the rows of its own mount. -/
def PollsOwn (m : Mount) (es : List LifeEvent) : Prop :=
  ∀ op, .daemon (.poll op) ∈ es → op.mountId = m.mountId

variable {m : Mount} {db db' : Db} {i p : Inode} {r : FileEntry} {n : Str}

/-! ## The forest of an index -/

theorem forest_eq_some {x : Node Inode Str FileKind} :
    db.forest i = some x ↔ ∃ r, db.getByInode i = some r ∧ r.node = x := Option.map_eq_some_iff

theorem isIn_iff : db.forest.IsIn p i ↔ ∃ r, db.getByInode i = some r ∧ r.parent = some p := by
  constructor
  · rintro ⟨x, hx, hp⟩
    obtain ⟨r, hr, rfl⟩ := forest_eq_some.1 hx
    exact ⟨r, hr, hp⟩
  · rintro ⟨r, hr, hp⟩
    exact ⟨r.node, forest_eq_some.2 ⟨r, hr, rfl⟩, hp⟩

theorem child_iff :
    db.forest.Child p n i ↔ ∃ r, db.getByInode i = some r ∧ r.parent = some p ∧ r.name = n := by
  constructor
  · rintro ⟨x, hx, hp, hn⟩
    obtain ⟨r, hr, rfl⟩ := forest_eq_some.1 hx
    exact ⟨r, hr, hp, hn⟩
  · rintro ⟨r, hr, hp, hn⟩
    exact ⟨r.node, forest_eq_some.2 ⟨r, hr, rfl⟩, hp, hn⟩

/-- The database keeps the parents of the rows it has. -/
theorem hasParents_forest (db : Db) : db.forest.HasParents := by
  intro p i h
  obtain ⟨r, hr, hp⟩ := isIn_iff.1 h
  obtain ⟨q, hq⟩ := exists_parent hr hp
  rw [forest, hq]
  rfl

/-- The rows of one mount, of which only the root is in no directory. -/
structure Rooted (m : Mount) (db : Db) : Prop where
  mount : ∀ i r, db.getByInode i = some r → r.mountId = m.mountId
  top : ∀ i r, db.getByInode i = some r → r.parent = none → i = fuseRootInode

theorem Rooted.oneTop (h : Rooted m db) : db.forest.OneTop fuseRootInode := by
  intro i x hx hp
  obtain ⟨r, hr, rfl⟩ := forest_eq_some.1 hx
  exact h.top i r hr hp

/-- What a lookup finds is the child with the name. -/
theorem getByParentName_iff (h : Rooted m db) :
    db.getByParentName m.mountId p n = some r ↔
      db.getByInode r.inode = some r ∧ db.forest.Child p n r.inode := by
  constructor
  · intro hr
    obtain ⟨hri, -, hp, hn⟩ := getByParentName_spec hr
    exact ⟨hri, child_iff.2 ⟨r, hri, hp, hn⟩⟩
  · rintro ⟨hri, hc⟩
    obtain ⟨r', hr', hp, hn⟩ := child_iff.1 hc
    obtain rfl := Option.some.inj (hri.symm.trans hr')
    have hfound := getByParentName_self hri hp
    rwa [h.mount _ _ hri, hn] at hfound

/-- A walk follows the names of the forest. -/
theorem walk_iff (h : Rooted m db) {names : List Str} :
    db.walk m.mountId names = some r ↔
      db.getByInode r.inode = some r ∧ db.forest.Path fuseRootInode names r.inode ∧
        (db.getByInode fuseRootInode).isSome = true := by
  induction names using List.reverseRecOn generalizing r with
  | nil =>
    simp only [walk, List.foldlM_nil]
    constructor
    · intro hr
      have hroot : db.getByInode fuseRootInode = some r := by simpa using hr
      have hi := inode_of_getByInode hroot
      rw [hi]
      exact ⟨hroot, .top, by rw [hroot]; rfl⟩
    · rintro ⟨hr, hpath, -⟩
      rw [hpath.cases_nil] at hr
      simp [hr]
  | append_singleton names n ih =>
    have hwalk : db.walk m.mountId (names ++ [n]) =
        (db.walk m.mountId names).bind fun q => db.getByParentName m.mountId q.inode n := by
      simp only [walk, List.foldlM_append, List.foldlM_cons, List.foldlM_nil]
      cases db.getByInode fuseRootInode with
      | none => rfl
      | some root => simp
    rw [hwalk, Option.bind_eq_some_iff]
    constructor
    · rintro ⟨q, hq, hr⟩
      obtain ⟨-, hpath, hroot⟩ := ih.1 hq
      obtain ⟨hri, hc⟩ := (getByParentName_iff h).1 hr
      exact ⟨hri, .child hpath hc, hroot⟩
    · rintro ⟨hri, hpath, hroot⟩
      obtain ⟨p, hp, hc⟩ := Forest.path_concat_iff.1 hpath
      obtain ⟨q, hq⟩ := Option.isSome_iff_exists.1 (hasParents_forest db p _ hc.isIn)
      obtain ⟨q, hq, -⟩ := forest_eq_some.1 hq
      obtain rfl := inode_of_getByInode hq
      exact ⟨q, ih.2 ⟨hq, hp, hroot⟩, (getByParentName_iff h).2 ⟨hri, hc⟩⟩

/-- **The rows are a tree exactly if no way up from one goes on forever.** -/
theorem isTree_iff_grounded (h : Rooted m db) : db.IsTree m.mountId ↔ db.forest.Grounded := by
  rw [Forest.grounded_iff_path (hasParents_forest db) h.oneTop]
  constructor
  · intro htree i hi
    obtain ⟨x, hx⟩ := Option.isSome_iff_exists.1 hi
    obtain ⟨r, hr, -⟩ := forest_eq_some.1 hx
    obtain rfl := inode_of_getByInode hr
    obtain ⟨names, hnames, hone⟩ := htree _ r hr
    obtain ⟨-, hpath, hroot⟩ := (walk_iff h).1 hnames
    exact ⟨names, hpath, fun names' h' => hone names' ((walk_iff h).2 ⟨hr, h', hroot⟩)⟩
  · intro hpaths i r hr
    obtain rfl := inode_of_getByInode hr
    obtain ⟨names, hpath, hone⟩ := hpaths r.inode (by rw [forest, hr]; rfl)
    -- a path begins at a root that is there
    have hroot : (db.getByInode fuseRootInode).isSome = true := by
      have hforest := hpath.isSome_top (hasParents_forest db) (by rw [forest, hr]; rfl)
      rwa [forest, Option.isSome_map] at hforest
    exact ⟨names, (walk_iff h).2 ⟨hr, hpath, hroot⟩,
      fun names' h' => hone names' ((walk_iff h).1 h').2.1⟩

/-! ## What a step does to the forest -/

/-- The rows say the same tree. -/
def SameTree (db db' : Db) : Prop :=
  ∀ i, (db'.getByInode i).map (fun r => (r.mountId, r.node)) =
    (db.getByInode i).map fun r => (r.mountId, r.node)

/-- Every row stays where it is or goes into `p`. -/
def Regrows (m : Mount) (p : Inode) (db db' : Db) : Prop :=
  ∀ i r', db'.getByInode i = some r' →
    (∃ r, db.getByInode i = some r ∧ r'.parent = r.parent ∧ r'.mountId = r.mountId) ∨
      (r'.parent = some p ∧ r'.mountId = m.mountId)

theorem SameTree.refl (db : Db) : SameTree db db := fun _ => rfl

theorem SameTree.trans {db'' : Db} (h : SameTree db db') (h' : SameTree db' db'') :
    SameTree db db'' := fun i => (h' i).trans (h i)

theorem sameTree_of_sameRows (h : SameRows db db') : SameTree db db' := by
  intro i
  rw [h.rows i]

theorem SameTree.forest (h : SameTree db db') : db'.forest = db.forest := by
  funext i
  have hi := congrArg (Option.map Prod.snd) (h i)
  simp only [Option.map_map, Function.comp_def] at hi
  exact hi

theorem SameTree.regrows (h : SameTree db db') (p : Inode) : Regrows m p db db' := by
  intro i r' hr'
  have hi := h i
  rw [hr', Option.map_some] at hi
  obtain ⟨r, hr, hnode⟩ := Option.map_eq_some_iff.1 hi.symm
  obtain ⟨hmount, hnode⟩ := Prod.mk.inj hnode
  exact .inl ⟨r, hr, congrArg Node.parent hnode.symm, hmount.symm⟩

theorem Regrows.trans {db'' : Db} (h : Regrows m p db db') (h' : Regrows m p db' db'') :
    Regrows m p db db'' := by
  intro i r'' hr''
  rcases h' i r'' hr'' with ⟨r', hr', hparent, hmount⟩ | hp
  · rw [hparent, hmount]
    exact h i r' hr'
  · exact .inr hp

/-- Deletions leave the other rows where they are. -/
theorem regrows_of_kept (h : ∀ i r', db'.getByInode i = some r' → db.getByInode i = some r') :
    Regrows m p db db' := fun i r' hr' => .inl ⟨r', h i r' hr', rfl, rfl⟩

theorem Regrows.rooted (h : Regrows m p db db') (hr : Rooted m db) : Rooted m db' := by
  constructor
  · intro i r' hr'
    rcases h i r' hr' with ⟨r, hrow, -, hmount⟩ | ⟨-, hmount⟩
    · exact hmount.trans (hr.mount i r hrow)
    · exact hmount
  · intro i r' hr' hp
    rcases h i r' hr' with ⟨r, hrow, hparent, -⟩ | ⟨hparent, -⟩
    · exact hr.top i r hrow (hparent.symm.trans hp)
    · rw [hparent] at hp
      cases hp

/-- **Rows that go into one directory** leave a tree exactly if it was not below one of them. -/
theorem Regrows.grounded_iff (h : Regrows m p db db') (hg : db.forest.Grounded) :
    db'.forest.Grounded ↔
      ∀ q i, db'.forest.IsIn q i → ¬db.forest.IsIn q i → ¬db.forest.Above i q := by
  have hregrown : Forest.Regrown db.forest db'.forest p := by
    intro q i hin
    obtain ⟨r', hr', hq⟩ := isIn_iff.1 hin
    rcases h i r' hr' with ⟨r, hr, hparent, -⟩ | ⟨hparent, -⟩
    · exact .inl (isIn_iff.2 ⟨r, hr, hparent.symm.trans hq⟩)
    · exact .inr (Option.some.inj (hq.symm.trans hparent))
  have hstays : ∀ q i, db.forest.IsIn q i → (db'.forest i).isSome = true →
      db'.forest.IsIn q i ∨ db'.forest.IsIn p i := by
    intro q i hin hsome
    obtain ⟨x, hx⟩ := Option.isSome_iff_exists.1 hsome
    obtain ⟨r', hr', -⟩ := forest_eq_some.1 hx
    obtain ⟨r, hr, hq⟩ := isIn_iff.1 hin
    rcases h i r' hr' with ⟨r₀, hr₀, hparent, -⟩ | ⟨hparent, -⟩
    · obtain rfl := Option.some.inj (hr.symm.trans hr₀)
      exact .inl (isIn_iff.2 ⟨r', hr', hparent.trans hq⟩)
    · exact .inr (isIn_iff.2 ⟨r', hr', hparent⟩)
  rw [Forest.grounded_iff_of_regrown hregrown hstays hg (hasParents_forest db')]
  constructor
  · intro hp q i hin hne
    obtain rfl := (hregrown q i hin).resolve_left hne
    exact hp i hin hne
  · exact fun hall => hall p

/-! ## Remote changes -/

/-- The directory an operation puts rows into. -/
def RemoteOp.directory : RemoteOp → Inode
  | .batchUpsert _ parent _ _ => parent
  | .upsert _ x _ => x.parent
  | _ => fuseRootInode

theorem upserts_spec {op : RemoteOp} {u : ℕ × Refresh × Option Str} (h : u ∈ op.upserts) :
    u.1 = op.mountId ∧ u.2.1.parent = op.directory := by
  cases op with
  | batchUpsert mountId parent entries g =>
    obtain ⟨e, -, rfl⟩ := List.mem_map.1 h
    exact ⟨rfl, rfl⟩
  | upsert mountId x id =>
    obtain rfl := List.mem_singleton.1 h
    exact ⟨rfl, rfl⟩
  | _ => cases h

/-- A row after a remote change is as it was, or in the directory of the change. -/
theorem placed_of_statement {op : RemoteOp} {d d' : Db} (hop : op.mountId = m.mountId)
    (h : RemoteStatement op db d d') {j : Inode} {r' : FileEntry}
    (hr' : d'.getByInode j = some r') :
    d.getByInode j = some r' ∨ (r'.parent = some op.directory ∧ r'.mountId = m.mountId) := by
  cases h with
  | @upsert d d' mountId x id _ hu h =>
    obtain ⟨hm, hp⟩ := upserts_spec hu
    dsimp only at hm hp
    rcases upsertByPath_cases h with ⟨q, hq, hmap⟩ | ⟨-, -, hrows⟩
    · obtain ⟨hqi, hqm, -⟩ := getByRemotePath_spec hq
      obtain ⟨r, hr, ⟨rfl, rfl⟩ | ⟨-, rfl⟩⟩ := hmap.inv hr'
      · obtain rfl := Option.some.inj (hqi.symm.trans hr)
        exact .inr ⟨congrArg some hp, hqm.trans (hm.trans hop)⟩
      · exact .inl hr
    · rw [hrows j] at hr'
      split at hr'
      · rw [← Option.some.inj hr']
        exact .inr ⟨congrArg some hp, hm.trans hop⟩
      · exact .inl hr'
  | delete _ h | clear _ _ _ h =>
    rw [getByInode_deleteRows h] at hr'
    exact .inl (Option.filter_eq_some_iff.1 hr').1
  | @move d d' mountId x id q hop' hid hq h =>
    have hmap := rowMapped_of_updateRow h fun _ => rfl
    obtain ⟨r, hr, ⟨rfl, rfl⟩ | ⟨-, rfl⟩⟩ := hmap.inv hr'
    · obtain rfl := Option.some.inj (hq.symm.trans hr)
      subst hop'
      exact .inr ⟨rfl, (foundById hid).2.1.trans hop⟩
    · exact .inl hr

theorem placed_applyRemote {op : RemoteOp} (hop : op.mountId = m.mountId) {j : Inode}
    {r' : FileEntry} (hr' : (db.applyRemote op).getByInode j = some r') :
    db.getByInode j = some r' ∨ (r'.parent = some op.directory ∧ r'.mountId = m.mountId) := by
  have h := applyRemote_steps op db
  generalize db.applyRemote op = db' at h hr'
  induction h with
  | refl => exact .inl hr'
  | tail _ h ih =>
    rcases placed_of_statement hop h hr' with hr | hplaced
    · exact ih hr
    · exact .inr hplaced

theorem regrows_applyRemote {op : RemoteOp} (hop : op.mountId = m.mountId) (db : Db) :
    Regrows m op.directory db (db.applyRemote op) := fun _ r' hr' =>
  (placed_applyRemote hop hr').imp_left fun hr => ⟨r', hr, rfl, rfl⟩

/-! ## The daemon -/

section Steps

variable {w w' : World} {ev : Event}

/-- A new file or directory goes where it was asked for. -/
theorem regrows_of_insertFile {e : NewFileEntry} (he : e.mountId = m.mountId)
    (h : db.insertFile e = some (i, db')) : Regrows m e.parent db db' := by
  obtain ⟨db₁, h₁, hi⟩ := Option.map_eq_some_iff.1 h
  obtain ⟨rfl, rfl⟩ := Prod.mk.inj hi
  intro j r' hr'
  rw [getByInode_insertRow h₁] at hr'
  split at hr'
  · rw [← Option.some.inj hr']
    exact .inr ⟨rfl, he⟩
  · exact .inl ⟨r', hr', rfl, rfl⟩

theorem regrows_handleCreate (p : Inode) (n : Str) :
    Regrows m p w.db (handleCreate m w p n).2.db := by
  simp only [handleCreate, World.allocFh]
  repeat' split
  any_goals exact (SameTree.refl w.db).regrows p
  rename_i h
  exact regrows_of_insertFile rfl h

theorem regrows_handleMkdir (p : Inode) (n : Str) :
    Regrows m p w.db (handleMkdir m w p n).2.db := by
  simp only [handleMkdir]
  repeat' split
  any_goals exact (SameTree.refl w.db).regrows p
  rename_i h
  exact regrows_of_insertFile rfl h

/-- The events that add rows. -/
def Event.adds : Event → Bool
  | .request (.create ..) | .request (.mkdir ..) | .poll _ => true
  | _ => false

/-- A step that adds no row moves rows only for a rename. -/
theorem regrows_of_rowsStep (h : RowsStep m w ev db') (hadds : ev.adds = false)
    (hrename : ∀ q n p' n', ev = .request (.rename q n p' n') → p' = p) :
    Regrows m p w.db db' := by
  intro i r' hr'
  cases hr : w.db.getByInode i with
  | none =>
    have hnew := (h.new i r' hr hr').1
    cases hnew <;> cases hadds
  | some r =>
    have hstep := h.row i r hr
    rw [hr'] at hstep
    cases hstep with
    | renamed hfound =>
      exact .inr ⟨congrArg some (hrename _ _ _ _ rfl), (getByParentName_spec hfound).2.1⟩
    | refreshed | dropped => cases hadds
    | _ => exact .inl ⟨_, rfl, rfl, rfl⟩

theorem regrows_of_step (h : step m w ev = some w')
    (hpoll : ∀ op, ev = .poll op → op.mountId = m.mountId) : ∃ p, Regrows m p w.db w'.db := by
  by_cases hadds : ev.adds = true
  · unfold Event.adds at hadds
    split at hadds
    · obtain ⟨-, rfl⟩ := step_request h
      exact ⟨_, regrows_handleCreate _ _⟩
    · obtain ⟨-, rfl⟩ := step_request h
      exact ⟨_, regrows_handleMkdir _ _⟩
    · obtain rfl := Option.some.inj h
      exact ⟨_, regrows_applyRemote (hpoll _ rfl) w.db⟩
    · cases hadds
  · have hrows := rowsStep_of_step h
    rw [Bool.not_eq_true] at hadds
    by_cases hrename : ∃ q n p' n', ev = .request (.rename q n p' n')
    · obtain ⟨q, n, p', n', rfl⟩ := hrename
      refine ⟨p', regrows_of_rowsStep hrows hadds ?_⟩
      rintro _ _ _ _ ⟨⟩
      rfl
    · exact ⟨0, regrows_of_rowsStep hrows hadds fun q n p' n' hev =>
        absurd ⟨q, n, p', n', hev⟩ hrename⟩

/-! ## Crashes and starts -/

/-- A sweep of the start-up that leaves the places of the rows. -/
theorem sameTree_of_sweep {q : FileEntry → Bool} {f : FileEntry → FileEntry} {fault : Bool}
    (hi : ∀ r, (f r).inode = r.inode)
    (hf : ∀ r, (f r).mountId = r.mountId ∧ (f r).node = r.node) :
    SameTree db (if fault then db else (db.updateWhere q f).getD db) := by
  split
  · exact .refl db
  · cases hu : db.updateWhere q f with
    | none => exact .refl db
    | some db' =>
      intro i
      rw [Option.getD_some, getByInode_updateWhere hu hi, Option.map_map]
      refine Option.map_congr fun r _ => ?_
      simp only [Function.comp_apply]
      split
      · rw [(hf r).1, (hf r).2]
      · rfl

/-- The start-up leaves the tree. -/
theorem sameTree_of_restart {env : StartEnv} {remote : Remote} {disk : Db × CacheFs}
    (h : restart m env remote disk = some w') : SameTree disk.1 w'.db := by
  rw [restart] at h
  split at h
  · cases h
  obtain ⟨db₁, h₁, rfl⟩ := Option.map_eq_some_iff.1 h
  have hydrating : SameTree disk.1 db₁ := by
    have hsweep : SameTree disk.1 (if false then disk.1 else disk.1.resetHydrating.getD disk.1) :=
      sameTree_of_sweep (by exact fun _ => rfl) (by exact fun _ => ⟨rfl, rfl⟩)
    simpa [h₁] using hsweep
  have directories : SameTree db₁ (if env.directoriesFault then db₁
      else db₁.resetStuckDirtyDirectories.getD db₁) :=
    sameTree_of_sweep (by exact fun _ => rfl) (by exact fun _ => ⟨rfl, rfl⟩)
  exact (hydrating.trans directories).trans
    (sameTree_of_sweep (by exact fun _ => rfl) (by exact fun _ => ⟨rfl, rfl⟩))

/-- A crash leaves the index, or, inside a rename, the index without the destination. -/
theorem db_of_disk {point : CrashPoint} {disk : Db × CacheFs} (h : point.disk m w = some disk) :
    disk.1 = w.db ∨ ∃ p n p' n' moved, point = .rename p n p' n' moved ∧
      disk.1 = (dropDestination w.db m.mountId p' n').1 := by
  cases crashLeaves_of_disk h with
  | between => exact .inl rfl
  | create _ _ _ _ _ hmade | setattr _ _ _ hmade => exact .inl (disk_of_made hmade).1
  | rename => exact .inr ⟨_, _, _, _, _, rfl, rfl⟩

theorem regrows_of_lifeStep {e : LifeEvent} (h : lifeStep m w e = some w')
    (hpoll : ∀ op, e = .daemon (.poll op) → op.mountId = m.mountId) :
    ∃ p, Regrows m p w.db w'.db := by
  cases e with
  | daemon ev => exact regrows_of_step h fun op hop => hpoll op (congrArg _ hop)
  | restart point env =>
    obtain ⟨disk, hdisk, hstart⟩ := Option.bind_eq_some_iff.1 h
    have hsame : Regrows m 0 disk.1 w'.db := (sameTree_of_restart hstart).regrows 0
    rcases db_of_disk hdisk with hdb | ⟨-, -, p', n', -, -, hdb⟩
    · exact ⟨0, hdb ▸ hsame⟩
    · refine ⟨0, Regrows.trans (regrows_of_kept fun i r' hr' => ?_) hsame⟩
      rw [hdb] at hr'
      rcases getByInode_dropDestination w.db m.mountId p' n' i with hi | ⟨-, -, -, hi⟩
      · exact hi ▸ hr'
      · rw [hi] at hr'
        cases hr'

end Steps

/-! ## Runs -/

theorem rooted_init (m : Mount) (now : ℕ) : Rooted m (World.init m now).db := by
  have hroot : ∀ i r, (World.init m now).db.getByInode i = some r → r = rootEntry m.mountId :=
    fun i r hr => List.mem_singleton.1 (mem_rows_of_getByInode hr)
  constructor
  · intro i r hr
    rw [hroot i r hr]
    rfl
  · intro i r hr _
    rw [← inode_of_getByInode hr, hroot i r hr]
    rfl

theorem not_isIn_init (m : Mount) (now : ℕ) (p i : Inode) :
    ¬(World.init m now).db.forest.IsIn p i := by
  intro hp
  obtain ⟨r, hr, hparent⟩ := isIn_iff.1 hp
  rw [List.mem_singleton.1 (mem_rows_of_getByInode hr)] at hparent
  cases hparent

theorem grounded_init (m : Mount) (now : ℕ) : (World.init m now).db.forest.Grounded :=
  ⟨fun i => ⟨i, fun p hp => absurd hp (not_isIn_init m now p i)⟩⟩

/-- **The rows are a tree for as long as none is put below itself**: over every run of lives, with
whatever crashes, every row has one path of names from the root after every step exactly if no step
has put a row into a directory that is the row or is below it. -/
theorem isTree_iff_noneBelowItself (m : Mount) (now : ℕ) (es : List LifeEvent)
    (hpolls : PollsOwn m es) :
    Along (lifeStep m) (fun _ _ w' => w'.db.IsTree m.mountId) (World.init m now) es ↔
      Along (lifeStep m) NoneBelowItself (World.init m now) es := by
  have hown : ∀ e ∈ es, ∀ _ : World, ∀ op, e = .daemon (.poll op) → op.mountId = m.mountId := by
    rintro _ he _ op rfl
    exact hpolls op he
  refine along_congr_of_guarded (I := fun w => Rooted m w.db ∧ w.db.forest.Grounded) ?_ ?_
    ⟨rooted_init m now, grounded_init m now⟩ (.of_forall hown _)
  · rintro w e w' ⟨hrooted, hg⟩ hpoll h
    obtain ⟨p, hregrows⟩ := regrows_of_lifeStep h hpoll
    rw [isTree_iff_grounded (hregrows.rooted hrooted)]
    exact hregrows.grounded_iff hg
  · rintro w e w' ⟨hrooted, hg⟩ hpoll h htree
    obtain ⟨p, hregrows⟩ := regrows_of_lifeStep h hpoll
    have hrooted' := hregrows.rooted hrooted
    exact ⟨hrooted', (isTree_iff_grounded hrooted').1 htree⟩

/-- A directory is made, the remote reports a file, and the daemon starts again. -/
def makeAndReport : List LifeEvent :=
  [.daemon (.request (.mkdir fuseRootInode ['d'])), .daemon (.poll (reportedFile ['f'] 1 ['v'])),
    .restart .between .fine]

theorem isTree_iff_noneBelowItself_makeAndReport :
    Along (lifeStep sampleMount) (fun _ _ w' => w'.db.IsTree sampleMount.mountId)
        (World.init sampleMount 0) makeAndReport ↔
      Along (lifeStep sampleMount) NoneBelowItself (World.init sampleMount 0) makeAndReport := by
  refine isTree_iff_noneBelowItself sampleMount 0 makeAndReport fun op hop => ?_
  have hop : op = reportedFile ['f'] 1 ['v'] := by simpa [makeAndReport] using hop
  rw [hop]
  rfl

end Stratosync

import Mathlib.Data.Char
import Mathlib.Data.List.Dedup
import Mathlib.Data.List.Lex
import Stratosync.Cache.ClearedRows
import Stratosync.Daemon.Orphans
import Stratosync.Foundations.Stripping

/-!
# The command that clears the cache

`stratosync cache clear` on a directory tree. It takes the content of the rows, statement by
statement on a database that the daemon may write to in between, removes the cache files of the rows
it has selected one by one, and gives up at the first it cannot remove; then it removes the
directories on the way to them, the last in the order of their names first, where they are empty.
`clearOne_exact`: it leaves just the directories in which there still is something. The tree is
changed by nothing else meanwhile. `clearOne_of_noDatabase` is about a mount without a database,
whose files are all removed.
-/

namespace Stratosync

open Foundations Relation

/-! ## The directories on the way to a file -/

/-- The parents of a path, given by its components the last one first, up to the root. -/
def parentsWithin.go (root : PathBuf) : List Str → List PathBuf
  | [] => []
  | _ :: rest =>
    let dir := rest.reverse
    if dir = root || !root.isPrefixOf dir then [] else dir :: go root rest

def parentsWithin (root p : PathBuf) : List PathBuf := parentsWithin.go root p.reverse

/-- The directories `prune_empty_dirs` tries to remove, in its order. -/
def pruneOrder (root : PathBuf) (cleared : List PathBuf) : List PathBuf :=
  ((cleared.flatMap (parentsWithin root)).dedup.insertionSort (· ≤ ·)).reverse

/-- The path is below the root and on the way to `p`. -/
def OnTheWayTo (root p dir : PathBuf) : Prop := root <+: dir ∧ dir ≠ root ∧ dir <+: p ∧ dir ≠ p

section Parents

variable {root p dir : PathBuf} {cleared : List PathBuf}

theorem mem_parentsWithin_go {rev : List Str} :
    dir ∈ parentsWithin.go root rev ↔ OnTheWayTo root rev.reverse dir := by
  induction rev with
  | nil =>
    refine ⟨fun h => absurd h List.not_mem_nil, ?_⟩
    rintro ⟨-, -, hpre, hne⟩
    exact absurd (List.prefix_nil.1 hpre) hne
  | cons c rest ih =>
    rw [parentsWithin.go, List.reverse_cons]
    have hstep : OnTheWayTo root (rest.reverse ++ [c]) dir ↔
        root <+: dir ∧ dir ≠ root ∧ dir <+: rest.reverse := by
      refine and_congr_right fun _ => and_congr_right fun _ => ?_
      rw [List.prefix_concat_iff]
      constructor
      · rintro ⟨hpre, hne⟩
        exact hpre.resolve_left hne
      · intro hpre
        refine ⟨.inr hpre, fun h => ?_⟩
        have hlen := hpre.length_le
        rw [h, List.length_append, List.length_singleton] at hlen
        omega
    rw [hstep]
    split
    · rename_i hstop
      refine ⟨fun h => absurd h List.not_mem_nil, ?_⟩
      rintro ⟨hroot, hne, hpre⟩
      rw [Bool.or_eq_true, decide_eq_true_eq, Bool.not_eq_true', Bool.eq_false_iff, ne_eq,
        List.isPrefixOf_iff_prefix] at hstop
      rcases hstop with hstop | hstop
      · exact absurd (hroot.eq_of_length_le (hstop ▸ hpre).length_le).symm hne
      · exact absurd (hroot.trans hpre) hstop
    · rename_i hgoes
      rw [Bool.or_eq_true, decide_eq_true_eq, Bool.not_eq_true', Bool.eq_false_iff, ne_eq,
        List.isPrefixOf_iff_prefix, not_or, not_not] at hgoes
      rw [List.mem_cons, ih]
      constructor
      · rintro (rfl | ⟨hroot, hne, hpre, -⟩)
        · exact ⟨hgoes.2, hgoes.1, List.prefix_rfl⟩
        · exact ⟨hroot, hne, hpre⟩
      · rintro ⟨hroot, hne, hpre⟩
        by_cases heq : dir = rest.reverse
        · exact .inl heq
        · exact .inr ⟨hroot, hne, hpre, heq⟩

theorem mem_parentsWithin : dir ∈ parentsWithin root p ↔ OnTheWayTo root p dir := by
  rw [parentsWithin, mem_parentsWithin_go, List.reverse_reverse]

theorem mem_pruneOrder : dir ∈ pruneOrder root cleared ↔ ∃ p ∈ cleared, OnTheWayTo root p dir := by
  rw [pruneOrder, List.mem_reverse, List.mem_insertionSort, List.mem_dedup, List.mem_flatMap]
  simp only [mem_parentsWithin]

/-- A directory comes before what is in it, in the order of the names. -/
theorem le_of_above {a b : PathBuf} (h : a <+: b) : a ≤ b := by
  induction a generalizing b with
  | nil =>
    cases b with
    | nil => exact le_refl _
    | cons c b => exact le_of_lt .nil
  | cons c a ih =>
    obtain ⟨rest, rfl⟩ := h
    exact List.cons_le_cons c (ih (List.prefix_append a rest))

/-- What is in a directory is tried before it. -/
theorem pruneOrder_pairwise : (pruneOrder root cleared).Pairwise fun a b => ¬a <+: b := by
  rw [pruneOrder, List.pairwise_reverse]
  have hsorted := List.pairwise_insertionSort (α := PathBuf) (· ≤ ·)
    (cleared.flatMap (parentsWithin root)).dedup
  have hnodup := (List.perm_insertionSort (α := PathBuf) (· ≤ ·)
    (cleared.flatMap (parentsWithin root)).dedup).nodup_iff.2 (List.nodup_dedup _)
  refine (hsorted.and hnodup).imp fun hab hpre => ?_
  exact hab.2 (le_antisymm hab.1 (le_of_above hpre))

end Parents

/-! ## Calls on a tree -/

namespace DirTree

variable {root : PathBuf}

section

variable (fails : PathBuf → Bool) (t : DirTree root)

/-- A directory is at the path, or something else on the way to it. -/
def obstructs (p : PathBuf) : Bool :=
  p.isPrefixOf root || t.nodes.any fun x =>
    if x.2 = .dir then x.1 = p else x.1.isPrefixOf p && x.1 ≠ p

/-- The tree without what is at the path, if that is no directory. -/
def dropLeaf (p : PathBuf) : DirTree root where
  nodes := t.nodes.filter fun x => x.1 ≠ p || x.2 = .dir
  distinct := t.distinct.sublist (List.filter_sublist.map Prod.fst)
  below x hx := t.below x (List.mem_filter.1 hx).1
  parents x hx := by
    obtain h | h := t.parents x (List.mem_filter.1 hx).1
    · exact .inl h
    · exact .inr (List.mem_filter.2 ⟨h, by simp⟩)

/-- `remove_file`; nothing at the path is no error. -/
def unlink (p : PathBuf) : Option (DirTree root) :=
  if fails p || t.obstructs p then none else some (t.dropLeaf p)

/-- The files are removed until one cannot be. The second component says that all were. -/
def unlinkAll : List PathBuf → DirTree root → DirTree root × Bool
  | [], t => (t, true)
  | p :: ps, t =>
    match t.unlink fails p with
    | none => (t, false)
    | some t' => unlinkAll ps t'

/-- `remove_dir`, whose errors are ignored. -/
def removeDir (d : PathBuf) : DirTree root :=
  if h : fails d = false ∧ t.readDir d = [] then
    { nodes := t.nodes.filter (· ≠ (d, .dir))
      distinct := t.distinct.sublist (List.filter_sublist.map Prod.fst)
      below := fun x hx => t.below x (List.mem_filter.1 hx).1
      parents := fun x hx => by
        have hx := (List.mem_filter.1 hx).1
        refine (t.parents x hx).imp id fun hmem => List.mem_filter.2 ⟨hmem, decide_eq_true ?_⟩
        intro heq
        have hchild : x ∈ t.readDir d := List.mem_filter.2
          ⟨hx, decide_eq_true ((parent_of_mem hx).trans (congrArg (some ∘ Prod.fst) heq))⟩
        rw [h.2] at hchild
        cases hchild }
  else t

def pruneEmptyDirs (cleared : List PathBuf) : DirTree root :=
  (pruneOrder root cleared).foldl (removeDir fails) t

end

/-! ## What is left of the files -/

variable {fails : PathBuf → Bool} {t : DirTree root} {p d : PathBuf}

/-- No directory is at a path whose file can be removed. -/
theorem ne_of_unlink {t' : DirTree root} (h : t.unlink fails p = some t')
    {x : PathBuf × NodeKind} (hx : x ∈ t.nodes) (hdir : x.2 = .dir) : x.1 ≠ p := by
  rintro rfl
  rw [unlink] at h
  split at h
  · cases h
  · rename_i hfree
    refine hfree (Bool.or_eq_true_iff.2 (.inr (Bool.or_eq_true_iff.2 (.inr ?_))))
    exact List.any_eq_true.2 ⟨x, hx, by simp [hdir]⟩

theorem mem_dropLeaf {x : PathBuf × NodeKind} :
    x ∈ (t.dropLeaf p).nodes ↔ x ∈ t.nodes ∧ (x.1 = p → x.2 = .dir) := by
  simp only [dropLeaf, List.mem_filter, ne_eq, Bool.or_eq_true, decide_eq_true_eq,
    Decidable.imp_iff_not_or]

/-- **The files go up to the first that cannot be removed**; the directories stay. -/
theorem unlinkAll_spec (ps : List PathBuf) (t : DirTree root) :
    ∃ gone rest, ps = gone ++ rest ∧ (unlinkAll fails ps t).2 = rest.isEmpty ∧
      (∀ p ps', rest = p :: ps' → (unlinkAll fails ps t).1.unlink fails p = none) ∧
      ∀ x, x ∈ (unlinkAll fails ps t).1.nodes ↔ x ∈ t.nodes ∧ x.1 ∉ gone := by
  induction ps generalizing t with
  | nil =>
    exact ⟨[], [], rfl, rfl, (fun _ _ h => by cases h),
      fun x => (and_iff_left List.not_mem_nil).symm⟩
  | cons p ps ih =>
    rw [unlinkAll]
    cases h : t.unlink fails p with
    | none =>
      refine ⟨[], p :: ps, rfl, rfl, ?_, fun x => (and_iff_left List.not_mem_nil).symm⟩
      rintro _ _ ⟨⟩
      exact h
    | some t' =>
      obtain ⟨gone, rest, rfl, hall, hfails, hmem⟩ := ih t'
      refine ⟨p :: gone, rest, rfl, hall, hfails, fun x => ?_⟩
      have ht' : t' = t.dropLeaf p := by
        rw [unlink] at h
        split at h
        · cases h
        · exact (Option.some.inj h).symm
      rw [hmem, ht', mem_dropLeaf, List.mem_cons, not_or, and_assoc]
      refine and_congr_right fun hx => and_congr_left fun _ => ?_
      exact ⟨fun himp hp => ne_of_unlink h hx (himp hp) hp, fun hne hp => absurd hp hne⟩

/-! ## What is left of the directories -/

/-- Two nodes at one path are one. -/
theorem eq_of_path {x y : PathBuf × NodeKind} (hx : x ∈ t.nodes) (hy : y ∈ t.nodes)
    (h : x.1 = y.1) : x = y :=
  List.inj_on_of_nodup_map t.distinct hx hy h

/-- A directory below which there is something has something in it. -/
theorem exists_child {n : ℕ} {x : PathBuf × NodeKind} (hroot : root <+: d) (hx : x ∈ t.nodes)
    (hpre : d <+: x.1) (hne : x.1 ≠ d) (hn : x.1.length ≤ n) : ∃ y, y ∈ t.readDir d := by
  induction n generalizing x with
  | zero =>
    have hnil := List.eq_nil_of_length_eq_zero (Nat.le_zero.1 hn)
    rw [hnil] at hpre hne
    exact absurd (List.prefix_nil.1 hpre).symm hne
  | succ n ih =>
    have hx₀ : x.1 ≠ [] := by
      rintro hnil
      rw [hnil] at hpre hne
      exact hne (List.prefix_nil.1 hpre).symm
    have hup : d <+: x.1.dropLast := by
      rw [← List.dropLast_append_getLast hx₀, List.prefix_concat_iff,
        List.dropLast_append_getLast hx₀] at hpre
      exact hpre.resolve_left hne.symm
    by_cases hd : x.1.dropLast = d
    · exact ⟨x, List.mem_filter.2 ⟨hx, decide_eq_true (hd ▸ parent_of_mem hx)⟩⟩
    · rcases t.parents x hx with hparent | hparent
      · rw [hparent] at hup hd
        exact absurd (hroot.eq_of_length_le hup.length_le) hd
      · refine ih hparent hup hd ?_
        rw [List.length_dropLast]
        omega

/-- One node is at or below the path of another. -/
def Above (x y : PathBuf × NodeKind) : Prop := x.1 <+: y.1

instance : DecidableRel Above := fun x y => inferInstanceAs (Decidable (x.1 <+: y.1))

theorem above_refl (x : PathBuf × NodeKind) : Above x x := List.prefix_rfl

theorem above_trans (x y z : PathBuf × NodeKind) : Above x y → Above y z → Above x z :=
  List.IsPrefix.trans

theorem nodes_removeDir (fails : PathBuf → Bool) (t : DirTree root) (d : PathBuf) :
    (t.removeDir fails d).nodes =
      Stripping.stripOne Above (fun x => !fails x.1) t.nodes (d, .dir) := by
  rw [removeDir, Stripping.stripOne]
  by_cases hmem : (d, .dir) ∈ t.nodes
  · have hempty : t.readDir d = [] ↔ ∀ b ∈ t.nodes, Above (d, .dir) b → b = (d, .dir) := by
      constructor
      · intro hnone b hb hpre
        by_cases hbd : b.1 = d
        · exact eq_of_path hb hmem hbd
        · obtain ⟨y, hy⟩ := exists_child (t.below _ hmem).1 hb hpre hbd (le_refl _)
          rw [hnone] at hy
          cases hy
      · intro hall
        refine List.eq_nil_iff_forall_not_mem.2 fun y hy => ?_
        obtain ⟨hin, hparent⟩ := List.mem_filter.1 hy
        have hparent := (parent_of_mem hin).symm.trans (of_decide_eq_true hparent)
        have hup : y.1.dropLast = d := Option.some.inj hparent
        have hself : y = (d, .dir) := hall y hin (hup ▸ List.dropLast_prefix y.1)
        rw [hself] at hup
        change d.dropLast = d at hup
        have hnil : d = [] := by
          have hlen := congrArg List.length hup
          rw [List.length_dropLast] at hlen
          exact List.eq_nil_of_length_eq_zero (by omega)
        obtain ⟨hpre, hne⟩ := t.below _ hmem
        rw [hnil] at hpre hne
        exact hne (List.prefix_nil.1 hpre).symm
    by_cases hcond : fails d = false ∧ t.readDir d = []
    · rw [dif_pos hcond, if_pos ⟨by simp [hcond.1], hempty.1 hcond.2⟩]
    · rw [dif_neg hcond, if_neg fun h => hcond ⟨by simpa using h.1, hempty.2 h.2⟩]
  · have hsame : t.nodes.filter (· ≠ (d, .dir)) = t.nodes :=
      List.filter_eq_self.2 fun x hx => decide_eq_true fun h => hmem (h ▸ hx)
    split <;> split <;> first | rfl | exact hsame | exact hsame.symm

theorem nodes_foldl_removeDir (fails : PathBuf → Bool) (ds : List PathBuf) (t : DirTree root) :
    (ds.foldl (removeDir fails) t).nodes =
      Stripping.strip Above (fun x => !fails x.1) t.nodes (ds.map (·, .dir)) := by
  induction ds generalizing t with
  | nil => rfl
  | cons d ds ih =>
    rw [List.foldl_cons, ih, nodes_removeDir, List.map_cons, Stripping.strip_cons]

/-- **The directories that go** are those with nothing in them but directories that go. -/
theorem mem_pruneEmptyDirs {cleared : List PathBuf} {x : PathBuf × NodeKind} :
    x ∈ (t.pruneEmptyDirs fails cleared).nodes ↔ x ∈ t.nodes ∧
      ¬∀ y ∈ t.nodes, x.1 <+: y.1 →
        y.2 = .dir ∧ fails y.1 = false ∧ ∃ p ∈ cleared, y.1 <+: p ∧ y.1 ≠ p := by
  rw [pruneEmptyDirs, nodes_foldl_removeDir, Stripping.mem_strip above_refl above_trans]
  · refine and_congr_right fun _ => not_congr (forall₂_congr fun y hy =>
      imp_congr_right fun _ => ?_)
    obtain ⟨hpre, hne⟩ := t.below y hy
    obtain ⟨q, kind⟩ := y
    simp only [List.mem_map, Prod.mk.injEq, Bool.not_eq_true', mem_pruneOrder]
    constructor
    · rintro ⟨⟨dir, ⟨p, hp, hway⟩, rfl, rfl⟩, hmay⟩
      exact ⟨rfl, hmay, p, hp, hway.2.2⟩
    · rintro ⟨rfl, hmay, p, hp, hway⟩
      exact ⟨⟨q, ⟨p, hp, hpre, hne, hway⟩, rfl, rfl⟩, hmay⟩
  · exact List.pairwise_map.2 pruneOrder_pairwise

/-- No file goes with the directories. -/
theorem isFile_pruneEmptyDirs (cleared : List PathBuf) (t : DirTree root) (p : PathBuf) :
    (t.pruneEmptyDirs fails cleared).isFile p = t.isFile p := by
  rw [Bool.eq_iff_iff, isFile_iff, isFile_iff]
  refine exists_congr fun size => ?_
  rw [mem_pruneEmptyDirs]
  refine and_iff_left_of_imp fun hmem hall => ?_
  cases (hall _ hmem List.prefix_rfl).1

end DirTree

/-! ## The command -/

/-- The calls and statements that fail, and what others write to the database before each
statement. -/
structure ClearEnv where
  openFails : Bool
  statementFails : ℕ → Bool
  written : ℕ → Db → Db
  unlinkFails : PathBuf → Bool
  rmdirFails : PathBuf → Bool
  readFails : PathBuf → Bool
  metadataFails : PathBuf → Bool

namespace DirTree

variable {root : PathBuf}

section

variable (env : ClearEnv) (t : DirTree root)

/-- The entries of a directory, as far as they can be read. -/
def listed (dir : PathBuf) : List (PathBuf × NodeKind) :=
  if env.readFails dir then []
  else (t.readDir dir).filter fun x => !env.metadataFails x.1

/-- The directories `walkdir` puts on its stack when it has read `dir`. -/
def strayDirs (dir : PathBuf) : List PathBuf :=
  (((t.listed env dir).filter fun x => x.2 = .dir).map Prod.fst).reverse

/-- `walkdir`, with at most `n` rounds: the entries whose metadata can be read. -/
def walkdir : ℕ → List PathBuf → List (PathBuf × NodeKind) → Option (List (PathBuf × NodeKind))
  | _, [], out => some out
  | 0, _ :: _, _ => none
  | n + 1, dir :: stack, out => walkdir n (t.strayDirs env dir ++ stack) (out ++ t.listed env dir)

/-- What `wipe_cache_dir` does with an entry. The bytes are counted before the file is removed. -/
def wipeStray (x : ℕ × DirTree root) : PathBuf × NodeKind → ℕ × DirTree root
  | (path, .file size) =>
    (x.1 + size, if env.unlinkFails path then x.2 else x.2.removeFile path)
  | _ => x

def wipeCacheDir (n : ℕ) : Option (ℕ × DirTree root) :=
  (t.walkdir env n [root] []).map fun entries => entries.foldl (wipeStray env) (0, t)

end

end DirTree

namespace Db

variable (env : ClearEnv)

/-- The entries of `cache_lru` are deleted, from the `k`-th statement on, until one fails. The
second component says that none did. -/
def dropLrus : ℕ → List Inode → Db → Db × Bool
  | _, [], db => (db, true)
  | k, i :: is, db =>
    if env.statementFails k then (env.written k db, false)
    else dropLrus (k + 1) is ((env.written k db).dropLru i)

/-- `clear_cache_for_mount`, whose statements are transactions of their own. -/
def clearByStatements (mountId : ℕ) (includePinned : Bool) (db : Db) :
    Db × Option CacheClearReport :=
  let db₁ := env.written 0 db
  if env.statementFails 0 then (db₁, none)
  else
    let cleared := db₁.fileIndex.rows.filter (db₁.clears mountId includePinned)
    let db₂ := env.written 1 db₁
    if env.statementFails 1 then (db₂, none)
    else
      match db₂.updateWhere (db₂.clears mountId includePinned) FileEntry.evicted with
      | none => (db₂, none)
      | some db₃ =>
        match dropLrus env 2 (cleared.map FileEntry.inode) db₃ with
        | (db₄, false) => (db₄, none)
        | (db₄, true) => (db₄, some
            { filesCleared :=
                (db₂.fileIndex.rows.filter (db₂.clears mountId includePinned)).length
              bytesFreed := (cleared.map fun r => r.cacheSize.getD 0).sum
              cachePaths := cleared.filterMap FileEntry.cachePath })

end Db

/-- What there is of a mount after `clear_one`, and its report; none is an error. -/
structure ClearRun (root : PathBuf) where
  index : Option (Db × Option ℕ)
  tree : DirTree root
  report : Option CacheClearReport

/-- `clear_one`, with at most `n` rounds for the walk: `index` is the database, if the mount has
one, and in it the id of the mount, if it has been entered. -/
def clearOne {root : PathBuf} (env : ClearEnv) (includePinned : Bool)
    (index : Option (Db × Option ℕ)) (t : DirTree root) (n : ℕ) : Option (ClearRun root) :=
  match index with
  | none =>
    (t.wipeCacheDir env n).map fun x => ⟨none, x.2, some ⟨0, x.1, []⟩⟩
  | some (_, none) => some ⟨index, t, none⟩
  | some (db, some mountId) =>
    if env.openFails then some ⟨index, t, none⟩
    else
      match db.clearByStatements env mountId includePinned with
      | (db', none) => some ⟨some (db', some mountId), t, none⟩
      | (db', some report) =>
        match DirTree.unlinkAll env.unlinkFails report.cachePaths t with
        | (t', false) => some ⟨some (db', some mountId), t', none⟩
        | (t', true) => some ⟨some (db', some mountId),
            t'.pruneEmptyDirs env.rmdirFails report.cachePaths, some report⟩

/-- There will be nothing at or below the path but directories on the way to a cleared file, all of
which can be removed. -/
def Emptied {root : PathBuf} (env : ClearEnv) (cleared : List PathBuf) (t : DirTree root)
    (dir : PathBuf) : Prop :=
  ∀ y ∈ t.nodes, dir <+: y.1 → y.1 ∈ cleared ∨
    y.2 = .dir ∧ env.rmdirFails y.1 = false ∧ ∃ p ∈ cleared, y.1 <+: p ∧ y.1 ≠ p

section Clear

variable {root : PathBuf} {env : ClearEnv} {includePinned : Bool} {db db' : Db} {mountId : ℕ}
  {report : CacheClearReport}

/-! ### The statements -/

/-- Nobody else writes, and no statement fails. -/
def ClearEnv.Alone (env : ClearEnv) : Prop :=
  (∀ k db, env.written k db = db) ∧ ∀ k, env.statementFails k = false

theorem Db.dropLrus_of_alone (h : env.Alone) (k : ℕ) (rows : List FileEntry) (db : Db) :
    Db.dropLrus env k (rows.map FileEntry.inode) db =
      (rows.foldl (fun d r => d.dropLru r.inode) db, true) := by
  induction rows generalizing k db with
  | nil => rfl
  | cons r rows ih =>
    rw [List.map_cons, Db.dropLrus, h.2, if_neg Bool.false_ne_true, h.1, ih, List.foldl_cons]

/-- **The statements on their own are one**: where nobody else writes and none fails they do what
`clear_cache_for_mount` does at once. -/
theorem Db.clearByStatements_of_alone (h : env.Alone) (db : Db) (mountId : ℕ)
    (includePinned : Bool) : ∃ report db', db.clearByStatements env mountId includePinned =
        (db', some report) ∧ db.clearCacheForMount mountId includePinned = some (report, db') := by
  obtain ⟨db₃, h₃⟩ := Option.isSome_iff_exists.1
    (Db.updateWhere_evicted_isSome db (db.clears mountId includePinned))
  refine ⟨_, _, ?_, congrArg (Option.map _) h₃⟩
  simp only [Db.clearByStatements, h.1, h.2, Bool.false_eq_true, if_false, h₃,
    Db.dropLrus_of_alone h]

/-- What the report of a clear is of: the files of the rows it has selected, and the number of those
it has updated. -/
theorem Db.report_of_clearByStatements
    (h : db.clearByStatements env mountId includePinned = (db', some report)) :
    report.cachePaths =
        ((env.written 0 db).clearable mountId includePinned).filterMap FileEntry.cachePath ∧
      report.bytesFreed =
        (((env.written 0 db).clearable mountId includePinned).map fun r => r.cacheSize.getD 0).sum ∧
      report.filesCleared =
        ((env.written 1 (env.written 0 db)).clearable mountId includePinned).length := by
  rw [← Db.filter_clears, ← Db.filter_clears]
  rw [Db.clearByStatements] at h
  dsimp only at h
  split at h
  · cases (Prod.mk.inj h).2
  split at h
  · cases (Prod.mk.inj h).2
  split at h
  · cases (Prod.mk.inj h).2
  split at h
  · cases (Prod.mk.inj h).2
  · obtain rfl := Option.some.inj (Prod.mk.inj h).2
    exact ⟨rfl, rfl, rfl⟩

/-! ### The files -/

theorem clearOne_of_error (hopen : env.openFails = false)
    (hclear : db.clearByStatements env mountId includePinned = (db', none)) (t : DirTree root)
    (n : ℕ) : clearOne env includePinned (some (db, some mountId)) t n =
      some ⟨some (db', some mountId), t, none⟩ := by
  rw [clearOne, hopen, if_neg Bool.false_ne_true, hclear]

/-- How far the command comes with the files. -/
theorem clearOne_of_report (hopen : env.openFails = false)
    (hclear : db.clearByStatements env mountId includePinned = (db', some report))
    (t : DirTree root) (n : ℕ) : ∃ (gone rest : List PathBuf) (t' : DirTree root),
      report.cachePaths = gone ++ rest ∧
      (∀ p ps, rest = p :: ps → t'.unlink env.unlinkFails p = none) ∧
      (∀ x, x ∈ t'.nodes ↔ x ∈ t.nodes ∧ x.1 ∉ gone) ∧
      clearOne env includePinned (some (db, some mountId)) t n =
        some (if rest = [] then ⟨some (db', some mountId),
            t'.pruneEmptyDirs env.rmdirFails report.cachePaths, some report⟩
          else ⟨some (db', some mountId), t', none⟩) := by
  obtain ⟨gone, rest, hsplit, hall, hfails, hmem⟩ :=
    @DirTree.unlinkAll_spec root env.unlinkFails report.cachePaths t
  refine ⟨gone, rest, _, hsplit, hfails, hmem, ?_⟩
  rw [clearOne, hopen, if_neg Bool.false_ne_true, hclear]
  dsimp only
  generalize DirTree.unlinkAll env.unlinkFails report.cachePaths t = done at hall ⊢
  obtain ⟨t', all⟩ := done
  dsimp only at hall ⊢
  subst hall
  cases rest with
  | nil => rfl
  | cons p ps => rfl

/-- **The command removes what it has selected, and what that leaves empty**, whatever others write
between its statements. Where a statement fails it removes nothing; where a file cannot be removed
the ones before it are gone, and no directory. -/
theorem clearOne_exact (hopen : env.openFails = false) (includePinned : Bool) (db : Db)
    (mountId : ℕ) (t : DirTree root) (n : ℕ) : ∃ run db' outcome,
      clearOne env includePinned (some (db, some mountId)) t n = some run ∧
      db.clearByStatements env mountId includePinned = (db', outcome) ∧
      run.index = some (db', some mountId) ∧
      (env.Alone → ∃ report, outcome = some report ∧
        db.clearCacheForMount mountId includePinned = some (report, db')) ∧
      (outcome = none → run.report = none ∧ run.tree = t) ∧
      ∀ report, outcome = some report →
        report.cachePaths =
            ((env.written 0 db).clearable mountId includePinned).filterMap FileEntry.cachePath ∧
        ∃ gone rest, report.cachePaths = gone ++ rest ∧
          (rest = [] → run.report = some report ∧ ∀ x, x ∈ run.tree.nodes ↔
            x ∈ t.nodes ∧ x.1 ∉ report.cachePaths ∧ ¬Emptied env report.cachePaths t x.1) ∧
          ∀ p ps, rest = p :: ps → run.report = none ∧ run.tree.unlink env.unlinkFails p = none ∧
            ∀ x, x ∈ run.tree.nodes ↔ x ∈ t.nodes ∧ x.1 ∉ gone := by
  have halone : env.Alone → ∃ report, (db.clearByStatements env mountId includePinned).2 =
      some report ∧ db.clearCacheForMount mountId includePinned =
        some (report, (db.clearByStatements env mountId includePinned).1) := by
    intro h
    obtain ⟨report, db', hclear, hatonce⟩ :=
      Db.clearByStatements_of_alone h db mountId includePinned
    exact ⟨report, by rw [hclear], by rw [hclear, hatonce]⟩
  cases hclear : db.clearByStatements env mountId includePinned with
  | mk db' outcome =>
  rw [hclear] at halone
  cases outcome with
  | none =>
    refine ⟨_, db', none, clearOne_of_error hopen hclear t n, rfl, rfl, halone, ?_, ?_⟩
    · exact fun _ => ⟨rfl, rfl⟩
    · rintro _ ⟨⟩
  | some report =>
    obtain ⟨gone, rest, t', hsplit, hfails, hmem, hrun⟩ := clearOne_of_report hopen hclear t n
    refine ⟨_, db', some report, hrun, rfl, ?_, halone, ?_, ?_⟩
    · split <;> rfl
    · rintro ⟨⟩
    rintro _ ⟨⟩
    refine ⟨(Db.report_of_clearByStatements hclear).1, gone, rest, hsplit, ?_, ?_⟩
    · rintro rfl
      refine ⟨rfl, fun x => ?_⟩
      rw [List.append_nil] at hsplit
      rw [← hsplit] at hmem
      rw [if_pos rfl, DirTree.mem_pruneEmptyDirs, hmem, and_assoc]
      refine and_congr_right fun _ => and_congr_right fun hx => not_congr ?_
      constructor
      · intro h y hy hpre
        by_cases hin : y.1 ∈ report.cachePaths
        · exact .inl hin
        · exact .inr (h y ((hmem y).2 ⟨hy, hin⟩) hpre)
      · intro h y hy hpre
        obtain ⟨hy, hin⟩ := (hmem y).1 hy
        exact (h y hy hpre).resolve_left hin
    · rintro p ps rfl
      exact ⟨rfl, hfails p ps rfl, hmem⟩

def ClearEnv.fine : ClearEnv :=
  { openFails := false, statementFails := fun _ => false, written := fun _ db => db
    unlinkFails := fun _ => false, rmdirFails := fun _ => false, readFails := fun _ => false
    metadataFails := fun _ => false }

/-- The daemon marks the cached file as written to between the first two statements. -/
def ClearEnv.racing : ClearEnv :=
  { ClearEnv.fine with
    written := fun k db => if k = 1 then (db.setStatus 2 .dirty).getD db else db }

/-- The cached file goes, and the two directories with it; its row, which was written to meanwhile,
stays as it is. -/
theorem clearOne_cachedPartial : ∃ run report,
    clearOne .racing false (some (cachedPartial, some 1)) partialTree 0 = some run ∧
      run.report = some report ∧
      (∀ x, x ∈ run.tree.nodes ↔ x ∈ partialTree.nodes ∧
        x.1 ∉ report.cachePaths ∧ ¬Emptied .racing report.cachePaths partialTree x.1) ∧
      run.index.map (fun x => (x.1.getByInode 2).map FileEntry.status) = some (some .dirty) := by
  obtain ⟨run, db', outcome, hrun, hclear, hindex, -, hnone, hdone⟩ :=
    clearOne_exact (show ClearEnv.racing.openFails = false from rfl) false cachedPartial 1
      partialTree 0
  have hreport : ((clearOne .racing false (some (cachedPartial, some 1)) partialTree 0).bind
      ClearRun.report).isSome = true := by decide
  rw [hrun, Option.bind_some] at hreport
  have hstatus : ((cachedPartial.clearByStatements .racing 1 false).1.getByInode 2).map
      FileEntry.status = some .dirty := by decide
  rw [hclear] at hstatus
  cases outcome with
  | none =>
    rw [(hnone rfl).1] at hreport
    cases hreport
  | some report =>
    obtain ⟨-, gone, rest, -, hall, hfails⟩ := hdone report rfl
    cases rest with
    | nil =>
      refine ⟨run, report, hrun, (hall rfl).1, (hall rfl).2, ?_⟩
      rw [hindex, Option.map_some, hstatus]
    | cons p ps =>
      rw [(hfails p ps rfl).1] at hreport
      cases hreport

/-- The regular files after the command are those that it has not selected, and maybe others. -/
theorem isFile_clearOne {t : DirTree root} {run : ClearRun root} {n : ℕ}
    (h : clearOne env includePinned (some (db, some mountId)) t n = some run) :
    ∃ gone : List PathBuf, (∀ p ∈ gone, ∃ r ∈ (env.written 0 db).clearable mountId includePinned,
        r.cachePath = some p) ∧
      ∀ p, run.tree.isFile p = (t.isFile p && !gone.contains p) := by
  have hkept {run' : ClearRun root} (hrun : some run' = some run) (htree : run'.tree = t) :
      ∃ gone : List PathBuf, (∀ p ∈ gone, ∃ r ∈ (env.written 0 db).clearable mountId includePinned,
        r.cachePath = some p) ∧ ∀ p, run.tree.isFile p = (t.isFile p && !gone.contains p) := by
    obtain rfl := Option.some.inj hrun
    refine ⟨[], fun p hp => absurd hp List.not_mem_nil, fun p => ?_⟩
    rw [htree, List.contains_nil, Bool.not_false, Bool.and_true]
  cases hopen : env.openFails with
  | true =>
    rw [clearOne, hopen, if_pos rfl] at h
    exact hkept h rfl
  | false =>
    cases hclear : db.clearByStatements env mountId includePinned with
    | mk db' outcome =>
    cases outcome with
    | none =>
      rw [clearOne_of_error hopen hclear] at h
      exact hkept h rfl
    | some report =>
      obtain ⟨gone, rest, t', hsplit, -, hmem, hrun⟩ := clearOne_of_report hopen hclear t n
      obtain rfl := Option.some.inj (h.symm.trans hrun)
      have hfiles : ∀ p, t'.isFile p = (t.isFile p && !gone.contains p) := by
        intro p
        rw [Bool.eq_iff_iff, Bool.and_eq_true, DirTree.isFile_iff, DirTree.isFile_iff,
          Bool.not_eq_true', Bool.eq_false_iff, ne_eq, List.contains_iff_mem]
        simp only [hmem, exists_and_right]
      refine ⟨gone, fun p hp => ?_, fun p => ?_⟩
      · have hp : p ∈ report.cachePaths := hsplit ▸ List.mem_append_left rest hp
        rw [(Db.report_of_clearByStatements hclear).1] at hp
        exact List.mem_filterMap.1 hp
      · split
        · exact (DirTree.isFile_pruneEmptyDirs _ t' p).trans (hfiles p)
        · exact hfiles p

/-- **A clear that breaks off is made good by the next start.** Whatever calls and statements of the
command fail, whatever others write in between, and whatever index the start finds, it leaves the
files it would leave had the command removed none, unless a row names one of the files the command
has selected or one of them is in the daemon's own directories. -/
theorem reconciled_of_clearOne {t : DirTree root} {run : ClearRun root} {n : ℕ}
    (h : clearOne env includePinned (some (db, some mountId)) t n = some run)
    (hout : ∀ r ∈ (env.written 0 db).clearable mountId includePinned, ∀ p ∈ r.cachePath,
      OutsideReserved root p ∧ p ∉ db'.allCachePaths mountId) :
    ∃ N, ∀ k ≥ N, ∃ t₁ stats₁ t₂ stats₂,
      run.tree.reconcileOrphans (fun _ => false) (db'.allCachePaths mountId) k = some (t₁, stats₁) ∧
      t.reconcileOrphans (fun _ => false) (db'.allCachePaths mountId) k = some (t₂, stats₂) ∧
      ∀ p, t₁.isFile p = t₂.isFile p := by
  obtain ⟨gone, hgone, hfiles⟩ := isFile_clearOne h
  obtain ⟨N₁, h₁⟩ := run.tree.reconcileOrphans_eq (fun _ => false) (db'.allCachePaths mountId)
  obtain ⟨N₂, h₂⟩ := t.reconcileOrphans_eq (fun _ => false) (db'.allCachePaths mountId)
  refine ⟨max N₁ N₂, fun k hk => ?_⟩
  obtain ⟨stats₁, h₁⟩ := h₁ k (le_trans (le_max_left N₁ N₂) hk)
  obtain ⟨stats₂, h₂⟩ := h₂ k (le_trans (le_max_right N₁ N₂) hk)
  refine ⟨_, stats₁, _, stats₂, h₁, h₂, fun p => ?_⟩
  rw [DirTree.isFile_without, DirTree.isFile_without, hfiles]
  cases hp : t.isFile p with
  | false => rfl
  | true =>
    cases hin : gone.contains p with
    | false => rfl
    | true =>
      -- the start would have removed it too
      obtain ⟨r, hr, hpath⟩ := hgone p (List.contains_iff_mem.1 hin)
      obtain ⟨hres, hrows⟩ := hout r hr p hpath
      obtain ⟨size, hmem⟩ := DirTree.isFile_iff.1 hp
      obtain ⟨hpre, hne⟩ := t.below _ hmem
      have hknown : (db'.allCachePaths mountId).contains p = false := by
        rw [Bool.eq_false_iff, ne_eq, List.contains_iff_mem]
        exact hrows
      rw [walksTo_iff.2 ⟨hpre, hne, hres⟩, hknown]
      rfl

/-- A file is cached at the top of the cache directory. -/
def cachedAtTop : Db :=
  (((Db.empty 1 0).applyRemote (reportedFile ['a'] 1 ['v'])).setCached 2 [['c'], ['a']] 1
    (some ['v']) 0 1).getD (Db.empty 1 0)

def topTree : DirTree sampleMount.cacheDir where
  nodes := [([['c'], ['a']], .file 1)]
  distinct := by decide
  below := by decide
  parents := by decide

/-- The rows are cleared, and the statement after them fails. -/
def ClearEnv.stuck : ClearEnv := { ClearEnv.fine with statementFails := fun k => k = 2 }

theorem reconciled_of_clearOne_cachedAtTop : ∃ run db',
    clearOne .stuck false (some (cachedAtTop, some 1)) topTree 0 = some run ∧
      run.index = some (db', some 1) ∧ run.report = none ∧ ∃ N, ∀ k ≥ N, ∃ t₁ stats₁ t₂ stats₂,
        run.tree.reconcileOrphans (fun _ => false) (db'.allCachePaths 1) k = some (t₁, stats₁) ∧
        topTree.reconcileOrphans (fun _ => false) (db'.allCachePaths 1) k = some (t₂, stats₂) ∧
        ∀ p, t₁.isFile p = t₂.isFile p := by
  have hsome : (cachedAtTop.clearByStatements .stuck 1 false).2 = none ∧
      (cachedAtTop.clearByStatements .stuck 1 false).1.allCachePaths 1 = [] := by decide
  cases hclear : cachedAtTop.clearByStatements .stuck 1 false with
  | mk db' outcome =>
  rw [hclear] at hsome
  obtain ⟨rfl, hrows⟩ := hsome
  have hrun := clearOne_of_error (show ClearEnv.stuck.openFails = false from rfl) hclear topTree 0
  refine ⟨_, db', hrun, rfl, rfl, reconciled_of_clearOne hrun fun r hr p hp => ?_⟩
  have hpaths :
      (cachedAtTop.clearable 1 false).filterMap FileEntry.cachePath = [[['c'], ['a']]] := by decide
  have hmem : p ∈ (cachedAtTop.clearable 1 false).filterMap FileEntry.cachePath :=
    List.mem_filterMap.2 ⟨r, hr, hp⟩
  rw [hpaths, List.mem_singleton] at hmem
  subst hmem
  rw [hrows, OutsideReserved]
  decide

end Clear

/-! ## A mount without a database -/

namespace DirTree

section Wipe

variable {root : PathBuf} {env : ClearEnv} {t : DirTree root}

theorem mem_listed {dir : PathBuf} {x : PathBuf × NodeKind} : x ∈ t.listed env dir ↔
    x ∈ t.nodes ∧ x.1.parent = some dir ∧ env.readFails dir = false ∧
      env.metadataFails x.1 = false := by
  rw [listed]
  split
  · rename_i hfails
    simp [hfails]
  · rename_i hreads
    rw [Bool.not_eq_true] at hreads
    simp [readDir, hreads, and_comm]

theorem listed_sublist {dir : PathBuf} : (t.listed env dir).Sublist t.nodes := by
  rw [listed]
  split
  · exact List.nil_sublist _
  · exact List.filter_sublist.trans List.filter_sublist

theorem mem_strayDirs {dir d : PathBuf} : d ∈ t.strayDirs env dir ↔
    (d, .dir) ∈ t.nodes ∧ d.parent = some dir ∧ env.readFails dir = false ∧
      env.metadataFails d = false := by
  simp only [strayDirs, List.mem_reverse, List.mem_map, List.mem_filter, mem_listed,
    decide_eq_true_eq]
  constructor
  · rintro ⟨⟨q, kind⟩, ⟨hmem, rfl⟩, rfl⟩
    exact hmem
  · intro hmem
    exact ⟨(d, .dir), ⟨hmem, rfl⟩, rfl⟩

/-- The walk reads directories one after the other. -/
theorem walkdir_of_visit {n : ℕ} {stack visited : List PathBuf} {out : List (PathBuf × NodeKind)}
    (h : Walks.visit (t.strayDirs env) n stack = some visited) :
    t.walkdir env n stack out = some (out ++ visited.flatMap (t.listed env)) := by
  induction n generalizing stack visited out with
  | zero =>
    cases stack with
    | nil =>
      obtain rfl := Option.some.inj h
      rw [walkdir, List.flatMap_nil, List.append_nil]
    | cons => cases h
  | succ n ih =>
    cases stack with
    | nil =>
      obtain rfl := Option.some.inj h
      rw [walkdir, List.flatMap_nil, List.append_nil]
    | cons dir stack =>
      rw [Walks.visit_cons] at h
      obtain ⟨visited, hv, rfl⟩ := Option.map_eq_some_iff.1 h
      rw [walkdir, ih hv, List.flatMap_cons, List.append_assoc]

/-- The walk can read the directory when it comes to it. -/
def walksOn (env : ClearEnv) (root d : PathBuf) : Bool :=
  !env.readFails d && (d = root || !env.metadataFails d)

/-- The walk comes to the node. -/
def seen (env : ClearEnv) (root : PathBuf) (x : PathBuf × NodeKind) : Bool :=
  !env.metadataFails x.1 &&
    x.1.dropLast.inits.all fun d => !root.isPrefixOf d || walksOn env root d

theorem walksOn_iff {d : PathBuf} : walksOn env root d = true ↔
    env.readFails d = false ∧ (d ≠ root → env.metadataFails d = false) := by
  rw [walksOn, Bool.and_eq_true, Bool.not_eq_true', Bool.or_eq_true, decide_eq_true_eq,
    Bool.not_eq_true', Decidable.or_iff_not_imp_left]

theorem seen_iff {x : PathBuf × NodeKind} : seen env root x = true ↔
    env.metadataFails x.1 = false ∧
      ∀ d, root <+: d → d <+: x.1.dropLast → walksOn env root d = true := by
  rw [seen, Bool.and_eq_true, Bool.not_eq_true', List.all_eq_true]
  refine and_congr_right fun _ => forall_congr' fun d => ?_
  rw [List.mem_inits, Bool.or_eq_true, Bool.not_eq_true', Bool.eq_false_iff, ne_eq,
    List.isPrefixOf_iff_prefix, ← Decidable.imp_iff_not_or]
  exact forall_comm

/-- The directories the walk comes to. -/
theorem reaches_stray_iff {d : PathBuf} :
    ReflTransGen (Walks.Child (t.strayDirs env)) root d ↔ (d = root ∨ (d, .dir) ∈ t.nodes) ∧
      (∀ e, root <+: e → e <+: d → e ≠ d → walksOn env root e = true) ∧
        (d ≠ root → env.metadataFails d = false) := by
  constructor
  · intro h
    induction h with
    | refl =>
      refine ⟨.inl rfl, fun e hroot hpre hne => ?_, fun hne => absurd rfl hne⟩
      exact absurd (hpre.eq_of_length_le hroot.length_le) hne
    | @tail b c _ hchild ih =>
      obtain ⟨hmem, hparent, hread, hmeta⟩ := mem_strayDirs.1 hchild
      refine ⟨.inr hmem, fun e hroot hpre hne => ?_, fun _ => hmeta⟩
      have hb := Option.some.inj ((parent_of_mem hmem).symm.trans hparent)
      have hne' : c ≠ [] := by
        rintro rfl
        cases hparent
      rw [← List.dropLast_append_getLast hne', List.prefix_concat_iff,
        List.dropLast_append_getLast hne'] at hpre
      have hpre : e <+: b := hb ▸ hpre.resolve_left hne
      by_cases he : e = b
      · subst he
        exact walksOn_iff.2 ⟨hread, ih.2.2⟩
      · exact ih.2.1 e hroot hpre he
  · rintro ⟨hdir, hwalks, hmeta⟩
    induction d using List.reverseRecOn with
    | nil =>
      obtain rfl | hmem := hdir
      · exact .refl
      · have := parent_of_mem hmem
        cases this
    | append_singleton e c ih =>
      obtain rfl | hmem := hdir
      · exact .refl
      · have hparent := parent_of_mem hmem
        have hup := t.parents _ hmem
        rw [List.dropLast_concat] at hparent hup
        have hroot : root <+: e := by
          obtain rfl | hup := hup
          · exact List.prefix_rfl
          · exact (t.below _ hup).1
        have hne : e ≠ e ++ [c] := by simp
        obtain ⟨hread, hmeta'⟩ := walksOn_iff.1 (hwalks e hroot (List.prefix_append e [c]) hne)
        have hreach := ih hup (fun e' hroot' hpre hne' => hwalks e' hroot'
          (hpre.trans (List.prefix_append e [c])) fun heq => ?_) hmeta'
        · refine hreach.tail (mem_strayDirs.2 ⟨hmem, hparent, hread, hmeta ?_⟩)
          exact (t.below _ hmem).2
        · have hlen := (heq ▸ hpre).length_le
          rw [List.length_append, List.length_singleton] at hlen
          omega

/-- **The entries the walk collects**: each node it comes to, once. -/
theorem walkdir_spec (env : ClearEnv) (t : DirTree root) : ∃ n, ∀ k ≥ n, ∃ entries,
    t.walkdir env k [root] [] = some entries ∧
      entries.Perm (t.nodes.filter fun x => seen env root x) := by
  have hwf := t.wellFounded_of_parents fun {a b} (h : b ∈ t.strayDirs env a) =>
    (mem_strayDirs.1 h).imp id And.left
  obtain ⟨n, visited, hvisit⟩ := Walks.exists_visit hwf [root]
  refine ⟨n, fun k hk => ⟨_, walkdir_of_visit (Walks.visit_mono hk hvisit), ?_⟩⟩
  have hnodes : t.nodes.Nodup := t.distinct.of_map _
  have hvisited : visited.Nodup := by
    refine Walks.nodup_visit hwf (fun dir => ?_) (fun a a' b h h' => ?_) ?_ hvisit
    · rw [strayDirs, List.nodup_reverse]
      exact t.distinct.sublist ((List.filter_sublist.trans listed_sublist).map Prod.fst)
    · exact Option.some.inj ((mem_strayDirs.1 h).2.1.symm.trans (mem_strayDirs.1 h').2.1)
    · refine ⟨List.nodup_singleton root, fun a ha b hb _ => ?_⟩
      rw [List.mem_singleton.1 ha, List.mem_singleton.1 hb]
  have hreach : ∀ d, d ∈ visited ↔ ReflTransGen (Walks.Child (t.strayDirs env)) root d := by
    intro d
    rw [Walks.mem_visit hvisit]
    simp only [List.mem_singleton, exists_eq_left]
  rw [List.nil_append]
  refine (List.perm_ext_iff_of_nodup ?_ (hnodes.filter _)).2 fun x => ?_
  · refine List.nodup_flatMap.2 ⟨fun dir _ => hnodes.sublist listed_sublist,
      hvisited.imp fun hne x hx hx' => hne ?_⟩
    exact Option.some.inj ((mem_listed.1 hx).2.1.symm.trans (mem_listed.1 hx').2.1)
  · rw [List.mem_flatMap, List.mem_filter, seen_iff]
    constructor
    · rintro ⟨d, hd, hx⟩
      obtain ⟨hmem, hparent, hread, hmeta⟩ := mem_listed.1 hx
      obtain rfl := Option.some.inj ((parent_of_mem hmem).symm.trans hparent)
      obtain ⟨-, hwalks, hmeta'⟩ := reaches_stray_iff.1 ((hreach _).1 hd)
      refine ⟨hmem, hmeta, fun e hroot hpre => ?_⟩
      by_cases he : e = x.1.dropLast
      · exact walksOn_iff.2 ⟨he ▸ hread, fun hne => he ▸ hmeta' (he ▸ hne)⟩
      · exact hwalks e hroot hpre he
    · rintro ⟨hmem, hmeta, hwalks⟩
      have hup := t.parents x hmem
      have hroot : root <+: x.1.dropLast := by
        obtain hup | hup := hup
        · exact hup ▸ List.prefix_rfl
        · exact (t.below _ hup).1
      obtain ⟨hread, hmeta'⟩ := walksOn_iff.1 (hwalks _ hroot List.prefix_rfl)
      refine ⟨x.1.dropLast, (hreach _).2 (reaches_stray_iff.2 ⟨hup, fun e he hpre _ =>
        hwalks e he hpre, hmeta'⟩), mem_listed.2 ⟨hmem, parent_of_mem hmem, hread, hmeta⟩⟩

/-- The bytes of the regular files among the entries. -/
def fileBytes (entries : List (PathBuf × NodeKind)) : ℕ :=
  (entries.map fun x => match x.2 with
    | .file size => size
    | _ => 0).sum

variable (env) in
theorem foldl_wipeStray (entries : List (PathBuf × NodeKind)) (bytes : ℕ) (t : DirTree root) :
    entries.foldl (wipeStray env) (bytes, t) = (bytes + fileBytes entries,
      t.without fun p => listsFile entries p && !env.unlinkFails p) := by
  induction entries generalizing bytes t with
  | nil => exact congrArg (Prod.mk bytes) (without_eq_self fun _ => rfl).symm
  | cons x entries ih =>
    obtain ⟨path, kind⟩ := x
    have hcons : ∀ p, listsFile ((path, kind) :: entries) p =
        (decide (path = p) && kind.isFile || listsFile entries p) := fun _ => rfl
    rw [List.foldl_cons]
    cases kind with
    | dir | other =>
      rw [wipeStray, ih]
      · simp [hcons, NodeKind.isFile, fileBytes]
      · intro path size h
        cases h
    | file size =>
      rw [wipeStray, ih]
      rw [Prod.mk.injEq]
      constructor
      · simp [fileBytes, Nat.add_assoc]
      · dsimp only
        cases hfails : env.unlinkFails path with
        | true =>
          rw [if_pos rfl]
          refine without_congr fun y _ _ => ?_
          rw [hcons]
          by_cases hp : path = y.1
          · simp [← hp, hfails]
          · simp [hp]
        | false =>
          rw [if_neg Bool.false_ne_true, removeFile, without_without]
          refine without_congr fun y _ _ => ?_
          rw [hcons]
          by_cases hp : path = y.1
          · simp [← hp, hfails, NodeKind.isFile]
          · simp [hp, Ne.symm hp]

/-- The files that are wiped, and the bytes that are counted. -/
theorem wipeCacheDir_spec (env : ClearEnv) (t : DirTree root) : ∃ n, ∀ k ≥ n, ∃ t',
    t.wipeCacheDir env k = some (fileBytes (t.nodes.filter (seen env root)), t') ∧
      ∀ x, x ∈ t'.nodes ↔ x ∈ t.nodes ∧
        ¬(x.2.isFile = true ∧ seen env root x = true ∧ env.unlinkFails x.1 = false) := by
  obtain ⟨n, hn⟩ := walkdir_spec env t
  refine ⟨n, fun k hk => ?_⟩
  obtain ⟨entries, hwalk, hperm⟩ := hn k hk
  have hbytes : fileBytes entries = fileBytes (t.nodes.filter (seen env root)) :=
    (hperm.map _).sum_nat
  refine ⟨t.without fun p => listsFile entries p && !env.unlinkFails p, ?_, fun x => ?_⟩
  · rw [wipeCacheDir, hwalk, Option.map_some, foldl_wipeStray, Nat.zero_add, hbytes]
  · simp only [without, List.mem_filter, Bool.not_eq_true', Bool.and_eq_false_iff]
    refine and_congr_right fun hx => ?_
    have hlists : x.2.isFile = true → (listsFile entries x.1 = true ↔ seen env root x = true) := by
      intro hfile
      rw [listsFile, List.any_eq_true]
      constructor
      · rintro ⟨y, hy, heq⟩
        obtain ⟨hy, hseen⟩ := List.mem_filter.1 (hperm.mem_iff.1 hy)
        rw [Bool.and_eq_true, decide_eq_true_eq] at heq
        exact eq_of_path hy hx heq.1 ▸ hseen
      · intro hseen
        exact ⟨x, hperm.mem_iff.2 (List.mem_filter.2 ⟨hx, hseen⟩), by simp [hfile]⟩
    cases hfile : x.2.isFile with
    | false => simp
    | true =>
      have hlists := hlists hfile
      rw [← hlists]
      cases listsFile entries x.1 <;> cases env.unlinkFails x.1 <;> simp

end Wipe

end DirTree

/-- **A mount without a database is left without files.** The command ends, and removes every file
it comes to and can remove, but no directory; it reports the bytes of all the files it comes to. -/
theorem clearOne_of_noDatabase {root : PathBuf} (env : ClearEnv) (includePinned : Bool)
    (t : DirTree root) : ∃ n, ∀ k ≥ n, ∃ t',
      clearOne env includePinned none t k = some
        ⟨none, t', some ⟨0, DirTree.fileBytes (t.nodes.filter (DirTree.seen env root)), []⟩⟩ ∧
      ∀ x, x ∈ t'.nodes ↔ x ∈ t.nodes ∧
        ¬(x.2.isFile = true ∧ DirTree.seen env root x = true ∧ env.unlinkFails x.1 = false) := by
  obtain ⟨n, hn⟩ := DirTree.wipeCacheDir_spec env t
  refine ⟨n, fun k hk => ?_⟩
  obtain ⟨t', hwipe, hmem⟩ := hn k hk
  exact ⟨t', by rw [clearOne, hwipe, Option.map_some], hmem⟩

end Stratosync

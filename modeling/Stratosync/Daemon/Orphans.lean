import Stratosync.Cache.Confined
import Stratosync.Daemon.Restart
import Stratosync.Foundations.Walks

/-!
# Orphans of the cache directory

`reconcile_orphans` on a directory tree: a walk with a stack that removes the files no row of the
mount names, and the removal of what is in the directory for downloads. It ends, and removes what
the start-up is said to remove (`reconcileOrphans_eq`). `removesOrphans_iff` says when no file with
a row is among it: a remote may have a directory with the name of the one for downloads.
-/

namespace Stratosync

open Foundations Relation

/-! ## The daemon's own directories -/

section Reserved

variable {root p d : PathBuf}

theorem isReservedSubdir_iff :
    isReservedSubdir d root = true ↔ ∃ name ∈ reservedNames, d = root ++ [name] := by
  rw [isReservedSubdir, Bool.and_eq_true, Bool.or_eq_true, decide_eq_true_eq, decide_eq_true_eq,
    decide_eq_true_eq, PathBuf.parent]
  constructor
  · rintro ⟨hparent, hlast⟩
    split at hparent
    · cases hparent
    · obtain rfl := Option.some.inj hparent
      obtain hlast | hlast := hlast
      · exact ⟨_, by simp [reservedNames], (List.dropLast_append_getLast? _ hlast).symm⟩
      · exact ⟨_, by simp [reservedNames], (List.dropLast_append_getLast? _ hlast).symm⟩
  · rintro ⟨name, hname, rfl⟩
    rw [if_neg (by simp), List.dropLast_concat, List.getLast?_concat]
    simp only [reservedNames, List.mem_cons, List.not_mem_nil, or_false] at hname
    obtain rfl | rfl := hname
    · exact ⟨rfl, .inr rfl⟩
    · exact ⟨rfl, .inl rfl⟩

/-- The path is in none of the daemon's own directories. -/
def OutsideReserved (root p : PathBuf) : Prop :=
  ∀ name ∈ reservedNames, ¬root ++ [name] <+: p.dropLast

theorem walksTo_iff : walksTo root p = true ↔ root <+: p ∧ p ≠ root ∧ OutsideReserved root p := by
  rw [walksTo, Bool.and_eq_true, Bool.and_eq_true, List.isPrefixOf_iff_prefix, decide_eq_true_eq,
    List.all_eq_true, and_assoc]
  refine and_congr_right fun _ => and_congr_right fun _ => ?_
  constructor
  · intro h name hname hpre
    have hres := h _ (List.mem_inits _ _ |>.2 hpre)
    rw [isReservedSubdir_iff.2 ⟨name, hname, rfl⟩] at hres
    cases hres
  · intro h d hd
    rw [Bool.not_eq_true', Bool.eq_false_iff]
    intro hres
    obtain ⟨name, hname, rfl⟩ := isReservedSubdir_iff.1 hres
    exact h name hname ((List.mem_inits _ _).1 hd)

end Reserved

/-! ## Directory trees -/

/-- What is at a path: a regular file with its size, a directory, or a fifo or socket. The daemon
makes no links in its cache directory. -/
inductive NodeKind
  | file (size : ℕ)
  | dir
  | other
  deriving DecidableEq, Repr

def NodeKind.isFile : NodeKind → Bool
  | .file _ => true
  | _ => false

/-- A directory and what is below it: each path once, and each in a directory. -/
@[ext]
structure DirTree (root : PathBuf) where
  nodes : List (PathBuf × NodeKind)
  distinct : (nodes.map Prod.fst).Nodup
  below : ∀ x ∈ nodes, root <+: x.1 ∧ x.1 ≠ root
  parents : ∀ x ∈ nodes, x.1.dropLast = root ∨ (x.1.dropLast, .dir) ∈ nodes

namespace DirTree

variable {root : PathBuf} (t : DirTree root)

/-- `read_dir`, in any order. -/
def readDir (dir : PathBuf) : List (PathBuf × NodeKind) :=
  t.nodes.filter fun x => x.1.parent = some dir

/-- A regular file is at the path. -/
def isFile (p : PathBuf) : Bool := t.nodes.any fun x => x.1 = p && x.2.isFile

/-- The tree without the regular files at these paths. -/
def without (gone : PathBuf → Bool) : DirTree root where
  nodes := t.nodes.filter fun x => !(x.2.isFile && gone x.1)
  distinct := t.distinct.sublist (List.filter_sublist.map Prod.fst)
  below x hx := t.below x (List.mem_filter.1 hx).1
  parents x hx := by
    obtain h | h := t.parents x (List.mem_filter.1 hx).1
    · exact .inl h
    · exact .inr (List.mem_filter.2 ⟨h, rfl⟩)

def removeFile (p : PathBuf) : DirTree root := t.without fun q => q = p

end DirTree

/-! ## The reconciler -/

structure ReconcileStats where
  filesExamined : ℕ
  orphansRemoved : ℕ
  partialsWiped : ℕ
  bytesFreed : ℕ
  removeErrors : ℕ
  deriving DecidableEq, Repr

/-- Where a `walk_and_remove_orphans` is: the tree, the directories it is to read, the last one
first, and its counts. -/
structure OrphanWalk (root : PathBuf) where
  tree : DirTree root
  stack : List PathBuf
  stats : ReconcileStats

namespace DirTree

variable {root : PathBuf}

section

variable (stays : PathBuf → Bool) (known : List PathBuf)

/-- What the walk does with an entry of a directory. -/
def walkEntry (w : OrphanWalk root) : PathBuf × NodeKind → OrphanWalk root
  | (path, .dir) =>
    if isReservedSubdir path root then w else { w with stack := path :: w.stack }
  | (_, .other) => w
  | (path, .file size) =>
    let stats := { w.stats with filesExamined := w.stats.filesExamined + 1 }
    if known.contains path then { w with stats }
    else if stays path then
      { w with stats := { stats with removeErrors := stats.removeErrors + 1 } }
    else
      { w with
        tree := w.tree.removeFile path
        stats := { stats with
          orphansRemoved := stats.orphansRemoved + 1, bytesFreed := stats.bytesFreed + size } }

/-- `walk_and_remove_orphans`, with `n` rounds at most. -/
def walkAndRemoveOrphans : ℕ → OrphanWalk root → Option (OrphanWalk root)
  | n, w =>
    match w.stack, n with
    | [], _ => some w
    | _ :: _, 0 => none
    | dir :: stack, n + 1 =>
      walkAndRemoveOrphans n ((w.tree.readDir dir).foldl (walkEntry stays known) { w with stack })

/-- What `wipe_partial_hydrations` does with an entry. -/
def wipeEntry (x : DirTree root × ReconcileStats) :
    PathBuf × NodeKind → DirTree root × ReconcileStats
  | (path, .file size) =>
    if stays path then (x.1, { x.2 with removeErrors := x.2.removeErrors + 1 })
    else (x.1.removeFile path, { x.2 with
      partialsWiped := x.2.partialsWiped + 1, bytesFreed := x.2.bytesFreed + size })
  | _ => x

def wipePartialHydrations (x : DirTree root × ReconcileStats) : DirTree root × ReconcileStats :=
  (x.1.readDir (root ++ [".meta".toList, "partial".toList])).foldl (wipeEntry stays) x

/-- `reconcile_orphans`, with the paths the rows of the mount name and at most `n` rounds. -/
def reconcileOrphans (t : DirTree root) (n : ℕ) : Option (DirTree root × ReconcileStats) :=
  (walkAndRemoveOrphans stays known n ⟨t, [root], ⟨0, 0, 0, 0, 0⟩⟩).map fun w =>
    wipePartialHydrations stays (w.tree, w.stats)

end

/-! ## Trees without some files -/

variable {t : DirTree root} {gone gone' : PathBuf → Bool} {p dir : PathBuf}

theorem isFile_iff : t.isFile p = true ↔ ∃ size, (p, .file size) ∈ t.nodes := by
  simp only [isFile, List.any_eq_true, Bool.and_eq_true, decide_eq_true_eq]
  constructor
  · rintro ⟨⟨q, kind⟩, hmem, rfl, hkind⟩
    cases kind with
    | file size => exact ⟨size, hmem⟩
    | dir | other => cases hkind
  · rintro ⟨size, hmem⟩
    exact ⟨(p, .file size), hmem, rfl, rfl⟩

theorem isFile_without : (t.without gone).isFile p = (t.isFile p && !gone p) := by
  rw [Bool.eq_iff_iff, Bool.and_eq_true, isFile_iff, isFile_iff]
  simp [without, NodeKind.isFile]

theorem without_congr
    (h : ∀ x ∈ t.nodes, x.2.isFile = true → gone x.1 = gone' x.1) :
    t.without gone = t.without gone' := by
  ext1
  refine List.filter_congr fun x hx => ?_
  cases hfile : x.2.isFile with
  | false => rfl
  | true => rw [h x hx hfile]

theorem without_without (t : DirTree root) (gone gone' : PathBuf → Bool) :
    (t.without gone).without gone' = t.without fun q => gone q || gone' q := by
  ext1
  refine (List.filter_filter ..).trans (List.filter_congr fun x _ => ?_)
  dsimp only
  cases x.2.isFile <;> cases gone x.1 <;> cases gone' x.1 <;> rfl

theorem without_eq_self (h : ∀ q, gone q = false) : t.without gone = t := by
  ext1
  refine List.filter_eq_self.2 fun x _ => ?_
  rw [h, Bool.and_false, Bool.not_false]

/-- The directories the walk puts on its stack when it has read `dir`. -/
def subdirs (t : DirTree root) (dir : PathBuf) : List PathBuf :=
  (((t.readDir dir).filter fun x => x.2 = .dir && !isReservedSubdir x.1 root).map Prod.fst).reverse

theorem mem_subdirs {d : PathBuf} : d ∈ t.subdirs dir ↔
    (d, .dir) ∈ t.nodes ∧ d.parent = some dir ∧ isReservedSubdir d root = false := by
  simp only [subdirs, readDir, List.mem_reverse, List.mem_map, List.mem_filter, Bool.and_eq_true,
    decide_eq_true_eq, Bool.not_eq_true']
  constructor
  · rintro ⟨⟨q, kind⟩, ⟨⟨hmem, hparent⟩, rfl, hres⟩, rfl⟩
    exact ⟨hmem, hparent, hres⟩
  · rintro ⟨hmem, hparent, hres⟩
    exact ⟨(d, .dir), ⟨⟨hmem, hparent⟩, rfl, hres⟩, rfl⟩

/-- The directories stay when files are removed. -/
theorem subdirs_without : (t.without gone).subdirs = t.subdirs := by
  funext dir
  rw [subdirs, subdirs, readDir, readDir, without, List.filter_filter, List.filter_filter,
    List.filter_filter]
  congr 2
  refine List.filter_congr fun x _ => ?_
  cases x.2 <;> simp [NodeKind.isFile]

/-! ## What the walk removes -/

section Walk

variable {stays : PathBuf → Bool} {known : List PathBuf}

/-- A regular file is among the entries. -/
def listsFile (es : List (PathBuf × NodeKind)) (p : PathBuf) : Bool :=
  es.any fun x => x.1 = p && x.2.isFile

theorem listsFile_readDir {x : PathBuf × NodeKind} (hx : x ∈ t.nodes) (hfile : x.2.isFile = true) :
    listsFile (t.readDir dir) x.1 = decide (x.1.parent = some dir) := by
  rw [Bool.eq_iff_iff, decide_eq_true_eq, listsFile, List.any_eq_true]
  constructor
  · rintro ⟨y, hy, heq⟩
    rw [Bool.and_eq_true, decide_eq_true_eq] at heq
    exact heq.1 ▸ of_decide_eq_true (List.mem_filter.1 hy).2
  · intro hparent
    exact ⟨x, List.mem_filter.2 ⟨hx, decide_eq_true hparent⟩, by simp [hfile]⟩

/-- What is removed for these entries. -/
def orphans (stays : PathBuf → Bool) (known : List PathBuf) (es : List (PathBuf × NodeKind))
    (p : PathBuf) : Bool :=
  listsFile es p && !known.contains p && !stays p

theorem orphans_cons {e : PathBuf × NodeKind} {es : List (PathBuf × NodeKind)} :
    orphans stays known (e :: es) p = (orphans stays known [e] p || orphans stays known es p) := by
  simp only [orphans, listsFile, List.any_cons, List.any_nil, Bool.or_false]
  cases decide (e.1 = p) && e.2.isFile <;> cases known.contains p <;> cases stays p <;> simp

theorem orphans_file {path q : PathBuf} {size : ℕ} : orphans stays known [(path, .file size)] q =
    (decide (path = q) && !(known.contains path || stays path)) := by
  simp only [orphans, listsFile, NodeKind.isFile, List.any_cons, List.any_nil, Bool.or_false,
    Bool.and_true]
  by_cases hq : path = q
  · simp [hq]
  · simp [hq]

/-- Nothing is removed for an entry that is no regular file. -/
theorem orphans_of_not_file {path : PathBuf} {kind : NodeKind} (h : kind.isFile = false) :
    t.without (orphans stays known [(path, kind)]) = t :=
  without_eq_self fun q => by simp [orphans, listsFile, h]

variable (stays known) in
theorem walkEntry_eq (w : OrphanWalk root) (e : PathBuf × NodeKind) :
    ∃ stats, walkEntry stays known w e =
      ⟨w.tree.without (orphans stays known [e]),
        (([e].filter fun x => x.2 = .dir && !isReservedSubdir x.1 root).map Prod.fst).reverse ++
          w.stack, stats⟩ := by
  obtain ⟨path, kind⟩ := e
  cases kind with
  | dir =>
    refine ⟨w.stats, ?_⟩
    rw [orphans_of_not_file rfl, walkEntry]
    cases hres : isReservedSubdir path root <;> simp [hres]
  | other =>
    refine ⟨w.stats, ?_⟩
    rw [orphans_of_not_file rfl, walkEntry]
    simp
  | file size =>
    rw [walkEntry]
    cases hkeep : known.contains path || stays path with
    | true =>
      have hsame : w.tree.without (orphans stays known [(path, .file size)]) = w.tree := by
        refine without_eq_self fun q => ?_
        rw [orphans_file, hkeep, Bool.not_true, Bool.and_false]
      rw [hsame]
      rw [Bool.or_eq_true] at hkeep
      by_cases hknown : known.contains path = true
      · rw [if_pos hknown]
        exact ⟨_, rfl⟩
      · rw [if_neg hknown, if_pos (hkeep.resolve_left hknown)]
        exact ⟨_, rfl⟩
    | false =>
      have hgone : w.tree.without (orphans stays known [(path, .file size)]) =
          w.tree.removeFile path := by
        refine without_congr fun x _ _ => ?_
        rw [orphans_file, hkeep, Bool.not_false, Bool.and_true]
        exact decide_eq_decide.2 eq_comm
      rw [Bool.or_eq_false_iff] at hkeep
      rw [hgone, hkeep.1, hkeep.2]
      exact ⟨_, rfl⟩

variable (stays known) in
/-- The entries of a directory, one after the other. -/
theorem foldl_walkEntry (es : List (PathBuf × NodeKind)) (w : OrphanWalk root) :
    ∃ stats, es.foldl (walkEntry stays known) w =
      ⟨w.tree.without (orphans stays known es),
        ((es.filter fun x => x.2 = .dir && !isReservedSubdir x.1 root).map Prod.fst).reverse ++
          w.stack, stats⟩ := by
  induction es generalizing w with
  | nil =>
    have hsame : w.tree.without (orphans stays known []) = w.tree := without_eq_self fun _ => rfl
    rw [hsame]
    exact ⟨w.stats, rfl⟩
  | cons e es ih =>
    obtain ⟨stats, he⟩ := walkEntry_eq stays known w e
    obtain ⟨stats', hrest⟩ := ih (walkEntry stays known w e)
    refine ⟨stats', ?_⟩
    rw [List.foldl_cons, hrest, he]
    dsimp only
    rw [without_without, ← List.append_assoc, ← List.reverse_append, ← List.map_append,
      ← List.filter_append, List.singleton_append]
    congr 2
    funext q
    exact orphans_cons.symm

theorem walk_nil {n : ℕ} {stats : ReconcileStats} :
    walkAndRemoveOrphans stays known n ⟨t, [], stats⟩ = some ⟨t, [], stats⟩ := by
  cases n <;> rfl

theorem walk_cons {n : ℕ} {stack : List PathBuf} {stats : ReconcileStats} :
    walkAndRemoveOrphans stays known (n + 1) ⟨t, dir :: stack, stats⟩ =
      walkAndRemoveOrphans stays known n
        ((t.readDir dir).foldl (walkEntry stays known) ⟨t, stack, stats⟩) :=
  rfl

/-- The files the walk removes when it reads these directories. -/
def orphansIn (stays : PathBuf → Bool) (known : List PathBuf) (dirs : List PathBuf)
    (p : PathBuf) : Bool :=
  dirs.any (fun d => p.parent = some d) && !known.contains p && !stays p

variable (stays known) in
/-- **The walk removes the orphans in the directories it reads**, which are those of a walk over
the tree as it was. -/
theorem walk_of_visit {n : ℕ} {w : OrphanWalk root} {visited : List PathBuf}
    (h : Walks.visit w.tree.subdirs n w.stack = some visited) :
    ∃ stats, walkAndRemoveOrphans stays known n w =
      some ⟨w.tree.without (orphansIn stays known visited), [], stats⟩ := by
  induction n generalizing w visited with
  | zero =>
    obtain ⟨t, stack, stats⟩ := w
    cases stack with
    | nil =>
      obtain rfl := Option.some.inj h
      have hsame : t.without (orphansIn stays known []) = t := without_eq_self fun _ => rfl
      exact ⟨stats, by rw [walk_nil, hsame]⟩
    | cons => cases h
  | succ n ih =>
    obtain ⟨t, stack, stats⟩ := w
    cases stack with
    | nil =>
      obtain rfl := Option.some.inj h
      have hsame : t.without (orphansIn stays known []) = t := without_eq_self fun _ => rfl
      exact ⟨stats, by rw [walk_nil, hsame]⟩
    | cons dir stack =>
      rw [Walks.visit_cons] at h
      obtain ⟨visited, hv, rfl⟩ := Option.map_eq_some_iff.1 h
      obtain ⟨stats₁, hread⟩ := foldl_walkEntry stays known (t.readDir dir)
        ⟨t, stack, stats⟩
      obtain ⟨stats₂, hrest⟩ := ih (w := ⟨t.without (orphans stays known (t.readDir dir)),
        t.subdirs dir ++ stack, stats₁⟩) (by rw [subdirs_without]; exact hv)
      have hboth : (t.without (orphans stays known (t.readDir dir))).without
          (orphansIn stays known visited) = t.without (orphansIn stays known (dir :: visited)) := by
        rw [without_without]
        refine without_congr fun x hx hfile => ?_
        rw [orphans, orphansIn, orphansIn, listsFile_readDir hx hfile, List.any_cons]
        cases decide (x.1.parent = some dir) <;> cases known.contains x.1 <;> cases stays x.1 <;>
          simp
      refine ⟨stats₂, ?_⟩
      rw [walk_cons, hread, ← hboth]
      exact hrest

/-- Directories end somewhere. -/
theorem wellFounded_of_parents (t : DirTree root) {children : PathBuf → List PathBuf}
    (h : ∀ {a b}, b ∈ children a → (b, .dir) ∈ t.nodes ∧ b.parent = some a) :
    WellFounded fun b a => Walks.Child children a b := by
  refine Subrelation.wf (r := InvImage (· < ·) fun d : PathBuf =>
    (t.nodes.map fun x => x.1.length).foldl max 0 + 1 - d.length) ?_ (InvImage.wf _ wellFounded_lt)
  intro b a hchild
  obtain ⟨hmem, hparent⟩ := h hchild
  have hle : b.length ≤ (t.nodes.map fun x => x.1.length).foldl max 0 :=
    Db.le_foldl_max_of_mem (List.mem_map_of_mem (f := fun x => x.1.length) hmem) 0
  have hlen : b.length = a.length + 1 := by
    rw [PathBuf.parent] at hparent
    split at hparent
    · cases hparent
    · rename_i hne
      obtain rfl := Option.some.inj hparent
      rw [List.length_dropLast]
      have := List.length_pos_of_ne_nil hne
      omega
  change _ - b.length < _ - a.length
  omega

theorem wellFounded_child (t : DirTree root) :
    WellFounded fun b a => Walks.Child t.subdirs a b :=
  t.wellFounded_of_parents fun h => (mem_subdirs.1 h).imp id And.left

end Walk

/-! ## What the walk comes to -/

theorem parent_of_mem {x : PathBuf × NodeKind} (hx : x ∈ t.nodes) :
    x.1.parent = some x.1.dropLast := by
  rw [PathBuf.parent, if_neg]
  intro hnil
  obtain ⟨hpre, hne⟩ := t.below x hx
  rw [hnil] at hpre hne
  exact hne (List.prefix_nil.1 hpre).symm

/-- **The directories the walk comes to**: those that are not at or below one of the daemon's
own. -/
theorem reaches_iff {d : PathBuf} : ReflTransGen (Walks.Child t.subdirs) root d ↔
    (d = root ∨ (d, .dir) ∈ t.nodes) ∧ ∀ name ∈ reservedNames, ¬root ++ [name] <+: d := by
  constructor
  · intro h
    induction h with
    | refl =>
      refine ⟨.inl rfl, fun name _ hpre => ?_⟩
      have hlen := hpre.length_le
      rw [List.length_append, List.length_singleton] at hlen
      omega
    | @tail b c _ hchild ih =>
      obtain ⟨hmem, hparent, hres⟩ := mem_subdirs.1 hchild
      refine ⟨.inr hmem, fun name hname hpre => ?_⟩
      have hb := Option.some.inj ((parent_of_mem hmem).symm.trans hparent)
      have hne : c ≠ [] := by
        rintro rfl
        cases hparent
      rw [← List.dropLast_append_getLast hne, List.prefix_concat_iff,
        List.dropLast_append_getLast hne] at hpre
      obtain rfl | hpre := hpre
      · rw [isReservedSubdir_iff.2 ⟨name, hname, rfl⟩] at hres
        cases hres
      · exact ih.2 name hname (hb ▸ hpre)
  · rintro ⟨hdir, hout⟩
    induction d using List.reverseRecOn with
    | nil =>
      obtain rfl | hmem := hdir
      · exact .refl
      · have := parent_of_mem hmem
        cases this
    | append_singleton e c ih =>
      obtain rfl | hmem := hdir
      · exact .refl
      · have hparent := parent_of_mem hmem
        have hup := t.parents _ hmem
        rw [List.dropLast_concat] at hparent hup
        have hreach := ih hup fun name hname hpre =>
          hout name hname (hpre.trans (List.prefix_append e [c]))
        refine hreach.tail (mem_subdirs.2 ⟨hmem, hparent, ?_⟩)
        rw [Bool.eq_false_iff]
        intro hres
        obtain ⟨name, hname, heq⟩ := isReservedSubdir_iff.1 hres
        exact hout name hname (heq ▸ List.prefix_rfl)

/-- The walk reads the directory of a regular file exactly when it comes to the file. -/
theorem visited_iff {n : ℕ} {visited : List PathBuf}
    (h : Walks.visit t.subdirs n [root] = some visited) {x : PathBuf × NodeKind}
    (hx : x ∈ t.nodes) :
    (visited.any fun d => x.1.parent = some d) = walksTo root x.1 := by
  rw [Bool.eq_iff_iff, List.any_eq_true, walksTo_iff, parent_of_mem hx]
  obtain ⟨hpre, hne⟩ := t.below x hx
  constructor
  · rintro ⟨d, hd, heq⟩
    obtain rfl := Option.some.inj (of_decide_eq_true heq)
    obtain ⟨a, ha, hreach⟩ := (Walks.mem_visit h).1 hd
    obtain rfl := List.mem_singleton.1 ha
    exact ⟨hpre, hne, (reaches_iff.1 hreach).2⟩
  · rintro ⟨-, -, hout⟩
    refine ⟨x.1.dropLast, (Walks.mem_visit h).2 ⟨root, List.mem_singleton_self _, ?_⟩,
      decide_eq_true rfl⟩
    exact reaches_iff.2 ⟨t.parents x hx, hout⟩

/-! ## What the reconciler removes -/

section Reconcile

variable (stays : PathBuf → Bool) (known : List PathBuf)

theorem foldl_wipeEntry (es : List (PathBuf × NodeKind)) (x : DirTree root × ReconcileStats) :
    ∃ stats, es.foldl (wipeEntry stays) x =
      (x.1.without fun p => listsFile es p && !stays p, stats) := by
  induction es generalizing x with
  | nil =>
    have hsame : (x.1.without fun p => listsFile [] p && !stays p) = x.1 :=
      without_eq_self fun _ => rfl
    exact ⟨x.2, by rw [hsame]; rfl⟩
  | cons e es ih =>
    obtain ⟨path, kind⟩ := e
    obtain ⟨stats, hrest⟩ := ih (wipeEntry stays x (path, kind))
    refine ⟨stats, hrest.trans ?_⟩
    have hone : (wipeEntry stays x (path, kind)).1 =
        x.1.without fun p => (path = p && kind.isFile) && !stays p := by
      cases kind with
      | dir | other => exact (without_eq_self fun p => by simp [NodeKind.isFile]).symm
      | file size =>
        rw [wipeEntry]
        cases hstays : stays path with
        | true =>
          refine (without_eq_self fun p => ?_).symm
          by_cases hp : path = p
          · rw [← hp, hstays, Bool.not_true, Bool.and_false]
          · simp [hp]
        | false =>
          change x.1.removeFile path = _
          refine without_congr fun y _ _ => ?_
          by_cases hp : path = y.1
          · simp [← hp, hstays, NodeKind.isFile]
          · simp [hp, Ne.symm hp]
    rw [hone, without_without]
    congr 2
    funext p
    have hcons : listsFile ((path, kind) :: es) p =
        (decide (path = p) && kind.isFile || listsFile es p) := rfl
    rw [hcons]
    cases decide (path = p) && kind.isFile <;> cases stays p <;> simp

/-- **The reconciler ends, and removes the orphans it comes to and what is left of downloads.** -/
theorem reconcileOrphans_eq (t : DirTree root) : ∃ n, ∀ k ≥ n, ∃ stats,
    t.reconcileOrphans stays known k = some (t.without fun p =>
      ((walksTo root p && !known.contains p) || isPartial root p) && !stays p, stats) := by
  obtain ⟨n, visited, hvisit⟩ := Walks.exists_visit t.wellFounded_child [root]
  refine ⟨n, fun k hk => ?_⟩
  have hvisit := Walks.visit_mono hk hvisit
  obtain ⟨stats, hwalk⟩ := walk_of_visit stays known
    (w := ⟨t, [root], ⟨0, 0, 0, 0, 0⟩⟩) hvisit
  obtain ⟨stats', hwipe⟩ := foldl_wipeEntry stays
    ((t.without (orphansIn stays known visited)).readDir
      (root ++ [".meta".toList, "partial".toList]))
    (t.without (orphansIn stays known visited), stats)
  refine ⟨stats', ?_⟩
  rw [reconcileOrphans, hwalk, Option.map_some, wipePartialHydrations, hwipe, without_without]
  congr 2
  refine without_congr fun x hx hfile => ?_
  rw [orphansIn, visited_iff hvisit hx]
  cases hgone : orphansIn stays known visited x.1 with
  | true =>
    rw [orphansIn, visited_iff hvisit hx, Bool.and_eq_true] at hgone
    rw [hgone.1, hgone.2]
    rfl
  | false =>
    have hleft : x ∈ (t.without (orphansIn stays known visited)).nodes :=
      List.mem_filter.2 ⟨hx, by rw [hgone, Bool.and_false, Bool.not_false]⟩
    rw [listsFile_readDir hleft hfile, isPartial]
    cases walksTo root x.1 && !known.contains x.1 <;> cases stays x.1 <;> simp

end Reconcile

end DirTree

/-! ## When exactly the orphans go -/

/-- **The orphans are removed, and no file with a row.** -/
structure OrphansRemoved (db : Db) {root : PathBuf} (t t' : DirTree root) : Prop where
  kept : ∀ r ∈ db.fileIndex.rows, ∀ p ∈ r.cachePath, t.isFile p = true → t'.isFile p = true
  removed : ∀ p, t.isFile p = true → OutsideReserved root p →
    (∀ r ∈ db.fileIndex.rows, r.cachePath ≠ some p) → t'.isFile p = false

/-- The reconciler ends, in however many rounds it is given from some number on, and no call of it
fails: then exactly the orphans are gone. -/
def RemovesOrphans (m : Mount) (db : Db) (t : DirTree m.cacheDir) : Prop :=
  ∃ n, ∀ k ≥ n, ∃ t' stats,
    t.reconcileOrphans (fun _ => false) (db.allCachePaths m.mountId) k = some (t', stats) ∧
      OrphansRemoved db t t'

/-- No file with a row is directly in the directory for downloads, and the rows of other mounts
have none where the walk comes to, unless a row of this mount has it too. -/
def RecordedApart (m : Mount) (db : Db) (t : DirTree m.cacheDir) : Prop :=
  ∀ r ∈ db.fileIndex.rows, ∀ p ∈ r.cachePath, t.isFile p = true →
    isPartial m.cacheDir p = false ∧
      (OutsideReserved m.cacheDir p → p ∈ db.allCachePaths m.mountId)

section

variable {m : Mount} {db : Db} {t : DirTree m.cacheDir} {p : PathBuf}

theorem mem_allCachePaths {mountId : ℕ} : p ∈ db.allCachePaths mountId ↔
    ∃ r ∈ db.fileIndex.rows, r.mountId = mountId ∧ r.cachePath = some p := by
  rw [Db.allCachePaths, List.mem_filterMap]
  simp only [List.mem_filter, decide_eq_true_eq, and_assoc]

/-- A regular file of the tree that is in none of the daemon's own directories is walked to. -/
theorem walksTo_of_isFile (hp : t.isFile p = true) :
    walksTo m.cacheDir p = true ↔ OutsideReserved m.cacheDir p := by
  obtain ⟨size, hmem⟩ := DirTree.isFile_iff.1 hp
  obtain ⟨hpre, hne⟩ := t.below _ hmem
  rw [walksTo_iff, and_iff_right hpre, and_iff_right hne]

/-- What becomes of a regular file when no call fails. -/
theorem exists_reconciled (m : Mount) (db : Db) (t : DirTree m.cacheDir) : ∃ n, ∀ k ≥ n,
    ∃ t' stats,
      t.reconcileOrphans (fun _ => false) (db.allCachePaths m.mountId) k = some (t', stats) ∧
        ∀ p, t.isFile p = true → (t'.isFile p = true ↔
          isPartial m.cacheDir p = false ∧
            (OutsideReserved m.cacheDir p → p ∈ db.allCachePaths m.mountId)) := by
  obtain ⟨n, hn⟩ := t.reconcileOrphans_eq (fun _ => false) (db.allCachePaths m.mountId)
  refine ⟨n, fun k hk => ?_⟩
  obtain ⟨stats, h⟩ := hn k hk
  refine ⟨_, stats, h, fun p hp => ?_⟩
  rw [DirTree.isFile_without, hp, Bool.true_and, Bool.not_false, Bool.and_true, Bool.not_eq_true',
    Bool.or_eq_false_iff, and_comm, ← walksTo_of_isFile hp, ← List.contains_iff_mem]
  refine and_congr_right fun _ => ?_
  cases walksTo m.cacheDir p <;> simp

theorem recordedApart_of_removesOrphans (h : RemovesOrphans m db t) : RecordedApart m db t := by
  intro r hr p hp hfile
  obtain ⟨n, hn⟩ := h
  obtain ⟨n', hn'⟩ := exists_reconciled m db t
  obtain ⟨t', stats, hrun, hdone⟩ := hn (max n n') (le_max_left n n')
  obtain ⟨t'', stats', hrun', hfiles⟩ := hn' (max n n') (le_max_right n n')
  obtain ⟨rfl, -⟩ := Prod.mk.inj (Option.some.inj (hrun.symm.trans hrun'))
  exact (hfiles p hfile).1 (hdone.kept r hr p hp hfile)

end

/-- **The start-up removes exactly the orphans** when and only when no file with a row is directly
in the directory for downloads or, as the file of another mount, where the walk comes to. -/
theorem removesOrphans_iff (m : Mount) (db : Db) (t : DirTree m.cacheDir) :
    RemovesOrphans m db t ↔ RecordedApart m db t := by
  constructor
  · exact recordedApart_of_removesOrphans
  · intro h
    obtain ⟨n, hn⟩ := exists_reconciled m db t
    refine ⟨n, fun k hk => ?_⟩
    obtain ⟨t', stats, hrun, hfiles⟩ := hn k hk
    refine ⟨t', stats, hrun, ?_, ?_⟩
    · intro r hr p hp hfile
      exact (hfiles p hfile).2 (h r hr p hp hfile)
    · intro p hfile hout hnone
      rw [Bool.eq_false_iff]
      intro hleft
      obtain ⟨r, hr, -, hp⟩ := mem_allCachePaths.1 (((hfiles p hfile).1 hleft).2 hout)
      exact hnone r hr hp

/-- The cache path of the remote file `.meta/partial/a`. -/
def partialPath : PathBuf := [['c'], ".meta".toList, "partial".toList, ['a']]

/-- That file is cached. -/
def cachedPartial : Db :=
  (((Db.empty 1 0).applyRemote (.upsert 1
    { parent := fuseRootInode, name := ['a'], remotePath := ".meta/partial/a".toList, kind := .file
      size := 1, mtime := 0, etag := some ['v'], pollGeneration := 0 } none)).setCached 2
        partialPath 1 (some ['v']) 0 1).getD (Db.empty 1 0)

def partialTree : DirTree sampleMount.cacheDir where
  nodes := [([['c'], ".meta".toList], .dir), ([['c'], ".meta".toList, "partial".toList], .dir),
    (partialPath, .file 1)]
  distinct := by decide
  below := by decide
  parents := by decide

/-- The cached file is taken for what is left of a download. -/
theorem not_removesOrphans_cachedPartial :
    ¬∀ (m : Mount) (db : Db) (t : DirTree m.cacheDir), RemovesOrphans m db t := by
  intro h
  have hapart : RecordedApart sampleMount cachedPartial partialTree :=
    recordedApart_of_removesOrphans (h sampleMount cachedPartial partialTree)
  obtain ⟨r, hr, hp⟩ : ∃ r ∈ cachedPartial.fileIndex.rows, r.cachePath = some partialPath :=
    ⟨_, List.mem_cons_of_mem _ (List.mem_singleton_self _), rfl⟩
  have hpartial := (hapart r hr partialPath hp (by decide)).1
  exact absurd hpartial (by decide)

/-! ## What the start-up does to the cache directory -/

/-- The files the start-up leaves in the cache directory are those the reconciler leaves in its
tree. -/
theorem isFile_of_restart {m : Mount} {env : StartEnv} {fs : CacheFs} {t : DirTree m.cacheDir}
    (db : Db) (hfault : env.knownFault = false)
    (hfs : ∀ p, m.cacheDir <+: p → (fs.files p).isSome = t.isFile p) : ∃ n, ∀ k ≥ n, ∃ t' stats,
      t.reconcileOrphans env.stays (db.allCachePaths m.mountId) k = some (t', stats) ∧
        ∀ p, m.cacheDir <+: p →
          ((reconcileOrphans m env db fs).files p).isSome = t'.isFile p := by
  obtain ⟨n, hn⟩ := t.reconcileOrphans_eq env.stays (db.allCachePaths m.mountId)
  refine ⟨n, fun k hk => ?_⟩
  obtain ⟨stats, h⟩ := hn k hk
  refine ⟨_, stats, h, fun p hp => ?_⟩
  rw [DirTree.isFile_without, ← hfs p hp, reconcileOrphans, hfault]
  dsimp only
  rw [if_neg Bool.false_ne_true]
  dsimp only
  split
  · rename_i hgone
    rw [hgone, Bool.not_true, Bool.and_false]
    rfl
  · rename_i hleft
    rw [Bool.not_eq_true] at hleft
    rw [hleft, Bool.not_false, Bool.and_true]

end Stratosync

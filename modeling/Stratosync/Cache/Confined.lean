import Stratosync.Cache.Files
import Stratosync.Foundations.Upward

/-!
# Where cache paths lead

`safe_cache_path` joins the remote path to the cache directory and looks where that leads. It can
only look where the parent of the joined path exists; else it compares the joined path as it is,
`..` and all, and this always begins with the cache directory. Nor does it exclude the cache
directory itself and the directories in it where the daemon keeps its downloads, its headers and
its base blobs. `confined_iff` is that these are all the paths that are not confined.
-/

namespace Stratosync

open Foundations.Upward

/-- The directories at the top of the cache directory that the daemon keeps for itself. -/
def reservedNames : List Str := [".meta".toList, ".bases".toList]

/-- **The path leads strictly into the cache directory**, and not into one of the daemon's own
directories. -/
def Confined (cacheDir path : PathBuf) : Prop :=
  ∃ name rest, path.normalize = cacheDir.normalize ++ name :: rest ∧ name ∉ reservedNames

/-- What `safe_cache_path` compares: the path with what exists of it resolved. -/
def CacheFs.checkDir (fs : CacheFs) (cacheDir path : PathBuf) : PathBuf :=
  match fs.canonicalize path with
  | some p => p
  | none =>
    match fs.canonicalize (path.parent.getD cacheDir) with
    | some p => if path.getLast? = some ['.', '.'] then p else p ++ path.getLast?.toList
    | none => path

def CacheFs.canonCache (fs : CacheFs) (cacheDir : PathBuf) : PathBuf :=
  (fs.canonicalize cacheDir).getD cacheDir

/-- The path that `rel` names in the cache directory is refused. -/
inductive Caught (fs : CacheFs) (cacheDir rel : PathBuf) : Prop
  /-- Its parent exists, and the path leads out of the cache directory. -/
  | leaves (hparent : (fs.canonicalize ((cacheDir ++ rel).parent.getD cacheDir)).isSome = true)
      (hdir : cacheDir.normalize ∈ fs.dirs)
      (h : ¬cacheDir.normalize <+: (cacheDir ++ rel).normalize)
  /-- Its parent does not exist. The cache directory does, but its path has a `..` in it, and where
  it leads does not begin the path. -/
  | unresolved (hparent : fs.canonicalize ((cacheDir ++ rel).parent.getD cacheDir) = none)
      (hcache : (fs.canonicalize cacheDir).isSome = true)
      (h : ¬cacheDir.normalize <+: cacheDir ++ rel)
  /-- It is the cache directory, which does not exist and whose path has a `..` in it. -/
  | itself (hrel : rel = [])
      (hparent : (fs.canonicalize (cacheDir.parent.getD cacheDir)).isSome = true)
      (hcache : fs.canonicalize cacheDir = none) (h : ['.', '.'] ∈ cacheDir)

/-! ## What exists -/

namespace CacheFs

variable {fs : CacheFs} {p q : PathBuf} {c : Str}

theorem normalize_eq_resolve (p : PathBuf) : p.normalize = resolve ['.', '.'] p := rfl

/-- The path and all along it are directories. -/
def Directory (fs : CacheFs) (p : PathBuf) : Prop :=
  ∀ q : PathBuf, q <+: p → q.normalize ∈ fs.dirs

theorem directory_nil : fs.Directory [] ↔ [] ∈ fs.dirs := by
  simp [Directory, PathBuf.normalize]

theorem directory_concat :
    fs.Directory (p ++ [c]) ↔ fs.Directory p ∧ PathBuf.normalize (p ++ [c]) ∈ fs.dirs := by
  constructor
  · intro h
    exact ⟨fun q hq => h q (hq.trans (List.prefix_append _ _)), h _ List.prefix_rfl⟩
  · rintro ⟨hp, hlast⟩ q hq
    obtain rfl | hq := List.prefix_concat_iff.1 hq
    · exact hlast
    · exact hp q hq

theorem Directory.of_append (h : fs.Directory (p ++ q)) : fs.Directory p :=
  fun a ha => h a (ha.trans (List.prefix_append _ _))

theorem canonicalize_eq_some_iff : fs.canonicalize p = some q ↔
    ((∀ a ∈ p.inits.dropLast, PathBuf.normalize a ∈ fs.dirs) ∧
      fs.exists_ p.normalize = true) ∧ q = p.normalize := by
  rw [canonicalize]
  split
  · rename_i h
    simp only [Bool.and_eq_true, List.all_eq_true, List.contains_iff_mem] at h
    rw [Option.some.injEq, and_iff_right h, eq_comm]
  · rename_i h
    simp only [Bool.and_eq_true, List.all_eq_true, List.contains_iff_mem] at h
    simp [h]

theorem eq_normalize_of_canonicalize (h : fs.canonicalize p = some q) : q = p.normalize :=
  (canonicalize_eq_some_iff.1 h).2

theorem canonicalize_isSome_concat : (fs.canonicalize (p ++ [c])).isSome = true ↔
    fs.Directory p ∧ fs.exists_ (PathBuf.normalize (p ++ [c])) = true := by
  rw [Option.isSome_iff_exists]
  simp only [canonicalize_eq_some_iff, exists_and_left, exists_eq, and_true]
  simp [Directory]

/-- A directory exists. -/
theorem directory_iff :
    fs.Directory p ↔ (fs.canonicalize p).isSome = true ∧ p.normalize ∈ fs.dirs := by
  have hexists : p.normalize ∈ fs.dirs → fs.exists_ p.normalize = true := by
    intro h
    simp [exists_, h]
  obtain rfl | ⟨p, c, rfl⟩ := List.eq_nil_or_concat' p
  · rw [directory_nil, Option.isSome_iff_exists]
    simp only [canonicalize_eq_some_iff, exists_and_left, exists_eq, and_true]
    refine ⟨fun h => ⟨⟨by simp, hexists h⟩, h⟩, fun h => h.2⟩
  · rw [directory_concat, canonicalize_isSome_concat]
    exact ⟨fun h => ⟨⟨h.1, hexists h.2⟩, h.2⟩, fun h => ⟨h.1.1, h.2⟩⟩

/-- From a directory there is a step up. -/
theorem canonicalize_up (h : fs.Directory p) :
    (fs.canonicalize (p ++ [['.', '.']])).isSome = true := by
  rw [canonicalize_isSome_concat]
  refine ⟨h, ?_⟩
  have hup : PathBuf.normalize (p ++ [['.', '.']]) = p.normalize.dropLast := resolve_concat_up
  have hdir : p.normalize.dropLast ∈ fs.dirs := by
    by_cases hroot : p.normalize = []
    · rw [hroot, List.dropLast_nil, ← hroot]
      exact h p List.prefix_rfl
    · have hne : p.normalize.dropLast ≠ p.normalize := by
        intro he
        have hlen := congrArg List.length he
        rw [List.length_dropLast] at hlen
        have := List.length_pos_iff.2 hroot
        omega
      obtain ⟨a, ha, -, he⟩ := exists_prefix_resolve (List.dropLast_prefix _) hne
      exact he ▸ h a ha
  simp [exists_, hup, hdir]

end CacheFs

/-! ## What the check compares -/

section Check

variable {fs : CacheFs} {cacheDir p rel : PathBuf} {c : Str} {remotePath : Str}

theorem safeCachePath_eq : safeCachePath fs cacheDir remotePath =
    if (fs.canonCache cacheDir).isPrefixOf
        (fs.checkDir cacheDir (cacheDir.join (trimStartSlash remotePath))) then
      some (cacheDir.join (trimStartSlash remotePath))
    else none := by
  simp only [safeCachePath, CacheFs.canonCache, CacheFs.checkDir]
  obtain hself | ⟨q, hself⟩ :=
    Option.eq_none_or_eq_some (fs.canonicalize (cacheDir.join (trimStartSlash remotePath)))
  · obtain hparent | ⟨q, hparent⟩ := Option.eq_none_or_eq_some (fs.canonicalize
      ((cacheDir.join (trimStartSlash remotePath)).parent.getD cacheDir))
    · simp [hself, hparent]
    · simp [hself, hparent]
  · simp [hself]

theorem safeCachePath_eq_none_iff : safeCachePath fs cacheDir remotePath = none ↔
    ¬fs.canonCache cacheDir <+:
      fs.checkDir cacheDir (cacheDir ++ components (trimStartSlash remotePath)) := by
  rw [safeCachePath_eq, ite_eq_right_iff, ← List.isPrefixOf_iff_prefix]
  simp [PathBuf.join]

theorem parent_concat : PathBuf.parent (p ++ [c]) = some p := by
  simp [PathBuf.parent]

theorem canonCache_of_isSome (h : (fs.canonicalize cacheDir).isSome = true) :
    fs.canonCache cacheDir = cacheDir.normalize := by
  obtain ⟨q, hq⟩ := Option.isSome_iff_exists.1 h
  rw [CacheFs.canonCache, hq, Option.getD_some]
  exact CacheFs.eq_normalize_of_canonicalize hq

theorem canonCache_of_eq_none (h : fs.canonicalize cacheDir = none) :
    fs.canonCache cacheDir = cacheDir := by
  rw [CacheFs.canonCache, h, Option.getD_none]

/-- In a directory the check compares where the path leads. -/
theorem checkDir_of_directory (h : fs.Directory p) :
    fs.checkDir cacheDir (p ++ [c]) = PathBuf.normalize (p ++ [c]) := by
  have hparent := (CacheFs.directory_iff.1 h).1
  obtain ⟨q, hq⟩ := Option.isSome_iff_exists.1 hparent
  obtain rfl := CacheFs.eq_normalize_of_canonicalize hq
  rw [CacheFs.checkDir]
  cases hself : fs.canonicalize (p ++ [c]) with
  | some r => exact CacheFs.eq_normalize_of_canonicalize hself
  | none =>
    have hc : c ≠ ['.', '.'] := by
      rintro rfl
      have hup := CacheFs.canonicalize_up h
      rw [hself] at hup
      cases hup
    simp only [parent_concat, Option.getD_some, hq, List.getLast?_concat, Option.some.injEq, hc,
      if_false, Option.toList_some]
    exact (resolve_concat_of_ne hc).symm

/-- Where the parent is a file the check compares the file, or a path in it. -/
theorem checkDir_of_file (h : ¬fs.Directory p) (hparent : (fs.canonicalize p).isSome = true) :
    fs.checkDir cacheDir (p ++ [c]) =
      if c = ['.', '.'] then p.normalize else p.normalize ++ [c] := by
  obtain ⟨q, hq⟩ := Option.isSome_iff_exists.1 hparent
  obtain rfl := CacheFs.eq_normalize_of_canonicalize hq
  have hself : fs.canonicalize (p ++ [c]) = none := by
    rw [← Option.not_isSome_iff_eq_none, CacheFs.canonicalize_isSome_concat]
    exact fun hd => h hd.1
  simp [CacheFs.checkDir, hself, parent_concat, hq]

/-- Where the parent does not exist the check compares the path as it is. -/
theorem checkDir_of_unresolved (hparent : fs.canonicalize p = none) :
    fs.checkDir cacheDir (p ++ [c]) = p ++ [c] := by
  have hself : fs.canonicalize (p ++ [c]) = none := by
    rw [← Option.not_isSome_iff_eq_none, CacheFs.canonicalize_isSome_concat]
    intro hd
    have hp := (CacheFs.directory_iff.1 hd.1).1
    rw [hparent] at hp
    cases hp
  simp [CacheFs.checkDir, hself, parent_concat, hparent]

/-- A path whose parent exists is caught when it leads out of the cache directory. -/
theorem caught_of_parent (hparent : (fs.canonicalize (cacheDir ++ rel)).isSome = true) :
    Caught fs cacheDir (rel ++ [c]) ↔ cacheDir.normalize ∈ fs.dirs ∧
      ¬cacheDir.normalize <+: PathBuf.normalize (cacheDir ++ rel ++ [c]) := by
  have hself : (cacheDir ++ (rel ++ [c])).parent = some (cacheDir ++ rel) := by
    rw [← List.append_assoc, parent_concat]
  rw [List.append_assoc]
  constructor
  · rintro (⟨-, hdir, h⟩ | ⟨hnone, -, -⟩ | ⟨hnil, -, -, -⟩)
    · exact ⟨hdir, h⟩
    · rw [hself, Option.getD_some] at hnone
      rw [hnone] at hparent
      cases hparent
    · simp at hnil
  · rintro ⟨hdir, h⟩
    refine .leaves ?_ hdir h
    rw [hself, Option.getD_some]
    exact hparent

/-- A path whose parent does not exist is caught when it does not begin as it is to. -/
theorem caught_of_unresolved (hparent : fs.canonicalize (cacheDir ++ rel) = none) :
    Caught fs cacheDir (rel ++ [c]) ↔ (fs.canonicalize cacheDir).isSome = true ∧
      ¬cacheDir.normalize <+: cacheDir ++ rel ++ [c] := by
  have hself : (cacheDir ++ (rel ++ [c])).parent = some (cacheDir ++ rel) := by
    rw [← List.append_assoc, parent_concat]
  rw [List.append_assoc]
  constructor
  · rintro (⟨hsome, -, -⟩ | ⟨-, hcache, h⟩ | ⟨hnil, -, -, -⟩)
    · rw [hself, Option.getD_some, hparent] at hsome
      cases hsome
    · exact ⟨hcache, h⟩
    · simp at hnil
  · rintro ⟨hcache, h⟩
    refine .unresolved ?_ hcache h
    rw [hself, Option.getD_some]
    exact hparent

theorem prefix_dropLast_iff {a b : PathBuf} (hne : a ≠ b) : a <+: b.dropLast ↔ a <+: b := by
  refine ⟨fun h => h.trans (List.dropLast_prefix b), fun h => ?_⟩
  obtain rfl | ⟨b, c, rfl⟩ := List.eq_nil_or_concat' b
  · exact h
  · rw [List.dropLast_concat]
    exact (List.prefix_concat_iff.1 h).resolve_left hne

/-- A path in the cache directory is refused exactly when it is caught. -/
theorem caught_concat_iff : Caught fs cacheDir (rel ++ [c]) ↔
    ¬fs.canonCache cacheDir <+: fs.checkDir cacheDir (cacheDir ++ rel ++ [c]) := by
  by_cases hdir : fs.Directory (cacheDir ++ rel)
  · have hcache := CacheFs.directory_iff.1 hdir.of_append
    rw [caught_of_parent (CacheFs.directory_iff.1 hdir).1, canonCache_of_isSome hcache.1,
      checkDir_of_directory hdir, and_iff_right hcache.2]
  by_cases hparent : (fs.canonicalize (cacheDir ++ rel)).isSome = true
  · -- the parent is a file
    have hfile : PathBuf.normalize (cacheDir ++ rel) ∉ fs.dirs := fun h =>
      hdir (CacheFs.directory_iff.2 ⟨hparent, h⟩)
    rw [caught_of_parent hparent, checkDir_of_file hdir hparent]
    obtain rfl | ⟨rel, d, rfl⟩ := List.eq_nil_or_concat' rel
    · -- the cache directory is this file
      rw [List.append_nil] at hparent hfile ⊢
      rw [canonCache_of_isSome hparent]
      have hstart : cacheDir.normalize <+:
          if c = ['.', '.'] then cacheDir.normalize else cacheDir.normalize ++ [c] := by
        split
        · exact List.prefix_rfl
        · exact List.prefix_append _ _
      simp [hfile, hstart]
    · have hcache := CacheFs.directory_iff.1
        (CacheFs.canonicalize_isSome_concat.1 (List.append_assoc .. ▸ hparent)).1.of_append
      rw [canonCache_of_isSome hcache.1, and_iff_right hcache.2]
      split
      · rename_i hc
        have hne : cacheDir.normalize ≠ PathBuf.normalize (cacheDir ++ (rel ++ [d])) := fun he =>
          hfile (he ▸ hcache.2)
        rw [hc, ← prefix_dropLast_iff hne]
        exact not_congr (iff_of_eq (congrArg _ resolve_concat_up))
      · rename_i hc
        exact not_congr (iff_of_eq (congrArg _ (resolve_concat_of_ne hc)))
  · rw [Bool.not_eq_true, Option.isSome_eq_false_iff, Option.isNone_iff_eq_none] at hparent
    rw [caught_of_unresolved hparent, checkDir_of_unresolved hparent]
    by_cases hcache : (fs.canonicalize cacheDir).isSome = true
    · rw [canonCache_of_isSome hcache, and_iff_right hcache]
    · have hnone := hcache
      rw [Bool.not_eq_true, Option.isSome_eq_false_iff, Option.isNone_iff_eq_none] at hnone
      rw [canonCache_of_eq_none hnone, List.append_assoc]
      simp [hcache]

/-- The cache directory itself is caught when it does not exist and has a `..` in its path. -/
theorem caught_self_concat (hcache : fs.canonicalize (p ++ [c]) = none) :
    Caught fs (p ++ [c]) [] ↔ (fs.canonicalize p).isSome = true ∧ ['.', '.'] ∈ p ++ [c] := by
  constructor
  · rintro (⟨-, -, h⟩ | ⟨-, hsome, -⟩ | ⟨-, hparent, -, h⟩)
    · rw [List.append_nil] at h
      exact absurd List.prefix_rfl h
    · rw [hcache] at hsome
      cases hsome
    · rw [parent_concat, Option.getD_some] at hparent
      exact ⟨hparent, h⟩
  · rintro ⟨hparent, h⟩
    refine .itself rfl ?_ hcache h
    rw [parent_concat, Option.getD_some]
    exact hparent

/-- And so is the cache directory itself. -/
theorem caught_nil_iff : Caught fs cacheDir [] ↔
    ¬fs.canonCache cacheDir <+: fs.checkDir cacheDir cacheDir := by
  obtain hcache | ⟨q, hcache⟩ := Option.eq_none_or_eq_some (fs.canonicalize cacheDir)
  swap
  · -- what exists is not refused
    obtain rfl := CacheFs.eq_normalize_of_canonicalize hcache
    rw [CacheFs.canonCache, CacheFs.checkDir, hcache]
    simp only [Option.getD_some, List.prefix_rfl, not_true_eq_false, iff_false]
    rintro (⟨-, -, h⟩ | ⟨hnone, -, -⟩ | ⟨-, -, hnone, -⟩)
    · rw [List.append_nil] at h
      exact h List.prefix_rfl
    · obtain rfl | ⟨p, c, rfl⟩ := List.eq_nil_or_concat' cacheDir
      · exact absurd (hnone.symm.trans hcache) (by simp)
      · have hsome : (fs.canonicalize (p ++ [c])).isSome = true := by rw [hcache]; rfl
        have hp := (CacheFs.directory_iff.1 (CacheFs.canonicalize_isSome_concat.1 hsome).1).1
        rw [List.append_nil, parent_concat, Option.getD_some] at hnone
        rw [hnone] at hp
        cases hp
    · exact absurd (hnone.symm.trans hcache) (by simp)
  rw [canonCache_of_eq_none hcache]
  obtain rfl | ⟨p, c, rfl⟩ := List.eq_nil_or_concat' cacheDir
  · simp only [List.nil_prefix, not_true_eq_false, iff_false]
    rintro (⟨-, -, h⟩ | ⟨-, hsome, -⟩ | ⟨-, -, -, h⟩)
    · exact h List.prefix_rfl
    · rw [hcache] at hsome
      cases hsome
    · cases h
  rw [caught_self_concat hcache]
  by_cases hparent : (fs.canonicalize p).isSome = true
  · rw [and_iff_right hparent]
    by_cases hc : c = ['.', '.']
    · have hfile : ¬fs.Directory p := by
        intro hdir
        have hup := CacheFs.canonicalize_up hdir
        rw [← hc, hcache] at hup
        cases hup
      rw [checkDir_of_file hfile hparent, if_pos hc]
      refine iff_of_true (by simp [hc]) fun h => ?_
      have hlen := h.length_le.trans length_resolve_le
      rw [List.length_append, List.length_singleton] at hlen
      omega
    · have hcheck : fs.checkDir (p ++ [c]) (p ++ [c]) = PathBuf.normalize (p ++ [c]) := by
        by_cases hdir : fs.Directory p
        · exact checkDir_of_directory hdir
        · rw [checkDir_of_file hdir hparent, if_neg hc]
          exact (resolve_concat_of_ne hc).symm
      rw [hcheck, CacheFs.normalize_eq_resolve, prefix_resolve_iff, not_not]
  · have hnone := hparent
    rw [Bool.not_eq_true, Option.isSome_eq_false_iff, Option.isNone_iff_eq_none] at hnone
    rw [checkDir_of_unresolved hnone]
    simp [hparent]

end Check

/-- **What `safe_cache_path` refuses.** -/
theorem safeCachePath_eq_none_iff_caught {fs : CacheFs} {cacheDir : PathBuf} {remotePath : Str} :
    safeCachePath fs cacheDir remotePath = none ↔
      Caught fs cacheDir (components (trimStartSlash remotePath)) := by
  rw [safeCachePath_eq_none_iff]
  obtain hrel | ⟨rel, c, hrel⟩ := List.eq_nil_or_concat' (components (trimStartSlash remotePath))
  · rw [hrel, List.append_nil, caught_nil_iff]
  · rw [hrel, caught_concat_iff, List.append_assoc]

/-- **Cache paths are confined** exactly when they lead strictly into the cache directory and not
into one of the daemon's own directories, or are caught. -/
theorem confined_iff (fs : CacheFs) (cacheDir : PathBuf) (remotePath : Str) :
    (∀ p, safeCachePath fs cacheDir remotePath = some p → Confined cacheDir p) ↔
      Confined cacheDir (cacheDir ++ components (trimStartSlash remotePath)) ∨
        Caught fs cacheDir (components (trimStartSlash remotePath)) := by
  constructor
  · intro h
    obtain hnone | ⟨p, hp⟩ := Option.eq_none_or_eq_some (safeCachePath fs cacheDir remotePath)
    · exact .inr (safeCachePath_eq_none_iff_caught.1 hnone)
    · have hpath : p = cacheDir ++ components (trimStartSlash remotePath) :=
        eq_join_of_safeCachePath hp
      exact .inl (hpath ▸ h p hp)
  · rintro (h | h) p hp
    · rw [eq_join_of_safeCachePath hp]
      exact h
    · rw [safeCachePath_eq_none_iff_caught.2 h] at hp
      cases hp

/-- A remote path without `..` leads where it says: into the cache directory, by its first name. -/
theorem confined_of_no_up {cacheDir rel : PathBuf} {name : Str} (h : ['.', '.'] ∉ name :: rel) :
    Confined cacheDir (cacheDir ++ name :: rel) ↔ name ∉ reservedNames := by
  have hpath : PathBuf.normalize (cacheDir ++ name :: rel) = cacheDir.normalize ++ name :: rel :=
    resolve_append_of_not_mem h
  constructor
  · rintro ⟨name', rest, heq, hname⟩
    obtain ⟨rfl, -⟩ := List.cons.inj (List.append_cancel_left (hpath.symm.trans heq))
    exact hname
  · exact fun hname => ⟨name, rel, hpath, hname⟩

/-- The parent of the path does not exist, so that only its text is compared. -/
theorem not_confined_unresolved :
    ¬∀ (fs : CacheFs) (cacheDir : PathBuf) (remotePath : Str) (p : PathBuf),
      safeCachePath fs cacheDir remotePath = some p → Confined cacheDir p := by
  intro h
  obtain ⟨name, rest, heq, -⟩ := h ⟨fun _ => none, [[], [['c']]]⟩ [['c']] "n/../../x".toList _ rfl
  cases heq

end Stratosync

import Stratosync.Cache.Pins
import Stratosync.Foundations.Fields
import Stratosync.State.Patterns
import Mathlib.Data.Char
import Mathlib.Data.List.Lex

/-!
# Recursive selections

`pin`, `unpin` and `push` act on a directory through `list_file_descendants`, which compares the
remote paths with a pattern: `LIKE '{directory}/%'`. `actsOnSubtree_iff`: the commands act on the
files below the directory, component by component, exactly when no other path reads like one of
them, and for the root when every path begins with a slash. The paths that the daemon enters do not
(`listFileDescendants_root`).
-/

namespace Stratosync

open Foundations

/-! ## The query and its users -/

/-- `s.trim_end_matches('/')`. -/
def trimEndSlash (s : Str) : Str := s.rdropWhile (· = '/')

/-- `list_file_descendants`. -/
def listFileDescendants (db : Db) (mountId : ℕ) (remotePathPrefix : Str) : List FileEntry :=
  let pattern := trimEndSlash remotePathPrefix ++ ['/', '%']
  (db.fileIndex.rows.filter fun r =>
    r.mountId = mountId ∧ like pattern r.remotePath ∧ r.kind = .file).insertionSort
      fun a b => a.remotePath ≤ b.remotePath

/-- The rows that a command works on, one after the other. -/
def recursiveTargets (db : Db) (mountId : ℕ) (entry : FileEntry) : List FileEntry :=
  if entry.kind = .directory then listFileDescendants db mountId entry.remotePath else [entry]

/-- The loop of a recursive command: the first file that fails ends it. -/
def forEachFile (f : Db → FileEntry → Db × Bool) : List FileEntry → Db → Db × Bool
  | [], db => (db, true)
  | r :: rs, db =>
    match f db r with
    | (db, true) => forEachFile f rs db
    | (db, false) => (db, false)

/-- `set_pinned(..).await?`. -/
def trySetPinned (pinned : Bool) (db : Db) (entry : FileEntry) : Db × Bool :=
  match db.setPinned entry.inode pinned with
  | some db => (db, true)
  | none => (db, false)

/-- `fetched` is what the remote reports of a file once it is downloaded. -/
def pinSingleFile (m : Mount) (fetched : Str → Option RemoteMetadata) (db : Db)
    (entry : FileEntry) : Db × Bool :=
  if entry.status.needsHydration then
    match (fetched entry.remotePath).bind fun md => db.setCached entry.inode
        (m.cacheDir.join (trimStartSlash entry.remotePath)) md.size md.etag md.mtime md.size with
    | some db => trySetPinned true db entry
    | none => (db, false)
  else trySetPinned true db entry

/-- `stratosync pin`. -/
def pin (m : Mount) (fetched : Str → Option RemoteMetadata) (db : Db) (entry : FileEntry) :
    Db × Bool :=
  forEachFile (pinSingleFile m fetched) (recursiveTargets db m.mountId entry) db

/-- `stratosync unpin`. -/
def unpin (m : Mount) (db : Db) (entry : FileEntry) : Db × Bool :=
  forEachFile (trySetPinned false) (recursiveTargets db m.mountId entry) db

/-- What `push` does for a single file. -/
inductive PushAction
  | fsync
  | alreadySynced
  | refuse (reason : Str)
  deriving DecidableEq, Repr

def classifyForPush : SyncStatus → PushAction
  | .dirty | .uploading => .fsync
  | .cached => .alreadySynced
  | .remote | .hydrating => .refuse "file is not downloaded locally — nothing to push".toList
  | .stale => .refuse
    "file is stale (remote has newer content) — re-open to re-hydrate, then edit and push".toList
  | .conflict => .refuse
    "file is in conflict state — resolve with `stratosync conflicts` first".toList

/-- The loop of `push`: the files it synchronises, up to the first that cannot be opened or
synchronised, which ends it. The second component says that there was none. -/
def fsyncEach (fails : FileEntry → Bool) : List FileEntry → List FileEntry × Bool
  | [] => ([], true)
  | r :: rs =>
    if classifyForPush r.status = .fsync then
      if fails r then ([], false) else ((fsyncEach fails rs).1.cons r, (fsyncEach fails rs).2)
    else fsyncEach fails rs

/-- `stratosync push`: a single file may be refused, one of a directory is left out. -/
def push (m : Mount) (fails : FileEntry → Bool) (db : Db) (entry : FileEntry) :
    List FileEntry × Bool :=
  if entry.kind = .directory then
    fsyncEach fails (listFileDescendants db m.mountId entry.remotePath)
  else
    match classifyForPush entry.status with
    | .refuse _ => ([], false)
    | _ => fsyncEach fails [entry]

/-! ## The subtree -/

/-- The components of a directory's path; the root has none. -/
def directoryComponents (dir : Str) : List Str :=
  if trimEndSlash dir = [] then [] else (trimEndSlash dir).splitOn '/'

/-- The path lies strictly under the directory, component by component. -/
def Below (dir path : Str) : Prop :=
  ∃ names ≠ [], path.splitOn '/' = directoryComponents dir ++ names

/-- The files of the mount below the directory. -/
def InSubtree (db : Db) (mountId : ℕ) (dir : Str) (r : FileEntry) : Prop :=
  r ∈ db.fileIndex.rows ∧ r.mountId = mountId ∧ r.kind = .file ∧ Below dir r.remotePath

/-- What a command made of the pins of a subtree: the flag of some files of it, of all when the
command succeeds, and of no other file. -/
def SetsPinsOf (pinned : Bool) (m : Mount) (db : Db) (dir : Str) (out : Db × Bool) : Prop :=
  ∃ done : Set FileEntry, (∀ r ∈ done, InSubtree db m.mountId dir r) ∧
    (out.2 = true → ∀ r, InSubtree db m.mountId dir r → r ∈ done) ∧
    (∀ r ∈ done, out.1.isPinned r.inode = pinned) ∧
    ∀ i, (∀ r ∈ done, r.inode ≠ i) → out.1.isPinned i = db.isPinned i

/-- What a push made of a subtree: it synchronised only files of it with local edits, all of them
when it succeeded, which it does when every file can be synchronised. -/
def PushesOf (fails : FileEntry → Bool) (m : Mount) (db : Db) (dir : Str)
    (out : List FileEntry × Bool) : Prop :=
  (∀ r ∈ out.1, InSubtree db m.mountId dir r ∧ (r.status = .dirty ∨ r.status = .uploading)) ∧
    (out.2 = true → ∀ r, InSubtree db m.mountId dir r →
      r.status = .dirty ∨ r.status = .uploading → r ∈ out.1) ∧
    ((∀ r, fails r = false) → out.2 = true)

/-- **A recursive command acts on a subtree**: on the files below the directory and on no other. -/
structure ActsOnSubtree (m : Mount) (db : Db) (dir : Str) : Prop where
  lists : ∀ r, r ∈ listFileDescendants db m.mountId dir ↔ InSubtree db m.mountId dir r
  pins : ∀ fetched entry, entry.kind = .directory → entry.remotePath = dir →
    SetsPinsOf true m db dir (pin m fetched db entry)
  unpins : ∀ entry, entry.kind = .directory → entry.remotePath = dir →
    SetsPinsOf false m db dir (unpin m db entry)
  pushes : ∀ fails entry, entry.kind = .directory → entry.remotePath = dir →
    PushesOf fails m db dir (push m fails db entry)

/-- No file of the mount has a path that, up to some slash, reads like the directory's, letters in
either case, `_` as any character and `%` as any text, and does not begin with the directory's.
Below the root every path has to begin with a slash. -/
def NoLookalike (db : Db) (mountId : ℕ) (dir : Str) : Prop :=
  ∀ r ∈ db.fileIndex.rows, r.mountId = mountId → r.kind = .file →
    if trimEndSlash dir = [] then ['/'] <+: r.remotePath
    else ∀ a b, r.remotePath = a ++ '/' :: b → like (trimEndSlash dir) a = true →
      trimEndSlash dir ++ ['/'] <+: r.remotePath

/-! ## Components -/

/-- A path lies below a directory when its text begins with the directory's and a slash. -/
theorem below_iff {dir path : Str} : Below dir path ↔
    trimEndSlash dir = [] ∨ trimEndSlash dir ++ ['/'] <+: path := by
  rw [Below, directoryComponents]
  split
  · rename_i hroot
    refine iff_of_true ⟨path.splitOn '/', List.splitOn_ne_nil _ _, rfl⟩ (.inl hroot)
  · rename_i hroot
    rw [or_iff_right hroot]
    constructor
    · rintro ⟨names, hne, hsplit⟩
      have hjoin := congrArg ['/'].intercalate hsplit
      rw [List.intercalate_splitOn] at hjoin
      have hdir : (trimEndSlash dir).splitOn '/' ≠ [] := List.splitOn_ne_nil _ _
      rw [Fields.intercalate_append_of_ne_nil hdir hne, List.intercalate_splitOn] at hjoin
      refine ⟨['/'].intercalate names, ?_⟩
      rw [hjoin, List.append_assoc, List.singleton_append]
    · rintro ⟨rest, rfl⟩
      refine ⟨rest.splitOn '/', List.splitOn_ne_nil _ _, ?_⟩
      rw [List.append_assoc, List.singleton_append, List.splitOn_append_cons_self]

/-! ## The selection -/

variable {m : Mount} {db : Db} {mountId : ℕ} {dir : Str} {r : FileEntry}

theorem mem_listFileDescendants : r ∈ listFileDescendants db mountId dir ↔
    r ∈ db.fileIndex.rows ∧ r.mountId = mountId ∧
      like (trimEndSlash dir ++ ['/', '%']) r.remotePath = true ∧ r.kind = .file := by
  simp [listFileDescendants, List.mem_insertionSort, List.mem_filter]

/-- Nothing below a directory is missed, except below the root. -/
theorem mem_listFileDescendants_of_inSubtree (hroot : trimEndSlash dir ≠ [])
    (h : InSubtree db mountId dir r) : r ∈ listFileDescendants db mountId dir := by
  obtain ⟨hr, hmount, hkind, hbelow⟩ := h
  obtain ⟨b, hb⟩ := (below_iff.1 hbelow).resolve_left hroot
  refine mem_listFileDescendants.2 ⟨hr, hmount, like_pattern_iff.2 ⟨trimEndSlash dir, b, ?_,
    like_self _⟩, hkind⟩
  rw [← hb, List.append_assoc, List.singleton_append]

/-- **When the selection is the subtree.** -/
theorem lists_iff : (∀ r, r ∈ listFileDescendants db mountId dir ↔ InSubtree db mountId dir r) ↔
    NoLookalike db mountId dir := by
  by_cases hroot : trimEndSlash dir = []
  · have hall : ∀ r : FileEntry, Below dir r.remotePath := fun r => below_iff.2 (.inl hroot)
    have hlike : ∀ r : FileEntry, like (trimEndSlash dir ++ ['/', '%']) r.remotePath = true ↔
        ['/'] <+: r.remotePath := by
      intro r
      rw [hroot, List.nil_append, like_slash_any_iff]
      exact ⟨fun ⟨b, hb⟩ => ⟨b, hb.symm⟩, fun ⟨b, hb⟩ => ⟨b, hb.symm⟩⟩
    simp only [NoLookalike, hroot, if_true, mem_listFileDescendants, InSubtree, hall, and_true]
    constructor
    · intro h r hr hmount hkind
      exact (hlike r).1 (hroot.symm ▸ ((h r).2 ⟨hr, hmount, hkind⟩).2.2.1)
    · intro h r
      constructor
      · rintro ⟨hr, hmount, -, hkind⟩
        exact ⟨hr, hmount, hkind⟩
      · rintro ⟨hr, hmount, hkind⟩
        exact ⟨hr, hmount, hroot ▸ (hlike r).2 (h r hr hmount hkind), hkind⟩
  · have hbelow : ∀ r : FileEntry, Below dir r.remotePath ↔
        trimEndSlash dir ++ ['/'] <+: r.remotePath := fun r => by
      rw [below_iff, or_iff_right hroot]
    simp only [NoLookalike, hroot, if_false]
    constructor
    · intro h r hr hmount hkind a b hpath hlike
      have hlisted := mem_listFileDescendants.2
        ⟨hr, hmount, like_pattern_iff.2 ⟨a, b, hpath, hlike⟩, hkind⟩
      exact (hbelow r).1 ((h r).1 hlisted).2.2.2
    · intro h r
      refine ⟨fun hr => ?_, mem_listFileDescendants_of_inSubtree hroot⟩
      obtain ⟨hr, hmount, hlike, hkind⟩ := mem_listFileDescendants.1 hr
      obtain ⟨a, b, hpath, hlike⟩ := like_pattern_iff.1 hlike
      exact ⟨hr, hmount, hkind, (hbelow r).2 (h r hr hmount hkind a b hpath hlike)⟩

/-- `join_remote` puts no slash in front of a path, and then the root has no descendants. -/
theorem listFileDescendants_root (h : ∀ r ∈ db.fileIndex.rows, r.kind = .file →
    ¬['/'] <+: r.remotePath) : listFileDescendants db mountId ['/'] = [] := by
  rw [List.eq_nil_iff_forall_not_mem]
  intro r hr
  obtain ⟨hr, -, hlike, hkind⟩ := mem_listFileDescendants.1 hr
  obtain ⟨b, hb⟩ := like_slash_any_iff.1 hlike
  exact h r hr hkind ⟨b, hb.symm⟩

/-! ## The commands -/

theorem isPinned_touchLru {db' : Db} {i : Inode} (h : db.touchLru i = some db') (j : Inode) :
    db'.isPinned j = db.isPinned j := by
  rw [Db.touchLru] at h
  split at h
  · cases h
  split at h <;> rw [← Option.some.inj h]
  · simp only [Db.isPinned, List.any_map, Function.comp_def]
    congr 1
    funext l
    split <;> rfl
  · simp [Db.isPinned]

theorem isPinned_setCached {db' : Db} {i : Inode} {p : PathBuf} {n mtime size : ℕ}
    {etag : Option Str} (h : db.setCached i p n etag mtime size = some db') (j : Inode) :
    db'.isPinned j = db.isPinned j := by
  obtain ⟨db₁, h₁, h₂⟩ := Option.bind_eq_some_iff.1 h
  obtain ⟨t, -, rfl⟩ := Option.map_eq_some_iff.1 h₁
  exact isPinned_touchLru h₂ j

/-- What a command does to the pins at one file: it sets the flag of that file, or fails. -/
def SetsPin (pinned : Bool) (f : Db → FileEntry → Db × Bool) : Prop :=
  ∀ db r j, (f db r).1.isPinned j =
    if (f db r).2 = true ∧ r.inode = j then pinned else db.isPinned j

theorem setsPin_trySetPinned (pinned : Bool) : SetsPin pinned (trySetPinned pinned) := by
  intro db r j
  rw [trySetPinned]
  cases h : db.setPinned r.inode pinned with
  | none => simp
  | some db' => simp [(setPinned_spec h).1 j, eq_comm]

theorem setsPin_pinSingleFile (fetched : Str → Option RemoteMetadata) :
    SetsPin true (pinSingleFile m fetched) := by
  intro db r j
  rw [pinSingleFile]
  split
  · split
    · rename_i db' h
      obtain ⟨md, -, h⟩ := Option.bind_eq_some_iff.1 h
      rw [setsPin_trySetPinned true db' r j, isPinned_setCached h]
    · simp
  · exact setsPin_trySetPinned true db r j

/-- The files that a loop has done have its flag, and the others the flag they had. -/
theorem isPinned_forEachFile {pinned : Bool} {f : Db → FileEntry → Db × Bool}
    (hf : SetsPin pinned f) (rs : List FileEntry) (db : Db) :
    ∃ done : Set FileEntry, (∀ r ∈ done, r ∈ rs) ∧
      ((forEachFile f rs db).2 = true → ∀ r ∈ rs, r ∈ done) ∧
      (∀ r ∈ done, (forEachFile f rs db).1.isPinned r.inode = pinned) ∧
      ∀ i, (∀ r ∈ done, r.inode ≠ i) → (forEachFile f rs db).1.isPinned i = db.isPinned i := by
  induction rs generalizing db with
  | nil => exact ⟨∅, by simp, by simp, by simp, fun _ _ => rfl⟩
  | cons r rs ih =>
    have hstep := hf db r
    rw [forEachFile]
    split
    · rename_i db' h
      rw [h] at hstep
      obtain ⟨done, hdone, hall, hset, hkept⟩ := ih db'
      refine ⟨insert r done, ?_, ?_, ?_, ?_⟩
      · rintro q (rfl | hq)
        · exact List.mem_cons_self
        · exact List.mem_cons_of_mem _ (hdone q hq)
      · intro hok q hq
        obtain rfl | hq := List.mem_cons.1 hq
        · exact .inl rfl
        · exact .inr (hall hok q hq)
      · rintro q (rfl | hq)
        · by_cases hagain : ∃ q' ∈ done, q'.inode = q.inode
          · obtain ⟨q', hq', hi⟩ := hagain
            exact hi ▸ hset q' hq'
          · rw [hkept q.inode fun q' hq' hi => hagain ⟨q', hq', hi⟩, hstep]
            simp
        · exact hset q hq
      · intro i hi
        rw [hkept i fun q hq => hi q (.inr hq), hstep]
        simp [hi r (.inl rfl)]
    · rename_i db' h
      rw [h] at hstep
      exact ⟨∅, by simp, by simp, by simp, fun i _ => by simp [hstep i]⟩

/-- When the list is the subtree, the loop sets the flags of the subtree. -/
theorem setsPinsOf_forEachFile {pinned : Bool} {f : Db → FileEntry → Db × Bool}
    (hlists : ∀ r, r ∈ listFileDescendants db m.mountId dir ↔ InSubtree db m.mountId dir r)
    (hf : SetsPin pinned f) :
    SetsPinsOf pinned m db dir (forEachFile f (listFileDescendants db m.mountId dir) db) := by
  obtain ⟨done, hdone, hall, hset, hkept⟩ :=
    isPinned_forEachFile hf (listFileDescendants db m.mountId dir) db
  refine ⟨done, fun r hr => ?_, fun hok r hr => ?_, hset, hkept⟩
  · exact (hlists r).1 (hdone r hr)
  · exact hall hok r ((hlists r).2 hr)

theorem recursiveTargets_of_directory {entry : FileEntry} (h : entry.kind = .directory) :
    recursiveTargets db mountId entry = listFileDescendants db mountId entry.remotePath := by
  rw [recursiveTargets, if_pos h]

theorem classifyForPush_eq_fsync_iff {s : SyncStatus} :
    classifyForPush s = .fsync ↔ s = .dirty ∨ s = .uploading := by
  cases s with
  | dirty | uploading => simp [classifyForPush]
  | _ => exact iff_of_false nofun (by simp)

/-- What the loop of a push comes to. -/
theorem fsyncEach_spec (fails : FileEntry → Bool) (rs : List FileEntry) :
    (∀ r ∈ (fsyncEach fails rs).1, r ∈ rs ∧ (r.status = .dirty ∨ r.status = .uploading)) ∧
      ((fsyncEach fails rs).2 = true → ∀ r ∈ rs, r.status = .dirty ∨ r.status = .uploading →
        r ∈ (fsyncEach fails rs).1) ∧
      ((∀ r, fails r = false) → (fsyncEach fails rs).2 = true) := by
  induction rs with
  | nil => exact ⟨fun r hr => absurd hr List.not_mem_nil, fun _ r hr => absurd hr List.not_mem_nil,
      fun _ => rfl⟩
  | cons r rs ih =>
    obtain ⟨honly, hall, hfine⟩ := ih
    rw [fsyncEach]
    by_cases hedits : r.status = .dirty ∨ r.status = .uploading
    · rw [if_pos (classifyForPush_eq_fsync_iff.2 hedits)]
      cases hfails : fails r with
      | true =>
        rw [if_pos rfl]
        refine ⟨fun q hq => absurd hq List.not_mem_nil, (fun h => by cases h), fun hnone => ?_⟩
        rw [hnone r] at hfails
        cases hfails
      | false =>
        rw [if_neg Bool.false_ne_true]
        refine ⟨fun q hq => ?_, fun hok q hq hq' => ?_, hfine⟩
        · rcases List.mem_cons.1 hq with rfl | hq
          · exact ⟨List.mem_cons_self, hedits⟩
          · exact ⟨List.mem_cons_of_mem _ (honly q hq).1, (honly q hq).2⟩
        · rcases List.mem_cons.1 hq with rfl | hq
          · exact List.mem_cons_self
          · exact List.mem_cons_of_mem _ (hall hok q hq hq')
    · rw [if_neg (mt classifyForPush_eq_fsync_iff.1 hedits)]
      refine ⟨fun q hq => ⟨List.mem_cons_of_mem _ (honly q hq).1, (honly q hq).2⟩,
        fun hok q hq hq' => ?_, hfine⟩
      rcases List.mem_cons.1 hq with rfl | hq
      · exact absurd hq' hedits
      · exact hall hok q hq hq'

/-- **When a recursive command acts on the subtree.** -/
theorem actsOnSubtree_iff (m : Mount) (db : Db) (dir : Str) :
    ActsOnSubtree m db dir ↔ NoLookalike db m.mountId dir := by
  refine ⟨fun h => lists_iff.1 h.lists, fun h => ?_⟩
  have hlists := lists_iff.2 h
  refine ⟨hlists, ?_, ?_, ?_⟩
  · rintro fetched entry hkind rfl
    rw [pin, recursiveTargets_of_directory hkind]
    exact setsPinsOf_forEachFile hlists (setsPin_pinSingleFile fetched)
  · rintro entry hkind rfl
    rw [unpin, recursiveTargets_of_directory hkind]
    exact setsPinsOf_forEachFile hlists (setsPin_trySetPinned false)
  · rintro fails entry hkind rfl
    rw [push, if_pos hkind]
    obtain ⟨honly, hall, hfine⟩ :=
      fsyncEach_spec fails (listFileDescendants db m.mountId entry.remotePath)
    exact ⟨fun r hr => ⟨(hlists r).1 (honly r hr).1, (honly r hr).2⟩,
      fun hok r hr => hall hok r ((hlists r).2 hr), hfine⟩

/-- A directory at `dir`, and in it a file `x`. -/
def listedIn (db : Db) (dir : Str) (inode : Inode) : Db :=
  (db.applyRemote (.upsert 1
      { parent := fuseRootInode, name := dir, remotePath := dir, kind := .directory, size := 0
        mtime := 0, etag := none, pollGeneration := 1 } none)).applyRemote (.upsert 1
      { parent := inode, name := ['x'], remotePath := dir ++ ['/', 'x'], kind := .file, size := 1
        mtime := 0, etag := some ['v'], pollGeneration := 1 } none)

/-- Two directories whose names differ in the case of a letter. -/
def twoCases : Db := listedIn (listedIn (Db.empty 1 0) ['P', '1'] 2) ['p', '1'] 4

/-- The selection of one has the file of the other. -/
theorem not_actsOnSubtree_twoCases :
    ¬∀ (m : Mount) (db : Db) (dir : Str), ActsOnSubtree m db dir := by
  intro h
  obtain ⟨r, hr, hpath⟩ : ∃ r ∈ listFileDescendants twoCases 1 ['p', '1'],
      r.remotePath = ['P', '1', '/', 'x'] := by
    decide
  obtain ⟨-, -, -, hbelow⟩ := ((h sampleMount twoCases ['p', '1']).lists r).1 hr
  rw [hpath, below_iff] at hbelow
  revert hbelow
  decide

example : listFileDescendants twoCases 1 ['/'] = [] := by decide

end Stratosync

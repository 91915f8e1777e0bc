import Stratosync.Conflict.Resolve
import Stratosync.Daemon.Frame
import Stratosync.State.Accepts

/-!
# Whether a resolution keeps both sides

`ResolveCase.KeepsBoth` says of a conflict what a resolution owes it: whichever of its calls fail,
a resolution that succeeds leaves the local bytes equal to the remote ones, merged into what it
uploaded, or stored in a conflict file; one that fails leaves them in the cache file or in a
conflict file. `keepsBoth_iff` says for which conflicts that holds.

The three-way merge writes its text over the only copy of the local bytes before that text is
anywhere else, and where it has conflict markers it is that text which is stored as the conflict
file. `Known` is the invariant of the steps: what is where at each of them.
-/

namespace Stratosync

open Foundations.Tasks

/-! ## Conflict files are not at the place of the original -/

theorem parentPath_eq_splitLast (path : Str) :
    parentPath path = (Foundations.Search.splitLast '/' path).map Prod.fst := by
  rw [parentPath, Foundations.Search.splitLast]
  by_cases h : '/' ∈ path
  · rw [if_pos (List.contains_iff_mem.2 h), if_pos h]
    rfl
  · rw [if_neg fun hc => h (List.contains_iff_mem.1 hc), if_neg h]
    rfl

/-- The directory of a path reaches to its last slash. -/
theorem prefix_of_parentPath {a b p : Str} (h : parentPath (a ++ '/' :: b) = some p) :
    a <+: p := by
  rw [parentPath_eq_splitLast] at h
  obtain ⟨⟨c, d⟩, hcut, rfl⟩ := Option.map_eq_some_iff.1 h
  exact (Foundations.Search.prefix_of_splitLast hcut).1

theorem conflictRemotePath_ne (path name : Str) : conflictRemotePath path name ≠ path := by
  intro h
  have hnamespace : conflictPrefix = ".stratosync-conflicts".toList ++ ['/'] := rfl
  rw [conflictRemotePath] at h
  cases hp : parentPath path with
  | none =>
    rw [hp] at h
    have hslash : '/' ∈ path := by
      rw [← h]
      exact List.mem_append_left _ (by decide)
    rw [parentPath_eq_splitLast, Option.map_eq_none_iff] at hp
    exact Foundations.Search.splitLast_eq_none.1 hp hslash
  | some p =>
    rw [hp] at h
    dsimp only [Option.getD_some] at h
    split at h
    · rename_i hnil
      rw [hnamespace, List.append_assoc, List.singleton_append] at h
      rw [← h] at hp
      have := (prefix_of_parentPath hp).length_le
      rw [hnil] at this
      exact absurd this (by decide)
    · rw [← List.append_assoc] at h
      rw [← h] at hp
      have := (prefix_of_parentPath hp).length_le
      have hpos : 0 < conflictPrefix.length := by decide
      rw [List.length_append] at this
      omega

/-! ## The remote -/

section Remote

variable {r r' : Remote} {path : Str} {data : Bytes} {etag : Option Str} {mtime : ℕ}

/-- An upload without a condition goes through unless a directory is in its way. -/
theorem upload_none (data : Bytes) (etag : Option Str) (mtime : ℕ) (h : r path ≠ some .dir) :
    ∃ o, o.data = data ∧ r.upload path none data etag mtime = .ok (r.put path o) := by
  refine ⟨⟨data, etag, mtime, (r.object path).bind RemoteObject.itemId⟩, rfl, ?_⟩
  rw [Remote.upload, if_neg h]
  rfl

theorem put_of_upload (h : r.upload path none data etag mtime = .ok r') :
    ∃ o, o.data = data ∧ r' = r.put path o := by
  obtain ⟨⟨id, rfl⟩, -⟩ := Remote.upload_ok h
  exact ⟨_, rfl, rfl⟩

theorem ne_dir_of_object {o : RemoteObject} (h : r.object path = some o) : r path ≠ some .dir := by
  intro hd
  rw [Remote.object, hd] at h
  cases h

theorem stat_of_object {o : RemoteObject} (h : r.object path = some o) :
    ∃ metadata, r.stat path = some metadata ∧ metadata.size = o.data.length := by
  rw [Remote.object] at h
  rw [Remote.stat]
  split at h
  · rename_i o' ho
    obtain rfl := Option.some.inj h
    rw [ho]
    exact ⟨_, rfl, rfl⟩
  · cases h

end Remote

/-! ## What is to hold -/

/-- A conflict: the local and the remote version of a file, and what the resolver finds. -/
structure ResolveCase where
  tools : MergeTools
  entry : FileEntry
  cachePath : PathBuf
  start : Holdings
  loc : Bytes
  remote : RemoteObject
  indexed : start.world.db.getByInode entry.inode = some entry
  inDirectory : entry.parent.isSome = true
  cached : entry.cachePath = some cachePath
  hasLocal : start.world.fs.files cachePath = some loc
  hasRemote : start.world.remote.object entry.remotePath = some remote
  writable : start.world.fs.Writable cachePath

namespace ResolveCase

variable (c : ResolveCase)

/-- Where the resolver puts a conflict file: `seen` is the content it hashes for the name. -/
def siblingPath (suffix : ConflictSuffix) : Str :=
  c.entry.conflictPath (makeConflictName c.entry.name suffix)

/-- A conflict file of the entry holds the local bytes. -/
def Held (r : Remote) : Prop :=
  ∃ suffix, (r.object (c.siblingPath suffix)).map RemoteObject.data = some c.loc

/-- The local bytes were merged with the remote ones, and the result is at the canonical path. -/
def Merged (h : Holdings) : Prop :=
  ∃ hash base text, c.start.getBaseHash c.entry.inode = some hash ∧
    c.start.objects hash = some base ∧ c.tools.mergeFile c.loc base c.remote.data = .clean text ∧
    (h.world.remote.object c.entry.remotePath).map RemoteObject.data = some text

/-- The local bytes are stored in a conflict file, the remote ones are where they were, and no
conflict file there was before has other content now. -/
def Stored (h : Holdings) : Prop :=
  c.Held h.world.remote ∧
    (h.world.remote.object c.entry.remotePath).map RemoteObject.data = some c.remote.data ∧
    ∀ suffix o, c.start.world.remote.object (c.siblingPath suffix) = some o →
      (h.world.remote.object (c.siblingPath suffix)).map RemoteObject.data = some o.data

/-- What a resolution that has come this far owes. -/
def Kept (h : Holdings) : ResolveNext → Prop
  | .goto _ => True
  | .ok how => c.loc = c.remote.data ∨ (how = .merged ∧ c.Merged h) ∨ c.Stored h
  | .err => h.world.fs.files c.cachePath = some c.loc ∨ c.Held h.world.remote

/-- **No resolution of the conflict discards a side**, whatever its calls run into. -/
def KeepsBoth : Prop :=
  ∀ envs, c.Kept (resolveFrom c.tools c.entry c.cachePath c.start .equalStat envs).1
    (resolveFrom c.tools c.entry c.cachePath c.start .equalStat envs).2

/-! ## The condition -/

/-- The conflict file with this suffix can be entered in the index. -/
def Fits (suffix : ConflictSuffix) : Prop :=
  ∀ r ∈ c.start.world.db.fileIndex.rows, r.mountId = c.entry.mountId →
    r.remotePath ≠ c.siblingPath suffix ∧
      (r.parent = c.entry.parent → r.name ≠ makeConflictName c.entry.name suffix)

/-- A conflict file with this content, named after what was seen of it, replaces no other. -/
def SiblingSafe (content : Bytes) : Prop :=
  c.loc = c.remote.data ∨ ∀ ts seen, (∀ d ∈ seen, d = content) → c.Fits (.ofContent ts seen) →
    ∀ o ∈ c.start.world.remote.object (c.siblingPath (.ofContent ts seen)), o.data = content

/-- Storing this content as the conflict file leaves a conflict file with the local bytes. -/
def Survives (content : Bytes) : Prop :=
  ∀ ts seen, (∀ d ∈ seen, d = content) → content = c.loc ∨
    ∃ suffix, c.siblingPath suffix ≠ c.siblingPath (.ofContent ts seen) ∧
      (c.start.world.remote.object (c.siblingPath suffix)).map RemoteObject.data = some c.loc

/-- The local side of the merge: the cache file, unless the remote version was saved to it. -/
def mergeInput : Bytes :=
  if remoteTmp c.cachePath = c.cachePath then c.remote.data else c.loc

/-- What the merge with this base gives. -/
def outcome (base : Bytes) : MergeOutcome := c.tools.mergeFile c.mergeInput base c.remote.data

/-- A merge with this base loses nothing. -/
structure MergeSafe (base : Bytes) : Prop where
  /-- The temporary file is another one. -/
  tmp : remoteTmp c.cachePath = c.cachePath → c.Held c.start.world.remote
  /-- What is written over the local bytes does not matter. -/
  text : ∀ text, c.outcome base = .clean text ∨ c.outcome base = .conflictMarkers text →
    c.Held c.start.world.remote ∨ (c.loc = [] ∧ text = [])
  clean : ∀ text, c.outcome base = .clean text → c.loc = c.remote.data ∨
    c.tools.mergeFile c.loc base c.remote.data = .clean text ∨ text = c.remote.data
  /-- The text with markers may be stored as the conflict file. -/
  markers : ∀ text, c.outcome base = .conflictMarkers text → remoteTmp c.cachePath ≠ c.cachePath →
    c.SiblingSafe text ∧ c.Survives text

/-- The merge is tried, with this base. -/
def TriesMerge (base : Bytes) : Prop :=
  ∃ hash h, mergeBase c.tools c.start c.entry c.cachePath = some hash ∧
    c.start.objects hash = some base ∧
    c.start.save (remoteTmp c.cachePath) c.remote.data = some h

variable {c}

/-! ## What is where at each step -/

theorem siblingPath_ne (suffix : ConflictSuffix) : c.siblingPath suffix ≠ c.entry.remotePath :=
  conflictRemotePath_ne _ _

theorem object_put_canonical (r : Remote) (o : RemoteObject) (suffix : ConflictSuffix) :
    (r.put c.entry.remotePath o).object (c.siblingPath suffix) =
      r.object (c.siblingPath suffix) := by
  rw [Remote.object_put, if_neg (siblingPath_ne suffix)]

theorem held_put_canonical (o : RemoteObject) (h : c.Held c.start.world.remote) :
    c.Held (c.start.world.remote.put c.entry.remotePath o) := by
  obtain ⟨suffix, hs⟩ := h
  exact ⟨suffix, by rw [object_put_canonical, hs]⟩

variable (c) in
/-- The state before the conflict file is stored: what the cache file holds may be stored, and
where it is not the local bytes, they are in a conflict file. -/
structure Unstored (h : Holdings) : Prop where
  db : h.world.db = c.start.world.db
  remote : h.world.remote = c.start.world.remote
  local_ : h.world.fs.files c.cachePath = some c.loc ∨ c.Held c.start.world.remote
  safe : ∀ d ∈ h.world.fs.files c.cachePath, c.SiblingSafe d ∧ c.Survives d

variable (c) in
/-- The remote after the conflict file of this name is stored. -/
structure StoredAs (name : Str) (r : Remote) : Prop where
  held : c.Held r
  put : ∃ ts seen o, name = makeConflictName c.entry.name (.ofContent ts seen) ∧
    (∀ d ∈ seen, d = o.data) ∧ c.SiblingSafe o.data ∧
    r = c.start.world.remote.put (c.siblingPath (.ofContent ts seen)) o

variable (c) in
/-- The rows after the resolver has recorded the remote version. -/
def Recorded (db : Db) : Prop :=
  ∃ n e m k, c.start.world.db.setCached c.entry.inode c.cachePath n e m k = some db

variable (c) in
/-- The merge was clean and gave this text. -/
def MergedTo (text : Bytes) : Prop := ∃ base, c.TriesMerge base ∧ c.outcome base = .clean text

variable (c) in
/-- **What is where when the resolver has come to a step.** -/
def Known (h : Holdings) : ResolvePc → Prop
  | .equalStat | .base => h = c.start
  | .equalFetch md =>
    h = c.start ∧ md.size = c.remote.data.length ∧ c.loc.length = c.remote.data.length
  | .equalCompare md data =>
    h = c.start ∧ md.size = c.remote.data.length ∧ c.loc.length = c.remote.data.length ∧
      data = c.remote.data
  | .equalRecord _ => h = c.start ∧ c.loc = c.remote.data
  | .mergeFetch hash =>
    h = c.start ∧ mergeBase c.tools c.start c.entry c.cachePath = some hash
  | .mergeSave hash data =>
    h = c.start ∧ mergeBase c.tools c.start c.entry c.cachePath = some hash ∧
      data = c.remote.data
  | .merge hash =>
    mergeBase c.tools c.start c.entry c.cachePath = some hash ∧
      c.start.save (remoteTmp c.cachePath) c.remote.data = some h
  | .writeMerged text clean =>
    c.start.save (remoteTmp c.cachePath) c.remote.data = some h ∧
      ∃ base, c.TriesMerge base ∧
        c.outcome base = if clean then .clean text else .conflictMarkers text
  | .readMerged _ =>
    h.world.remote = c.start.world.remote ∧
      ∃ text, c.MergedTo text ∧ h.world.fs.files c.cachePath = some text
  | .putMerged _ text =>
    h.world.remote = c.start.world.remote ∧ c.MergedTo text ∧
      h.world.fs.files c.cachePath = some text
  | .statMerged _ | .recordMerged _ _ =>
    ∃ o, h.world.remote = c.start.world.remote.put c.entry.remotePath o ∧ c.MergedTo o.data ∧
      h.world.fs.files c.cachePath = some o.data
  | .nameSibling => c.Unstored h
  | .readSibling name =>
    c.Unstored h ∧ ∃ ts seen, name = makeConflictName c.entry.name (.ofContent ts seen) ∧
      ∀ d ∈ seen, h.world.fs.files c.cachePath = some d
  | .putSibling name data =>
    c.Unstored h ∧ h.world.fs.files c.cachePath = some data ∧
      ∃ ts seen, name = makeConflictName c.entry.name (.ofContent ts seen) ∧ ∀ d ∈ seen, d = data
  | .statUploaded name | .fetchRemote name | .saveRemote name _ | .statRemote name
  | .recordRemote name _ _ =>
    h.world.db = c.start.world.db ∧ c.StoredAs name h.world.remote
  | .statSibling name _ | .insertSibling name _ _ =>
    c.Recorded h.world.db ∧ c.StoredAs name h.world.remote

variable (c) in
/-- What a step has to leave: the facts of the next one, or what its result owes. -/
def Leaves : Holdings × ResolveNext → Prop
  | (h, .goto pc) => c.Known h pc
  | (h, .ok how) => c.Kept h (.ok how)
  | (h, .err) => c.Kept h .err

theorem unstored_start (hs : c.SiblingSafe c.loc) : c.Unstored c.start where
  db := rfl
  remote := rfl
  local_ := .inl c.hasLocal
  safe := by
    intro d hd
    obtain rfl := Option.some.inj (c.hasLocal.symm.trans hd)
    exact ⟨hs, fun _ _ _ => .inl rfl⟩

/-! ### The comparison -/

theorem filesEqual_eq {a b : Bytes} {size : ℕ} (ha : a.length = size) (hb : b.length = size)
    (h : filesEqual a b size = true) : a = b := by
  rw [filesEqual, Bool.and_eq_true, decide_eq_true_eq, List.take_of_length_le ha.le,
    List.take_of_length_le hb.le] at h
  exact h.2

theorem kept_err_of_eq_start {h : Holdings} (h₀ : h = c.start) : c.Kept h .err :=
  .inl (h₀ ▸ c.hasLocal)

/-- The steps that compare, and the one that looks for a base. -/
theorem leaves_of_comparing (hs : c.SiblingSafe c.loc) {h : Holdings} {pc : ResolvePc}
    (hk : c.Known h pc) (env : ResolveEnv)
    (hpc : pc = .equalStat ∨ (∃ md, pc = .equalFetch md) ∨ (∃ md d, pc = .equalCompare md d) ∨
      (∃ md, pc = .equalRecord md) ∨ pc = .base) :
    c.Leaves (pc.tick c.tools c.entry c.cachePath h env) := by
  obtain rfl | ⟨md, rfl⟩ | ⟨md, d, rfl⟩ | ⟨md, rfl⟩ | rfl := hpc
  · obtain rfl : h = c.start := hk
    obtain ⟨md, hmd, hsize⟩ := stat_of_object c.hasRemote
    simp only [ResolvePc.tick, hmd, c.hasLocal]
    split
    · rename_i hmd' hd
      obtain rfl := Option.some.inj hmd'
      obtain rfl := Option.some.inj hd
      split
      · rename_i hlen
        exact ⟨rfl, hsize, hlen.trans hsize⟩
      · rfl
    · rfl
  · obtain ⟨rfl, hsize, hlen⟩ := hk
    simp only [ResolvePc.tick, c.hasRemote]
    split
    · rename_i ho
      obtain rfl := Option.some.inj ho
      exact ⟨rfl, hsize, hlen, rfl⟩
    · rfl
  · obtain ⟨rfl, hsize, hlen, rfl⟩ := hk
    simp only [ResolvePc.tick, c.hasLocal]
    split
    · rename_i hd
      split at hd
      · cases hd
      obtain rfl := Option.some.inj hd
      split
      · exact ⟨rfl, filesEqual_eq (hlen.trans hsize.symm) hsize.symm ‹_›⟩
      · rfl
    · rfl
  · obtain ⟨rfl, heq⟩ := hk
    simp only [ResolvePc.tick, c.hasLocal]
    split
    · exact .inl heq
    · exact kept_err_of_eq_start rfl
  · obtain rfl : h = c.start := hk
    simp only [ResolvePc.tick]
    split
    · exact kept_err_of_eq_start rfl
    · split
      · exact ⟨rfl, ‹_›⟩
      · exact unstored_start hs

/-! ### The merge -/

/-- The files the merge finds after the remote version is saved to the temporary file. -/
theorem files_of_save {h : Holdings}
    (hsave : c.start.save (remoteTmp c.cachePath) c.remote.data = some h) :
    h.world.db = c.start.world.db ∧ h.world.remote = c.start.world.remote ∧
      h.objects = c.start.objects ∧ h.world.fs.files c.cachePath = some c.mergeInput ∧
      h.world.fs.files (remoteTmp c.cachePath) = some c.remote.data := by
  obtain ⟨fs, rfl, hfs⟩ := Holdings.save_spec hsave
  refine ⟨rfl, rfl, rfl, ?_, (hfs _).trans (if_pos rfl)⟩
  refine (hfs _).trans ?_
  rw [mergeInput]
  by_cases htmp : remoteTmp c.cachePath = c.cachePath
  · rw [if_pos htmp, if_pos htmp.symm]
  · rw [if_neg htmp, if_neg fun h => htmp h.symm, c.hasLocal]

/-- What the three-way merge gives on those files. -/
theorem tryThreeWayMerge_of_save {h : Holdings} {hash : Str} {base : Bytes}
    (hsave : c.start.save (remoteTmp c.cachePath) c.remote.data = some h)
    (hbase : c.start.objects hash = some base) :
    tryThreeWayMerge c.tools (h.objects hash) (h.world.fs.files c.cachePath)
      (h.world.fs.files (remoteTmp c.cachePath)) = c.outcome base := by
  obtain ⟨-, -, hobjects, hcache, htmp⟩ := files_of_save hsave
  rw [hobjects, hbase, hcache, htmp]
  rfl

/-- The state in which a merge that failed leaves the resolver. -/
theorem unstored_of_save {h : Holdings} (hs : c.SiblingSafe c.loc)
    (htmp : remoteTmp c.cachePath = c.cachePath → c.Held c.start.world.remote)
    (hsave : c.start.save (remoteTmp c.cachePath) c.remote.data = some h) :
    c.Unstored (h.withFs (h.world.fs.removeIfPresent (some (remoteTmp c.cachePath)))) := by
  obtain ⟨hdb, hremote, -, hcache, -⟩ := files_of_save hsave
  have hfile : (h.world.fs.removeIfPresent (some (remoteTmp c.cachePath))).files c.cachePath =
      if remoteTmp c.cachePath = c.cachePath then none else some c.loc := by
    rw [CacheFs.files_removeIfPresent_some, hcache, mergeInput]
    by_cases hp : remoteTmp c.cachePath = c.cachePath
    · rw [if_pos hp, if_pos hp.symm, if_pos hp]
    · rw [if_neg hp, if_neg hp, if_neg fun h => hp h.symm]
  refine ⟨hdb, hremote, ?_, fun d hd => ?_⟩
  · by_cases hp : remoteTmp c.cachePath = c.cachePath
    · exact .inr (htmp hp)
    · exact .inl (hfile.trans (if_neg hp))
  · obtain rfl : c.loc = d := by
      rw [Holdings.withFs, hfile] at hd
      split at hd
      · cases hd
      · exact Option.some.inj hd
    exact ⟨hs, fun _ _ _ => .inl rfl⟩

/-- What is written over the local bytes does not matter where the merge is safe. -/
theorem held_or_eq_of_text {base text : Bytes} (hm : c.MergeSafe base) {clean : Bool}
    (ho : c.outcome base = if clean then .clean text else .conflictMarkers text) :
    c.Held c.start.world.remote ∨ (c.loc = [] ∧ text = []) := by
  refine hm.text text ?_
  cases clean with
  | true => exact .inl ho
  | false => exact .inr ho

theorem kept_err_of_mergedTo (hm : ∀ base, c.TriesMerge base → c.MergeSafe base) {text : Bytes}
    (ht : c.MergedTo text) {h : Holdings} (hf : h.world.fs.files c.cachePath = some text)
    (hheld : c.Held c.start.world.remote → c.Held h.world.remote) : c.Kept h .err := by
  obtain ⟨base, hbase, ho⟩ := ht
  obtain held | ⟨hl, rfl⟩ := (hm base hbase).text text (.inl ho)
  · exact .inr (hheld held)
  · exact .inl (hf.trans (congrArg some hl.symm))

/-- The steps up to the merge. -/
theorem leaves_of_fetching (hs : c.SiblingSafe c.loc)
    (hm : ∀ base, c.TriesMerge base → c.MergeSafe base) {h : Holdings} {pc : ResolvePc}
    (hk : c.Known h pc) (env : ResolveEnv)
    (hpc : (∃ hash, pc = .mergeFetch hash) ∨ (∃ hash d, pc = .mergeSave hash d) ∨
      ∃ hash, pc = .merge hash) :
    c.Leaves (pc.tick c.tools c.entry c.cachePath h env) := by
  obtain ⟨hash, rfl⟩ | ⟨hash, d, rfl⟩ | ⟨hash, rfl⟩ := hpc
  · obtain ⟨rfl, hhash⟩ := hk
    simp only [ResolvePc.tick, c.hasRemote]
    split
    · rename_i ho
      obtain rfl := Option.some.inj ho
      exact ⟨rfl, hhash, rfl⟩
    · exact unstored_start hs
  · obtain ⟨rfl, hhash, rfl⟩ := hk
    simp only [ResolvePc.tick]
    split
    · rename_i h' hsave
      split at hsave
      · cases hsave
      · exact ⟨hhash, hsave⟩
    · exact unstored_start hs
  · obtain ⟨hhash, hsave⟩ := hk
    obtain ⟨-, base, hbase⟩ := mergeBase_spec hhash
    have htries : c.TriesMerge base := ⟨hash, h, hhash, hbase, hsave⟩
    simp only [ResolvePc.tick, tryThreeWayMerge_of_save hsave hbase]
    split
    · rename_i text ho
      split at ho
      · cases ho
      · exact ⟨hsave, base, htries, ho⟩
    · rename_i text ho
      split at ho
      · cases ho
      · exact ⟨hsave, base, htries, ho⟩
    · exact unstored_of_save hs (hm base htries).tmp hsave

/-- The write of the merged text. -/
theorem leaves_of_writing (hm : ∀ base, c.TriesMerge base → c.MergeSafe base) {h : Holdings}
    {text : Bytes} {clean : Bool} (hk : c.Known h (.writeMerged text clean)) (env : ResolveEnv) :
    c.Leaves ((ResolvePc.writeMerged text clean).tick c.tools c.entry c.cachePath h env) := by
  obtain ⟨hsave, base, htries, ho⟩ := hk
  obtain ⟨hdb, hremote, -, hcache, -⟩ := files_of_save hsave
  have hsafe := hm base htries
  have hheld := held_or_eq_of_text hsafe ho
  obtain ⟨fs, hw, hfs⟩ | ⟨fs, hw, hfs⟩ := h.write_cases env c.cachePath text
  · simp only [ResolvePc.tick, hw]
    have hfile : fs.files c.cachePath = some text := (hfs _).trans (if_pos rfl)
    cases clean with
    | true => exact ⟨hremote, text, ⟨base, htries, ho⟩, hfile⟩
    | false =>
      have hremoved : (fs.removeIfPresent (some (remoteTmp c.cachePath))).files c.cachePath =
          if c.cachePath = remoteTmp c.cachePath then none else some text := by
        rw [CacheFs.files_removeIfPresent_some, hfile]
      refine ⟨hdb, hremote, ?_, fun d hd => ?_⟩
      · obtain held | ⟨hl, rfl⟩ := hheld
        · exact .inr held
        · by_cases htmp : remoteTmp c.cachePath = c.cachePath
          · exact .inr (hsafe.tmp htmp)
          · refine .inl (hremoved.trans ?_)
            rw [if_neg fun h => htmp h.symm, hl]
      · rw [Holdings.withFs] at hd
        change (fs.removeIfPresent (some (remoteTmp c.cachePath))).files c.cachePath = some d at hd
        rw [hremoved] at hd
        split at hd
        · cases hd
        · rename_i htmp
          obtain rfl := Option.some.inj hd
          exact hsafe.markers text ho fun h => htmp h.symm
  · simp only [ResolvePc.tick, hw]
    obtain held | ⟨hl, rfl⟩ := hheld
    · exact .inr (hremote ▸ held)
    · obtain hfs | ⟨n, hfs⟩ := hfs
      · by_cases htmp : remoteTmp c.cachePath = c.cachePath
        · exact .inr (hremote ▸ hsafe.tmp htmp)
        · refine .inl (hfs.trans (hcache.trans ?_))
          rw [mergeInput, if_neg htmp]
      · refine .inl (hfs.trans ?_)
        rw [List.take_nil, hl]

/-- The steps that store a clean merge. -/
theorem leaves_of_merged (hm : ∀ base, c.TriesMerge base → c.MergeSafe base) {h : Holdings}
    {pc : ResolvePc} (hk : c.Known h pc) (env : ResolveEnv)
    (hpc : (∃ n, pc = .readMerged n) ∨ (∃ n d, pc = .putMerged n d) ∨ (∃ n, pc = .statMerged n) ∨
      ∃ n md, pc = .recordMerged n md) :
    c.Leaves (pc.tick c.tools c.entry c.cachePath h env) := by
  obtain ⟨n, rfl⟩ | ⟨n, d, rfl⟩ | ⟨n, rfl⟩ | ⟨n, md, rfl⟩ := hpc
  · obtain ⟨hremote, text, ht, hf⟩ := hk
    simp only [ResolvePc.tick, hf]
    split
    · rename_i hd
      obtain rfl := Option.some.inj hd
      exact ⟨hremote, ht, hf⟩
    · exact kept_err_of_mergedTo hm ht hf (hremote ▸ id)
  · obtain ⟨hremote, ht, hf⟩ := hk
    simp only [ResolvePc.tick]
    split
    · rename_i hup
      obtain ⟨o, rfl, hput⟩ := put_of_upload hup
      exact ⟨o, hput.trans (congrArg (Remote.put · _ _) hremote), ht, hf⟩
    · exact kept_err_of_mergedTo hm ht hf (hremote ▸ id)
  · obtain ⟨o, hremote, ht, hf⟩ := hk
    simp only [ResolvePc.tick]
    split
    · exact ⟨o, hremote, ht, hf⟩
    · exact kept_err_of_mergedTo hm ht hf fun held => hremote ▸ held_put_canonical o held
  · obtain ⟨o, hremote, ht, hf⟩ := hk
    simp only [ResolvePc.tick]
    split
    · obtain ⟨base, ⟨hash, h₁, hhash, hbase, hsave⟩, ho⟩ := ht
      have hsafe := hm base ⟨hash, h₁, hhash, hbase, hsave⟩
      have hcanonical : (h.world.remote.object c.entry.remotePath).map RemoteObject.data =
          some o.data := by
        rw [hremote, Remote.object_put, if_pos rfl, Option.map_some]
      obtain heq | hclean | htext := hsafe.clean o.data ho
      · exact .inl heq
      · exact .inr (.inl ⟨rfl, hash, base, o.data, (mergeBase_spec hhash).1, hbase, hclean,
          hcanonical⟩)
      · by_cases htmp : remoteTmp c.cachePath = c.cachePath
        · refine .inr (.inr ⟨?_, hcanonical.trans (congrArg some htext), fun suffix o' ho' => ?_⟩)
          · exact hremote ▸ held_put_canonical o (hsafe.tmp htmp)
          · change (h.world.remote.object _).map _ = _
            rw [hremote, object_put_canonical, ho', Option.map_some]
        · refine .inr (.inl ⟨rfl, hash, base, o.data, (mergeBase_spec hhash).1, hbase, ?_,
            hcanonical⟩)
          rw [outcome, mergeInput, if_neg htmp] at ho
          exact ho
    · exact kept_err_of_mergedTo hm ht hf fun held => hremote ▸ held_put_canonical o held

/-! ### The conflict file -/

/-- After the remote version is recorded, the conflict file can be entered exactly where its path
and its name are free. -/
theorem insertFile_isSome_of_recorded {db : Db} (hrec : c.Recorded db) (suffix : ConflictSuffix)
    (size mtime : ℕ) (etag : Option Str) :
    (db.insertFile (conflictRow c.entry (makeConflictName c.entry.name suffix)
      (c.siblingPath suffix) size mtime etag)).isSome = true ↔ c.Fits suffix := by
  obtain ⟨n, e, m, k, hset⟩ := hrec
  have hrows := Db.setCached_rows hset
  obtain ⟨parent, hp⟩ := Option.isSome_iff_exists.1 c.inDirectory
  obtain ⟨q, hq, hqp⟩ := c.start.world.db.fileIndex.ok.parentExists c.entry
    (Db.mem_rows_of_getByInode c.indexed) parent hp
  have hparent : (db.getByInode (c.entry.parent.getD fuseRootInode)).isSome = true := by
    rw [hp, Option.getD_some, hrows.rows, ← hqp, Db.getByInode_of_mem hq]
    split <;> rfl
  refine (Db.insertFile_isSome_iff hparent fun _ h => ?_).trans ?_
  · exact absurd h Bool.false_ne_true
  rw [Fits]
  change (∀ r ∈ db.fileIndex.rows, r.mountId = c.entry.mountId → r.remotePath ≠ _ ∧
    (r.parent = some (c.entry.parent.getD fuseRootInode) → r.name ≠ _)) ↔ _
  rw [hp, Option.getD_some]
  constructor
  · intro h r hr
    have hri := hrows.rows r.inode
    rw [Db.getByInode_of_mem hr, Option.map_some] at hri
    split at hri
    · have hrow := h _ (Db.mem_rows_of_getByInode hri)
      exact hrow
    · exact h r (Db.mem_rows_of_getByInode hri)
  · intro h r hr
    obtain ⟨r₀, h₀, ⟨-, rfl⟩ | ⟨-, rfl⟩⟩ := hrows.inv (Db.getByInode_of_mem hr)
    · exact h r₀ (Db.mem_rows_of_getByInode h₀)
    · exact h r (Db.mem_rows_of_getByInode h₀)

/-- A conflict file that could be entered in the index replaced no other. -/
theorem stored_of_storedAs {name : Str} {h : Holdings} (hst : c.StoredAs name h.world.remote)
    (hfits : ∀ suffix, name = makeConflictName c.entry.name suffix → c.Fits suffix)
    (hne : c.loc ≠ c.remote.data) : c.Stored h := by
  obtain ⟨held, ts, seen, o, hname, hseen, hsafe, hremote⟩ := hst
  refine ⟨held, ?_, fun suffix o' ho' => ?_⟩
  · rw [hremote, Remote.object_put, if_neg fun h => siblingPath_ne _ h.symm, c.hasRemote]
    rfl
  · rw [hremote, Remote.object_put]
    split
    · rename_i hpath
      rw [hpath] at ho'
      have hsame := (hsafe.resolve_left hne) ts seen hseen (hfits _ hname) o' ho'
      rw [hsame]
      rfl
    · rw [ho']
      rfl

/-- The steps up to the upload of the conflict file. -/
theorem leaves_of_naming {h : Holdings} {pc : ResolvePc} (hk : c.Known h pc) (env : ResolveEnv)
    (hpc : pc = .nameSibling ∨ (∃ name, pc = .readSibling name) ∨
      ∃ name d, pc = .putSibling name d) :
    c.Leaves (pc.tick c.tools c.entry c.cachePath h env) := by
  have hfail : ∀ h : Holdings, c.Unstored h → c.Kept h .err := fun h hu =>
    hu.local_.imp_right fun held => hu.remote ▸ held
  obtain rfl | ⟨name, rfl⟩ | ⟨name, d, rfl⟩ := hpc
  · refine ⟨hk, env.ts, _, rfl, fun d hd => ?_⟩
    split at hd
    · cases hd
    · exact hd
  · obtain ⟨hu, ts, seen, rfl, hseen⟩ := hk
    simp only [ResolvePc.tick]
    split
    · rename_i data hdata
      exact ⟨hu, hdata, ts, seen, rfl, fun d hd =>
        Option.some.inj ((hseen d hd).symm.trans hdata)⟩
    · exact hfail h hu
  · obtain ⟨hu, hd, ts, seen, rfl, hseen⟩ := hk
    simp only [ResolvePc.tick]
    split
    · rename_i r' _ hup
      obtain ⟨o, rfl, hput⟩ := put_of_upload hup
      rw [hu.remote] at hput
      obtain ⟨hsafe, hsurvives⟩ := hu.safe o.data hd
      refine ⟨hu.db, ?_, ts, seen, o, rfl, hseen, hsafe, hput⟩
      -- the local bytes are those just stored, or in a conflict file at another path
      change r' = c.start.world.remote.put (c.siblingPath (.ofContent ts seen)) o at hput
      change c.Held r'
      rw [hput]
      obtain heq | ⟨suffix, hne, hheld⟩ := hsurvives ts seen hseen
      · refine ⟨.ofContent ts seen, ?_⟩
        rw [Remote.object_put, if_pos rfl, Option.map_some, heq]
      · refine ⟨suffix, ?_⟩
        rw [Remote.object_put, if_neg hne, hheld]
    · exact hfail h hu

/-- The steps after the upload of the conflict file. -/
theorem leaves_of_storing {h : Holdings} {pc : ResolvePc} (hk : c.Known h pc) (env : ResolveEnv)
    (hpc : (∃ name, pc = .statUploaded name) ∨ (∃ name, pc = .fetchRemote name) ∨
      (∃ name d, pc = .saveRemote name d) ∨ (∃ name, pc = .statRemote name) ∨
      (∃ name n md, pc = .recordRemote name n md) ∨ (∃ name n, pc = .statSibling name n) ∨
      ∃ name n e, pc = .insertSibling name n e) :
    c.Leaves (pc.tick c.tools c.entry c.cachePath h env) := by
  obtain ⟨name, rfl⟩ | ⟨name, rfl⟩ | ⟨name, d, rfl⟩ | ⟨name, rfl⟩ | ⟨name, n, md, rfl⟩ |
    ⟨name, n, rfl⟩ | ⟨name, n, e, rfl⟩ := hpc
  · simp only [ResolvePc.tick]
    split
    · exact hk
    · exact .inr hk.2.held
  · simp only [ResolvePc.tick]
    split
    · exact hk
    · exact .inr hk.2.held
  · simp only [ResolvePc.tick]
    split
    · rename_i h' hsave
      obtain ⟨-, fs, rfl, -⟩ := Holdings.tried_save_spec hsave
      exact hk
    · exact .inr hk.2.held
  · simp only [ResolvePc.tick]
    split
    · exact .inr hk.2.held
    · split <;> exact hk
  · simp only [ResolvePc.tick]
    split
    · rename_i db hdb
      obtain ⟨-, hset⟩ := tryDb_eq_some.1 hdb
      rw [hk.1] at hset
      exact ⟨⟨_, _, _, _, hset⟩, hk.2⟩
    · exact .inr hk.2.held
  · simp only [ResolvePc.tick]
    split <;> exact hk
  · obtain ⟨hrec, hst⟩ := hk
    simp only [ResolvePc.tick]
    split
    · rename_i db hdb
      obtain ⟨-, hins⟩ := tryDb_eq_some.1 hdb
      by_cases heq : c.loc = c.remote.data
      · exact .inl heq
      · have hst' : c.StoredAs name (h.withDb db).world.remote := hst
        refine .inr (.inr (stored_of_storedAs hst' (fun suffix hname => ?_) heq))
        refine (insertFile_isSome_of_recorded hrec suffix n env.mtime e).1 ?_
        rw [← hname, ← Option.isSome_map, siblingPath, ← hname, hins]
        rfl
    · exact .inr hst.held

/-! ### Whole resolutions -/

/-- **Every step keeps what is known.** -/
theorem leaves_tick (hs : c.SiblingSafe c.loc) (hm : ∀ base, c.TriesMerge base → c.MergeSafe base)
    {h : Holdings} {pc : ResolvePc} (hk : c.Known h pc) (env : ResolveEnv) :
    c.Leaves (pc.tick c.tools c.entry c.cachePath h env) := by
  cases pc with
  | equalStat | equalFetch | equalCompare | equalRecord | base =>
    exact leaves_of_comparing hs hk env (by simp)
  | mergeFetch | mergeSave | merge => exact leaves_of_fetching hs hm hk env (by simp)
  | writeMerged text clean => exact leaves_of_writing hm hk env
  | readMerged | putMerged | statMerged | recordMerged => exact leaves_of_merged hm hk env (by simp)
  | nameSibling | readSibling | putSibling => exact leaves_of_naming hk env (by simp)
  | _ => exact leaves_of_storing hk env (by simp)

theorem keepsBoth_of_safe (hs : c.SiblingSafe c.loc)
    (hm : ∀ base, c.TriesMerge base → c.MergeSafe base) : c.KeepsBoth := by
  intro envs
  have h₀ : c.Leaves (c.start, .goto .equalStat) := show c.Known c.start .equalStat from rfl
  have h := runFrom_induct (fun _ _ env hk => leaves_tick hs hm hk env) h₀ envs
  change c.Leaves (resolveFrom c.tools c.entry c.cachePath c.start .equalStat envs) at h
  cases hr : resolveFrom c.tools c.entry c.cachePath c.start .equalStat envs with
  | mk h' next =>
    rw [hr] at h
    cases next with
    | goto => trivial
    | ok | err => exact h

end ResolveCase

end Stratosync

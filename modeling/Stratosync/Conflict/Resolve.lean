import Stratosync.Conflict.BaseStore
import Stratosync.Foundations.Tasks
import Stratosync.Sync.ConflictFiles

/-!
# The conflict resolver

`resolve`, one call at a time: the comparison of the local and the remote bytes, the three-way
merge, and the fallback that keeps both. A transfer is two steps, one that reads its source and
one that writes its target; rclone writes a file beside its target and renames it, so a download
that fails leaves the target alone. The write of the merged text is the program's own and may end
after some of it.
-/

namespace Stratosync

open Foundations.Tasks

/-- What a step takes from outside, beside what a step of the daemon takes: the bytes a failing
write of a local file leaves, if it got to open it, and the clock. -/
structure ResolveEnv extends Env where
  written : Option ℕ
  ts : Timestamp

/-- A call that succeeds at this time. -/
def ResolveEnv.fine (ts : Timestamp) : ResolveEnv := { Env.fine with written := none, ts }

/-- A call that fails; a write gets to open the file. -/
def ResolveEnv.failing : ResolveEnv :=
  { fault := true, error := some .fatal, etag := none, mtime := 0, written := some 0
    ts := exampleSuffix.ts }

/-- How a conflict was resolved. -/
inductive Resolved
  | identical
  | merged
  | keptBoth
  deriving DecidableEq, Repr

/-- Where `resolve` is. -/
inductive ResolvePc
  /-- `local_eq_remote`: about to fetch the metadata of the remote object. -/
  | equalStat
  /-- The sizes are equal; about to download the object for comparison. -/
  | equalFetch (metadata : RemoteMetadata)
  | equalCompare (metadata : RemoteMetadata) (remote : Bytes)
  /-- The bytes are equal; about to record the etag. -/
  | equalRecord (metadata : RemoteMetadata)
  /-- About to look for a base version. -/
  | base
  | mergeFetch (hash : Str)
  /-- About to save the remote version to the temporary file. -/
  | mergeSave (hash : Str) (remote : Bytes)
  | merge (hash : Str)
  /-- About to write the merged text to the cache file. -/
  | writeMerged (text : Bytes) (clean : Bool)
  | readMerged (size : ℕ)
  | putMerged (size : ℕ) (data : Bytes)
  | statMerged (size : ℕ)
  | recordMerged (size : ℕ) (metadata : RemoteMetadata)
  /-- Keep both: about to name the conflict file. -/
  | nameSibling
  | readSibling (name : Str)
  | putSibling (name : Str) (data : Bytes)
  | statUploaded (name : Str)
  /-- About to download the remote version. -/
  | fetchRemote (name : Str)
  | saveRemote (name : Str) (data : Bytes)
  | statRemote (name : Str)
  | recordRemote (name : Str) (size : ℕ) (metadata : RemoteMetadata)
  | statSibling (name : Str) (size : ℕ)
  | insertSibling (name : Str) (size : ℕ) (etag : Option Str)

/-- What `resolve` does after a call. -/
abbrev ResolveNext := Next ResolvePc Resolved

/-- `files_equal` of two files, as far as `size` bytes; a file that is shorter is an error, which
counts as a difference. -/
def filesEqual (a b : Bytes) (size : ℕ) : Bool :=
  size ≤ a.length && size ≤ b.length && a.take size = b.take size

/-- The temporary file for the remote side of a merge. -/
def remoteTmp (cachePath : PathBuf) : PathBuf :=
  withExtension cachePath "stratosync-remote-tmp".toList

/-- The remote path of a conflict file of the entry. -/
def FileEntry.conflictPath (entry : FileEntry) (name : Str) : Str :=
  conflictRemotePath entry.remotePath name

/-- `backend.download` of an object to a local file, its second half. -/
def Holdings.save (h : Holdings) (path : PathBuf) (data : Bytes) : Option Holdings :=
  ((h.world.fs.createDirAll path.dropLast).bind fun fs => fs.install path data).map h.withFs

/-- `tokio::fs::write`: says whether it succeeded. -/
def Holdings.write (h : Holdings) (env : ResolveEnv) (path : PathBuf) (data : Bytes) :
    Bool × Holdings :=
  match (if env.fault then none else h.world.fs.install path data) with
  | some fs => (true, h.withFs fs)
  | none =>
    (false, ((env.written.bind fun n => h.world.fs.install path (data.take n)).map h.withFs).getD h)

/-- The temporary file is in the directory of the cache file. -/
theorem dropLast_remoteTmp (p : PathBuf) : (remoteTmp p).dropLast = p.dropLast := by
  rw [remoteTmp, withExtension]
  split
  · exact List.dropLast_concat
  · rfl

theorem CacheFs.files_removeIfPresent_some (fs : CacheFs) (p q : PathBuf) :
    (fs.removeIfPresent (some p)).files q = if q = p then none else fs.files q := by
  rw [removeIfPresent, Option.bind_some]
  cases hr : fs.remove p with
  | some fs' => exact files_of_remove hr q
  | none =>
    rw [remove, Option.map_eq_none_iff] at hr
    rw [Option.getD_none]
    split
    · rename_i hq
      rw [hq, hr]
    · rfl

/-! ## Paths that can be written -/

/-- The path is that of a file in a directory. -/
structure CacheFs.Writable (fs : CacheFs) (path : PathBuf) : Prop where
  ne_nil : path ≠ []
  notDir : fs.dirs.contains path = false
  inDir : fs.dirs.contains path.dropLast = true
  above : ∀ q ∈ path.dropLast.inits, fs.files q = none

namespace CacheFs.Writable

variable {fs fs' : CacheFs} {path p : PathBuf} {data : Bytes}

theorem not_mem_inits (hne : path ≠ []) : path ∉ path.dropLast.inits := by
  intro hmem
  have hle := ((List.mem_inits _ _).1 hmem).length_le
  rw [List.length_dropLast] at hle
  have hpos := List.length_pos_iff.2 hne
  omega

theorem createDirAll_eq (h : fs.Writable path) :
    fs.createDirAll path.dropLast =
      some { fs with dirs := fs.dirs ++ path.dropLast.inits } := by
  rw [createDirAll, if_neg]
  rw [List.any_eq_true]
  rintro ⟨q, hq, hf⟩
  rw [h.above q hq] at hf
  cases hf

theorem install_isSome (h : fs.Writable path) (data : Bytes) :
    (fs.install path data).isSome = true := by
  rw [install, h.notDir, h.inDir]
  rfl

/-- Directories above the path may be added. -/
theorem with_dirs (h : fs.Writable path) :
    ({ fs with dirs := fs.dirs ++ path.dropLast.inits } : CacheFs).Writable path where
  ne_nil := h.ne_nil
  notDir := by simpa [not_mem_inits h.ne_nil] using h.notDir
  inDir := by
    rw [List.contains_iff_mem]
    exact List.mem_append_left _ (List.contains_iff_mem.1 h.inDir)
  above := h.above

/-- Files beside the path may change. -/
theorem of_files (h : fs.Writable path) (hd : fs'.dirs = fs.dirs)
    (hf : ∀ q ∈ path.dropLast.inits, fs'.files q = fs.files q) : fs'.Writable path :=
  ⟨h.ne_nil, hd ▸ h.notDir, hd ▸ h.inDir, fun q hq => (hf q hq).trans (h.above q hq)⟩

theorem of_install (h : fs.Writable path) (hp : p ∉ path.dropLast.inits)
    (hi : fs.install p data = some fs') : fs'.Writable path := by
  refine h.of_files ?_ fun q hq => ?_
  · rw [install] at hi
    split at hi
    · cases hi
    · rw [← Option.some.inj hi]
      rfl
  · rw [files_of_install hi, if_neg]
    rintro rfl
    exact hp hq

theorem of_removeIfPresent (h : fs.Writable path) :
    (fs.removeIfPresent (some p)).Writable path := by
  rw [removeIfPresent, Option.bind_some]
  cases hr : fs.remove p with
  | none => exact h
  | some fs' =>
    rw [Option.getD_some]
    refine ⟨h.ne_nil, ?_, ?_, fun q hq => ?_⟩
    · obtain ⟨_, -, rfl⟩ := Option.map_eq_some_iff.1 hr
      exact h.notDir
    · obtain ⟨_, -, rfl⟩ := Option.map_eq_some_iff.1 hr
      exact h.inDir
    · rw [files_of_remove hr, h.above q hq]
      split <;> rfl

end CacheFs.Writable

namespace Holdings

variable {h h' : Holdings} {path : PathBuf} {data : Bytes}

theorem save_spec (hs : h.save path data = some h') :
    ∃ fs, h' = h.withFs fs ∧
      ∀ q, fs.files q = if q = path then some data else h.world.fs.files q := by
  obtain ⟨fs, hfs, rfl⟩ := Option.map_eq_some_iff.1 hs
  obtain ⟨fs₁, h₁, h₂⟩ := Option.bind_eq_some_iff.1 hfs
  refine ⟨fs, rfl, fun q => ?_⟩
  rw [CacheFs.files_of_install h₂, CacheFs.files_of_createDirAll h₁]

/-- A file that is saved by a step in which no call fails. -/
theorem tried_save_spec {fault : Bool}
    (hs : (if fault then none else h.save path data) = some h') :
    fault = false ∧ ∃ fs, h' = h.withFs fs ∧
      ∀ q, fs.files q = if q = path then some data else h.world.fs.files q := by
  cases fault with
  | true => cases hs
  | false => exact ⟨rfl, save_spec hs⟩

theorem save_isSome (hw : h.world.fs.Writable path) (data : Bytes) :
    (h.save path data).isSome = true := by
  rw [save, Option.isSome_map, hw.createDirAll_eq, Option.bind_some]
  exact hw.with_dirs.install_isSome data

theorem writable_of_save {cachePath : PathBuf} (hw : h.world.fs.Writable cachePath)
    (hne : path ≠ []) (hp : path.dropLast = cachePath.dropLast) (hs : h.save path data = some h') :
    h'.world.fs.Writable cachePath := by
  obtain ⟨fs, hfs, rfl⟩ := Option.map_eq_some_iff.1 hs
  obtain ⟨fs₁, h₁, h₂⟩ := Option.bind_eq_some_iff.1 hfs
  rw [hp, hw.createDirAll_eq, Option.some.injEq] at h₁
  subst h₁
  refine hw.with_dirs.of_install ?_ h₂
  rw [← hp]
  exact CacheFs.Writable.not_mem_inits hne

theorem write_fine {env : ResolveEnv} {fs : CacheFs} (hf : env.fault = false)
    (hi : h.world.fs.install path data = some fs) :
    h.write env path data = (true, h.withFs fs) := by
  rw [write, hf]
  simp only [Bool.false_eq_true, if_false, hi]

/-- A write leaves the data at the path, or fails and leaves the file or a part of the data. -/
theorem write_cases (h : Holdings) (env : ResolveEnv) (path : PathBuf) (data : Bytes) :
    (∃ fs, h.write env path data = (true, h.withFs fs) ∧
      ∀ q, fs.files q = if q = path then some data else h.world.fs.files q) ∨
    ∃ fs, h.write env path data = (false, h.withFs fs) ∧
      (fs.files path = h.world.fs.files path ∨ ∃ n, fs.files path = some (data.take n)) := by
  rw [write]
  split
  · rename_i fs hfs
    refine .inl ⟨fs, rfl, fun q => ?_⟩
    split at hfs
    · cases hfs
    · exact CacheFs.files_of_install hfs q
  · right
    cases hw : env.written.bind fun n => h.world.fs.install path (data.take n) with
    | none => exact ⟨h.world.fs, rfl, .inl rfl⟩
    | some fs =>
      obtain ⟨n, -, hn⟩ := Option.bind_eq_some_iff.1 hw
      refine ⟨fs, rfl, .inr ⟨n, ?_⟩⟩
      rw [CacheFs.files_of_install hn, if_pos rfl]

end Holdings

/-- The conflict could be merged: there is a base, and the file is text. -/
def mergeBase (t : MergeTools) (h : Holdings) (entry : FileEntry) (cachePath : PathBuf) :
    Option Str :=
  if t.hasGit && t.textConflictStrategy = .merge then
    (h.getBaseHash entry.inode).filter fun hash =>
      (h.objects hash).isSome &&
        isTextMergeable t cachePath (h.world.fs.files cachePath) entry.size
  else none

theorem mergeBase_spec {t : MergeTools} {h : Holdings} {entry : FileEntry} {cachePath : PathBuf}
    {hash : Str} (hb : mergeBase t h entry cachePath = some hash) :
    h.getBaseHash entry.inode = some hash ∧ ∃ base, h.objects hash = some base := by
  rw [mergeBase] at hb
  split at hb
  · obtain ⟨hget, hok⟩ := Option.filter_eq_some_iff.1 hb
    rw [Bool.and_eq_true] at hok
    exact ⟨hget, Option.isSome_iff_exists.1 hok.1⟩
  · cases hb

/-- `try_three_way_merge` of the files it is given. -/
def tryThreeWayMerge (t : MergeTools) (base loc remote : Option Bytes) : MergeOutcome :=
  match base, loc, remote with
  | some base, some loc, some remote => t.mergeFile loc base remote
  | _, _, _ => .failed

/-- The next call of `resolve` for an entry with this cache path. -/
def ResolvePc.tick (t : MergeTools) (entry : FileEntry) (cachePath : PathBuf) (h : Holdings)
    (env : ResolveEnv) : ResolvePc → Holdings × ResolveNext
  | .equalStat =>
    match env.error, h.world.remote.stat entry.remotePath, h.world.fs.files cachePath with
    | none, some metadata, some data =>
      (h, .goto (if data.length = metadata.size then .equalFetch metadata else .base))
    | _, _, _ => (h, .goto .base)
  | .equalFetch metadata =>
    match env.error, h.world.remote.object entry.remotePath with
    | none, some o => (h, .goto (.equalCompare metadata o.data))
    | _, _ => (h, .goto .base)
  | .equalCompare metadata remote =>
    match (if env.fault then none else h.world.fs.files cachePath) with
    | some data =>
      (h, .goto (if filesEqual data remote metadata.size then .equalRecord metadata else .base))
    | none => (h, .goto .base)
  | .equalRecord metadata =>
    match h.world.fs.files cachePath with
    | none => (h, .err)
    | some data =>
      match World.tryDb env.toEnv (h.world.db.setCached entry.inode cachePath data.length
        metadata.etag metadata.mtime metadata.size) with
      | some db => (h.withDb db, .ok .identical)
      | none => (h, .err)
  | .base =>
    if env.fault then (h, .err)
    else
      match mergeBase t h entry cachePath with
      | some hash => (h, .goto (.mergeFetch hash))
      | none => (h, .goto .nameSibling)
  | .mergeFetch hash =>
    match env.error, h.world.remote.object entry.remotePath with
    | none, some o => (h, .goto (.mergeSave hash o.data))
    | _, _ => (h, .goto .nameSibling)
  | .mergeSave hash remote =>
    match (if env.fault then none else h.save (remoteTmp cachePath) remote) with
    | some h' => (h', .goto (.merge hash))
    | none => (h, .goto .nameSibling)
  | .merge hash =>
    match (if env.fault then .failed else tryThreeWayMerge t (h.objects hash)
      (h.world.fs.files cachePath) (h.world.fs.files (remoteTmp cachePath))) with
    | .clean text => (h, .goto (.writeMerged text true))
    | .conflictMarkers text => (h, .goto (.writeMerged text false))
    | .failed =>
      (h.withFs (h.world.fs.removeIfPresent (some (remoteTmp cachePath))), .goto .nameSibling)
  | .writeMerged text clean =>
    match h.write env cachePath text with
    | (false, h') => (h', .err)
    | (true, h') =>
      if clean then (h', .goto (.readMerged text.length))
      -- the local version is uploaded from the cache file, which has the markers now
      else
        (h'.withFs (h'.world.fs.removeIfPresent (some (remoteTmp cachePath))), .goto .nameSibling)
  | .readMerged size =>
    match env.error, h.world.fs.files cachePath with
    | none, some data => (h, .goto (.putMerged size data))
    | _, _ => (h, .err)
  | .putMerged size data =>
    match env.error, h.world.remote.upload entry.remotePath none data env.etag env.mtime with
    | none, .ok remote => (h.withRemote remote, .goto (.statMerged size))
    | _, _ => (h, .err)
  | .statMerged size =>
    match env.error, h.world.remote.stat entry.remotePath with
    | none, some metadata => (h, .goto (.recordMerged size metadata))
    | _, _ => (h, .err)
  | .recordMerged size metadata =>
    match World.tryDb env.toEnv (h.world.db.setCached entry.inode cachePath size
      metadata.etag metadata.mtime metadata.size) with
    | some db =>
      let h' := h.withDb db
      (h'.withFs (h'.world.fs.removeIfPresent (some (remoteTmp cachePath))), .ok .merged)
    | none => (h, .err)
  | .nameSibling =>
    (h, .goto (.readSibling (makeConflictName entry.name
      (.ofContent env.ts (if env.fault then none else h.world.fs.files cachePath)))))
  | .readSibling name =>
    match env.error, h.world.fs.files cachePath with
    | none, some data => (h, .goto (.putSibling name data))
    | _, _ => (h, .err)
  | .putSibling name data =>
    match env.error,
      h.world.remote.upload (entry.conflictPath name) none data env.etag env.mtime with
    | none, .ok remote => (h.withRemote remote, .goto (.statUploaded name))
    | _, _ => (h, .err)
  | .statUploaded name =>
    match env.error, h.world.remote.stat (entry.conflictPath name) with
    | none, some _ => (h, .goto (.fetchRemote name))
    | _, _ => (h, .err)
  | .fetchRemote name =>
    match env.error, h.world.remote.object entry.remotePath with
    | none, some o => (h, .goto (.saveRemote name o.data))
    | _, _ => (h, .err)
  | .saveRemote name data =>
    match (if env.fault then none else h.save cachePath data) with
    | some h' => (h', .goto (.statRemote name))
    | none => (h, .err)
  | .statRemote name =>
    match h.world.fs.files cachePath with
    | none => (h, .err)
    | some data =>
      match env.error, h.world.remote.stat entry.remotePath with
      | none, some metadata => (h, .goto (.recordRemote name data.length metadata))
      -- without an etag the next upload is not conditional
      | _, _ => (h, .goto (.recordRemote name data.length
          { path := entry.remotePath, name := entry.name, size := data.length, mtime := env.mtime
            isDir := false, etag := none, itemId := none }))
  | .recordRemote name size metadata =>
    match World.tryDb env.toEnv (h.world.db.setCached entry.inode cachePath size
      metadata.etag metadata.mtime metadata.size) with
    | some db => (h.withDb db, .goto (.statSibling name size))
    | none => (h, .err)
  | .statSibling name size =>
    match env.error, h.world.remote.stat (entry.conflictPath name) with
    | none, some metadata => (h, .goto (.insertSibling name metadata.size metadata.etag))
    | _, _ => (h, .goto (.insertSibling name size none))
  | .insertSibling name size etag =>
    match World.tryDb env.toEnv ((h.world.db.insertFile (conflictRow entry name
      (entry.conflictPath name) size env.mtime etag)).map Prod.snd) with
    | some db => (h.withDb db, .ok .keptBoth)
    | none => (h, .err)

/-- `resolve` up to the last of these steps, or to its result. -/
def resolveFrom (t : MergeTools) (entry : FileEntry) (cachePath : PathBuf) :
    Holdings → ResolvePc → List ResolveEnv → Holdings × ResolveNext :=
  runFrom fun h env pc => pc.tick t entry cachePath h env

/-- The resolver works on the rows, the cache files and the remote. -/
theorem ResolvePc.tick_eq (t : MergeTools) (entry : FileEntry) (cachePath : PathBuf)
    (h : Holdings) (env : ResolveEnv) (pc : ResolvePc) :
    ∃ db fs remote, (pc.tick t entry cachePath h env).1 =
      { h with world := { h.world with db, fs, remote } } := by
  cases pc with
  | mergeSave | saveRemote =>
    simp only [tick]
    split
    · rename_i h' hsave
      obtain ⟨-, fs, rfl, -⟩ := Holdings.tried_save_spec hsave
      exact ⟨_, _, _, rfl⟩
    · exact ⟨_, _, _, rfl⟩
  | writeMerged text clean =>
    obtain ⟨fs, hw, -⟩ | ⟨fs, hw, -⟩ := h.write_cases env cachePath text
    · simp only [tick, hw]
      split <;> exact ⟨_, _, _, rfl⟩
    · simp only [tick, hw]
      exact ⟨_, _, _, rfl⟩
  | nameSibling => exact ⟨_, _, _, rfl⟩
  | _ =>
    simp only [tick]
    (repeat' split) <;> exact ⟨_, _, _, rfl⟩

end Stratosync

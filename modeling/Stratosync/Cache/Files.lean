import Stratosync.Paths
import Mathlib.Logic.Function.Basic

/-!
# The cache directory

The local file system the daemon keeps its cache files in, free of symbolic links: which paths
are regular files, with what content, and which are directories. An operation returns `none` when
the system call fails.

`safeCachePath` derives the cache path of a remote path and refuses one that leaves the cache
directory; `canonicalize` resolves `..` along directories that exist.
-/

namespace Stratosync

/-- The files under the cache directory and the directories that exist. -/
structure CacheFs where
  files : PathBuf → Option Bytes
  dirs : List PathBuf

/-- A file cut to `n` bytes or extended with zeros to `n` (`set_len`). -/
def setLen (data : Bytes) (n : ℕ) : Bytes := data.take n ++ List.replicate (n - data.length) 0

/-- A file with `new` written at `offset`, a gap before it filled with zeros. Writing no bytes
leaves the file as it is. -/
def writeAt (data : Bytes) (offset : ℕ) (new : Bytes) : Bytes :=
  if new = [] then data
  else (setLen data offset) ++ new ++ data.drop (offset + new.length)

namespace CacheFs

variable (fs : CacheFs)

/-- A regular file or a directory is at the path. -/
def exists_ (p : PathBuf) : Bool := (fs.files p).isSome || fs.dirs.contains p

/-- The file at the path has content `data`. -/
def put (p : PathBuf) (data : Bytes) : CacheFs :=
  { fs with files := Function.update fs.files p (some data) }

/-- `create_dir_all`: fails where a component of the path is a regular file. -/
def createDirAll (p : PathBuf) : Option CacheFs :=
  if p.inits.any fun q => (fs.files q).isSome then none
  else some { fs with dirs := fs.dirs ++ p.inits }

/-- `File::create`: an empty file at the path, an existing one truncated. -/
def create (p : PathBuf) : Option CacheFs :=
  if fs.dirs.contains p || !fs.dirs.contains p.dropLast then none else some (fs.put p [])

/-- Write to the file at the path, which must exist. -/
def write (p : PathBuf) (f : Bytes → Bytes) : Option CacheFs :=
  (fs.files p).map fun data => fs.put p (f data)

/-- `remove_file`: fails when there is no file at the path. -/
def remove (p : PathBuf) : Option CacheFs :=
  (fs.files p).map fun _ => { fs with files := Function.update fs.files p none }

/-- `rename` of a file: an existing file at the target is replaced. -/
def rename (src dst : PathBuf) : Option CacheFs :=
  (fs.files src).bind fun data =>
    if fs.dirs.contains dst || !fs.dirs.contains dst.dropLast then none
    else some { fs with
      files := Function.update (Function.update fs.files src none) dst (some data) }

/-- `rename` of a file with content `data` from outside the cache tree. -/
def install (p : PathBuf) (data : Bytes) : Option CacheFs :=
  if fs.dirs.contains p || !fs.dirs.contains p.dropLast then none else some (fs.put p data)

/-- `canonicalize`: the path resolved, when everything along it exists. -/
def canonicalize (p : PathBuf) : Option PathBuf :=
  if p.inits.dropLast.all (fun q => fs.dirs.contains (PathBuf.normalize q))
      && fs.exists_ (PathBuf.normalize p)
  then some (PathBuf.normalize p) else none

/-! ## What an operation leaves at a path -/

theorem files_put (p q : PathBuf) (data : Bytes) :
    (fs.put p data).files q = if q = p then some data else fs.files q :=
  Function.update_apply ..

variable {fs}

theorem files_of_createDirAll {p : PathBuf} {fs' : CacheFs} (h : fs.createDirAll p = some fs') :
    fs'.files = fs.files := by
  rw [createDirAll] at h
  split at h
  · cases h
  · rw [← Option.some.inj h]

theorem files_of_create {p : PathBuf} {fs' : CacheFs} (h : fs.create p = some fs') (q : PathBuf) :
    fs'.files q = if q = p then some [] else fs.files q := by
  rw [create] at h
  split at h
  · cases h
  · rw [← Option.some.inj h, files_put]

theorem files_of_install {p : PathBuf} {data : Bytes} {fs' : CacheFs}
    (h : fs.install p data = some fs') (q : PathBuf) :
    fs'.files q = if q = p then some data else fs.files q := by
  rw [install] at h
  split at h
  · cases h
  · rw [← Option.some.inj h, files_put]

theorem files_of_write {p : PathBuf} {f : Bytes → Bytes} {fs' : CacheFs}
    (h : fs.write p f = some fs') :
    ∃ data, fs.files p = some data ∧
      ∀ q, fs'.files q = if q = p then some (f data) else fs.files q := by
  obtain ⟨data, hd, rfl⟩ := Option.map_eq_some_iff.1 h
  exact ⟨data, hd, fun q => fs.files_put p q _⟩

theorem files_of_remove {p : PathBuf} {fs' : CacheFs} (h : fs.remove p = some fs') (q : PathBuf) :
    fs'.files q = if q = p then none else fs.files q := by
  obtain ⟨_, -, rfl⟩ := Option.map_eq_some_iff.1 h
  exact Function.update_apply ..

theorem files_of_rename {src dst : PathBuf} {fs' : CacheFs} (h : fs.rename src dst = some fs') :
    ∃ data, fs.files src = some data ∧
      ∀ q, fs'.files q = if q = dst then some data else if q = src then none else fs.files q := by
  obtain ⟨data, hd, h⟩ := Option.bind_eq_some_iff.1 h
  split at h
  · cases h
  · refine ⟨data, hd, fun q => ?_⟩
    rw [← Option.some.inj h]
    change Function.update (Function.update fs.files src none) dst (some data) q = _
    rw [Function.update_apply, Function.update_apply]

end CacheFs

/-! ## The cache path of a remote path -/

/-- `safe_cache_path`: the remote path's components under the cache directory, unless that path,
with what exists of it resolved, is outside the cache directory. -/
def safeCachePath (fs : CacheFs) (cacheDir : PathBuf) (remotePath : Str) : Option PathBuf :=
  let candidate := cacheDir.join (trimStartSlash remotePath)
  let checkDir : Option PathBuf :=
    if (fs.canonicalize candidate).isSome then fs.canonicalize candidate
    else
      match fs.canonicalize ((candidate.parent).getD cacheDir) with
      | some p =>
        -- `file_name()` is nothing after a trailing `..`, and the parent itself is checked
        some (if candidate.getLast? = some ['.', '.'] then p else p ++ candidate.getLast?.toList)
      | none => some candidate
  let canonCache := (fs.canonicalize cacheDir).getD cacheDir
  match checkDir with
  | some c => if canonCache.isPrefixOf c then some candidate else none
  | none => none

/-- The path derived for a remote path, whatever the state of the file system. -/
theorem eq_join_of_safeCachePath {fs : CacheFs} {cacheDir p : PathBuf} {remotePath : Str}
    (h : safeCachePath fs cacheDir remotePath = some p) :
    p = cacheDir.join (trimStartSlash remotePath) := by
  simp only [safeCachePath] at h
  split at h
  · split at h
    · exact (Option.some.inj h).symm
    · cases h
  · cases h

end Stratosync

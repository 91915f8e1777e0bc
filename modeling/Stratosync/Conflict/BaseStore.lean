import Stratosync.Conflict.Names
import Stratosync.Daemon.World

/-!
# Base versions

The base store keeps the content that was last in sync, as blobs named by their hash, and the
`base_versions` table says which blob is the base of a row. A base is stored by a task of its own
after a transfer, from the cache file as it is then.

What the resolver and the command line program share with the daemon, this included, are the
`Holdings`. The hash, `git merge-file` and Unicode's lower case are parameters.
-/

namespace Stratosync

/-- `MergeOutcome`: what `git merge-file` makes of two versions. -/
inductive MergeOutcome
  | clean (text : Bytes)
  | conflictMarkers (text : Bytes)
  | failed
  deriving DecidableEq, Repr

/-- `ConflictStrategy`. -/
inductive ConflictStrategy
  | keepBoth
  | merge
  deriving DecidableEq, Repr

/-- What the resolution of conflicts is configured with, and the programs it runs. -/
structure MergeTools where
  textConflictStrategy : ConflictStrategy
  textExtensions : List Str
  baseMaxFileSize : ℕ
  /-- `git_available()`. -/
  hasGit : Bool
  /-- `git merge-file` of a local version, the base and a remote version. -/
  mergeFile : Bytes → Bytes → Bytes → MergeOutcome
  /-- SHA-256 in hex. -/
  sha256 : Bytes → Str
  /-- `str::to_lowercase`. -/
  lower : Str → Str

/-- What the parties to a conflict work on: the state of the daemon, the blobs by hash, and the
base each row has. -/
structure Holdings where
  world : World
  objects : Str → Option Bytes
  baseHash : Inode → Option Str

namespace Holdings

variable (h : Holdings)

def withDb (db : Db) : Holdings := { h with world := { h.world with db } }

def withFs (fs : CacheFs) : Holdings := { h with world := { h.world with fs } }

def withRemote (remote : Remote) : Holdings := { h with world := { h.world with remote } }

/-- `get_base_hash`. The mapping of a row goes with the row. -/
def getBaseHash (i : Inode) : Option Str :=
  if (h.world.db.getByInode i).isSome then h.baseHash i else none

/-- `set_base_hash`: refused for an inode without a row. -/
def setBaseHash (i : Inode) (hash : Str) : Holdings :=
  if (h.world.db.getByInode i).isSome then
    { h with baseHash := Function.update h.baseHash i (some hash) }
  else h

end Holdings

/-- `Path::with_extension`. -/
def withExtension (path : PathBuf) (ext : Str) : PathBuf :=
  match path.getLast?.bind fileStem with
  | some stem => path.dropLast ++ [stem ++ '.' :: ext]
  | none => path

/-- `is_text_mergeable`: a small file whose extension, or whose name where it has none, is on the
list, without a null byte in its first 512 bytes as far as they can be read. -/
def isTextMergeable (t : MergeTools) (path : PathBuf) (content : Option Bytes) (size : ℕ) : Bool :=
  let name := (path.getLast?.bind lastComponent).getD []
  let kind := t.lower ((path.getLast?.bind extension).getD name)
  size ≤ t.baseMaxFileSize && t.textExtensions.any (fun e => t.lower e = kind) &&
    !(content.any fun data => (data.take 512).contains 0)

/-- The bytes of an ASCII text. -/
def asciiBytes (s : String) : Bytes := s.toList.map fun c => c.toNat.toUInt8

/-! ## Storing a base -/

/-- Where a task that stores a base version is. -/
inductive BaseTaskPc
  /-- About to hash the file. -/
  | hash
  /-- About to look whether there is a blob of that hash. -/
  | look (hash : Str)
  /-- About to copy the file; the copy is renamed into place. -/
  | copy (hash : Str)
  /-- About to record the hash. -/
  | record (hash : Str)

/-- A task that stores the file at a path as the base of a row. -/
structure BaseTask where
  inode : Inode
  path : PathBuf
  pc : BaseTaskPc

/-- The next call of such a task; `none` when it ends. -/
def BaseTask.tick (t : MergeTools) (h : Holdings) (env : Env) (s : BaseTask) :
    Holdings × Option BaseTaskPc :=
  match s.pc with
  | .hash =>
    match (if env.fault then none else h.world.fs.files s.path) with
    | none => (h, none)
    | some data => (h, some (.look (t.sha256 data)))
  | .look hash => (h, some (if (h.objects hash).isSome then .record hash else .copy hash))
  | .copy hash =>
    match (if env.fault then none else h.world.fs.files s.path) with
    | none => (h, none)
    | some data =>
      ({ h with objects := Function.update h.objects hash (some data) }, some (.record hash))
  | .record hash => (if env.fault then h else h.setBaseHash s.inode hash, none)

/-- Such a task works on the blobs and the bases alone. -/
theorem BaseTask.world_tick (t : MergeTools) (h : Holdings) (env : Env) (s : BaseTask) :
    (s.tick t h env).1.world = h.world := by
  obtain ⟨i, path, pc⟩ := s
  cases pc with
  | hash | copy =>
    simp only [tick]
    split <;> rfl
  | look => rfl
  | record =>
    simp only [tick]
    split
    · rfl
    · rw [Holdings.setBaseHash]
      split <;> rfl

end Stratosync

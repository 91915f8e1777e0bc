import Stratosync.Foundations.Table

/-!
# The records of the file index

The domain types of `stratosync-core`: the status and kind of a file, the row of the `file_index`
table (`FileEntry`, with the two columns migrations 0003 and 0008 add), and the metadata a backend
reports for a remote object.

Text is a list of characters. A local path (`PathBuf`) is the list of its components: two
spellings of one path have the same components, and the standard library compares paths that way.
Sizes, timestamps and row numbers are natural numbers; times are in seconds since the epoch.
-/

namespace Stratosync

/-- A text column, a file name or a remote path. -/
abbrev Str := List Char

/-- A local path, by its components. -/
abbrev PathBuf := List Str

/-- The content of a file. -/
abbrev Bytes := List UInt8

/-- Inode number. -/
abbrev Inode := ℕ

/-- The inode of the root of a mount. -/
def fuseRootInode : Inode := 1

/-- Remote path prefix under which conflict files are stored. -/
def conflictPrefix : Str := ".stratosync-conflicts/".toList

/-- What a row describes. -/
inductive FileKind
  | file
  | directory
  | symlink
  deriving DecidableEq, Repr

/-- The lifecycle state of a file. -/
inductive SyncStatus
  | remote
  | hydrating
  | cached
  | dirty
  | uploading
  | stale
  | conflict
  deriving DecidableEq, Repr

namespace SyncStatus

/-- The file has local data that must not be evicted. -/
def hasLocalData : SyncStatus → Bool
  | cached | dirty | uploading | conflict => true
  | _ => false

/-- A hydration is in progress or queued. -/
def isHydrating : SyncStatus → Bool
  | hydrating => true
  | _ => false

/-- The file has to be fetched before it can be read. -/
def needsHydration : SyncStatus → Bool
  | remote | stale => true
  | _ => false

/-- `status IN ('dirty','uploading')`, the guard of the statements that spare unsynced work. -/
def isUnsynced : SyncStatus → Bool
  | dirty | uploading => true
  | _ => false

/-- A file that needs hydration carries no local edit. -/
theorem isUnsynced_of_needsHydration {s : SyncStatus} (h : s.needsHydration = true) :
    s.isUnsynced = false := by
  cases s <;> simp_all [needsHydration, isUnsynced]

end SyncStatus

/-- A row of `file_index`. The root has no parent; `dirListed` is the time a directory was last
listed, `pollGeneration` the last full poll that saw the row. -/
structure FileEntry where
  inode : Inode
  mountId : ℕ
  parent : Option Inode
  name : Str
  remotePath : Str
  kind : FileKind
  size : ℕ
  mtime : ℕ
  etag : Option Str
  status : SyncStatus
  cachePath : Option PathBuf
  cacheSize : Option ℕ
  dirListed : Option ℕ
  pollGeneration : ℕ
  remoteItemId : Option Str
  deriving DecidableEq, Repr

/-- What a backend reports for a remote object. -/
structure RemoteMetadata where
  path : Str
  name : Str
  size : ℕ
  mtime : ℕ
  isDir : Bool
  etag : Option Str
  itemId : Option Str
  deriving DecidableEq, Repr

/-- The outcomes of a backend call that its callers tell apart. `transient` stands for the three
retryable errors (network, transient, quota); `fatal` for the others. -/
inductive SyncError
  | notFound
  | conflict
  | transient
  | fatal
  | notSupported
  deriving DecidableEq, Repr

/-- The error is worth another attempt. -/
def SyncError.isRetryable : SyncError → Bool
  | transient => true
  | _ => false

end Stratosync

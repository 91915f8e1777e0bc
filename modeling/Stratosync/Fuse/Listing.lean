import Stratosync.Paths
import Stratosync.State.RemoteOps

/-!
# What a directory listing indexes

The filter of `populate_directory` and the columns it writes for the entries that pass it.
-/

namespace Stratosync

/-- The name check of the directory listings. -/
def safeListedName (name : Str) : Bool :=
  !(containsDotDot name || name.contains '\x00' || name.contains '/')

/-- The entries of a listing that are indexed: those with a safe name and without a tombstone. -/
def listedEntries (tombstones : List Str) (dir : FileEntry) (children : List RemoteMetadata) :
    List ListedEntry :=
  (children.filter fun c => safeListedName c.name &&
    !tombstones.any fun t => atOrBelow t (joinRemote dir.remotePath c.name)).map fun c =>
      { name := c.name, remotePath := joinRemote dir.remotePath c.name
        kind := if c.isDir then .directory else .file
        size := c.size, mtime := c.mtime, etag := c.etag }

end Stratosync

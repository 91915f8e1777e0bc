import Stratosync.State.RemoteEvents
import Stratosync.Sync.LocalEdits
import Stratosync.Sync.BaseVersion
import Stratosync.Cache.EvictSynced
import Stratosync.Fuse.Handles
import Stratosync.Fuse.RenameRuns
import Stratosync.Fuse.EmptyDirs
import Stratosync.Sync.RemovedDirs
import Stratosync.Sync.Identity
import Stratosync.Sync.Tokens
import Stratosync.Sync.ConflictFiles
import Stratosync.Sync.ListingApplies
import Stratosync.Sync.PollRaces
import Stratosync.Sync.DeletedStay
import Stratosync.Delta.Completeness
import Stratosync.Sync.Refreshers
import Stratosync.Sync.Parents
import Stratosync.Sync.Replay
import Stratosync.Conflict.Names
import Stratosync.Conflict.BaseStore
import Stratosync.Conflict.Resolve
import Stratosync.Conflict.KeepsBoth
import Stratosync.Conflict.LostSides
import Stratosync.Conflict.Commands
import Stratosync.Conflict.KeptLocal
import Stratosync.Conflict.Bench
import Stratosync.Conflict.SeenVersions
import Stratosync.Conflict.Etags
import Stratosync.Conflict.AncestorBases
import Stratosync.Fuse.ConsumedChanges
import Stratosync.Fuse.SingleFlight
import Stratosync.Sync.UploadLoop
import Stratosync.Sync.OneUpload
import Stratosync.Sync.FsyncPriority
import Stratosync.Fuse.RemoteOrder
import Stratosync.Sync.FailedUploads
import Stratosync.Sync.LocalBytes
import Stratosync.Daemon.Restart
import Stratosync.Sync.RestartKeeps
import Stratosync.Daemon.Watcher
import Stratosync.Sync.RestoredVersions
import Stratosync.Foundations.Reclaim
import Stratosync.State.Versions
import Stratosync.Cache.Blobs
import Stratosync.Cache.KeptBlobs
import Stratosync.Foundations.Disk
import Stratosync.Cache.StoreBase
import Stratosync.Fuse.Headers
import Stratosync.Fuse.FreshHeaders
import Stratosync.Backend.Preconditions
import Stratosync.Backend.Uploads
import Stratosync.Foundations.Markup
import Stratosync.Backend.WebDav
import Stratosync.Backend.DavDocuments
import Stratosync.Backend.DavListings
import Stratosync.State.Dedupe
import Stratosync.State.MergedRows
import Stratosync.Foundations.Scripts
import Stratosync.State.Migrations
import Stratosync.State.InterruptedMigrations
import Stratosync.Fuse.FailedCalls
import Stratosync.Foundations.Edits
import Stratosync.Fuse.ContentCalls
import Stratosync.Daemon.Lives
import Stratosync.Fuse.Attributes
import Stratosync.Fuse.ReportedSizes
import Stratosync.Cache.Clear
import Stratosync.Cache.RemoteRows
import Stratosync.Foundations.Batches
import Stratosync.Cache.Converges
import Stratosync.State.Lru
import Stratosync.Cache.Pins
import Stratosync.Foundations.Paging
import Stratosync.Fuse.Readdir
import Stratosync.Sync.CreatedNames
import Stratosync.Foundations.Upward
import Stratosync.Cache.Confined
import Stratosync.Delta.ItemPaths
import Stratosync.Cache.Captured
import Stratosync.Sync.VisibleChanges
import Stratosync.Foundations.Walks
import Stratosync.Daemon.Orphans
import Stratosync.Sync.Deadlines
import Stratosync.Sync.Windows
import Stratosync.Cache.ClearedRows
import Stratosync.Backend.Ranges
import Stratosync.Cache.Descendants
import Stratosync.Backend.HashSpellings
import Stratosync.Backend.RcloneErrors
import Stratosync.Backend.Watchdog
import Stratosync.Conflict.Cleanup
import Stratosync.Foundations.Ranking
import Stratosync.State.Pruning
import Stratosync.State.Patterns
import Stratosync.Sync.Tombstones
import Stratosync.Daemon.Trees
import Stratosync.Fuse.Namespace
import Stratosync.Fuse.RemovalCalls
import Stratosync.Daemon.Spawned
import Stratosync.Daemon.Starts
import Stratosync.Daemon.Roots
import Stratosync.Sync.UploadReports
import Stratosync.Sync.PollLoop
import Stratosync.Cache.History
import Stratosync.Sync.PollAgain
import Stratosync.Sync.Drain
import Stratosync.Cache.ClearCommand
import Stratosync.Daemon.Metrics

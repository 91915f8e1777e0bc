import Stratosync.Daemon.Step

/-!
# The header cache

The first bytes of a file are kept in a file of their own, by inode. `spawn_prefetch_headers`
fetches them for the children of a directory that is listed, and a read of a range within the
header keeps what it got from the remote; either way a task of its own writes them
(`HeaderTask`). The poller drops the header of a row it has upserted or deleted, in a call after
that one (`drops`). `Daemon.Step` writes what a read captured at once; here it takes its time.
-/

namespace Stratosync

open Foundations.Pool

/-- Where a task that keeps a header is. -/
inductive HeaderPc
  /-- Waiting for a permit, for a file of the directory `dir`. -/
  | acquire (dir : Inode) (remotePath : Str) (size : ℕ)
  | fetch (remotePath : Str) (take : ℕ)
  | write (data : Bytes)
  deriving DecidableEq, Repr

structure HeaderTask where
  inode : Inode
  pc : HeaderPc
  deriving DecidableEq, Repr

/-- The daemon and its header tasks. -/
structure HeaderState where
  world : World
  tasks : List HeaderTask
  /-- `prefetch_inflight`. -/
  inflight : List Inode
  /-- `prefetch_focus_dir`: the directory that was listed last. -/
  focus : Inode
  /-- The headers that the poller is about to drop. -/
  drops : List Inode

def HeaderState.init (m : Mount) (now : ℕ) : HeaderState := ⟨World.init m now, [], [], 0, []⟩

inductive HeaderEvent
  | daemon (ev : Event)
  /-- `readdir`, when the download window is open or not. -/
  | readdir (dir : Inode) (windowOpen : Bool)
  | task (k : ℕ) (env : Env)
  /-- `invalidate_header`. -/
  | drop (i : Inode)

section

variable (m : Mount) (s : HeaderState)

/-- The range is within the header. -/
def withinHeader (r : Read) : Prop :=
  0 < m.headerPrefetchSize ∧ r.offset + r.size ≤ m.headerPrefetchSize

instance (r : Read) : Decidable (withinHeader m r) := inferInstanceAs (Decidable (_ ∧ _))

/-- The bytes a read has got from the remote and has kept as a header, and whose they are. -/
def capture (w : World) (inflight : List Inode) : Event → Option (Inode × Bytes)
  | .read k env =>
    w.reads[k]?.bind fun r =>
      match r.pc, env.error with
      | .range f, none =>
        (w.remote.downloadRange f.remotePath r.offset r.size).bind fun data =>
          if withinHeader m r ∧ r.offset = 0 ∧ data ≠ [] ∧ (w.headers f.inode).isNone ∧
              f.inode ∉ inflight then
            some (f.inode, data)
          else none
      | _, _ => none
  | _ => none

/-- The headers that the poller drops after a call. -/
def pollDrops (db : Db) : RemoteOp → List Inode
  | .batchUpsert .. => []
  | .upsert mountId x itemId => (db.upsertRemoteFileByIdOrPath mountId x itemId).1.toList
  | .deleteByPath mountId path =>
    (((db.deleteRemoteEntryByPath mountId path).bind Prod.fst).map Prod.fst).toList
  | .deleteByItemId mountId id =>
    (((db.deleteRemoteEntryByItemId mountId id).bind Prod.fst).map Prod.fst).toList
  | .deleteStale mountId generation =>
    ((db.deleteStaleEntries mountId generation).1.getD []).map Prod.fst

def Event.drops (db : Db) : Event → List Inode
  | .poll op => pollDrops db op
  | _ => []

/-- The headers after a step of the daemon: a read that captures one leaves it to a task. -/
def headersAfter (w w' : World) : Event → Inode → Option Bytes
  | .read .. => w.headers
  | _ => w'.headers

/-- A step of the daemon. -/
def HeaderState.daemon (ev : Event) (w' : World) : HeaderState where
  world := { w' with headers := headersAfter s.world w' ev }
  tasks := s.tasks ++ ((capture m s.world s.inflight ev).map fun c => ⟨c.1, .write c.2⟩).toList
  inflight := s.inflight ++ ((capture m s.world s.inflight ev).map Prod.fst).toList
  focus := s.focus
  drops := s.drops ++ ev.drops s.world.db

/-- `spawn_prefetch_headers`. -/
def HeaderState.prefetchHeaders (dir : Inode) : HeaderState :=
  let children := (s.world.db.listChildren m.mountId dir).filter fun child =>
    child.kind = .file ∧ child.status.needsHydration ∧ m.prefetchThreshold < child.size ∧
      (s.world.headers child.inode).isNone ∧ child.inode ∉ s.inflight
  { s with
    tasks := s.tasks ++ children.map fun child =>
      ⟨child.inode, .acquire dir child.remotePath child.size⟩
    inflight := s.inflight ++ children.map FileEntry.inode }

def HeaderState.readdir (dir : Inode) (windowOpen : Bool) : HeaderState :=
  let s := { s with focus := dir }
  if m.headerPrefetchSize = 0 ∨ windowOpen = false then s else s.prefetchHeaders m dir

/-- What a header task does after a call. -/
inductive HeaderNext
  | goto (pc : HeaderPc)
  | finish

/-- The next call of a task that keeps the header of inode `i`. -/
def HeaderPc.tick (i : Inode) (env : Env) : HeaderPc → (Inode → Option Bytes) × HeaderNext
  | .acquire dir remotePath size =>
    (s.world.headers,
      -- another directory was listed since, or another task has been faster
      if s.focus ≠ dir ∨ (s.world.headers i).isSome then .finish
      else .goto (.fetch remotePath (min m.headerPrefetchSize size)))
  | .fetch remotePath take =>
    (s.world.headers,
      match env.error, s.world.remote.downloadRange remotePath 0 take with
      | none, some data => .goto (.write data)
      | _, _ => .finish)
  | .write data =>
    (if env.fault then s.world.headers else Function.update s.world.headers i (some data), .finish)

def HeaderState.tick (k : ℕ) (t : HeaderTask) (env : Env) : HeaderState :=
  let r := t.pc.tick m s t.inode env
  let world := { s.world with headers := r.1 }
  match r.2 with
  | .goto pc => { s with world, tasks := advance s.tasks k (some { t with pc }) }
  | .finish =>
    { s with world, tasks := advance s.tasks k none, inflight := s.inflight.filter (· ≠ t.inode) }

def headerStep : HeaderEvent → Option HeaderState
  | .daemon ev => (step m s.world ev).map (s.daemon m ev)
  | .readdir dir windowOpen => some (s.readdir m dir windowOpen)
  | .task k env => s.tasks[k]?.map fun t => s.tick m k t env
  | .drop i =>
    if i ∈ s.drops then
      some { s with
        world := { s.world with headers := Function.update s.world.headers i none }
        drops := s.drops.erase i }
    else none

end

end Stratosync

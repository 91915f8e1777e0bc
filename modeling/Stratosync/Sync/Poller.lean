import Stratosync.Daemon.Step
import Stratosync.Fuse.Populate
import Stratosync.Sync.Changes

/-!
# The poller

`poll_once` and `poll_once_delta`, call by call, and the site they run on: the daemon, the mount's
row of `change_tokens`, the poll under way and the directory listings under way. The kernel waits
for a listing that a `lookup` or a `readdir` runs, so no request is served meanwhile.

The column of `change_tokens` holds the generation counter of the full polls as well as the token
of the delta polls. Version snapshots and the counters of the dashboard are left out.
-/

namespace Stratosync

open Foundations.Pool

/-- What the backend answers to `changes_since`. -/
inductive ChangesReply
  | changes (changes : List RemoteChange) (newToken : Str)
  | expired
  | failed
  deriving DecidableEq, Repr

/-- What a step of the poller takes from outside: whether its local call fails, and what the
backend answers. -/
structure PollEnv where
  fault : Bool
  listing : Except SyncError (List RemoteMetadata)
  startToken : Except SyncError Str
  changes : ChangesReply

/-- What a full poll works on: the listing, the rows it compared it with, and its generation. -/
structure FullPoll where
  listing : List RemoteMetadata
  snap : Snapshot
  tombstones : List Str
  generation : ℕ

/-- Where a `poll_once` is. -/
inductive FullPollPc
  | list
  | snapshot (listing : List RemoteMetadata)
  | generation (listing : List RemoteMetadata) (snap : Snapshot)
  | tombstones (listing : List RemoteMetadata) (snap : Snapshot) (generation : ℕ)
  /-- Writing the new and the changed entries. -/
  | upsert (job : FullPoll) (todo : List RemoteMetadata) (paths : PathToInode)
  /-- Bumping the generation of the others. -/
  | mark (job : FullPoll) (rest : List (List Inode))
  | sweep (job : FullPoll)
  /-- Removing the cache files of the rows that were swept. -/
  | removeFiles (job : FullPoll) (rest : List PathBuf)
  | saveGeneration (job : FullPoll)
  | cleanup
  | markListed

/-- Where a `poll_once_delta` is. -/
inductive DeltaPollPc
  | token
  /-- No token yet; about to look whether the index has entries. -/
  | count
  /-- In a full poll: the first one, or the one after the token expired. -/
  | full (initial : Bool) (pc : FullPollPc)
  | startToken
  | storeStart (token : Str)
  | changes (token : Str)
  | clear
  | tombstones (changes : List RemoteChange) (next : Str)
  | snapshot (changes : List RemoteChange) (next : Str) (active : List Str)
  | apply (active : List Str) (todo : List RemoteChange) (paths : PathToInode) (next : Str)
  /-- About to remove the cache file of a row a deletion dropped. -/
  | removeFile (dropped : PathBuf) (active : List Str) (todo : List RemoteChange)
      (paths : PathToInode) (next : Str)
  /-- About to store the new token; the tombstones are cleaned up after a batch. -/
  | store (next : Str) (more : Bool)
  | cleanup

/-- Where the poller is. -/
inductive PollerPc
  | full (pc : FullPollPc)
  | delta (pc : DeltaPollPc)

/-- What a poll does next: another call, or return, successfully or not. -/
inductive PollNext (π : Type)
  | goto (pc : π)
  | done (ok : Bool)

/-- A mount at work: the daemon, the column `change_tokens.token` of the mount, the poll under way
and the directory listings under way. -/
structure Site where
  world : World
  token : Option Str
  poller : Option PollerPc
  populations : List Population

namespace Site

def withDb (s : Site) (db : Db) : Site := { s with world := { s.world with db } }

/-- Drop the prefetched header of a row. -/
def dropHeader (s : Site) (i : Inode) : Site :=
  { s with world := { s.world with headers := Function.update s.world.headers i none } }

def removeFile (s : Site) (fault : Bool) (p : PathBuf) : Site :=
  if fault then s
  else { s with world := { s.world with fs := s.world.fs.removeIfPresent (some p) } }

/-- The tombstones a poll loads; none when the call fails. -/
def loadTombstones (m : Mount) (s : Site) (env : PollEnv) : List Str :=
  if env.fault then [] else s.world.db.activeTombstones m.mountId

theorem loadTombstones_cases (m : Mount) (s : Site) (env : PollEnv) :
    s.loadTombstones m env = [] ∨
      s.loadTombstones m env = s.world.db.activeTombstones m.mountId := by
  rw [loadTombstones]
  split
  · exact .inl rfl
  · exact .inr rfl

@[simp] theorem withDb_db (s : Site) (db : Db) : (s.withDb db).world.db = db := rfl

@[simp] theorem withDb_token (s : Site) (db : Db) : (s.withDb db).token = s.token := rfl

@[simp] theorem dropHeader_db (s : Site) (i : Inode) : (s.dropHeader i).world.db = s.world.db := rfl

@[simp] theorem dropHeader_token (s : Site) (i : Inode) : (s.dropHeader i).token = s.token := rfl

@[simp] theorem removeFile_db (s : Site) (b : Bool) (p : PathBuf) :
    (s.removeFile b p).world.db = s.world.db := by
  cases b <;> rfl

@[simp] theorem removeFile_token (s : Site) (b : Bool) (p : PathBuf) :
    (s.removeFile b p).token = s.token := by
  cases b <;> rfl

end Site

/-- Dropping headers changes nothing else. -/
theorem foldl_dropHeader {α : Type*} (f : α → Inode) (l : List α) (s : Site) :
    ∃ headers, l.foldl (fun s x => s.dropHeader (f x)) s =
      { s with world := { s.world with headers } } := by
  induction l generalizing s with
  | nil => exact ⟨s.world.headers, rfl⟩
  | cons a l ih => exact ih (s.dropHeader (f a))

section

variable {α : Type*} (f : α → Inode) (l : List α) (s : Site)

theorem foldl_dropHeader_db :
    (l.foldl (fun s x => s.dropHeader (f x)) s).world.db = s.world.db := by
  obtain ⟨headers, h⟩ := foldl_dropHeader f l s
  rw [h]

theorem foldl_dropHeader_token :
    (l.foldl (fun s x => s.dropHeader (f x)) s).token = s.token := by
  obtain ⟨headers, h⟩ := foldl_dropHeader f l s
  rw [h]

theorem foldl_dropHeader_populations :
    (l.foldl (fun s x => s.dropHeader (f x)) s).populations = s.populations := by
  obtain ⟨headers, h⟩ := foldl_dropHeader f l s
  rw [h]

end

/-! ## The generation counter -/

/-- `s.parse::<u64>().ok()`. -/
def parseU64 (s : Str) : Option ℕ :=
  let digits := match s with
    | '+' :: rest => rest
    | _ => s
  if digits ≠ [] ∧ digits.all Char.isDigit then
    let n := digits.foldl (fun n c => 10 * n + (c.toNat - '0'.toNat)) 0
    if n < 2 ^ 64 then some n else none
  else none

/-- `get_poll_generation`: a column that is no number counts as zero. -/
def pollGeneration (token : Option Str) : ℕ := (token.bind parseU64).getD 0

/-- `generation.to_string()`. -/
def generationText (generation : ℕ) : Str := Nat.toDigits 10 generation

/-! ## Full polls -/

/-- The number of entries above which a listing is refused. -/
def maxPollEntries : ℕ := 500000

/-- The next call of a `poll_once`. -/
def FullPollPc.tick (m : Mount) (s : Site) (env : PollEnv) :
    FullPollPc → Site × PollNext FullPollPc
  | .list =>
    match env.listing with
    | .ok listing =>
      if maxPollEntries < listing.length then (s, .done false) else (s, .goto (.snapshot listing))
    | .error _ => (s, .done false)
  | .snapshot listing =>
    if env.fault then (s, .done false)
    else (s, .goto (.generation listing (s.world.db.snapshotRemoteIndex m.mountId)))
  | .generation listing snap =>
    if env.fault then (s, .done false)
    else (s, .goto (.tombstones listing snap (pollGeneration s.token + 1)))
  | .tombstones listing snap g =>
    let active := s.loadTombstones m env
    (s, .goto (.upsert ⟨listing, snap, active, g⟩ (toUpsert m active snap listing)
      fun path => (snap path).map RemoteSnapshot.inode))
  | .upsert job [] _ =>
    (s, .goto (.mark job (chunks 1000 (unchangedInodes m job.tombstones job.snap job.listing))))
  | .upsert job (x :: todo) paths =>
    if env.fault then (s, .done false)
    else
      match upsertEntry m paths job.generation s.world.db x with
      | (some i, db) =>
        ((s.withDb db).dropHeader i,
          .goto (.upsert job todo (Function.update paths x.path (some i))))
      | (none, db) => (s.withDb db, .done false)
  | .mark job [] => (s, .goto (.sweep job))
  | .mark job (chunk :: rest) =>
    if env.fault then (s, .done false)
    else
      match s.world.db.markGeneration job.generation chunk with
      | some db => (s.withDb db, .goto (.mark job rest))
      | none => (s, .done false)
  | .sweep job =>
    if env.fault then (s, .done false)
    else
      match s.world.db.deleteStaleEntries m.mountId job.generation with
      | (some deleted, db) =>
        (deleted.foldl (fun s x => s.dropHeader x.1) (s.withDb db),
          .goto (.removeFiles job (deleted.filterMap fun x => x.2.2)))
      | (none, db) => (s.withDb db, .done false)
  | .removeFiles job [] => (s, .goto (.saveGeneration job))
  | .removeFiles job (p :: rest) => (s.removeFile env.fault p, .goto (.removeFiles job rest))
  | .saveGeneration job =>
    if env.fault then (s, .done false)
    else ({ s with token := some (generationText job.generation) }, .goto .cleanup)
  | .cleanup =>
    (if env.fault then s else s.withDb s.world.db.cleanupExpiredTombstones, .goto .markListed)
  | .markListed =>
    (if env.fault then s
      else s.withDb ((s.world.db.batchMarkDirsListed m.mountId).getD s.world.db), .done true)

/-- The full poll has saved its generation. -/
def FullPollPc.saved : FullPollPc → Bool
  | .cleanup | .markListed => true
  | _ => false

/-- What a call of a `poll_once` can do. -/
inductive FullPollStep (m : Mount) (s : Site) (env : PollEnv) :
    FullPollPc → Site → PollNext FullPollPc → Prop
  | fail {pc : FullPollPc} (h : pc.saved = false) : FullPollStep m s env pc s (.done false)
  | listed {listing : List RemoteMetadata} (h : env.listing = .ok listing)
      (hlen : listing.length ≤ maxPollEntries) :
      FullPollStep m s env .list s (.goto (.snapshot listing))
  | snapshot {listing : List RemoteMetadata} :
      FullPollStep m s env (.snapshot listing) s
        (.goto (.generation listing (s.world.db.snapshotRemoteIndex m.mountId)))
  | generation {listing : List RemoteMetadata} {snap : Snapshot} :
      FullPollStep m s env (.generation listing snap) s
        (.goto (.tombstones listing snap (pollGeneration s.token + 1)))
  | filtered {listing : List RemoteMetadata} {snap : Snapshot} {g : ℕ} :
      FullPollStep m s env (.tombstones listing snap g) s
        (.goto (.upsert ⟨listing, snap, s.loadTombstones m env, g⟩
          (toUpsert m (s.loadTombstones m env) snap listing)
          fun path => (snap path).map RemoteSnapshot.inode))
  | upsertsDone {job : FullPoll} {paths : PathToInode} :
      FullPollStep m s env (.upsert job [] paths) s
        (.goto (.mark job (chunks 1000 (unchangedInodes m job.tombstones job.snap job.listing))))
  | upserted {job : FullPoll} {x : RemoteMetadata} {todo : List RemoteMetadata}
      {paths : PathToInode} {i : Inode} {db : Db} (hfault : env.fault = false)
      (h : upsertEntry m paths job.generation s.world.db x = (some i, db)) :
      FullPollStep m s env (.upsert job (x :: todo) paths) ((s.withDb db).dropHeader i)
        (.goto (.upsert job todo (Function.update paths x.path (some i))))
  | upsertRefused {job : FullPoll} {x : RemoteMetadata} {todo : List RemoteMetadata}
      {paths : PathToInode} {db : Db} (hfault : env.fault = false)
      (h : upsertEntry m paths job.generation s.world.db x = (none, db)) :
      FullPollStep m s env (.upsert job (x :: todo) paths) (s.withDb db) (.done false)
  | marksDone {job : FullPoll} : FullPollStep m s env (.mark job []) s (.goto (.sweep job))
  | marked {job : FullPoll} {chunk : List Inode} {rest : List (List Inode)} {db : Db}
      (h : s.world.db.markGeneration job.generation chunk = some db) :
      FullPollStep m s env (.mark job (chunk :: rest)) (s.withDb db) (.goto (.mark job rest))
  | swept {job : FullPoll} {deleted : List (Inode × Str × Option PathBuf)} {db : Db}
      (hfault : env.fault = false)
      (h : s.world.db.deleteStaleEntries m.mountId job.generation = (some deleted, db)) :
      FullPollStep m s env (.sweep job)
        (deleted.foldl (fun s x => s.dropHeader x.1) (s.withDb db))
        (.goto (.removeFiles job (deleted.filterMap fun x => x.2.2)))
  | sweepRefused {job : FullPoll} {db : Db} (hfault : env.fault = false)
      (h : s.world.db.deleteStaleEntries m.mountId job.generation = (none, db)) :
      FullPollStep m s env (.sweep job) (s.withDb db) (.done false)
  | filesRemoved {job : FullPoll} :
      FullPollStep m s env (.removeFiles job []) s (.goto (.saveGeneration job))
  | fileRemoved {job : FullPoll} {p : PathBuf} {rest : List PathBuf} :
      FullPollStep m s env (.removeFiles job (p :: rest)) (s.removeFile env.fault p)
        (.goto (.removeFiles job rest))
  | generationSaved {job : FullPoll} :
      FullPollStep m s env (.saveGeneration job)
        { s with token := some (generationText job.generation) } (.goto .cleanup)
  | cleaned {db : Db}
      (h : db = s.world.db ∨ db = s.world.db.cleanupExpiredTombstones) :
      FullPollStep m s env .cleanup (s.withDb db) (.goto .markListed)
  | finished {db : Db}
      (h : db = s.world.db ∨ s.world.db.batchMarkDirsListed m.mountId = some db) :
      FullPollStep m s env .markListed (s.withDb db) (.done true)

theorem fullPollStep_tick (m : Mount) (s : Site) (env : PollEnv) (pc : FullPollPc) :
    FullPollStep m s env pc (pc.tick m s env).1 (pc.tick m s env).2 := by
  cases pc with
  | list =>
    simp only [FullPollPc.tick]
    split
    · split
      · exact .fail rfl
      · exact .listed ‹_› (not_lt.1 ‹_›)
    · exact .fail rfl
  | snapshot listing =>
    simp only [FullPollPc.tick]
    split
    · exact .fail rfl
    · exact .snapshot
  | generation listing snap =>
    simp only [FullPollPc.tick]
    split
    · exact .fail rfl
    · exact .generation
  | tombstones listing snap g => exact .filtered
  | upsert job todo paths =>
    cases todo with
    | nil => exact .upsertsDone
    | cons x todo =>
      simp only [FullPollPc.tick]
      split
      · exact .fail rfl
      · split
        · exact .upserted (Bool.eq_false_iff.2 ‹_›) ‹_›
        · exact .upsertRefused (Bool.eq_false_iff.2 ‹_›) ‹_›
  | mark job rest =>
    cases rest with
    | nil => exact .marksDone
    | cons chunk rest =>
      simp only [FullPollPc.tick]
      split
      · exact .fail rfl
      · split
        · exact .marked ‹_›
        · exact .fail rfl
  | sweep job =>
    simp only [FullPollPc.tick]
    split
    · exact .fail rfl
    · split
      · exact .swept (Bool.eq_false_iff.2 ‹_›) ‹_›
      · exact .sweepRefused (Bool.eq_false_iff.2 ‹_›) ‹_›
  | removeFiles job rest =>
    cases rest with
    | nil => exact .filesRemoved
    | cons p rest => exact .fileRemoved
  | saveGeneration job =>
    simp only [FullPollPc.tick]
    split
    · exact .fail rfl
    · exact .generationSaved
  | cleanup =>
    simp only [FullPollPc.tick]
    split
    · exact .cleaned (.inl rfl)
    · exact .cleaned (.inr rfl)
  | markListed =>
    simp only [FullPollPc.tick]
    split
    · exact .finished (.inl rfl)
    · refine .finished ?_
      cases s.world.db.batchMarkDirsListed m.mountId with
      | none => exact .inl rfl
      | some db => exact .inr rfl

/-! ## Delta polls -/

/-- A change that is skipped without a call. -/
def RemoteChange.skipped (m : Mount) (tombstones : List Str) (c : RemoteChange) : Bool :=
  c.metadata.any fun x => !admitted m tombstones x

/-- The next call of a `poll_once_delta`. -/
def DeltaPollPc.tick (m : Mount) (s : Site) (env : PollEnv) :
    DeltaPollPc → Site × PollNext DeltaPollPc
  | .token =>
    if env.fault then (s, .done false)
    else
      match s.token with
      | some t => (s, .goto (.changes t))
      | none => (s, .goto .count)
  | .count =>
    if env.fault then (s, .done false)
    -- an index with entries comes from a listing that succeeded
    else if (s.world.db.fileIndex.rows.filter fun r => r.mountId = m.mountId).length ≤ 1 then
      (s, .goto (.full true .list))
    else (s, .goto .startToken)
  | .full initial pc =>
    match pc.tick m s env with
    | (s', .goto pc') => (s', .goto (.full initial pc'))
    | (s', .done ok) => (s', if ok || initial then .goto .startToken else .done false)
  | .startToken =>
    match env.startToken with
    | .ok t => (s, .goto (.storeStart t))
    | .error _ => (s, .done false)
  | .storeStart t =>
    if env.fault then (s, .done false) else ({ s with token := some t }, .done true)
  | .changes _ =>
    match env.changes with
    | .changes [] next => (s, .goto (.store next false))
    | .changes cs next => (s, .goto (.tombstones cs next))
    | .expired => (s, .goto .clear)
    | .failed => (s, .done false)
  | .clear =>
    if env.fault then (s, .done false) else ({ s with token := none }, .goto (.full false .list))
  | .tombstones cs next => (s, .goto (.snapshot cs next (s.loadTombstones m env)))
  | .snapshot cs next active =>
    if env.fault then (s, .done false)
    else
      let snap := s.world.db.snapshotRemoteIndex m.mountId
      (s, .goto (.apply active cs (fun path => (snap path).map RemoteSnapshot.inode) next))
  | .apply _ [] _ next => (s, .goto (.store next true))
  | .apply active (c :: todo) paths next =>
    if env.fault && !c.skipped m active then (s, .done false)
    else
      match applyChange m active s.world.db paths c with
      | (none, db) => (s.withDb db, .done false)
      | (some a, db) =>
        (a.touched.elim (s.withDb db) (s.withDb db).dropHeader,
          .goto (match a.dropped with
            | some p => .removeFile p active todo a.paths next
            | none => .apply active todo a.paths next))
  | .removeFile p active todo paths next =>
    (s.removeFile env.fault p, .goto (.apply active todo paths next))
  | .store next more =>
    if env.fault then (s, .done false)
    else ({ s with token := some next }, if more then .goto .cleanup else .done true)
  | .cleanup =>
    (if env.fault then s else s.withDb s.world.db.cleanupExpiredTombstones, .done true)

/-- The calls of a delta poll whose failure ends it with nothing changed; the full poll and the
start token are apart. -/
def DeltaPollPc.mayFail : DeltaPollPc → Bool
  | .token | .count | .changes _ | .clear | .snapshot .. | .apply .. | .store .. => true
  | _ => false

/-- What a call of a `poll_once_delta` can do. -/
inductive DeltaPollStep (m : Mount) (s : Site) (env : PollEnv) :
    DeltaPollPc → Site → PollNext DeltaPollPc → Prop
  | fail {pc : DeltaPollPc} (h : pc.mayFail = true) : DeltaPollStep m s env pc s (.done false)
  | tokenRead {t : Str} (h : s.token = some t) : DeltaPollStep m s env .token s (.goto (.changes t))
  | noToken (h : s.token = none) : DeltaPollStep m s env .token s (.goto .count)
  | emptyIndex : DeltaPollStep m s env .count s (.goto (.full true .list))
  | filledIndex : DeltaPollStep m s env .count s (.goto .startToken)
  | full {initial : Bool} {pc pc' : FullPollPc} {s' : Site}
      (h : FullPollStep m s env pc s' (.goto pc')) :
      DeltaPollStep m s env (.full initial pc) s' (.goto (.full initial pc'))
  | fullDone {initial ok : Bool} {pc : FullPollPc} {s' : Site}
      (h : FullPollStep m s env pc s' (.done ok)) (hok : (ok || initial) = true) :
      DeltaPollStep m s env (.full initial pc) s' (.goto .startToken)
  | fallbackFailed {pc : FullPollPc} {s' : Site} (h : FullPollStep m s env pc s' (.done false)) :
      DeltaPollStep m s env (.full false pc) s' (.done false)
  | started {t : Str} (h : env.startToken = .ok t) :
      DeltaPollStep m s env .startToken s (.goto (.storeStart t))
  | startFailed (h : env.startToken.toOption = none) :
      DeltaPollStep m s env .startToken s (.done false)
  | startStored {t : Str} :
      DeltaPollStep m s env (.storeStart t) { s with token := some t } (.done true)
  | storeStartFailed {t : Str} (h : env.fault = true) :
      DeltaPollStep m s env (.storeStart t) s (.done false)
  | noChanges {t next : Str} (h : env.changes = .changes [] next) :
      DeltaPollStep m s env (.changes t) s (.goto (.store next false))
  | changed {t next : Str} {cs : List RemoteChange} (h : env.changes = .changes cs next) :
      DeltaPollStep m s env (.changes t) s (.goto (.tombstones cs next))
  | expired {t : Str} (h : env.changes = .expired) :
      DeltaPollStep m s env (.changes t) s (.goto .clear)
  | cleared : DeltaPollStep m s env .clear { s with token := none } (.goto (.full false .list))
  | tombstones {cs : List RemoteChange} {next : Str} :
      DeltaPollStep m s env (.tombstones cs next) s
        (.goto (.snapshot cs next (s.loadTombstones m env)))
  | snapshot {cs : List RemoteChange} {next : Str} {active : List Str} :
      DeltaPollStep m s env (.snapshot cs next active) s
        (.goto (.apply active cs
          (fun path => (s.world.db.snapshotRemoteIndex m.mountId path).map RemoteSnapshot.inode)
          next))
  | batchDone {active : List Str} {paths : PathToInode} {next : Str} :
      DeltaPollStep m s env (.apply active [] paths next) s (.goto (.store next true))
  | applied {active : List Str} {c : RemoteChange} {todo : List RemoteChange}
      {paths : PathToInode} {next : Str} {a : Applied} {db : Db}
      (hfault : env.fault = true → c.skipped m active = true)
      (h : applyChange m active s.world.db paths c = (some a, db)) :
      DeltaPollStep m s env (.apply active (c :: todo) paths next)
        (a.touched.elim (s.withDb db) (s.withDb db).dropHeader)
        (.goto (match a.dropped with
          | some p => .removeFile p active todo a.paths next
          | none => .apply active todo a.paths next))
  | applyRefused {active : List Str} {c : RemoteChange} {todo : List RemoteChange}
      {paths : PathToInode} {next : Str} {db : Db}
      (hfault : env.fault = true → c.skipped m active = true)
      (h : applyChange m active s.world.db paths c = (none, db)) :
      DeltaPollStep m s env (.apply active (c :: todo) paths next) (s.withDb db) (.done false)
  | fileRemoved {p : PathBuf} {active : List Str} {todo : List RemoteChange}
      {paths : PathToInode} {next : Str} :
      DeltaPollStep m s env (.removeFile p active todo paths next) (s.removeFile env.fault p)
        (.goto (.apply active todo paths next))
  | stored {next : Str} {more : Bool} :
      DeltaPollStep m s env (.store next more) { s with token := some next }
        (if more then .goto .cleanup else .done true)
  | cleaned {db : Db} (h : db = s.world.db ∨ db = s.world.db.cleanupExpiredTombstones) :
      DeltaPollStep m s env .cleanup (s.withDb db) (.done true)

theorem deltaPollStep_tick (m : Mount) (s : Site) (env : PollEnv) (pc : DeltaPollPc) :
    DeltaPollStep m s env pc (pc.tick m s env).1 (pc.tick m s env).2 := by
  cases pc with
  | token =>
    simp only [DeltaPollPc.tick]
    split
    · exact .fail rfl
    · split
      · exact .tokenRead ‹_›
      · exact .noToken ‹_›
  | count =>
    simp only [DeltaPollPc.tick]
    split
    · exact .fail rfl
    · split
      · exact .emptyIndex
      · exact .filledIndex
  | full initial pc =>
    have h := fullPollStep_tick m s env pc
    simp only [DeltaPollPc.tick]
    generalize pc.tick m s env = t at h
    obtain ⟨s', n⟩ := t
    cases n with
    | goto pc' => exact .full h
    | done ok =>
      dsimp only
      split
      · exact .fullDone h ‹_›
      · rename_i hok
        obtain ⟨rfl, rfl⟩ : ok = false ∧ initial = false := by simpa using hok
        exact .fallbackFailed h
  | startToken =>
    simp only [DeltaPollPc.tick]
    split
    · exact .started ‹_›
    · rename_i h
      exact .startFailed (by rw [h]; rfl)
  | storeStart t =>
    simp only [DeltaPollPc.tick]
    split
    · exact .storeStartFailed ‹_›
    · exact .startStored
  | changes t =>
    simp only [DeltaPollPc.tick]
    split
    · exact .noChanges ‹_›
    · exact .changed ‹_›
    · exact .expired ‹_›
    · exact .fail rfl
  | clear =>
    simp only [DeltaPollPc.tick]
    split
    · exact .fail rfl
    · exact .cleared
  | tombstones cs next => exact .tombstones
  | snapshot cs next active =>
    simp only [DeltaPollPc.tick]
    split
    · exact .fail rfl
    · exact .snapshot
  | apply active todo paths next =>
    cases todo with
    | nil => exact .batchDone
    | cons c todo =>
      simp only [DeltaPollPc.tick]
      split
      · exact .fail rfl
      · rename_i hf
        have hfault : env.fault = true → c.skipped m active = true := by simpa using hf
        split
        · exact .applyRefused hfault ‹_›
        · exact .applied hfault ‹_›
  | removeFile p active todo paths next => exact .fileRemoved
  | store next more =>
    simp only [DeltaPollPc.tick]
    split
    · exact .fail rfl
    · exact .stored
  | cleanup =>
    simp only [DeltaPollPc.tick]
    split
    · exact .cleaned (.inl rfl)
    · exact .cleaned (.inr rfl)

/-- A poll starts and steps no listing. -/
theorem populations_of_fullStep {m : Mount} {s s' : Site} {env : PollEnv} {pc : FullPollPc}
    {n : PollNext FullPollPc} (h : FullPollStep m s env pc s' n) :
    s'.populations = s.populations := by
  cases h with
  | swept =>
    exact foldl_dropHeader_populations _ _ _
  | fileRemoved => cases env.fault <;> rfl
  | _ => rfl

theorem populations_of_deltaStep {m : Mount} {s s' : Site} {env : PollEnv} {pc : DeltaPollPc}
    {n : PollNext DeltaPollPc} (h : DeltaPollStep m s env pc s' n) :
    s'.populations = s.populations := by
  cases h with
  | full h | fullDone h | fallbackFailed h => exact populations_of_fullStep h
  | @applied _ _ _ _ _ a => cases a.touched <;> rfl
  | fileRemoved => cases env.fault <;> rfl
  | _ => rfl

/-! ## The site -/

/-- What remains of a poll. -/
def PollNext.pc {π : Type} (wrap : π → PollerPc) : PollNext π → Option PollerPc
  | .goto pc => some (wrap pc)
  | .done _ => none

/-- The next step of the poller: it wakes up, or its poll makes its next call. -/
def pollerStep (m : Mount) (useDelta : Bool) (s : Site) (env : PollEnv) : Site :=
  match s.poller with
  | none => { s with poller := some (if useDelta then .delta .token else .full .list) }
  | some (.full pc) =>
    let t := pc.tick m s env
    { t.1 with poller := t.2.pc .full }
  | some (.delta pc) =>
    let t := pc.tick m s env
    { t.1 with poller := t.2.pc .delta }

theorem PollNext.pc_eq_some {π : Type} {wrap : π → PollerPc} {n : PollNext π} {pc : PollerPc} :
    n.pc wrap = some pc ↔ ∃ pc', n = .goto pc' ∧ wrap pc' = pc := by
  cases n <;> simp [PollNext.pc]

/-- What the next step of the poller can do. -/
inductive PollerStep (m : Mount) (useDelta : Bool) (s : Site) (env : PollEnv) : Site → Prop
  | wakes (hp : s.poller = none) :
      PollerStep m useDelta s env
        { s with poller := some (if useDelta then .delta .token else .full .list) }
  | full {pc : FullPollPc} {s' : Site} {n : PollNext FullPollPc} (hp : s.poller = some (.full pc))
      (h : FullPollStep m s env pc s' n) :
      PollerStep m useDelta s env { s' with poller := n.pc .full }
  | delta {pc : DeltaPollPc} {s' : Site} {n : PollNext DeltaPollPc}
      (hp : s.poller = some (.delta pc)) (h : DeltaPollStep m s env pc s' n) :
      PollerStep m useDelta s env { s' with poller := n.pc .delta }

theorem pollerStep_cases {m : Mount} {useDelta : Bool} {s s' : Site} {env : PollEnv}
    (h : pollerStep m useDelta s env = s') : PollerStep m useDelta s env s' := by
  rw [pollerStep] at h
  split at h
  · rename_i hp
    exact h ▸ .wakes hp
  · rename_i pc hp
    exact h ▸ .full hp (fullPollStep_tick m s env pc)
  · rename_i pc hp
    exact h ▸ .delta hp (deltaPollStep_tick m s env pc)

/-- The kernel waits for a directory listing. -/
def Site.kernelWaits (s : Site) : Bool := s.populations.any fun p => !p.prefetch

inductive SiteEvent
  /-- A step of the daemon beside its poller. -/
  | daemon (ev : Event)
  | poll (env : PollEnv)
  /-- A `lookup` in a directory that was never listed, or a `readdir` of it. -/
  | populate (inode : Inode)
  | population (k : ℕ) (env : PollEnv)

/-- The step of the directory listing at position `k`. -/
def populationStep (m : Mount) (s : Site) (k : ℕ) (env : PollEnv) : Option Site :=
  s.populations[k]?.map fun p =>
    let t := p.tick m s.world env.fault env.listing
    { s with
      world := t.1
      populations := advance s.populations k (t.2.1.map fun pc => { p with pc }) ++ t.2.2 }

/-- **One step of the site**; `none` when the event is not enabled. The changes the poller makes
are its own steps, so the daemon's event for them is not used. -/
def siteStep (m : Mount) (useDelta : Bool) (s : Site) : SiteEvent → Option Site
  | .daemon (.poll _) => none
  | .daemon (.request r) =>
    if s.kernelWaits then none
    else (step m s.world (.request r)).map fun w => { s with world := w }
  | .daemon ev => (step m s.world ev).map fun w => { s with world := w }
  | .poll env => some (pollerStep m useDelta s env)
  | .populate i =>
    if s.kernelWaits || s.world.fuse.isSome then none
    else
      ((s.world.db.getByInode i).filter fun r => r.dirListed = none).map fun r =>
        { s with populations := s.populations ++ [⟨r, false, .list⟩] }
  | .population k env => populationStep m s k env

/-- What a step of the site can be. -/
inductive SiteStep (m : Mount) (useDelta : Bool) (s : Site) : SiteEvent → Site → Prop
  | daemon {ev : Event} {w : World} (hpoll : ∀ op, ev ≠ .poll op)
      (hkernel : ∀ r, ev = .request r → s.kernelWaits = false) (h : step m s.world ev = some w) :
      SiteStep m useDelta s (.daemon ev) { s with world := w }
  | poll (env : PollEnv) : SiteStep m useDelta s (.poll env) (pollerStep m useDelta s env)
  | populate {i : Inode} {r : FileEntry} (hkernel : s.kernelWaits = false)
      (hfuse : s.world.fuse = none) (hr : s.world.db.getByInode i = some r)
      (hlisted : r.dirListed = none) :
      SiteStep m useDelta s (.populate i)
        { s with populations := s.populations ++ [⟨r, false, .list⟩] }
  | population {k : ℕ} {env : PollEnv} {p : Population} {w : World} {next : Option PopulationPc}
      {started : List Population} (hp : s.populations[k]? = some p)
      (h : p.tick m s.world env.fault env.listing = (w, next, started)) :
      SiteStep m useDelta s (.population k env)
        { s with
          world := w
          populations := advance s.populations k (next.map fun pc => { p with pc }) ++ started }

theorem siteStep_cases {m : Mount} {useDelta : Bool} {s s' : Site} {ev : SiteEvent}
    (h : siteStep m useDelta s ev = some s') : SiteStep m useDelta s ev s' := by
  cases ev with
  | poll env =>
    obtain rfl := Option.some.inj h
    exact .poll env
  | populate i =>
    simp only [siteStep] at h
    split at h
    · cases h
    · rename_i hw
      rw [Bool.or_eq_true, not_or, Bool.not_eq_true, Bool.not_eq_true] at hw
      obtain ⟨r, hr, rfl⟩ := Option.map_eq_some_iff.1 h
      obtain ⟨hr, hl⟩ := Option.filter_eq_some_iff.1 hr
      exact .populate hw.1 (by simpa using hw.2) hr (by simpa using hl)
  | population k env =>
    obtain ⟨p, hp, rfl⟩ := Option.map_eq_some_iff.1 h
    exact .population hp rfl
  | daemon e =>
    cases e with
    | poll => cases h
    | request r =>
      simp only [siteStep] at h
      split at h
      · cases h
      · rename_i hw
        obtain ⟨w, hw', rfl⟩ := Option.map_eq_some_iff.1 h
        exact .daemon (fun _ => Event.noConfusion) (fun _ _ => Bool.eq_false_iff.2 hw) hw'
    | _ =>
      rw [siteStep.eq_def] at h
      obtain ⟨w, hw, rfl⟩ := Option.map_eq_some_iff.1 h
      exact .daemon (fun _ => Event.noConfusion) (fun _ => Event.noConfusion) hw

/-- A site with an empty index and nothing under way. -/
def Site.init (m : Mount) (now : ℕ) : Site :=
  { world := World.init m now, token := none, poller := none, populations := [] }

end Stratosync

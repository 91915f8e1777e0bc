import Stratosync.Fuse.FailedCalls

/-!
# A rename, call by call

`handle_rename` between its calls. Each of them waits, and while it does the tasks of the daemon
run; the row, the new path and the row that is replaced are kept from the calls that found them.
Without anything in between, the calls are the handler of `Fuse.FailedCalls`
(`serveCalls_eq_handleRename`), which is the one of `Fuse.WriteOps` when none fails.
-/

namespace Stratosync

open Foundations.Runs

/-- The arguments of a rename. -/
structure RenameRequest where
  parent : Inode
  name : Str
  newParent : Inode
  newName : Str
  deriving DecidableEq, Repr

/-- Where a `handle_rename` is. -/
inductive RenamePc
  /-- About to look up the row. -/
  | source
  /-- About to look up the new directory. -/
  | parent (entry : FileEntry)
  /-- About to look up the row it replaces. -/
  | dest (entry : FileEntry) (newRemote : Str)
  /-- About to delete the row it replaces. -/
  | drop (entry : FileEntry) (newRemote : Str) (replaced : FileEntry)
  /-- About to drop the prefetched header of that row. -/
  | header (entry : FileEntry) (newRemote : Str) (replaced : FileEntry)
  /-- About to move the cache file. -/
  | moveFile (entry : FileEntry) (newRemote : Str) (replaced : Option FileEntry)
  /-- About to enter the row at its new place. -/
  | renameRow (entry : FileEntry) (newRemote : Str) (replaced : Option FileEntry)
    (newCachePath : Option PathBuf)
  | tombstone (entry : FileEntry) (newRemote : Str) (replaced : Option FileEntry)
  /-- About to spawn the remote operations. -/
  | spawn (entry : FileEntry) (newRemote : Str) (replaced : Option FileEntry)
  | done (result : Except Errno Unit)
  deriving DecidableEq

namespace RenamePc

def returned : RenamePc → Option (Except Errno Unit)
  | .done result => some result
  | _ => none

/-- The next call of a rename; `fault` says that it fails for a reason of its own. -/
def tick (m : Mount) (q : RenameRequest) (w : World) (fault : Bool) : RenamePc → World × RenamePc
  | .source =>
    if !validateFilename q.newName then (w, .done (.error .EINVAL))
    else if fault then (w, .done (.error Errno.EIO))
    else
      match w.db.getByParentName m.mountId q.parent q.name with
      | none => (w, .done (.error .ENOENT))
      | some entry => (w, .parent entry)
  | .parent entry =>
    if fault then (w, .done (.error Errno.EIO))
    else
      match w.db.getByInode q.newParent with
      | none => (w, .done (.error .ENOENT))
      | some newParentEntry => (w, .dest entry (joinRemote newParentEntry.remotePath q.newName))
  -- a destination that cannot be looked up is taken for none
  | .dest entry newRemote =>
    match (if fault then none else w.db.getByParentName m.mountId q.newParent q.newName) with
    | none => (w, .moveFile entry newRemote none)
    | some d => (w, .drop entry newRemote d)
  | .drop entry newRemote d =>
    ({ w with db := (if fault then none else w.db.deleteEntry d.inode).getD w.db },
      .header entry newRemote d)
  | .header entry newRemote d =>
    ({ w with headers := Function.update w.headers d.inode none },
      .moveFile entry newRemote (some d))
  | .moveFile entry newRemote replaced =>
    let (fs, newCachePath) :=
      Failures.moveCacheFile (fun _ => fault) w.fs entry.cachePath q.newName
    ({ w with fs }, .renameRow entry newRemote replaced newCachePath)
  | .renameRow entry newRemote replaced newCachePath =>
    match (if fault then none
      else w.db.renameEntry entry.inode q.newParent q.newName newRemote newCachePath) with
    | none => (w, .done (.error Errno.EIO))
    | some db =>
      ({ w with db },
        if needsRemoteRename entry.status then .tombstone entry newRemote replaced
        else .spawn entry newRemote replaced)
  | .tombstone entry newRemote replaced =>
    (if fault then w
      else { w with db := w.db.insertTombstone m.mountId entry.remotePath tombstoneTtl },
      .spawn entry newRemote replaced)
  | .spawn entry newRemote replaced =>
    ({ w with background := w.background ++
        renameBackground replaced (needsRemoteRename entry.status) entry.remotePath newRemote },
      .done (.ok ()))
  | .done result => (w, .done result)

/-- The call that comes next, where it may fail for a reason of its own. -/
def call : RenamePc → Option Call
  | .source => some .sourceRow
  | .parent _ => some .parentRow
  | .dest .. => some .destRow
  | .drop .. => some .deleteRow
  | .moveFile .. => some .moveFile
  | .renameRow .. => some .renameRow
  | .tombstone .. => some .insertTombstone
  | .header .. | .spawn .. | .done _ => none

end RenamePc

/-- What happens while a request is served: its next call, or a step of the daemon. -/
inductive HandlerMove
  | call (fault : Bool)
  | daemon (ev : Event)
  deriving DecidableEq, Repr

/-- A step of the system while a rename is served, and of what is under way after it. -/
def renameStep (m : Mount) (q : RenameRequest) : World × RenamePc → HandlerMove →
    Option (World × RenamePc)
  | (w, pc), .call fault => if pc.returned.isSome then none else some (pc.tick m q w fault)
  | (w, pc), .daemon ev => (step m w ev).map fun w' => (w', pc)

/-- The calls of a rename with nothing in between. -/
def serveCalls (fails : Failures) (m : Mount) (q : RenameRequest) :
    ℕ → World × RenamePc → World × RenamePc
  | 0, x => x
  | k + 1, (w, pc) => serveCalls fails m q k (pc.tick m q w (pc.call.any fails))

section Uninterrupted

variable {fails : Failures} {m : Mount} {q : RenameRequest}

theorem serveCalls_done {w : World} {result : Except Errno Unit} (k : ℕ) :
    serveCalls fails m q k (w, .done result) = (w, .done result) := by
  induction k with
  | zero => rfl
  | succ k ih => rwa [serveCalls, RenamePc.tick]

/-- The calls with nothing in between are a run. -/
theorem run_of_serveCalls (k : ℕ) (x : World × RenamePc) :
    ∃ evs : List HandlerMove, (∀ ev ∈ evs, ∃ fault, ev = .call fault) ∧
      run (renameStep m q) x evs = some (serveCalls fails m q k x) := by
  induction k generalizing x with
  | zero => exact ⟨[], by simp, rfl⟩
  | succ k ih =>
    obtain ⟨w, pc⟩ := x
    cases hpc : pc.returned with
    | some result =>
      obtain rfl : pc = .done result := by
        cases pc <;> cases hpc
        rfl
      exact ⟨[], by simp, congrArg some (serveCalls_done (k + 1)).symm⟩
    | none =>
      obtain ⟨evs, hevs, hrun⟩ := ih (pc.tick m q w (pc.call.any fails))
      refine ⟨.call (pc.call.any fails) :: evs, ?_, ?_⟩
      · rintro ev hev
        rcases List.mem_cons.1 hev with rfl | hev
        · exact ⟨_, rfl⟩
        · exact hevs ev hev
      · refine run_cons_eq_some.2 ⟨_, ?_, hrun⟩
        rw [renameStep, hpc, if_neg (by simp)]

theorem moveCacheFile_const (fs : CacheFs) (o : Option PathBuf) (n : Str) :
    Failures.moveCacheFile (fun _ => fails .moveFile) fs o n = fails.moveCacheFile fs o n := rfl

/-- The last calls of a rename. -/
theorem serveCalls_moveFile (w : World) (entry : FileEntry) (new : Str)
    (replaced : Option FileEntry) (k : ℕ) :
    serveCalls fails m q (k + 4) (w, .moveFile entry new replaced) =
      match fails.attempt .renameRow (w.db.renameEntry entry.inode q.newParent q.newName new
          (fails.moveCacheFile w.fs entry.cachePath q.newName).2) with
      | none => ({ w with fs := (fails.moveCacheFile w.fs entry.cachePath q.newName).1 },
          .done (.error Errno.EIO))
      | some db =>
        ({ w with
          db := if needsRemoteRename entry.status && !fails .insertTombstone then
              db.insertTombstone m.mountId entry.remotePath tombstoneTtl
            else db
          fs := (fails.moveCacheFile w.fs entry.cachePath q.newName).1
          background := w.background ++ renameBackground replaced
            (needsRemoteRename entry.status) entry.remotePath new }, .done (.ok ())) := by
  rw [serveCalls, RenamePc.tick, RenamePc.call, Option.any_some, moveCacheFile_const]
  dsimp only
  rw [serveCalls, RenamePc.tick, RenamePc.call, Option.any_some, Failures.attempt]
  dsimp only
  cases (if fails .renameRow then none else w.db.renameEntry entry.inode q.newParent q.newName new
      (fails.moveCacheFile w.fs entry.cachePath q.newName).2) with
  | none => exact serveCalls_done (k + 2)
  | some db =>
    cases hm : needsRemoteRename entry.status with
    | true =>
      dsimp only
      rw [if_pos rfl, serveCalls, RenamePc.tick, RenamePc.call, Option.any_some, serveCalls,
        RenamePc.tick, hm, serveCalls_done]
      cases fails .insertTombstone <;> rfl
    | false =>
      dsimp only
      rw [if_neg Bool.false_ne_true, serveCalls, RenamePc.tick, hm, serveCalls_done]
      rfl

/-- **Nothing in between**: the calls of a rename are the handler. -/
theorem serveCalls_eq_handleRename (fails : Failures) (m : Mount) (w : World) (q : RenameRequest) :
    serveCalls fails m q 9 (w, .source) =
      ((fails.handleRename m w q.parent q.name q.newParent q.newName).2,
        .done (fails.handleRename m w q.parent q.name q.newParent q.newName).1) := by
  rw [Failures.handleRename]
  split
  · rename_i hv
    rw [serveCalls, RenamePc.tick, if_pos hv]
    exact serveCalls_done 8
  rename_i hv
  rw [serveCalls, RenamePc.tick, if_neg hv, RenamePc.call, Option.any_some]
  split
  · exact serveCalls_done 8
  cases hr : w.db.getByParentName m.mountId q.parent q.name with
  | none => exact serveCalls_done 8
  | some entry =>
    dsimp only
    rw [serveCalls, RenamePc.tick, RenamePc.call, Option.any_some]
    split
    · exact serveCalls_done 7
    cases hq : w.db.getByInode q.newParent with
    | none => exact serveCalls_done 7
    | some newParentEntry =>
      dsimp only
      rw [serveCalls, RenamePc.tick, RenamePc.call, Option.any_some]
      simp only [Failures.dropDestination, Failures.attempt]
      cases (if fails .destRow then none
          else w.db.getByParentName m.mountId q.newParent q.newName) with
      | none =>
        dsimp only
        rw [serveCalls_moveFile, Failures.attempt]
        cases (if fails .renameRow then none else w.db.renameEntry entry.inode q.newParent q.newName
            (joinRemote newParentEntry.remotePath q.newName)
            (fails.moveCacheFile w.fs entry.cachePath q.newName).2) with
        | none => rfl
        | some db => rfl
      | some d =>
        dsimp only
        rw [serveCalls, RenamePc.tick, RenamePc.call, Option.any_some, serveCalls, RenamePc.tick]
        rw [serveCalls_moveFile, Failures.attempt]
        dsimp only
        generalize hrow : Db.renameEntry _ entry.inode q.newParent q.newName _ _ = renamed
        cases (if fails .renameRow then none else renamed) with
        | none => rfl
        | some db => rfl

end Uninterrupted

end Stratosync

import Stratosync.Daemon.Starts
import Stratosync.Fuse.RenameCalls

/-!
# A removal, call by call

`handle_unlink` and `handle_rmdir` between their calls. Without anything in between, and without a
failure, they are the handlers of `Fuse.WriteOps` (`serveRemoval_eq_handleUnlink`,
`serveRemoval_eq_handleRmdir`).

Whatever runs in between, a removal that succeeds has taken the row it looked up out of the index
for good and spawned the deletion of its object once; one that fails has spawned none
(`removed_of_run`).
-/

namespace Stratosync

open Foundations.Runs

/-- The arguments of `unlink` and `rmdir`. -/
structure RemovalRequest where
  directory : Bool
  parent : Inode
  name : Str
  deriving DecidableEq, Repr

/-- The deletion that is spawned. -/
def RemovalRequest.deletion (q : RemovalRequest) (path : Str) : Background :=
  if q.directory then .rmdir path else .delete path

/-- Where a `handle_unlink` or `handle_rmdir` is. -/
inductive RemovalPc
  /-- About to look up the row. -/
  | source
  /-- About to remove the cache file. -/
  | removeFile (entry : FileEntry)
  /-- About to drop the prefetched header. -/
  | header (entry : FileEntry)
  /-- About to look for children of the directory. -/
  | children (entry : FileEntry)
  | deleteRow (entry : FileEntry)
  | tombstone (entry : FileEntry)
  /-- About to spawn the deletion of the object. -/
  | spawn (entry : FileEntry)
  | done (result : Except Errno Unit)
  deriving DecidableEq

namespace RemovalPc

def returned : RemovalPc → Bool
  | .done _ => true
  | _ => false

/-- The next call; `fault` says that it fails for a reason of its own. -/
def tick (m : Mount) (q : RemovalRequest) (w : World) (fault : Bool) : RemovalPc → World × RemovalPc
  | .source =>
    if fault then (w, .done (.error Errno.EIO))
    else
      match w.db.getByParentName m.mountId q.parent q.name with
      | none => (w, .done (.error .ENOENT))
      | some e =>
        if !q.directory then (w, .removeFile e)
        else if e.kind ≠ .directory then (w, .done (.error .ENOTDIR))
        else (w, .children e)
  -- a cache file that cannot be removed is left to the reconciler
  | .removeFile e =>
    (if fault then w else { w with fs := w.fs.removeIfPresent e.cachePath }, .header e)
  | .header e => ({ w with headers := Function.update w.headers e.inode none }, .deleteRow e)
  | .children e =>
    if fault then (w, .done (.error Errno.EIO))
    else if w.db.listChildren m.mountId e.inode ≠ [] then (w, .done (.error .ENOTEMPTY))
    else (w, .deleteRow e)
  | .deleteRow e =>
    match (if fault then none else w.db.deleteEntry e.inode) with
    | none => (w, .done (.error Errno.EIO))
    | some db => ({ w with db }, .tombstone e)
  | .tombstone e =>
    (if fault then w
      else { w with db := w.db.insertTombstone m.mountId e.remotePath tombstoneTtl }, .spawn e)
  | .spawn e =>
    ({ w with background := w.background ++ [q.deletion e.remotePath] }, .done (.ok ()))
  | .done result => (w, .done result)

end RemovalPc

/-- A step of the system while a removal is served. -/
def removalStep (m : Mount) (q : RemovalRequest) : World × RemovalPc → HandlerMove →
    Option (World × RemovalPc)
  | (w, pc), .call fault => if pc.returned then none else some (pc.tick m q w fault)
  | (w, pc), .daemon ev => (step m w ev).map fun w' => (w', pc)

/-! ## Nothing in between -/

/-- The calls of a removal with nothing in between, none of which fails. -/
def serveRemoval (m : Mount) (q : RemovalRequest) : ℕ → World × RemovalPc → World × RemovalPc
  | 0, x => x
  | k + 1, (w, pc) => serveRemoval m q k (pc.tick m q w false)

section Uninterrupted

variable {m : Mount} {q : RemovalRequest} {w : World}

theorem serveRemoval_done {result : Except Errno Unit} (k : ℕ) :
    serveRemoval m q k (w, .done result) = (w, .done result) := by
  induction k with
  | zero => rfl
  | succ k ih => rwa [serveRemoval, RemovalPc.tick]

/-- The calls from the deletion of the row on. -/
theorem serveRemoval_deleteRow (w : World) (e : FileEntry) :
    serveRemoval m q 3 (w, .deleteRow e) =
      match w.db.deleteEntry e.inode with
      | none => (w, .done (.error Errno.EIO))
      | some db => ({ w with
          db := db.insertTombstone m.mountId e.remotePath tombstoneTtl
          background := w.background ++ [q.deletion e.remotePath] }, .done (.ok ())) := by
  rw [serveRemoval, RemovalPc.tick]
  simp only [Bool.false_eq_true, if_false]
  cases w.db.deleteEntry e.inode with
  | none => exact serveRemoval_done 2
  | some db => rfl

theorem serveRemoval_eq_handleUnlink (w : World) (p : Inode) (n : Str) :
    serveRemoval m ⟨false, p, n⟩ 6 (w, .source) =
      ((handleUnlink m w p n).2, .done (handleUnlink m w p n).1) := by
  rw [serveRemoval, RemovalPc.tick, handleUnlink]
  simp only [Bool.false_eq_true, if_false]
  cases w.db.getByParentName m.mountId p n with
  | none => exact serveRemoval_done 5
  | some e =>
    dsimp only
    rw [Bool.not_false, if_pos rfl, serveRemoval, RemovalPc.tick, serveRemoval, RemovalPc.tick,
      serveRemoval_deleteRow]
    simp only [Bool.false_eq_true, if_false]
    cases w.db.deleteEntry e.inode <;> rfl

theorem serveRemoval_eq_handleRmdir (w : World) (p : Inode) (n : Str) :
    serveRemoval m ⟨true, p, n⟩ 5 (w, .source) =
      ((handleRmdir m w p n).2, .done (handleRmdir m w p n).1) := by
  rw [serveRemoval, RemovalPc.tick, handleRmdir]
  simp only [Bool.false_eq_true, if_false]
  cases w.db.getByParentName m.mountId p n with
  | none => exact serveRemoval_done 4
  | some e =>
    dsimp only
    rw [Bool.not_true, if_neg Bool.false_ne_true]
    split
    · exact serveRemoval_done 4
    rw [serveRemoval, RemovalPc.tick]
    simp only [Bool.false_eq_true, if_false]
    split
    · exact serveRemoval_done 3
    · rw [serveRemoval_deleteRow]
      cases w.db.deleteEntry e.inode <;> rfl

end Uninterrupted

/-! ## Anything in between -/

/-- Where a removal is when it has found its row. -/
def RemovalRequest.found (q : RemovalRequest) (e : FileEntry) : RemovalPc :=
  if q.directory then .children e else .removeFile e

/-- What the calls of the removal have spawned. -/
def recordSpawned (x : World × RemovalPc) (ev : HandlerMove) (y : World × RemovalPc)
    (spawned : List Background) : List Background :=
  match ev with
  | .call _ => spawned ++ y.1.background.drop x.1.background.length
  | .daemon _ => spawned

section Interrupted

variable {m : Mount} {q : RemovalRequest} {w w' : World} {e : FileEntry} {pc : RemovalPc}
  {spawned : List Background}

/-- How far the removal of the row `e` has come. -/
def RemovalPc.Done (q : RemovalRequest) (e : FileEntry) (w : World) (spawned : List Background) :
    RemovalPc → Prop
  | .source => False
  | .removeFile e' | .header e' | .children e' | .deleteRow e' => e' = e ∧ spawned = []
  | .tombstone e' | .spawn e' => e' = e ∧ spawned = [] ∧ w.db.getByInode e.inode = none
  | .done (.error _) => spawned = []
  | .done (.ok ()) => spawned = [q.deletion e.remotePath] ∧ w.db.getByInode e.inode = none

/-- The row was there when it was found, so its number is not given out again. -/
structure Removing (q : RemovalRequest) (e : FileEntry)
    (x : (World × RemovalPc) × List Background) : Prop where
  bounded : InodesBounded x.1.1
  given : e.inode ≤ x.1.1.db.seq
  progress : x.1.2.Done q e x.1.1 x.2

/-- A call that changes no row and spawns nothing. -/
theorem Removing.of_call {pc' : RemovalPc} (h : Removing q e ((w, pc), spawned))
    (hdb : w'.db.fileIndex = w.db.fileIndex ∧ w'.db.seq = w.db.seq)
    (hb : w'.background = w.background) (hpc : pc'.Done q e w' spawned) :
    Removing q e ((w', pc'), spawned ++ w'.background.drop w.background.length) := by
  have hrows : ∀ i, w'.db.getByInode i = w.db.getByInode i := by
    intro i
    rw [Db.getByInode, hdb.1, Db.getByInode]
  rw [hb, List.drop_length, List.append_nil]
  refine ⟨fun i r hr => ?_, hdb.2 ▸ h.given, hpc⟩
  rw [hdb.2]
  exact h.bounded i r (hrows i ▸ hr)

/-- The handler's own calls. -/
theorem removing_of_call {fault : Bool} (h : Removing q e ((w, pc), spawned)) :
    Removing q e (pc.tick m q w fault,
      spawned ++ (pc.tick m q w fault).1.background.drop w.background.length) := by
  have hprogress := h.progress
  cases pc with
  | source => exact hprogress.elim
  | removeFile e' =>
    cases fault with
    | true => exact h.of_call ⟨rfl, rfl⟩ rfl hprogress
    | false => exact h.of_call ⟨rfl, rfl⟩ rfl hprogress
  | header e' => exact h.of_call ⟨rfl, rfl⟩ rfl hprogress
  | children e' =>
    rw [RemovalPc.tick]
    split
    · exact h.of_call ⟨rfl, rfl⟩ rfl hprogress.2
    split
    · exact h.of_call ⟨rfl, rfl⟩ rfl hprogress.2
    · exact h.of_call ⟨rfl, rfl⟩ rfl hprogress
  | deleteRow e' =>
    obtain ⟨rfl, hnone⟩ := hprogress
    rw [RemovalPc.tick]
    split
    · exact h.of_call ⟨rfl, rfl⟩ rfl hnone
    · rename_i db hdel
      replace hdel : w.db.deleteEntry e'.inode = some db := by
        cases fault with
        | true => cases hdel
        | false => exact hdel
      have hseq : db.seq = w.db.seq := Db.seq_deleteRows hdel
      dsimp only
      rw [List.drop_length, List.append_nil]
      refine ⟨fun i r hr => ?_, hseq ▸ h.given, rfl, hnone, ?_⟩
      · rw [Db.getByInode_deleteEntry hdel] at hr
        split at hr
        · cases hr
        · exact hseq ▸ h.bounded i r hr
      · rw [Db.getByInode_deleteEntry hdel, if_pos rfl]
  | tombstone e' =>
    cases fault with
    | true => exact h.of_call ⟨rfl, rfl⟩ rfl hprogress
    | false => exact h.of_call ⟨rfl, rfl⟩ rfl hprogress
  | spawn e' =>
    obtain ⟨rfl, rfl, hgone⟩ := hprogress
    refine ⟨h.bounded, h.given, ?_, hgone⟩
    rw [RemovalPc.tick]
    dsimp only
    rw [List.drop_append_of_le_length le_rfl, List.drop_length]
    rfl
  | done result => exact h.of_call ⟨rfl, rfl⟩ rfl hprogress

theorem removing_of_step {x x' : (World × RemovalPc) × List Background} {ev : HandlerMove}
    (hx : Removing q e x) (h : withHistory (removalStep m q) recordSpawned x ev = some x') :
    Removing q e x' := by
  obtain ⟨⟨w, pc⟩, spawned⟩ := x
  obtain ⟨⟨w', pc'⟩, spawned'⟩ := x'
  obtain ⟨hstep, hspawned⟩ := withHistory_eq_some.1 h
  dsimp only at hspawned
  subst hspawned
  cases ev with
  | call fault =>
    rw [removalStep] at hstep
    split at hstep
    · cases hstep
    · have hcall := @removing_of_call m q w e pc spawned fault hx
      rw [Option.some.inj hstep] at hcall
      exact hcall
  | daemon ev =>
    obtain ⟨w₁, hev, hw⟩ := Option.map_eq_some_iff.1 hstep
    obtain ⟨rfl, rfl⟩ := Prod.mk.inj hw
    have hlife : lifeStep m w (.daemon ev) = some w₁ := hev
    have hgone : w.db.getByInode e.inode = none → w₁.db.getByInode e.inode = none :=
      fun hn => getByInode_eq_none_of_lifeStep hx.given hn hlife
    refine ⟨hx.bounded.step hev, hx.given.trans (seq_le_of_step hev), ?_⟩
    have hprogress := hx.progress
    cases pc with
    | tombstone | spawn => exact ⟨hprogress.1, hprogress.2.1, hgone hprogress.2.2⟩
    | done result =>
      cases result with
      | error => exact hprogress
      | ok => exact ⟨hprogress.1, hgone hprogress.2⟩
    | _ => exact hprogress

/-- **A removal takes its row away for good, and its object is deleted once**, whatever the daemon
does between the calls of the handler and after them: a removal that succeeds has spawned one
deletion and the row it found is gone, and one that fails has spawned none. -/
theorem removed_of_run {evs : List HandlerMove} {result : Except Errno Unit}
    (hb : InodesBounded w) (he : w.db.getByInode e.inode = some e)
    (h : run (withHistory (removalStep m q) recordSpawned) ((w, q.found e), []) evs =
      some ((w', .done result), spawned)) :
    match result with
    | .ok () => spawned = [q.deletion e.remotePath] ∧ w'.db.getByInode e.inode = none
    | .error _ => spawned = [] := by
  have hstart : Removing q e ((w, q.found e), []) := by
    refine ⟨hb, hb e.inode e he, ?_⟩
    unfold RemovalRequest.found
    split
    · exact ⟨rfl, rfl⟩
    · exact ⟨rfl, rfl⟩
  have hend := inv_of_run (G := fun _ _ => True)
    (fun _ _ _ hx _ hstep => removing_of_step hx hstep) hstart
    (.of_forall (fun _ _ _ => trivial) _) h
  have hprogress := hend.progress
  cases result with
  | error x => exact hprogress
  | ok u => exact hprogress

/-- A file is deleted while its first upload is launched and comes too late for the row. -/
def unlinkAndLaunch : List HandlerMove :=
  [.call false, .daemon (.launch 2), .call false, .call false, .daemon (.upload 0 .fine),
    .call true, .call false]

theorem removed_of_run_unlinkAndLaunch : ∃ w e w' spawned,
    run (step sampleMount) (World.init sampleMount 0) (uploadFirst.take 3) = some w ∧
    w.db.getByInode 2 = some e ∧
    run (withHistory (removalStep sampleMount ⟨false, fuseRootInode, ['a']⟩) recordSpawned)
      ((w, RemovalRequest.found ⟨false, fuseRootInode, ['a']⟩ e), []) unlinkAndLaunch =
        some ((w', .done (.ok ())), spawned) ∧
    spawned = [.delete e.remotePath] ∧ w'.db.getByInode e.inode = none := by
  have hruns : ((run (step sampleMount) (World.init sampleMount 0) (uploadFirst.take 3)).bind
      fun w => (w.db.getByInode 2).bind fun e =>
        (run (withHistory (removalStep sampleMount ⟨false, fuseRootInode, ['a']⟩) recordSpawned)
          ((w, RemovalRequest.found ⟨false, fuseRootInode, ['a']⟩ e), []) unlinkAndLaunch).map
            fun y => y.1.2) = some (.done (.ok ())) := by decide
  obtain ⟨w, hbefore, hruns⟩ := Option.bind_eq_some_iff.1 hruns
  obtain ⟨e, he, hruns⟩ := Option.bind_eq_some_iff.1 hruns
  obtain ⟨⟨⟨w', pc⟩, spawned⟩, hrun, rfl⟩ := Option.map_eq_some_iff.1 hruns
  have hi : e.inode = 2 := Db.inode_of_getByInode he
  have hb : InodesBounded w := inv_of_run (I := InodesBounded)
    (fun _ _ _ hb _ h => hb.step h) (inodesBounded_init sampleMount 0)
    (.of_forall (G := fun _ _ => True) (fun _ _ _ => trivial) _) hbefore
  exact ⟨w, e, w', spawned, hbefore, he, hrun, removed_of_run hb (hi.symm ▸ he) hrun⟩

end Interrupted

end Stratosync

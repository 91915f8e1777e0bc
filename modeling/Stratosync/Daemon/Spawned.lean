import Stratosync.Fuse.Namespace
import Stratosync.Daemon.RemoteCalls

/-!
# What becomes of the remote operations

A request that changes names answers before the remote knows of it: it leaves its calls to tasks it
spawns. Nothing else makes such calls, and each is attempted once, whatever the result of those
before it: at any time the calls attempted, those still to come and those a crash has cut off are
together just the calls the successful requests have asked for (`accounted_of_run`).
-/

namespace Stratosync

open Foundations.Runs Foundations.Pool Db

/-- The calls a spawned operation has still to attempt. -/
def Background.plan : Background → List RemoteCall
  | .mkdir path => [.mkdir path]
  | .delete path => [.delete path]
  | .rmdir path => [.rmdir path]
  | .deleteDest dest none => [.delete dest]
  | .deleteDest dest (some (old, new)) => [.delete dest, .rename old new]
  | .move old new => [.rename old new]
  | .removeTombstone _ => []

/-- The calls the spawned operations have still to attempt. -/
def World.planned (w : World) : List RemoteCall := w.background.flatMap Background.plan

/-- **The calls a request asks for**: none when it fails, else one for the name it adds or takes
away, and for a rename that of the destination it replaces and that of the row it moves, if the
remote has the row. -/
def Request.asks (m : Mount) (w : World) (r : Request) : List RemoteCall :=
  if (r.error m w).isSome then []
  else
    match r with
    | .mkdir p n => (w.db.getByInode p).toList.map fun q => .mkdir (joinRemote q.remotePath n)
    | .unlink p n => (w.db.getByParentName m.mountId p n).toList.map fun r => .delete r.remotePath
    | .rmdir p n => (w.db.getByParentName m.mountId p n).toList.map fun r => .rmdir r.remotePath
    | .rename p n p' n' =>
      ((w.db.getByParentName m.mountId p' n').toList.map fun d => .delete d.remotePath) ++
        (((w.db.getByParentName m.mountId p n).filter fun r => needsRemoteRename r.status).bind
          fun r => (w.db.getByInode p').map fun q =>
            RemoteCall.rename r.remotePath (joinRemote q.remotePath n')).toList
    | _ => []

/-- What has been asked for and what has become of it. -/
structure CallLog where
  asked : List RemoteCall
  attempted : List RemoteCall
  lost : List RemoteCall

/-- The log after a step. -/
def CallLog.next (m : Mount) (w : World) (e : LifeEvent) (_ : World) (g : CallLog) : CallLog :=
  match e with
  | .daemon (.request r) => { g with asked := g.asked ++ r.asks m w }
  | .daemon (.background k _) =>
    { g with attempted := g.attempted ++ (w.background[k]?.bind Background.call).toList }
  | .restart .. => { g with lost := g.lost ++ w.planned }
  | _ => g

/-- The runs with their log. -/
abbrev loggedStep (m : Mount) : World × CallLog → LifeEvent → Option (World × CallLog) :=
  withHistory (lifeStep m) (CallLog.next m)

/-- **Every call asked for is accounted for**, once. -/
def CallsAccounted (x : World × CallLog) : Prop :=
  (x.2.attempted ++ (x.1.planned ++ x.2.lost)).Perm x.2.asked

variable {m : Mount} {w w' : World} {ev : Event}

/-- A spawned operation attempts the first of its calls, and keeps to the others. -/
theorem plan_of_tick (m : Mount) (w : World) (env : Env) (b : Background) :
    b.call.toList ++ ((Background.tick m w env b).2.map Background.plan).getD [] = b.plan := by
  cases b with
  | deleteDest dest paths =>
    obtain _ | ⟨old, new⟩ := paths
    all_goals
      simp only [Background.tick, Background.call, Background.plan]
      split <;> rfl
  | removeTombstone path => rfl
  | _ =>
    simp only [Background.tick, Background.call, Background.plan]
    split <;> rfl

/-- Requests that change no name ask for nothing. -/
theorem asks_eq_nil {r : Request} (h : r.call = none) : r.asks m w = [] := by
  cases r with
  | create | mkdir | unlink | rmdir | rename => cases h
  | _ => rfl

theorem planned_handleCreate (m : Mount) (w : World) (p : Inode) (n : Str) :
    (handleCreate m w p n).2.planned = w.planned := by
  simp only [handleCreate, World.allocFh]
  repeat' split
  all_goals rfl

theorem planned_handleMkdir (m : Mount) (w : World) (p : Inode) (n : Str) :
    (handleMkdir m w p n).2.planned = w.planned ++ Request.asks m w (.mkdir p n) := by
  by_cases hv : validateFilename n = true
  · cases hq : w.db.getByInode p with
    | none => simp [handleMkdir, Request.asks, Request.error, hv, hq, errorOf]
    | some q =>
      simp only [handleMkdir, Request.asks, Request.error, hv, hq, Bool.not_true,
        Bool.false_eq_true, if_false]
      split
      · simp [errorOf]
      · split
        · simp [errorOf]
        · simp [errorOf, World.planned, Background.plan]
  · simp [handleMkdir, Request.asks, Request.error, hv, errorOf]

theorem planned_handleUnlink (m : Mount) (w : World) (p : Inode) (n : Str) :
    (handleUnlink m w p n).2.planned = w.planned ++ Request.asks m w (.unlink p n) := by
  cases hd : w.db.getByParentName m.mountId p n with
  | none => simp [handleUnlink, Request.asks, Request.error, hd, errorOf]
  | some r =>
    cases hdel : w.db.deleteEntry r.inode with
    | none =>
      simp [handleUnlink, Request.asks, Request.error, hd, hdel, errorOf, World.planned]
    | some db =>
      simp [handleUnlink, Request.asks, Request.error, hd, hdel, errorOf, World.planned,
        Background.plan]

theorem planned_handleRmdir (m : Mount) (w : World) (p : Inode) (n : Str) :
    (handleRmdir m w p n).2.planned = w.planned ++ Request.asks m w (.rmdir p n) := by
  cases hd : w.db.getByParentName m.mountId p n with
  | none => simp [handleRmdir, Request.asks, Request.error, hd, errorOf]
  | some r =>
    simp only [handleRmdir, Request.asks, Request.error, hd]
    split
    · simp [errorOf]
    · split
      · simp [errorOf]
      · split
        · simp [errorOf]
        · simp [errorOf, World.planned, Background.plan]

/-- The calls of a rename: of the row at its destination and of the row it moves. -/
theorem plan_renameBackground (dest : Option FileEntry) (needsMove : Bool) (old new : Str) :
    (renameBackground dest needsMove old new).flatMap Background.plan =
      (dest.toList.map fun d => RemoteCall.delete d.remotePath) ++
        (if needsMove then [.rename old new] else []) := by
  cases dest <;> cases needsMove <;> rfl

theorem dropDestination_snd (db : Db) (mountId : ℕ) (p : Inode) (n : Str) :
    (dropDestination db mountId p n).2 = db.getByParentName mountId p n := by
  rw [dropDestination]
  split <;> simp_all

theorem planned_handleRename (m : Mount) (w : World) (p : Inode) (n : Str) (p' : Inode)
    (n' : Str) : (handleRename m w p n p' n').2.planned =
      w.planned ++ Request.asks m w (.rename p n p' n') := by
  by_cases hv : validateFilename n' = true
  · cases hd : w.db.getByParentName m.mountId p n with
    | none => simp [handleRename, Request.asks, Request.error, hv, hd, errorOf]
    | some r =>
      cases hq : w.db.getByInode p' with
      | none => simp [handleRename, Request.asks, Request.error, hv, hd, hq, errorOf]
      | some q =>
        simp only [handleRename, Request.asks, Request.error, hv, hd, hq, Bool.not_true,
          Bool.false_eq_true, if_false]
        split
        · simp [errorOf, World.planned]
        · have hplan := plan_renameBackground (dropDestination w.db m.mountId p' n').2
            (needsRemoteRename r.status) r.remotePath (joinRemote q.remotePath n')
          rw [dropDestination_snd] at hplan
          simp only [World.planned, List.flatMap_append, dropDestination_snd, hplan, errorOf]
          cases hneeds : needsRemoteRename r.status <;> simp [hneeds, Option.filter]
  · simp [handleRename, Request.asks, Request.error, hv, errorOf]

/-- A request adds the calls it asks for. -/
theorem planned_serve (m : Mount) (w : World) (r : Request) :
    (serve m w r).planned = w.planned ++ r.asks m w := by
  cases r with
  | mkdir p n => exact planned_handleMkdir m w p n
  | unlink p n => exact planned_handleUnlink m w p n
  | rmdir p n => exact planned_handleRmdir m w p n
  | rename p n p' n' => exact planned_handleRename m w p n p' n'
  | create p n =>
    have hasks : Request.asks m w (.create p n) = [] := by simp [Request.asks]
    rw [hasks, List.append_nil]
    exact planned_handleCreate m w p n
  | _ =>
    rw [asks_eq_nil rfl, List.append_nil]
    simp only [serve, handleWrite, handleSetattr, handleOpen, handleRelease, handleFsync,
      handleRead, World.allocFh]
    repeat' split
    all_goals rfl

/-! ## Steps and runs -/

theorem accounted_of_step {x y : World × CallLog} {e : LifeEvent} (hx : CallsAccounted x)
    (h : loggedStep m x e = some y) : CallsAccounted y := by
  obtain ⟨w, g⟩ := x
  obtain ⟨w', g'⟩ := y
  obtain ⟨hstep, hg⟩ := withHistory_eq_some.1 h
  dsimp only at hstep hg
  subst hg
  cases e with
  | restart point env =>
    obtain ⟨disk, -, hstart⟩ := Option.bind_eq_some_iff.1 hstep
    have hnone : w'.planned = [] := by
      rw [restart] at hstart
      split at hstart
      · cases hstart
      obtain ⟨db₁, -, rfl⟩ := Option.map_eq_some_iff.1 hstart
      rfl
    change (g.attempted ++ (w'.planned ++ (g.lost ++ w.planned))).Perm g.asked
    rw [hnone, List.nil_append]
    exact (List.Perm.append_left g.attempted List.perm_append_comm).trans hx
  | daemon ev =>
    have hstep : step m w ev = some w' := hstep
    have hsame : (∀ r, ev ≠ .request r) → (∀ k env, ev ≠ .background k env) →
        CallsAccounted (w', g) := by
      intro hrequest hbackground
      rcases background_of_step hstep with hbg | ⟨r, hr⟩ | ⟨k, env, _, hk, -⟩
      · rw [CallsAccounted, World.planned, hbg]
        exact hx
      · exact absurd hr (hrequest r)
      · exact absurd hk (hbackground k env)
    cases ev with
    | request r =>
      obtain ⟨-, rfl⟩ := step_request hstep
      rw [CallsAccounted, planned_serve]
      have hmoved : ((w.planned ++ r.asks m w) ++ g.lost).Perm
          ((w.planned ++ g.lost) ++ r.asks m w) := by
        rw [List.append_assoc, List.append_assoc]
        exact List.Perm.append_left _ List.perm_append_comm
      refine (List.Perm.append_left g.attempted hmoved).trans ?_
      rw [← List.append_assoc]
      exact List.Perm.append_right _ hx
    | background k env =>
      obtain ⟨b, hb, rfl⟩ := Option.map_eq_some_iff.1 hstep
      have hplans := perm_flatMap_advance hb (plan_of_tick m w env b)
      obtain ⟨_, _, hw⟩ := background_tick_eq m w env b
      rw [CallsAccounted]
      simp only [CallLog.next, hb, Option.bind_some, World.planned, hw]
      rw [List.append_assoc]
      refine List.Perm.trans (List.Perm.append_left _ ?_) hx
      rw [← List.append_assoc]
      exact List.Perm.append_right _ hplans
    | _ => exact hsame (fun _ hr => by cases hr) (fun _ _ hk => by cases hk)

/-- **No call is lost but in a crash, and none is made twice.** Over every run of lives, the remote
calls that were attempted, those that are still to come and those a crash has cut off are together
just those that the successful requests have asked for. -/
theorem accounted_of_run (m : Mount) (now : ℕ) (es : List LifeEvent) {x : World × CallLog}
    (h : run (loggedStep m) (World.init m now, ⟨[], [], []⟩) es = some x) : CallsAccounted x := by
  have hinit : CallsAccounted (World.init m now, ⟨[], [], []⟩) := List.Perm.refl []
  exact inv_of_run (fun _ _ _ hx _ hs => accounted_of_step hx hs) hinit
    (.of_forall (fun _ _ _ => trivial) _) h

/-- A directory is made, the call for it is attempted, and it is removed again. -/
def makeAndRemove : List LifeEvent :=
  [.daemon (.request (.mkdir fuseRootInode ['d'])), .daemon (.background 0 .fine),
    .daemon (.request (.rmdir fuseRootInode ['d'])), .restart .between .fine]

theorem accounted_of_makeAndRemove :
    ∃ x, run (loggedStep sampleMount) (World.init sampleMount 0, ⟨[], [], []⟩) makeAndRemove =
      some x ∧ CallsAccounted x ∧ x.2 = ⟨[.mkdir ['d'], .rmdir ['d']], [.mkdir ['d']],
        [.rmdir ['d']]⟩ :=
  ⟨_, rfl, accounted_of_run sampleMount 0 makeAndRemove rfl, rfl⟩

end Stratosync

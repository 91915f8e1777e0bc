import Stratosync.Foundations.Serial
import Stratosync.Daemon.Frame

/-!
# The calls that change the remote

A step of the system makes one call of the backend at most that changes the remote tree
(`remote_of_step`). Each call reads and changes certain paths only (`RemoteCall.apply_local`), so
calls on different paths may be exchanged.
-/

namespace Stratosync

open Foundations.Serial

/-! ## Paths a call works on -/

/-- A path, or all that is at or below it. -/
inductive Region
  | only (path : Str)
  | under (path : Str)
  deriving DecidableEq, Repr

namespace Region

def contains : Region → Str → Bool
  | only p, q => q = p
  | under p, q => atOrBelow p q

/-- The two have a path in common. -/
def meets : Region → Region → Bool
  | only p, only q => p = q
  | only p, under q => atOrBelow q p
  | under p, only q => atOrBelow p q
  | under p, under q => atOrBelow p q || atOrBelow q p

theorem meets_of_contains {x y : Region} {q : Str} (hx : x.contains q = true)
    (hy : y.contains q = true) : x.meets y = true := by
  cases x with
  | only p =>
    obtain rfl : q = p := of_decide_eq_true hx
    cases y with
    | only p' => exact hy
    | under p' => exact hy
  | under p =>
    cases y with
    | only p' =>
      obtain rfl : q = p' := of_decide_eq_true hy
      exact hx
    | under p' =>
      refine Bool.or_eq_true_iff.2 ?_
      obtain rfl | hp := atOrBelow_iff.1 hx
      · exact .inr hy
      obtain rfl | hp' := atOrBelow_iff.1 hy
      · exact .inl hx
      obtain h | h := List.prefix_or_prefix_of_prefix hp hp'
      · left
        obtain heq | h := List.prefix_concat_iff.1 h
        · rw [List.append_cancel_right heq]
          exact atOrBelow_self p'
        · exact atOrBelow_iff.2 (.inr h)
      · right
        obtain heq | h := List.prefix_concat_iff.1 h
        · rw [List.append_cancel_right heq]
          exact atOrBelow_self p
        · exact atOrBelow_iff.2 (.inr h)

end Region

/-! ## The calls -/

/-- A call of the backend, or an edit of another client. -/
inductive RemoteCall
  | mkdir (path : Str)
  | delete (path : Str)
  | rmdir (path : Str)
  | rename (old new : Str)
  | upload (path : Str) (ifMatch : Option Str) (data : Bytes) (etag : Option Str) (mtime : ℕ)
  | edit (e : ForeignEdit)

namespace RemoteCall

/-- The remote after the call. One that is refused changes nothing. -/
def apply : RemoteCall → Remote → Remote
  | mkdir path, r => (r.mkdir path).toOption.getD r
  | delete path, r => (r.delete path).toOption.getD r
  | rmdir path, r => (r.rmdir path).toOption.getD r
  | rename old new, r => (r.rename old new).toOption.getD r
  | upload path ifMatch data etag mtime, r =>
    (r.upload path ifMatch data etag mtime).toOption.getD r
  | edit e, r => e.apply r

/-- The paths the call works on. -/
def regions : RemoteCall → List Region
  | mkdir path | delete path | upload path .. => [.only path]
  | rmdir path => [.under path]
  | rename old new => [.under old, .under new]
  | edit (.put path _) | edit (.remove path) => [.only path]

/-- The two calls work on a common path. -/
def Overlaps (c d : RemoteCall) : Prop := ∃ x ∈ c.regions, ∃ y ∈ d.regions, x.meets y = true

instance (c d : RemoteCall) : Decidable (c.Overlaps d) :=
  inferInstanceAs (Decidable (∃ x ∈ c.regions, ∃ y ∈ d.regions, x.meets y = true))

/-- The paths the call works on, as a set. -/
def paths (c : RemoteCall) : Set Str := {q | ∃ x ∈ c.regions, x.contains q = true}

theorem disjoint_paths {c d : RemoteCall} (h : ¬c.Overlaps d) : ∀ q ∈ c.paths, q ∉ d.paths :=
  fun _ ⟨x, hx, hxq⟩ ⟨y, hy, hyq⟩ => h ⟨x, hx, y, hy, Region.meets_of_contains hxq hyq⟩

/-- What a call on one path leaves there is up to what is there. -/
theorem local_only {f : Remote → Remote} {path : Str} (hf : ∀ r, ∀ q ≠ path, f r q = r q)
    (hr : ∀ r r', r path = r' path → f r path = f r' path) :
    Local f {q | ∃ x ∈ [Region.only path], x.contains q = true} where
  frame := by
    intro r q hq
    refine hf r q fun hqp => hq ⟨_, List.mem_singleton.2 rfl, ?_⟩
    exact decide_eq_true hqp
  reads := by
    rintro r r' h q ⟨x, hx, hq⟩
    rw [List.mem_singleton.1 hx] at hq
    obtain rfl : q = path := of_decide_eq_true hq
    exact hr r r' (h q ⟨_, List.mem_singleton.2 rfl, decide_eq_true rfl⟩)

/-- **A call reads and changes the paths it works on.** -/
theorem apply_local (c : RemoteCall) : Local c.apply c.paths := by
  cases c with
  | mkdir path =>
    refine local_only (fun r q hq => ?_) fun r r' h => ?_
    · simp only [apply, Remote.mkdir]
      split
      · rfl
      · exact Function.update_of_ne hq ..
    · simp only [apply, Remote.mkdir, h]
      split
      · exact h
      · simp [Except.toOption]
  | delete path =>
    refine local_only (fun r q hq => ?_) fun r r' h => ?_
    · simp only [apply, Remote.delete]
      split
      · exact Function.update_of_ne hq ..
      · rfl
      · rfl
    · simp only [apply, Remote.delete, h]
      split
      · simp [Except.toOption]
      · exact h
      · exact h
  | upload path ifMatch data etag mtime =>
    refine local_only (fun r q hq => ?_) fun r r' h => ?_
    · simp only [apply, Remote.upload]
      repeat' split
      · rfl
      · exact Function.update_of_ne hq ..
      · rfl
    · have hobject : r.object path = r'.object path := by simp only [Remote.object, h]
      have hmatch : r.checkIfMatch path = r'.checkIfMatch path := by
        funext expected
        rw [Remote.checkIfMatch, Remote.checkIfMatch, hobject]
      simp only [apply, Remote.upload, h, hmatch, hobject]
      repeat' split
      · exact h
      · simp [Except.toOption, Remote.put]
      · exact h
  | edit e =>
    cases e with
    | put path o =>
      refine local_only (fun r q hq => ?_) fun r r' h => ?_
      · exact Function.update_of_ne hq ..
      · simp [apply, ForeignEdit.apply, Remote.put]
    | remove path =>
      refine local_only (fun r q hq => ?_) fun r r' h => ?_
      · exact Function.update_of_ne hq ..
      · simp [apply, ForeignEdit.apply]
  | rmdir path =>
    have hpaths : ∀ q, q ∈ (rmdir path).paths ↔ atOrBelow path q = true := by
      intro q
      simp [paths, regions, Region.contains]
    constructor
    · intro r q hq
      rw [hpaths] at hq
      simp only [apply, Remote.rmdir]
      split
      · exact if_neg hq
      · rfl
      · rfl
    · intro r r' h q hq
      have hself : r path = r' path := h path ((hpaths path).2 (atOrBelow_self path))
      have hqq := h q hq
      rw [hpaths] at hq
      simp only [apply, Remote.rmdir, hself]
      split
      · simp [Except.toOption, hq]
      · exact hqq
      · exact hqq
  | rename old new =>
    have hpaths : ∀ q, q ∈ (rename old new).paths ↔
        atOrBelow old q = true ∨ atOrBelow new q = true := by
      intro q
      simp [paths, regions, Region.contains]
    constructor
    · intro r q hq
      rw [hpaths, not_or] at hq
      simp only [apply, Remote.rename]
      split
      · rfl
      · simp [Except.toOption, hq.1, hq.2]
    · intro r r' h q hq
      have hself : r old = r' old := h old ((hpaths old).2 (.inl (atOrBelow_self old)))
      have hmoved : ∀ q, atOrBelow new q = true →
          r (old ++ q.drop new.length) = r' (old ++ q.drop new.length) := fun q hq =>
        h _ ((hpaths _).2 (.inl (atOrBelow_append_drop old hq)))
      have hqq := h q hq
      simp only [apply, Remote.rename, hself]
      split
      · exact hqq
      · simp only [Except.toOption, Option.getD_some]
        by_cases hnew : atOrBelow new q = true
        · rw [if_pos hnew, if_pos hnew, hmoved q hnew, hqq]
        · rw [if_neg hnew, if_neg hnew, hqq]

/-- Calls on different paths may be exchanged. -/
theorem commutes {c d : RemoteCall} (h : ¬c.Overlaps d) : Commutes apply c d :=
  fun r => c.apply_local.comm d.apply_local (disjoint_paths h) r

end RemoteCall

/-! ## The call of a step -/

/-- The call a spawned operation makes next. -/
def Background.call : Background → Option RemoteCall
  | .mkdir path => some (.mkdir path)
  | .delete path | .deleteDest path _ => some (.delete path)
  | .rmdir path => some (.rmdir path)
  | .move old new => some (.rename old new)
  | .removeTombstone _ => none

/-- The call an upload makes next. -/
def UploadPc.call (env : Env) : UploadPc → Option RemoteCall
  | .put entry data => some (.upload entry.remotePath entry.etag data env.etag env.mtime)
  | _ => none

/-- The call that an event carries out. One whose backend call fails is not carried out. -/
def Event.remoteCall (w : World) : Event → Option RemoteCall
  | .background k env =>
    if env.error.isSome then none else w.background[k]?.bind Background.call
  | .upload k env =>
    if env.error.isSome then none else w.uploads[k]?.bind fun u => u.pc.call env
  | .foreign e => some (.edit e)
  | _ => none

variable {m : Mount} {w w' : World}

theorem remote_of_background (b : Background) (env : Env) : (Background.tick m w env b).1.remote =
    (if env.error.isSome then none else b.call).elim w.remote fun c => c.apply w.remote := by
  cases he : env.error with
  | some e =>
    change _ = w.remote
    cases b <;> simp only [Background.tick, he]
    all_goals
      repeat' split
      all_goals first
        | rfl
        | contradiction
  | none =>
    change _ = b.call.elim w.remote fun c => c.apply w.remote
    cases b with
    | mkdir path =>
      simp only [Background.tick, he, Background.call, Option.elim, RemoteCall.apply]
      cases w.remote.mkdir path <;> rfl
    | delete path =>
      simp only [Background.tick, he, Background.call, Option.elim, RemoteCall.apply]
      obtain e | r := w.remote.delete path
      · cases e <;> rfl
      · rfl
    | rmdir path =>
      simp only [Background.tick, he, Background.call, Option.elim, RemoteCall.apply]
      obtain e | r := w.remote.rmdir path
      · cases e <;> rfl
      · rfl
    | deleteDest dest move =>
      simp only [Background.tick, he, Background.call, Option.elim, RemoteCall.apply]
      cases w.remote.delete dest <;> rfl
    | move old new =>
      simp only [Background.tick, he, Background.call, Option.elim, RemoteCall.apply]
      cases w.remote.rename old new <;> rfl
    | removeTombstone path =>
      simp only [Background.tick]
      split <;> rfl

theorem remote_of_upload_tick (i : Inode) (env : Env) (pc : UploadPc) :
    (Upload.tick w i env pc).1.remote =
      (if env.error.isSome then none else pc.call env).elim w.remote fun c =>
        c.apply w.remote := by
  cases pc with
  | put entry data =>
    cases he : env.error with
    | some e =>
      simp only [Upload.tick, he]
      rfl
    | none =>
      simp only [Upload.tick, he]
      change _ = RemoteCall.apply
        (.upload entry.remotePath entry.etag data env.etag env.mtime) w.remote
      rw [RemoteCall.apply]
      cases w.remote.upload entry.remotePath entry.etag data env.etag env.mtime <;> rfl
  | finish result =>
    simp only [UploadPc.call, ite_self, Option.elim]
    obtain e | _ := result
    · cases e <;> simp only [Upload.tick]
      all_goals
        repeat' split
        all_goals rfl
    · rfl
  | _ =>
    simp only [UploadPc.call, ite_self, Option.elim, Upload.tick]
    repeat' split
    all_goals rfl

/-- **What a step does to the remote.** -/
theorem remote_of_step {ev : Event} (h : step m w ev = some w') :
    w'.remote = (ev.remoteCall w).elim w.remote fun c => c.apply w.remote := by
  cases ev with
  | request r =>
    obtain ⟨-, rfl⟩ := step_request h
    obtain ⟨_, _, _, _, _, _, _, _, _, _, _, hw⟩ := serve_eq m w r
    rw [hw]
    rfl
  | fuse env =>
    obtain ⟨c, -, rfl⟩ := Option.map_eq_some_iff.1 h
    obtain ⟨_, _, hw⟩ := fuseCall_tick_eq w env c
    rw [hw]
    rfl
  | launch i =>
    obtain rfl := step_launch h
    rfl
  | upload k env =>
    obtain ⟨u, hu, rfl⟩ := Option.map_eq_some_iff.1 h
    rw [Event.remoteCall, hu]
    exact remote_of_upload_tick u.inode env u.pc
  | hydration k env =>
    obtain ⟨x, -, rfl⟩ := Option.map_eq_some_iff.1 h
    obtain ⟨_, _, _, hw⟩ := hydration_tick_eq m w x.inode env x.pc
    dsimp only
    rw [hw]
    split <;> rfl
  | read k env =>
    obtain ⟨x, -, rfl⟩ := Option.map_eq_some_iff.1 h
    obtain ⟨_, _, _, _, hw⟩ := read_tick_eq m w env x
    dsimp only
    rw [hw]
    split <;> rfl
  | startEviction =>
    obtain ⟨ev, -, rfl⟩ := step_startEviction h
    rfl
  | eviction env =>
    obtain ⟨x, -, rfl⟩ := Option.map_eq_some_iff.1 h
    obtain ⟨_, _, hw⟩ := eviction_tick_eq m w env x
    dsimp only
    rw [hw]
    rfl
  | background k env =>
    obtain ⟨b, hb, rfl⟩ := Option.map_eq_some_iff.1 h
    rw [Event.remoteCall, hb]
    exact remote_of_background b env
  | prefetch parent =>
    rw [← Option.some.inj h, prefetchSmallFiles]
    split <;> rfl
  | poll | foreign | clock =>
    rw [← Option.some.inj h]
    rfl

end Stratosync

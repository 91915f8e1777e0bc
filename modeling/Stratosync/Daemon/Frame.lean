import Stratosync.Daemon.Step

/-!
# What each step leaves alone

For each kind of step, the parts of the world it may change, as an equation: whatever the equation
does not name is as it was. From these, one statement about every step (`frame_of_step`): what
becomes of the uploads, the eviction and the request in progress, and which events change the cache
directory, the open files, the reads and the hydrations at all.
-/

namespace Stratosync

open Foundations.Pool

variable {m : Mount} {w w' : World}

/-! ## The kinds of steps -/

theorem tryDb_eq_some {env : Env} {r : Option Db} {db : Db} :
    World.tryDb env r = some db ↔ env.fault = false ∧ r = some db := by
  rw [World.tryDb]
  cases env.fault <;> simp

theorem fuseCall_tick_eq (w : World) (env : Env) (c : FuseCall) :
    ∃ db p, c.tick w env = { w with db := db, fuse := none, pending := p } := by
  cases c with
  | write i n => exact ⟨_, _, rfl⟩
  | setattr i n cp =>
    simp only [FuseCall.tick]
    split <;> exact ⟨_, _, rfl⟩

theorem upload_tick_eq (w : World) (i : Inode) (env : Env) (pc : UploadPc) :
    ∃ db r p c, (Upload.tick w i env pc).1 =
      { w with db := db, remote := r, pending := p, conflicts := c } := by
  unfold Upload.tick
  split <;> try (repeat' split) <;> exact ⟨_, _, _, _, rfl⟩

/-- An upload leaves the pending rows pending. -/
theorem mem_pending_of_tick {w : World} {i j : Inode} {env : Env} {pc : UploadPc}
    (h : i ∈ w.pending) : i ∈ (Upload.tick w j env pc).1.pending := by
  unfold Upload.tick
  split
  all_goals repeat' split
  all_goals first
    | exact h
    | exact mem_enqueue.2 (.inr h)

theorem hydration_tick_eq (m : Mount) (w : World) (i : Inode) (env : Env) (pc : HydrationPc) :
    ∃ db fs hs, (Hydration.tick m w i env pc).1 =
      { w with db := db, fs := fs, hydrations := hs } := by
  unfold Hydration.tick
  split <;> try (repeat' split) <;> exact ⟨_, _, _, rfl⟩

theorem read_tick_eq (m : Mount) (w : World) (env : Env) (r : Read) :
    ∃ db fs hs hd, (Read.tick m w env r).1 =
      { w with db := db, openFiles := fs, hydrations := hs, headers := hd } := by
  simp only [Read.tick]
  split <;> try (repeat' split) <;> exact ⟨_, _, _, _, rfl⟩

theorem eviction_tick_eq (m : Mount) (w : World) (env : Env) (ev : Eviction) :
    ∃ db fs, (ev.tick m w env).1 = { w with db := db, fs := fs } := by
  unfold Eviction.tick
  split <;> try (repeat' split) <;> exact ⟨_, _, rfl⟩

theorem background_tick_eq (m : Mount) (w : World) (env : Env) (b : Background) :
    ∃ db r, (Background.tick m w env b).1 = { w with db := db, remote := r } := by
  unfold Background.tick
  split <;> try (repeat' split) <;> exact ⟨_, _, rfl⟩

/-- A request is served when none is in progress. -/
theorem step_request {r : Request} (h : step m w (.request r) = some w') :
    w.fuse = none ∧ w' = serve m w r := by
  simp only [step] at h
  split at h
  · cases h
  · exact ⟨by simpa using ‹¬w.fuse.isSome = true›, (Option.some.inj h).symm⟩

theorem step_launch {i : Inode} (h : step m w (.launch i) = some w') :
    w' = { w with
      pending := w.pending.filter (· ≠ i), uploads := w.uploads ++ [⟨i, .load⟩] } := by
  simp only [step, World.launch] at h
  split at h
  · exact (Option.some.inj h).symm
  · cases h

/-- An eviction starts when none is under way. -/
theorem step_startEviction (h : step m w .startEviction = some w') :
    ∃ ev, startEviction m w = some ev ∧ w' = { w with eviction := some ev } := by
  simp only [step] at h
  split at h
  · cases h
  · obtain ⟨ev, hev, hw⟩ := Option.map_eq_some_iff.1 h
    exact ⟨ev, hev, hw.symm⟩

/-- A request leaves the uploads, the eviction, the remote and the resolver alone. -/
theorem serve_eq (m : Mount) (w : World) (r : Request) :
    ∃ db fs hd fo nf nr p fu hs rs b, serve m w r =
      { w with
        db := db, fs := fs, headers := hd, openFiles := fo, nextFh := nf, nextRead := nr
        pending := p, fuse := fu, hydrations := hs, reads := rs, background := b } := by
  cases r <;> simp only [serve, handleWrite, handleSetattr, handleOpen, handleRelease, handleFsync,
    handleRead, handleCreate, handleMkdir, handleUnlink, handleRmdir, handleRename, World.allocFh]
  all_goals try (repeat' split)
  all_goals exact ⟨_, _, _, _, _, _, _, _, _, _, _, rfl⟩

/-! ## What is under way -/

/-- The uploads stay as they are, unless the step launches one or one of them moves. -/
def UploadsStep (w : World) (ev : Event) (w' : World) : Prop :=
  w'.uploads = w.uploads ∨
    (∃ i, ev = .launch i ∧ w'.uploads = w.uploads ++ [⟨i, .load⟩]) ∨
    ∃ k env u, ev = .upload k env ∧ w.uploads[k]? = some u ∧
      w'.uploads = advance w.uploads k
        ((Upload.tick w u.inode env u.pc).2.map fun pc => { u with pc })

/-- The eviction stays as it is, unless the step starts or moves it. -/
def EvictionStep (m : Mount) (w : World) (ev : Event) (w' : World) : Prop :=
  w'.eviction = w.eviction ∨
    (ev = .startEviction ∧ w'.eviction = startEviction m w) ∨
    ∃ env x, ev = .eviction env ∧ w.eviction = some x ∧ w'.eviction = (x.tick m w env).2

/-- A request in progress stays so until its own step; only a request can start one. -/
def FuseStep (m : Mount) (w : World) (ev : Event) (w' : World) : Prop :=
  w'.fuse = w.fuse ∨ (∃ env, ev = .fuse env ∧ w'.fuse = none) ∨
    ∃ r, ev = .request r ∧ w.fuse = none ∧ w' = serve m w r

/-- The steps that change the cache directory. -/
def Event.changesFiles : Event → Bool
  | .request _ | .hydration .. | .eviction _ | .poll _ => true
  | _ => false

/-- The steps that change the table of open files. -/
def Event.changesHandles : Event → Bool
  | .request _ | .read .. => true
  | _ => false

/-- The steps that change the reads in progress. -/
def Event.changesReads : Event → Bool
  | .request _ | .read .. | .hydration .. => true
  | _ => false

/-- The steps that change the hydrations under way. -/
def Event.changesHydrations : Event → Bool
  | .request _ | .read .. | .hydration .. | .prefetch _ => true
  | _ => false

/-- **What a step may change**, apart from the database. -/
structure StepFrame (m : Mount) (w : World) (ev : Event) (w' : World) : Prop where
  uploads : UploadsStep w ev w'
  eviction : EvictionStep m w ev w'
  fuse : FuseStep m w ev w'
  files : ev.changesFiles = false → w'.fs = w.fs
  handles : ev.changesHandles = false → w'.openFiles = w.openFiles ∧ w'.nextFh = w.nextFh
  reads : ev.changesReads = false → w'.reads = w.reads
  hydrations : ev.changesHydrations = false → w'.hydrations = w.hydrations

theorem stepFrame_of_eq {ev : Event} (hu : w'.uploads = w.uploads) (he : w'.eviction = w.eviction)
    (hf : w'.fuse = w.fuse) (hfs : ev.changesFiles = false → w'.fs = w.fs)
    (hh : ev.changesHandles = false → w'.openFiles = w.openFiles ∧ w'.nextFh = w.nextFh)
    (hr : ev.changesReads = false → w'.reads = w.reads)
    (hy : ev.changesHydrations = false → w'.hydrations = w.hydrations) : StepFrame m w ev w' :=
  ⟨.inl hu, .inl he, .inl hf, hfs, hh, hr, hy⟩

theorem frame_of_step {ev : Event} (h : step m w ev = some w') : StepFrame m w ev w' := by
  cases ev with
  | request r =>
    obtain ⟨hn, rfl⟩ := step_request h
    obtain ⟨_, _, _, _, _, _, _, _, _, _, _, hw⟩ := serve_eq m w r
    exact ⟨.inl (by rw [hw]), .inl (by rw [hw]), .inr (.inr ⟨r, rfl, hn, rfl⟩),
      nofun, nofun, nofun, nofun⟩
  | fuse env =>
    obtain ⟨c, -, rfl⟩ := Option.map_eq_some_iff.1 h
    obtain ⟨_, _, hw⟩ := fuseCall_tick_eq w env c
    rw [hw]
    exact ⟨.inl rfl, .inl rfl, .inr (.inl ⟨env, rfl, rfl⟩), fun _ => rfl, fun _ => ⟨rfl, rfl⟩,
      fun _ => rfl, fun _ => rfl⟩
  | launch i =>
    obtain rfl := step_launch h
    exact ⟨.inr (.inl ⟨i, rfl, rfl⟩), .inl rfl, .inl rfl, fun _ => rfl, fun _ => ⟨rfl, rfl⟩,
      fun _ => rfl, fun _ => rfl⟩
  | upload k env =>
    obtain ⟨u, hu, rfl⟩ := Option.map_eq_some_iff.1 h
    obtain ⟨_, _, _, _, hw⟩ := upload_tick_eq w u.inode env u.pc
    refine ⟨.inr (.inr ⟨k, env, u, rfl, hu, ?_⟩), .inl ?_, .inl ?_, fun _ => ?_,
      fun _ => ⟨?_, ?_⟩, fun _ => ?_, fun _ => ?_⟩
    all_goals
      dsimp only
      rw [hw]
  | hydration k env =>
    obtain ⟨x, -, rfl⟩ := Option.map_eq_some_iff.1 h
    obtain ⟨_, _, _, hw⟩ := hydration_tick_eq m w x.inode env x.pc
    dsimp only
    rw [hw]
    split <;> exact stepFrame_of_eq rfl rfl rfl nofun (fun _ => ⟨rfl, rfl⟩) nofun nofun
  | read k env =>
    obtain ⟨x, -, rfl⟩ := Option.map_eq_some_iff.1 h
    obtain ⟨_, _, _, _, hw⟩ := read_tick_eq m w env x
    dsimp only
    rw [hw]
    split <;> exact stepFrame_of_eq rfl rfl rfl (fun _ => rfl) nofun nofun nofun
  | startEviction =>
    obtain ⟨ev, hev, rfl⟩ := step_startEviction h
    exact ⟨.inl rfl, .inr (.inl ⟨rfl, hev.symm⟩), .inl rfl, fun _ => rfl, fun _ => ⟨rfl, rfl⟩,
      fun _ => rfl, fun _ => rfl⟩
  | eviction env =>
    obtain ⟨x, hx, rfl⟩ := Option.map_eq_some_iff.1 h
    obtain ⟨_, _, hw⟩ := eviction_tick_eq m w env x
    refine ⟨.inl ?_, .inr (.inr ⟨env, x, rfl, hx, rfl⟩), .inl ?_, nofun, fun _ => ⟨?_, ?_⟩,
      fun _ => ?_, fun _ => ?_⟩
    all_goals
      dsimp only
      rw [hw]
  | background k env =>
    obtain ⟨x, -, rfl⟩ := Option.map_eq_some_iff.1 h
    obtain ⟨_, _, hw⟩ := background_tick_eq m w env x
    dsimp only
    rw [hw]
    exact stepFrame_of_eq rfl rfl rfl (fun _ => rfl) (fun _ => ⟨rfl, rfl⟩) (fun _ => rfl)
      fun _ => rfl
  | prefetch parent =>
    rw [← Option.some.inj h, prefetchSmallFiles]
    split <;> exact stepFrame_of_eq rfl rfl rfl (fun _ => rfl) (fun _ => ⟨rfl, rfl⟩) (fun _ => rfl)
      nofun
  | poll op =>
    obtain rfl := Option.some.inj h
    exact stepFrame_of_eq rfl rfl rfl nofun (fun _ => ⟨rfl, rfl⟩) (fun _ => rfl) fun _ => rfl
  | foreign e =>
    obtain rfl := Option.some.inj h
    exact stepFrame_of_eq rfl rfl rfl (fun _ => rfl) (fun _ => ⟨rfl, rfl⟩) (fun _ => rfl)
      fun _ => rfl
  | clock n =>
    obtain rfl := Option.some.inj h
    exact stepFrame_of_eq rfl rfl rfl (fun _ => rfl) (fun _ => ⟨rfl, rfl⟩) (fun _ => rfl)
      fun _ => rfl

theorem uploads_of_step {ev : Event} (h : step m w ev = some w') : UploadsStep w ev w' :=
  (frame_of_step h).uploads

theorem eviction_of_step {ev : Event} (h : step m w ev = some w') : EvictionStep m w ev w' :=
  (frame_of_step h).eviction

theorem fuse_of_step {ev : Event} (h : step m w ev = some w') : FuseStep m w ev w' :=
  (frame_of_step h).fuse

/-- Only requests and the spawned operations themselves change what is spawned. -/
theorem background_of_step {ev : Event} (h : step m w ev = some w') :
    w'.background = w.background ∨ (∃ r, ev = .request r) ∨ ∃ k env b, ev = .background k env ∧
      w.background[k]? = some b ∧
        w'.background = advance w.background k (Background.tick m w env b).2 := by
  cases ev with
  | request r => exact .inr (.inl ⟨r, rfl⟩)
  | fuse env =>
    obtain ⟨c, -, rfl⟩ := Option.map_eq_some_iff.1 h
    obtain ⟨_, _, hw⟩ := fuseCall_tick_eq w env c
    exact .inl (by rw [hw])
  | launch i =>
    obtain rfl := step_launch h
    exact .inl rfl
  | upload k env =>
    obtain ⟨u, -, rfl⟩ := Option.map_eq_some_iff.1 h
    obtain ⟨_, _, _, _, hw⟩ := upload_tick_eq w u.inode env u.pc
    exact .inl (by dsimp only; rw [hw])
  | hydration k env =>
    obtain ⟨x, -, rfl⟩ := Option.map_eq_some_iff.1 h
    obtain ⟨_, _, _, hw⟩ := hydration_tick_eq m w x.inode env x.pc
    dsimp only
    rw [hw]
    split <;> exact .inl rfl
  | read k env =>
    obtain ⟨x, -, rfl⟩ := Option.map_eq_some_iff.1 h
    obtain ⟨_, _, _, _, hw⟩ := read_tick_eq m w env x
    dsimp only
    rw [hw]
    split <;> exact .inl rfl
  | startEviction =>
    obtain ⟨ev, -, rfl⟩ := step_startEviction h
    exact .inl rfl
  | eviction env =>
    obtain ⟨x, -, rfl⟩ := Option.map_eq_some_iff.1 h
    obtain ⟨_, _, hw⟩ := eviction_tick_eq m w env x
    exact .inl (by dsimp only; rw [hw])
  | background k env =>
    obtain ⟨b, hb, rfl⟩ := Option.map_eq_some_iff.1 h
    obtain ⟨_, _, hw⟩ := background_tick_eq m w env b
    exact .inr (.inr ⟨k, env, b, rfl, hb, by dsimp only; rw [hw]⟩)
  | prefetch parent =>
    rw [← Option.some.inj h, prefetchSmallFiles]
    split <;> exact .inl rfl
  | poll | foreign | clock =>
    obtain rfl := Option.some.inj h
    exact .inl rfl

end Stratosync

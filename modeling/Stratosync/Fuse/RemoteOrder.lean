import Stratosync.Daemon.RemoteCalls
import Stratosync.Foundations.Runs

/-!
# The order of the remote operations

A handler spawns its remote operation and returns, and uploads run from a queue of their own, so
nothing makes the backend see the operations in the order in which the file system issued them. The
tickets record that order: a spawned operation takes one when its request is served, an upload when
it loads its row, and the calls carried out are logged by their tickets.

`remote_of_run`: in every run in which no call is carried out after one of a later ticket that works
on a common path, the remote is at any time what the calls carried out so far leave in the order of
their tickets.
-/

namespace Stratosync

open Foundations.Pool Foundations.Runs Foundations.Serial

/-- The upload is about to load its row. -/
def UploadPc.loads : UploadPc → Bool
  | .load => true
  | _ => false

/-- The tickets of what is under way, and the calls carried out for each ticket. An upload has none
until it has loaded its row. -/
structure Tickets where
  log : List (List RemoteCall)
  background : List ℕ
  uploads : List (Option ℕ)

namespace Tickets

variable (m : Mount) (w : World) (t : Tickets)

/-- The ticket of the task whose turn it is. -/
def turn : Event → Option ℕ
  | .background k _ => t.background[k]?
  | .upload k _ => t.uploads[k]?.join
  | _ => none

/-- The log after an event, which may carry out a call of its task. -/
def logged (ev : Event) : List (List RemoteCall) :=
  match t.turn ev, ev.remoteCall w with
  | some n, some c => record t.log n c
  | _, _ => t.log

/-- The tickets after a step. -/
def next (ev : Event) (w' : World) : Tickets :=
  match ev with
  | .request _ =>
    let spawned := w'.background.length - w.background.length
    { t with
      log := t.log ++ List.replicate spawned []
      background := t.background ++ List.range' t.log.length spawned }
  | .launch _ => { t with uploads := t.uploads ++ [none] }
  | .upload k env =>
    match w.uploads[k]? with
    | none => t
    | some u =>
      let next := (Upload.tick w u.inode env u.pc).2
      if u.pc.loads then
        { t with
          log := t.log ++ [[]]
          uploads := advance t.uploads k (next.map fun _ => some t.log.length) }
      else
        { t with
          log := t.logged w ev
          uploads := advance t.uploads k (next.map fun _ => t.turn ev) }
  | .background k env =>
    match w.background[k]? with
    | none => t
    | some b =>
      let next := (Background.tick m w env b).2
      { t with
        log := t.logged w ev
        background := advance t.background k (next.bind fun _ => t.turn ev) }
  | .foreign e => { t with log := t.log ++ [[.edit e]] }
  | _ => t

end Tickets

/-- The system with its tickets. -/
abbrev ticketStep (m : Mount) : World × Tickets → Event → Option (World × Tickets) :=
  withHistory (step m) fun w ev w' t => t.next m w ev w'

/-- **The calls in the order of their tickets** leave this remote. -/
def Tickets.inOrder (t : Tickets) (r₀ : Remote) : Remote :=
  replay RemoteCall.apply r₀ t.log.flatten

/-- A call is carried out before those of later tickets that work on a common path. -/
def InTurn (x : World × Tickets) (ev : Event) : Prop :=
  ∀ c ∈ ev.remoteCall x.1, ∀ n ∈ x.2.turn ev, ∀ d ∈ (x.2.log.drop (n + 1)).flatten, ¬c.Overlaps d

instance (x : World × Tickets) (ev : Event) : Decidable (InTurn x ev) :=
  inferInstanceAs (Decidable (∀ c ∈ ev.remoteCall x.1, ∀ n ∈ x.2.turn ev,
    ∀ d ∈ (x.2.log.drop (n + 1)).flatten, ¬c.Overlaps d))

/-- No remote operation is under way. -/
structure Idle (x : World × Tickets) : Prop where
  background : x.1.background = []
  uploads : x.1.uploads = []
  tickets : x.2 = ⟨[], [], []⟩

/-! ## The invariant -/

/-- **The invariant**: the remote is in order, and every task that may make a call has a ticket. -/
structure InOrder (r₀ : Remote) (x : World × Tickets) : Prop where
  remote : x.1.remote = x.2.inOrder r₀
  background : x.2.background.length = x.1.background.length
  uploads : List.Forall₂ (fun u n => u.pc.entry.isSome = true → n.isSome = true) x.1.uploads
    x.2.uploads
  known : (∀ n ∈ x.2.background, n < x.2.log.length) ∧
    ∀ n, some n ∈ x.2.uploads → n < x.2.log.length

variable {m : Mount} {w w' : World} {t : Tickets} {ev : Event} {r₀ : Remote}

/-- An upload has loaded its row before it does anything with it. -/
theorem loaded_of_tick {i : Inode} {env : Env} {pc pc' : UploadPc}
    (h : (Upload.tick w i env pc).2 = some pc') (he : pc'.entry.isSome = true) :
    pc.entry.isSome = true ∨ pc.loads = true := by
  cases pc with
  | load => exact .inr rfl
  | finish result =>
    obtain e | _ := result
    · cases e <;> simp only [Upload.tick] at h
      all_goals
        repeat' split at h
        all_goals cases h
    · cases h
  | reset | revert | record =>
    simp only [Upload.tick] at h
    repeat' split at h
    all_goals
      cases h
      cases he
  | _ => exact .inl rfl

theorem background_of_request (m : Mount) (w : World) (r : Request) :
    ∃ new, (serve m w r).background = w.background ++ new := by
  cases r <;> simp only [serve, handleWrite, handleSetattr, handleOpen, handleRelease, handleFsync,
    handleRead, handleCreate, handleMkdir, handleUnlink, handleRmdir, handleRename, World.allocFh]
  all_goals
    repeat' split
    all_goals first
      | exact ⟨[], (List.append_nil _).symm⟩
      | exact ⟨_, rfl⟩

/-- **A call carried out in its turn** keeps the remote in order. -/
theorem remote_of_logged (hi : InOrder r₀ (w, t)) (hg : InTurn (w, t) ev)
    (h : step m w ev = some w') (hturn : ∀ c ∈ ev.remoteCall w, ∃ n ∈ t.turn ev, n < t.log.length) :
    w'.remote = replay RemoteCall.apply r₀ (t.logged w ev).flatten := by
  rw [remote_of_step h, Tickets.logged]
  cases hc : ev.remoteCall w with
  | none =>
    cases t.turn ev <;> exact hi.remote
  | some c =>
    obtain ⟨n, hn, hlt⟩ := hturn c hc
    rw [Option.mem_def.1 hn]
    have hcomm := fun d hd => RemoteCall.commutes (hg c hc n hn d hd)
    calc c.apply w.remote = c.apply (replay RemoteCall.apply r₀ t.log.flatten) :=
          congrArg c.apply hi.remote
      _ = replay RemoteCall.apply r₀ (record t.log n c).flatten := (replay_record hlt hcomm r₀).symm

theorem length_logged (t : Tickets) (w : World) (ev : Event) :
    (t.logged w ev).length = t.log.length := by
  rw [Tickets.logged]
  split
  · exact length_record _ _ _
  · rfl

theorem InOrder.request (hi : InOrder r₀ (w, t)) {r : Request}
    (h : step m w (.request r) = some w') : InOrder r₀ (w', t.next m w (.request r) w') := by
  obtain ⟨new, hnew⟩ := background_of_request m w r
  have hremote := remote_of_step h
  have huploads : w'.uploads = w.uploads := by
    obtain hu | ⟨i, he, -⟩ | ⟨k, env, u, he, -⟩ := uploads_of_step h
    · exact hu
    · cases he
    · cases he
  obtain ⟨-, rfl⟩ := step_request h
  have hlen : (serve m w r).background.length - w.background.length = new.length := by
    rw [hnew, List.length_append]
    omega
  rw [Tickets.next, hlen]
  constructor
  · rw [hremote, Tickets.inOrder, List.flatten_append, List.flatten_replicate_nil, List.append_nil]
    exact hi.remote
  · rw [List.length_append, List.length_range', hnew, List.length_append, hi.background]
  · rw [huploads]
    exact hi.uploads
  · have hlog : (t.log ++ List.replicate new.length []).length = t.log.length + new.length := by
      rw [List.length_append, List.length_replicate]
    dsimp only
    rw [hlog]
    refine ⟨fun n hn => ?_, fun n hn => (hi.known.2 n hn).trans_le (Nat.le_add_right _ _)⟩
    obtain hn | hn := List.mem_append.1 hn
    · exact (hi.known.1 n hn).trans_le (Nat.le_add_right _ _)
    · exact (List.mem_range'_1.1 hn).2

theorem InOrder.launch (hi : InOrder r₀ (w, t)) {i : Inode}
    (h : step m w (.launch i) = some w') : InOrder r₀ (w', t.next m w (.launch i) w') := by
  obtain rfl := step_launch h
  refine ⟨hi.remote, hi.background, forall₂_append hi.uploads ?_, hi.known.1, fun n hn => ?_⟩
  · exact .cons (fun he => by cases he) .nil
  · obtain hn | hn := List.mem_append.1 hn
    · exact hi.known.2 n hn
    · cases List.mem_singleton.1 hn

/-- An upload that has loaded its row has a ticket. -/
theorem InOrder.turn_of_entry (hi : InOrder r₀ (w, t)) {k : ℕ} (env : Env) {u : Upload}
    (hu : w.uploads[k]? = some u) (he : u.pc.entry.isSome = true) :
    ∃ n ∈ t.turn (.upload k env), n < t.log.length := by
  obtain ⟨o, ho, hsome⟩ := forall₂_getElem? hi.uploads hu
  obtain ⟨n, rfl⟩ := Option.isSome_iff_exists.1 (hsome he)
  refine ⟨n, ?_, hi.known.2 n (List.mem_of_getElem? ho)⟩
  rw [Tickets.turn, ho]
  rfl

theorem InOrder.upload (hi : InOrder r₀ (w, t)) {k : ℕ} {env : Env}
    (hg : InTurn (w, t) (.upload k env)) (h : step m w (.upload k env) = some w') :
    InOrder r₀ (w', t.next m w (.upload k env) w') := by
  obtain ⟨u, hu, hw⟩ := Option.map_eq_some_iff.1 h
  have huploads : w'.uploads = advance w.uploads k
      ((Upload.tick w u.inode env u.pc).2.map fun pc => { u with pc }) := by
    obtain ⟨_, _, _, _, heq⟩ := upload_tick_eq w u.inode env u.pc
    rw [← hw]
    dsimp only
    rw [heq]
  have hbackground : w'.background = w.background := by
    obtain hb | ⟨r, he⟩ | ⟨_, _, _, he, -⟩ := background_of_step h
    · exact hb
    · cases he
    · cases he
  have hturn : ∀ c ∈ (Event.upload k env).remoteCall w,
      ∃ n ∈ t.turn (.upload k env), n < t.log.length := by
    intro c hc
    refine hi.turn_of_entry _ hu ?_
    simp only [Event.remoteCall, hu, Option.bind_some] at hc
    split at hc
    · cases hc
    · cases hpc : u.pc with
      | put => rfl
      | _ =>
        rw [hpc] at hc
        cases hc
  rw [Tickets.next, hu]
  dsimp only
  split
  · rename_i hloads
    have hcall : (Event.upload k env).remoteCall w = none := by
      rw [Event.remoteCall, hu, Option.bind_some]
      cases hpc : u.pc with
      | load => exact ite_self _
      | _ =>
        rw [hpc] at hloads
        cases hloads
    have hremote := remote_of_step h
    rw [hcall, Option.elim_none] at hremote
    have hlog : (t.log ++ [[]]).length = t.log.length + 1 := by
      rw [List.length_append, List.length_singleton]
    refine ⟨?_, hi.background.trans (congrArg _ hbackground.symm), ?_, fun n hn => ?_,
      fun n hn => ?_⟩
    · rw [hremote, Tickets.inOrder, replay_issue]
      exact hi.remote
    · rw [huploads]
      refine forall₂_advance hi.uploads k ?_
      cases (Upload.tick w u.inode env u.pc).2 with
      | none => exact .none
      | some pc => exact .some fun _ => rfl
    · exact hlog ▸ (hi.known.1 n hn).trans (Nat.lt_succ_self _)
    · dsimp only
      rw [hlog]
      obtain hn | hn := mem_of_mem_advance hn
      · exact (hi.known.2 n hn).trans (Nat.lt_succ_self _)
      · cases hnext : (Upload.tick w u.inode env u.pc).2 with
        | none =>
          rw [hnext] at hn
          cases hn
        | some pc =>
          rw [hnext] at hn
          cases hn
          exact Nat.lt_succ_self _
  · rename_i hloads
    refine ⟨remote_of_logged hi hg h hturn, hi.background.trans (congrArg _ hbackground.symm), ?_,
      ?_, ?_⟩
    · rw [huploads]
      refine forall₂_advance hi.uploads k ?_
      cases hnext : (Upload.tick w u.inode env u.pc).2 with
      | none => exact .none
      | some pc =>
        refine .some fun he => ?_
        obtain he | he := loaded_of_tick hnext he
        · obtain ⟨n, hn, -⟩ := hi.turn_of_entry env hu he
          rw [Option.mem_def.1 hn]
          rfl
        · exact absurd he hloads
    · dsimp only
      rw [length_logged]
      exact hi.known.1
    · dsimp only
      rw [length_logged]
      intro n hn
      obtain hn | hn := mem_of_mem_advance hn
      · exact hi.known.2 n hn
      · obtain ⟨pc, -, hpc⟩ := Option.map_eq_some_iff.1 hn
        exact hi.known.2 n (List.mem_of_getElem? (Option.join_eq_some_iff.1 hpc))

theorem InOrder.spawned (hi : InOrder r₀ (w, t)) {k : ℕ} {env : Env}
    (hg : InTurn (w, t) (.background k env)) (h : step m w (.background k env) = some w') :
    InOrder r₀ (w', t.next m w (.background k env) w') := by
  obtain ⟨b, hb, hw⟩ := Option.map_eq_some_iff.1 h
  have hbackground : w'.background = advance w.background k (Background.tick m w env b).2 := by
    obtain ⟨_, _, heq⟩ := background_tick_eq m w env b
    rw [← hw]
    dsimp only
    rw [heq]
  have huploads : w'.uploads = w.uploads := by
    obtain hu | ⟨i, he, -⟩ | ⟨_, _, _, he, -⟩ := uploads_of_step h
    · exact hu
    · cases he
    · cases he
  obtain ⟨n, hn⟩ : ∃ n, t.background[k]? = some n := by
    have hlt := (List.getElem?_eq_some_iff.1 hb).1
    rw [← hi.background] at hlt
    exact ⟨_, List.getElem?_eq_getElem hlt⟩
  have hlt : n < t.log.length := hi.known.1 n (List.mem_of_getElem? hn)
  rw [Tickets.next, hb]
  refine ⟨remote_of_logged hi hg h fun c hc => ⟨n, hn, hlt⟩, ?_, ?_, ?_, ?_⟩
  · rw [hbackground]
    dsimp only
    rw [Tickets.turn, hn]
    cases (Background.tick m w env b).2 with
    | none =>
      change (t.background.eraseIdx k).length = (w.background.eraseIdx k).length
      rw [List.length_eraseIdx, List.length_eraseIdx, hi.background]
    | some b' =>
      change (t.background.set k n).length = (w.background.set k b').length
      rw [List.length_set, List.length_set, hi.background]
  · rw [huploads]
    exact hi.uploads
  · dsimp only
    rw [length_logged]
    intro n' hn'
    obtain hn' | hn' := mem_of_mem_advance hn'
    · exact hi.known.1 n' hn'
    · obtain ⟨b', -, hb'⟩ := Option.bind_eq_some_iff.1 hn'
      exact hi.known.1 n' (List.mem_of_getElem? hb')
  · dsimp only
    rw [length_logged]
    exact hi.known.2

theorem InOrder.foreign (hi : InOrder r₀ (w, t)) {e : ForeignEdit}
    (h : step m w (.foreign e) = some w') : InOrder r₀ (w', t.next m w (.foreign e) w') := by
  rw [← Option.some.inj h]
  have hlen : t.log.length < (t.log ++ [[RemoteCall.edit e]]).length := by
    rw [List.length_append, List.length_singleton]
    exact Nat.lt_succ_self _
  refine ⟨?_, hi.background, hi.uploads, fun n hn => ?_, fun n hn => ?_⟩
  · rw [Tickets.inOrder, Tickets.next, replay_issue]
    exact congrArg e.apply hi.remote
  · exact (hi.known.1 n hn).trans hlen
  · exact (hi.known.2 n hn).trans hlen

/-- **The step**: calls carried out in their turn keep the remote in order. -/
theorem InOrder.step (hi : InOrder r₀ (w, t)) (hg : InTurn (w, t) ev)
    (h : Stratosync.step m w ev = some w') : InOrder r₀ (w', t.next m w ev w') := by
  cases ev with
  | request r => exact hi.request h
  | launch i => exact hi.launch h
  | upload k env => exact hi.upload hg h
  | background k env => exact hi.spawned hg h
  | foreign e => exact hi.foreign h
  | _ =>
    have hu : w'.uploads = w.uploads := by
      obtain hu | ⟨i, he, -⟩ | ⟨k, env, u, he, -⟩ := uploads_of_step h
      · exact hu
      · cases he
      · cases he
    have hb : w'.background = w.background := by
      obtain hb | ⟨r, he⟩ | ⟨k, env, b, he, -⟩ := background_of_step h
      · exact hb
      · cases he
      · cases he
    have hr : w'.remote = w.remote := remote_of_step h
    exact ⟨hr.trans hi.remote, hi.background.trans (congrArg _ hb.symm), hu ▸ hi.uploads, hi.known⟩

/-- **The remote operations keep their order**, in every run that carries each out in its turn. -/
theorem remote_of_run {x x' : World × Tickets} {evs : List Event} (h₀ : Idle x)
    (hg : Guarded (ticketStep m) InTurn x evs) (hr : run (ticketStep m) x evs = some x') :
    x'.1.remote = x'.2.inOrder x.1.remote := by
  refine (inv_of_run (I := InOrder x.1.remote) (fun y ev y' hi hg h => ?_) ?_ hg hr).remote
  · obtain ⟨h, ht⟩ := withHistory_eq_some.1 h
    obtain ⟨w', t'⟩ := y'
    rw [show t' = y.2.next m y.1 ev w' from ht]
    exact hi.step hg h
  · obtain ⟨w, t⟩ := x
    obtain ⟨hb, hu, rfl⟩ := h₀
    refine ⟨rfl, ?_, ?_, fun n hn => ?_, fun n hn => ?_⟩
    · exact congrArg List.length hb.symm
    · rw [show w.uploads = [] from hu]
      exact .nil
    · cases hn
    · cases hn

/-- A file that was uploaded is removed, created again and uploaded. -/
def replaceUploaded : List Event :=
  uploadFirst ++
    [.request (.unlink fuseRootInode ['a']), .request (.create fuseRootInode ['a']),
      .request (.write 2 0 [8]), .fuse .fine, .launch 3, .upload 0 .fine, .upload 0 .fine,
      .upload 0 .fine, .upload 0 .fine]

theorem idle_init (m : Mount) (now : ℕ) : Idle (World.init m now, ⟨[], [], []⟩) := ⟨rfl, rfl, rfl⟩

theorem remote_deleteBeforeUpload :
    ∃ x, run (ticketStep sampleMount) (World.init sampleMount 0, ⟨[], [], []⟩)
        (replaceUploaded ++ [.background 0 .fine, .upload 0 (.accepted ['w'])]) = some x ∧
      x.1.remote = x.2.inOrder fun _ => none := by
  have hguard : Guarded (ticketStep sampleMount) InTurn (World.init sampleMount 0, ⟨[], [], []⟩)
      (replaceUploaded ++ [.background 0 .fine, .upload 0 (.accepted ['w'])]) := by decide
  exact ⟨_, rfl, remote_of_run (idle_init sampleMount 0) hguard rfl⟩

/-- The new object is deleted by the operation of the old one. -/
theorem not_inOrder_deleteAfterUpload :
    ¬∀ (m : Mount) (x x' : World × Tickets) (evs : List Event), Idle x →
      run (ticketStep m) x evs = some x' → x'.1.remote = x'.2.inOrder x.1.remote := by
  intro h
  obtain ⟨x, hx⟩ : ∃ x, run (ticketStep sampleMount) (World.init sampleMount 0, ⟨[], [], []⟩)
    (replaceUploaded ++ [.upload 0 (.accepted ['w']), .background 0 .fine]) = some x := ⟨_, rfl⟩
  have horder := congrFun (h _ _ x _ (idle_init sampleMount 0) hx) ['a']
  have hends : (run (ticketStep sampleMount) (World.init sampleMount 0, ⟨[], [], []⟩)
      (replaceUploaded ++ [.upload 0 (.accepted ['w']), .background 0 .fine])).map (fun x =>
        ((x.1.remote.object ['a']).map RemoteObject.data,
          ((x.2.inOrder fun _ => none).object ['a']).map RemoteObject.data)) =
      some (none, some [8]) := rfl
  rw [hx, Option.map_some, Option.some.injEq] at hends
  obtain ⟨hgone, hthere⟩ := Prod.mk.inj hends
  have hsame : x.1.remote.object ['a'] = (x.2.inOrder fun _ => none).object ['a'] := by
    rw [Remote.object, Remote.object, horder]
    rfl
  rw [hsame, hthere] at hgone
  cases hgone

end Stratosync

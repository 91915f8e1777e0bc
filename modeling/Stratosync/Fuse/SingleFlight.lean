import Stratosync.Daemon.Hydrations
import Stratosync.Foundations.Runs

/-!
# One hydration at a time, and no lost wake-up

Two things keep the downloads of a file apart: its status in the index and the map of waiters. A
caller looks at the status and then acts, by marking the row or by registering as a waiter, and a
hydration records its result before it tells the waiters. `singleFlight_of_run`: in every run in
which no row is marked on an outdated look, or while a hydration whose row a timed-out wait has
reset is still under way, in which a waiter registers while the row is still hydrating, no wait
times out between the end of a hydration and its notification, and each hydration comes to its
notification, at most one hydration downloads a file at any time, and no waiter is left without
one.

An `open` reads the row and marks it in two calls, so here they are two steps (`Frontend`).
-/

namespace Stratosync

open Foundations.Pool Foundations.Runs

/-! ## Opens in two steps -/

/-- An `open` that has read the row and is about to mark it. -/
structure Opening where
  inode : Inode
  entry : FileEntry

/-- The daemon, with the opens that are between their two calls. -/
structure Frontend where
  world : World
  opening : List Opening

/-- The first call starts a download. -/
def startsHydration (m : Mount) (entry : FileEntry) : Bool :=
  entry.status.needsHydration && m.autoHydrateMaxSize.all fun cap => entry.size ≤ cap

/-- The second call of an `open`: mark the row, start its hydration and hand out a handle. -/
def Opening.mark (m : Mount) (w : World) (env : Env) (o : Opening) : World :=
  match World.tryDb env (w.db.setStatus o.inode .hydrating) with
  | none => w
  | some db =>
    (({ w with db, hydrations := w.hydrations ++ [⟨o.inode, .reload, none⟩] } : World).allocFh
      { inode := o.inode, cachePath := o.entry.cachePath.getD (m.derivedPath o.entry)
        remotePath := o.entry.remotePath, hydrating := true }).2

inductive FrontendEvent
  | world (ev : Event)
  | open_ (i : Inode)
  | mark (k : ℕ) (env : Env)

/-- One step of the daemon, in which an `open` takes two. -/
def Frontend.step (m : Mount) (s : Frontend) : FrontendEvent → Option Frontend
  | .world ev =>
    match ev with
    | .request (.open_ _) => none
    | ev => (Stratosync.step m s.world ev).map fun world => { s with world }
  | .open_ i =>
    match s.world.db.getByInode i with
    | none => some s
    | some entry =>
      if startsHydration m entry then some { s with opening := s.opening ++ [⟨i, entry⟩] }
      else some { s with world := (handleOpen m s.world i).2 }
  | .mark k env => s.opening[k]?.map fun o =>
      { world := o.mark m s.world env, opening := s.opening.eraseIdx k }

/-- An `open` that nothing comes between is the request of the daemon. -/
theorem mark_eq_handleOpen {m : Mount} {w : World} {i : Inode} {entry : FileEntry}
    (hi : w.db.getByInode i = some entry) (hs : startsHydration m entry = true) :
    Opening.mark m w .fine ⟨i, entry⟩ = (handleOpen m w i).2 := by
  have hneeds : entry.status.needsHydration = true := (Bool.and_eq_true_iff.1 hs).1
  simp only [startsHydration] at hs
  simp only [Opening.mark, World.tryDb, Env.fine, handleOpen, hi, World.allocFh]
  rw [if_pos hs, hneeds]
  cases w.db.setStatus i .hydrating <;> rfl

/-! ## The condition -/

/-- The hydration is to tell the waiters. -/
def HydrationPc.notifies : HydrationPc → Bool
  | .notify _ => true
  | pc => pc.working

/-- The hydration has left its result and is about to tell the waiters. -/
def HydrationPc.ended : HydrationPc → Bool
  | .notify _ => true
  | _ => false

/-- The hydration has its cache path and has yet to record the file. -/
def HydrationPc.downloading : HydrationPc → Bool
  | .download .. | .install .. | .record .. => true
  | _ => false

/-- A wait that timed out has reset the row under a hydration that is still under way. -/
def GivenUp (w : World) (i : Inode) : Prop :=
  (∀ r ∈ w.db.getByInode i, r.status ≠ .hydrating) ∧
    ∃ h ∈ w.hydrations, h.inode = i ∧ h.pc.working = true

/-- The row still needs hydration, as the look at it found, and no hydration of it was given up. -/
def Unclaimed (w : World) (i : Inode) : Prop :=
  (∃ r ∈ w.db.getByInode i, r.status.needsHydration = true) ∧ ¬GivenUp w i

/-- The openers, readers and prefetchers, with the hydrations and what happens outside. -/
def Fetches : FrontendEvent → Prop
  | .world ev => ev.fetches = true
  | _ => True

/-- The call of a hydration finds what its last look found, and is one on the way to its
notification. -/
def Hydration.Timely (m : Mount) (w : World) (env : Env) (h : Hydration) : Prop :=
  match h.pc with
  | .claim _ => Unclaimed w h.inode
  | .register _ => ∃ r ∈ w.db.getByInode h.inode, r.status = .hydrating
  | .wait _ none => ∀ x ∈ w.hydrations, x.inode = h.inode → x.pc.ended = false
  | .reload => env.fault = false ∧ (w.db.getByInode h.inode).isSome = true
  | pc => pc.Completes m w.fs env

/-- No look at a row is outdated when it is acted on, and each hydration comes to its
notification. -/
def Timely (m : Mount) (s : Frontend) : FrontendEvent → Prop
  | .mark k _ => ∀ o ∈ s.opening[k]?, Unclaimed s.world o.inode
  | .world (.read k _) => ∀ rd ∈ s.world.reads[k]?, ∀ f ∈ rd.pc.claimed,
      Unclaimed s.world f.inode
  | .world (.hydration k env) => ∀ h ∈ s.world.hydrations[k]?, h.Timely m s.world env
  | _ => True

/-! ## What must hold -/

/-- **Single flight**: one download of a file at a time, and for every waiter a hydration that is
to tell it. -/
structure SingleFlight (w : World) : Prop where
  oneDownload : ∀ i,
    (w.hydrations.filter fun h => h.inode = i ∧ h.pc.downloading = true).length ≤ 1
  woken : ∀ x ∈ w.hydrations, ∀ a, x.pc = .wait a none →
    ∃ h ∈ w.hydrations, h.inode = x.inode ∧ h.pc.notifies = true

/-- **What the steps must keep**: single flight; a hydration that ends leaves no one waiting; and a
wait that times out does so while a hydration is under way, and resets no row that is cached. -/
structure FlightStep (m : Mount) (s : Frontend) (ev : FrontendEvent) (s' : Frontend) : Prop where
  after : SingleFlight s'.world
  ends : ∀ k env, ev = .world (.hydration k env) → ∀ h ∈ s.world.hydrations[k]?,
    h.pc.notifies = true → (∀ pc, (Hydration.tick m s.world h.inode env h.pc).2 ≠ .goto pc) →
      ∀ x ∈ s'.world.hydrations, x.inode = h.inode → ∀ a, x.pc ≠ .wait a none
  timesOut : ∀ k env, ev = .world (.hydration k env) → ∀ h ∈ s.world.hydrations[k]?,
    ∀ a, h.pc = .wait a none →
      (∃ x ∈ s.world.hydrations, x.inode = h.inode ∧ x.pc.working = true) ∧
        ∀ r ∈ s.world.db.getByInode h.inode, r.status ≠ .cached

/-- No row is being hydrated. -/
structure AtStart (s : Frontend) : Prop where
  idle : s.world.hydrations = []
  unmarked : ∀ i, ∀ r ∈ s.world.db.getByInode i, r.status ≠ .hydrating

/-! ## The invariant -/

/-- The row that a hydration has marked. -/
def Hydration.flight (h : Hydration) : Option Inode := if h.pc.working then some h.inode else none

/-- **The invariant**: a marked row has a hydration, no row has two, and it is not cached before
its hydration has ended. -/
structure OneFlight (w : World) : Prop where
  one : (w.hydrations.filterMap Hydration.flight).Nodup
  marked : ∀ i, ∀ r ∈ w.db.getByInode i, r.status = .hydrating →
    ∃ h ∈ w.hydrations, h.inode = i ∧ h.pc.working = true
  woken : ∀ x ∈ w.hydrations, ∀ a, x.pc = .wait a none →
    ∃ h ∈ w.hydrations, h.inode = x.inode ∧ h.pc.notifies = true
  uncached : ∀ h ∈ w.hydrations, h.pc.working = true →
    ∀ r ∈ w.db.getByInode h.inode, r.status ≠ .cached

variable {m : Mount} {w w' : World} {ev : Event} {i : Inode} {r r' : FileEntry}

theorem flight_eq_some {h : Hydration} :
    h.flight = some i ↔ h.pc.working = true ∧ h.inode = i := by
  rw [Hydration.flight]
  cases h.pc.working <;> simp

theorem notifies_of_working {pc : HydrationPc} (h : pc.working = true) : pc.notifies = true := by
  cases pc <;> first | rfl | cases h

theorem working_of_downloading {pc : HydrationPc} (h : pc.downloading = true) :
    pc.working = true := by
  cases pc <;> first | rfl | cases h

theorem not_wait_of_notifies {pc : HydrationPc} (h : pc.notifies = true) (a : ℕ) :
    pc ≠ .wait a none := by
  rintro rfl
  cases h

theorem OneFlight.singleFlight (hi : OneFlight w) : SingleFlight w where
  oneDownload := by
    intro i
    refine length_filter_le_one (a := i) hi.one fun h hh => ?_
    obtain ⟨hinode, hdown⟩ := of_decide_eq_true hh
    exact flight_eq_some.2 ⟨working_of_downloading hdown, hinode⟩
  woken := hi.woken

/-- Nobody hydrates an unclaimed row. -/
theorem Unclaimed.not_working (h : Unclaimed w i) :
    ∀ x ∈ w.hydrations, x.inode = i → x.pc.working = false := by
  obtain ⟨⟨r, hr, hneeds⟩, hgiven⟩ := h
  intro x hx hxi
  by_contra hw
  refine hgiven ⟨fun q hq hs => ?_, x, hx, hxi, by simpa using hw⟩
  obtain rfl := Option.some.inj (hr.symm.trans hq)
  rw [hs] at hneeds
  cases hneeds

theorem Unclaimed.not_mem (h : Unclaimed w i) : i ∉ w.hydrations.filterMap Hydration.flight := by
  intro hmem
  obtain ⟨x, hx, hfl⟩ := List.mem_filterMap.1 hmem
  obtain ⟨hw, hxi⟩ := flight_eq_some.1 hfl
  rw [h.not_working x hx hxi] at hw
  cases hw

/-- A hydration that is told had not marked the row. -/
theorem flight_told (x : Hydration) (j : Inode) (ok : Bool) : (x.told j ok).flight = x.flight := by
  rw [Hydration.told]
  split
  · rename_i a hpc
    split
    · rw [Hydration.flight, Hydration.flight, hpc]
      rfl
    · rfl
  · rfl

/-! ## A call of a hydration -/

section Hydration

variable {k : ℕ} {env : Env} {x : Hydration} {pc' : HydrationPc}

/-- A hydration marks the row by its claim only. -/
theorem working_of_goto {pc : HydrationPc} (h : (Hydration.tick m w i env pc).2 = .goto pc')
    (hw : pc'.working = true) : pc.working = true ∨ ∃ e, pc = .claim e := by
  cases pc with
  | enter =>
    simp only [Hydration.tick] at h
    repeat' split at h
    all_goals
      cases h
      try cases hw
  | register => cases h; cases hw
  | wait a signal =>
    obtain _ | _ | _ := signal
    · simp only [Hydration.tick] at h
      split at h <;> cases h
      cases hw
    · cases h
    · cases h
  | claim e => exact .inr ⟨e, rfl⟩
  | notify => cases h
  | _ => exact .inl rfl

/-- Only a caller that registers comes to wait. -/
theorem register_of_goto {pc : HydrationPc} {a : ℕ}
    (h : (Hydration.tick m w i env pc).2 = .goto (.wait a none)) : ∃ b, pc = .register b := by
  cases pc with
  | register b => exact ⟨b, rfl⟩
  | wait b signal =>
    obtain _ | _ | _ := signal
    · simp only [Hydration.tick] at h
      split at h <;> cases h
    · cases h
    · cases h
  | notify => cases h
  | _ =>
    simp only [Hydration.tick] at h
    repeat' split at h
    all_goals cases h

theorem Hydration.Timely.completes (h : x.Timely m w env) :
    x.pc.Completes m w.fs env := by
  obtain ⟨j, pc, reader⟩ := x
  cases pc with
  | reload => exact h.1
  | begin_ | rollback => exact h
  | _ => exact trivial

/-- A hydration that has marked the row goes on until it tells the waiters. -/
theorem goto_of_notifies (hn : x.pc.notifies = true) (hu : x.Timely m w env) :
    (∃ pc', (Hydration.tick m w x.inode env x.pc).2 = .goto pc' ∧ pc'.notifies = true) ∨
      ∃ result, x.pc = .notify result := by
  obtain ⟨j, pc, reader⟩ := x
  cases pc with
  | reload =>
    obtain ⟨hf, hrow⟩ := hu
    obtain ⟨r, hr⟩ := Option.isSome_iff_exists.1 hrow
    left
    dsimp only at hr
    simp only [Hydration.tick, hf, hr]
    exact ⟨_, rfl, rfl⟩
  | begin_ e =>
    left
    simp only [Hydration.tick]
    split
    · exact absurd ‹_› hu
    · exact ⟨_, rfl, rfl⟩
  | notify result => exact .inr ⟨result, rfl⟩
  | enter | register | wait | claim => cases hn
  | _ =>
    left
    simp only [Hydration.tick]
    repeat' split
    all_goals exact ⟨_, rfl, rfl⟩

/-- A hydration changes no status while it goes on. -/
theorem db_of_goto {pc : HydrationPc} (h : (Hydration.tick m w i env pc).2 = .goto pc')
    (hw : pc.working = true) (hw' : pc'.working = true) :
    (Hydration.tick m w i env pc).1.db = w.db ∨
      ∃ id db, w.db.setItemIdIfAbsent i id = some db ∧
        (Hydration.tick m w i env pc).1.db = db := by
  cases pc with
  | backfill e id =>
    simp only [Hydration.tick, World.logDb]
    cases hset : World.tryDb env (id.bind fun id => w.db.setItemIdIfAbsent i id) with
    | none => exact .inl rfl
    | some db =>
      obtain ⟨id', -, hid⟩ := Option.bind_eq_some_iff.1 (tryDb_eq_some.1 hset).2
      exact .inr ⟨id', db, hid, rfl⟩
  | rollback e err =>
    cases h
    cases hw'
  | enter | register | wait | claim | notify => cases hw
  | record =>
    simp only [Hydration.tick] at h ⊢
    split at h
    · cases h
      exact .inl rfl
    · split at h
      · cases h
        exact .inl rfl
      · cases h
        cases hw'
  | prune =>
    simp only [Hydration.tick] at h ⊢
    split at h
    · cases h
      exact .inl rfl
    · cases h
      cases hw'
  | _ =>
    left
    simp only [Hydration.tick]
    repeat' split
    all_goals rfl

/-- The hydration whose turn it is, or one of the others. -/
theorem eq_or_mem_other (hx : x ∈ w.hydrations) :
    x ∈ w.hydrations.eraseIdx k ∨ w.hydrations[k]? = some x := by
  obtain ⟨j, hj⟩ := List.mem_iff_getElem?.1 hx
  by_cases hjk : j = k
  · exact .inr (hjk ▸ hj)
  · exact .inl (List.mem_eraseIdx_iff_getElem?.2 ⟨j, hjk, hj⟩)

/-- After its notification nobody waits for a hydration. -/
theorem not_waiting_of_notify {result : Except SyncError Unit}
    (h : step m w (.hydration k env) = some w') (hx : w.hydrations[k]? = some x)
    (hpc : x.pc = .notify result) :
    ∀ y ∈ w'.hydrations, y.inode = x.inode → ∀ a, y.pc ≠ .wait a none := by
  obtain ⟨x₀, hx₀, rfl⟩ := Option.map_eq_some_iff.1 h
  obtain rfl := Option.some.inj (hx₀.symm.trans hx)
  rw [hpc]
  intro y hy hyi a hya
  obtain ⟨z, -, rfl⟩ := List.mem_map.1 (List.mem_of_mem_eraseIdx hy)
  change (Hydration.told x₀.inode result.isOk z).inode = _ at hyi
  change (Hydration.told x₀.inode result.isOk z).pc = _ at hya
  rw [Hydration.told] at hyi hya
  split at hya
  · split at hya
    · cases hya
    · rename_i hpcz hne
      rw [hpcz] at hyi
      dsimp only at hyi
      rw [if_neg hne] at hyi
      exact hne hyi
  · rename_i hno
    exact hno _ hya

end Hydration

/-! ## Every step -/

section Steps

/-- Steps that leave the rows alone and start at most callers that have yet to look. -/
theorem OneFlight.of_sameRows (hi : OneFlight w) {new : List Hydration}
    (hrows : ∀ i, w'.db.getByInode i = w.db.getByInode i)
    (hh : w'.hydrations = w.hydrations ++ new)
    (hnew : ∀ x ∈ new, x.pc.working = false ∧ ∀ a, x.pc ≠ .wait a none) : OneFlight w' where
  one := by
    have hnone : new.filterMap Hydration.flight = [] := by
      refine List.filterMap_eq_nil_iff.2 fun x hx => ?_
      rw [Hydration.flight, (hnew x hx).1]
      rfl
    rw [hh, List.filterMap_append, hnone, List.append_nil]
    exact hi.one
  marked := by
    intro i r hr hs
    rw [hrows] at hr
    obtain ⟨x, hx, hxi⟩ := hi.marked i r hr hs
    exact ⟨x, hh ▸ List.mem_append_left _ hx, hxi⟩
  woken := by
    intro x hx a ha
    rw [hh] at hx
    obtain hx | hx := List.mem_append.1 hx
    · obtain ⟨y, hy, hyx⟩ := hi.woken x hx a ha
      exact ⟨y, hh ▸ List.mem_append_left _ hy, hyx⟩
    · exact absurd ha ((hnew x hx).2 a)
  uncached := by
    intro x hx hw r hr
    rw [hrows] at hr
    rw [hh] at hx
    obtain hx | hx := List.mem_append.1 hx
    · exact hi.uncached x hx hw r hr
    · rw [(hnew x hx).1] at hw
      cases hw

theorem OneFlight.of_same (hi : OneFlight w) (hrows : ∀ i, w'.db.getByInode i = w.db.getByInode i)
    (hh : w'.hydrations = w.hydrations) : OneFlight w' :=
  hi.of_sameRows hrows (hh.trans (List.append_nil _).symm) fun x hx => by cases hx

/-- A caller that marks an unclaimed row and starts its hydration. -/
theorem OneFlight.of_claim (hi : OneFlight w) (hu : Unclaimed w i)
    (hdb : w.db.setStatus i .hydrating = some w'.db)
    (hh : w'.hydrations = w.hydrations ++ [⟨i, .reload, none⟩]) : OneFlight w' where
  one := by
    rw [hh, List.filterMap_append]
    refine List.nodup_append.2 ⟨hi.one, List.nodup_singleton i, fun j hj k hk => ?_⟩
    rw [List.mem_singleton.1 hk]
    rintro rfl
    exact hu.not_mem hj
  marked := by
    intro j r hr hs
    by_cases hj : j = i
    · exact ⟨_, hh ▸ List.mem_append_right _ (List.mem_singleton.2 rfl), hj.symm, rfl⟩
    · rw [(Db.setStatus_rows hdb).of_ne hj] at hr
      obtain ⟨x, hx, hxi⟩ := hi.marked j r hr hs
      exact ⟨x, hh ▸ List.mem_append_left _ hx, hxi⟩
  woken := by
    intro x hx a ha
    rw [hh] at hx
    obtain hx | hx := List.mem_append.1 hx
    · obtain ⟨y, hy, hyx⟩ := hi.woken x hx a ha
      exact ⟨y, hh ▸ List.mem_append_left _ hy, hyx⟩
    · rw [List.mem_singleton.1 hx] at ha
      cases ha
  uncached := by
    intro x hx hw r hr
    rw [hh] at hx
    by_cases hj : x.inode = i
    · rw [hj, (Db.setStatus_rows hdb).self] at hr
      obtain ⟨r₀, -, rfl⟩ := Option.map_eq_some_iff.1 hr
      exact SyncStatus.noConfusion
    · rw [(Db.setStatus_rows hdb).of_ne hj] at hr
      obtain hx | hx := List.mem_append.1 hx
      · exact hi.uncached x hx hw r hr
      · exact absurd (List.mem_singleton.1 hx ▸ rfl) hj

section Hydration

variable {k : ℕ} {env : Env}

theorem nodup_of_hydrationStep (hi : OneFlight w)
    (hu : ∀ x ∈ w.hydrations[k]?, x.Timely m w env)
    (h : step m w (.hydration k env) = some w') :
    (w'.hydrations.filterMap Hydration.flight).Nodup := by
  obtain ⟨x, g, next, hx, hh, hg, hnext⟩ := hydrations_of_hydrationStep h
  have hflight : ∀ y, (g y).flight = y.flight := by
    intro y
    obtain hy | ⟨i, ok, hy⟩ := hg y
    · rw [hy]
    · rw [hy, flight_told]
  have hmap : (w.hydrations.map g).filterMap Hydration.flight =
      w.hydrations.filterMap Hydration.flight := by
    rw [List.filterMap_map]
    exact List.filterMap_congr fun y _ => hflight y
  rw [hh]
  refine nodup_filterMap_advance (t := g x) (hmap ▸ hi.one) ?_ fun y hy => ?_
  · rw [List.getElem?_map, hx]
    rfl
  · obtain ⟨pc, hpc, rfl⟩ := hnext y hy
    rw [hflight, hmap]
    by_cases hw : pc.working = true
    · obtain hwx | ⟨e, he⟩ := working_of_goto hpc hw
      · left
        rw [Hydration.flight, Hydration.flight, if_pos hw, if_pos hwx]
      · right
        intro i hi
        have hun := hu x hx
        rw [Hydration.Timely, he] at hun
        rw [← (flight_eq_some.1 hi).2]
        exact hun.not_mem
    · right
      intro i hi
      exact absurd (flight_eq_some.1 hi).1 hw

theorem marked_of_hydrationStep (hi : OneFlight w)
    (hu : ∀ x ∈ w.hydrations[k]?, x.Timely m w env)
    (h : step m w (.hydration k env) = some w') {r' : FileEntry}
    (hr' : w'.db.getByInode i = some r') (hs' : r'.status = .hydrating) :
    ∃ x ∈ w'.hydrations, x.inode = i ∧ x.pc.working = true := by
  cases hr : w.db.getByInode i with
  | none =>
    obtain ⟨hnew, -⟩ := (rowsStep_of_step h).new i r' hr hr'
    cases hnew
  | some r =>
    by_cases hs : r.status = .hydrating
    · obtain ⟨x, hx, hxi, hw⟩ := hi.marked i r hr hs
      refine working_of_step h (fun k' env' he y hy => ?_) hx hxi hw hr' hs'
      obtain ⟨rfl, rfl⟩ := Event.hydration.inj he
      exact (hu y hy).completes
    · exact marked_of_step rfl h hr hs hr' hs'

theorem woken_of_hydrationStep (hi : OneFlight w)
    (hu : ∀ x ∈ w.hydrations[k]?, x.Timely m w env)
    (h : step m w (.hydration k env) = some w') {x : Hydration} {a : ℕ}
    (hx : x ∈ w'.hydrations) (ha : x.pc = .wait a none) :
    ∃ y ∈ w'.hydrations, y.inode = x.inode ∧ y.pc.notifies = true := by
  cases hydration_of_step h hx with
  | other hx₀ =>
    obtain ⟨y, hy, hyi, hn⟩ := hi.woken x (mem_of_mem_otherHydrations hx₀) a ha
    obtain hy | hy := eq_or_mem_other (k := k) hy
    · exact ⟨y, mem_hydrations_of_other h hy (not_wait_of_notifies hn), hyi, hn⟩
    · obtain ⟨pc', hpc', hn'⟩ | ⟨result, hpc⟩ := goto_of_notifies hn (hu y hy)
      · exact ⟨_, mem_hydrations_of_goto h hy hpc', hyi, hn'⟩
      · exact absurd ha (not_waiting_of_notify h hy hpc x hx hyi.symm a)
  | told => cases ha
  | moved hx₀ hpc =>
    rename_i x₀ pc
    obtain rfl : pc = .wait a none := ha
    obtain ⟨b, hb⟩ := register_of_goto hpc
    have hun := hu x₀ hx₀
    rw [Hydration.Timely, hb] at hun
    obtain ⟨r, hr, hs⟩ := hun
    obtain ⟨y, hy, hyi, hw⟩ := hi.marked x₀.inode r hr hs
    have hn := notifies_of_working hw
    obtain hy | hy := eq_or_mem_other (k := k) hy
    · exact ⟨y, mem_hydrations_of_other h hy (not_wait_of_notifies hn), hyi, hn⟩
    · obtain rfl := Option.some.inj (hx₀.symm.trans hy)
      rw [hb] at hw
      cases hw

theorem uncached_of_hydrationStep (hi : OneFlight w)
    (h : step m w (.hydration k env) = some w') {x : Hydration}
    (hx : x ∈ w'.hydrations) (hw : x.pc.working = true) {r' : FileEntry}
    (hr' : w'.db.getByInode x.inode = some r') : r'.status ≠ .cached := by
  cases hydration_of_step h hx with
  | other hx₀ =>
    obtain ⟨r, hr, hrow⟩ | ⟨hnew, -⟩ := row_inv_of_step h hr'
    · have hold := hi.uncached x (mem_of_mem_otherHydrations hx₀) hw r hr
      cases hrow with
      | same | backfilled => exact hold
      | hydrated hh hf =>
        refine absurd (flight_eq_some.2 ⟨hw, rfl⟩) ?_
        exact ne_of_nodup_filterMap hi.one hh (flight_eq_some.2 ⟨rfl, rfl⟩) x hx₀
      | _ => exact SyncStatus.noConfusion
    · generalize x.inode = i at hnew
      cases hnew
  | told => cases hw
  | moved hx₀ hpc =>
    rename_i x₀ pc
    obtain ⟨y, hy, hdb, -⟩ := eq_of_hydrationStep h
    obtain rfl := Option.some.inj (hx₀.symm.trans hy)
    rw [hdb] at hr'
    obtain hwx | ⟨e, he⟩ := working_of_goto hpc hw
    · have hold := hi.uncached x₀ (List.mem_of_getElem? hx₀) hwx
      obtain heq | ⟨id, db, hset, heq⟩ := db_of_goto hpc hwx hw
      · rw [heq] at hr'
        exact hold r' hr'
      · rw [heq, (Db.rowMapped_of_updateRow hset fun _ => rfl).self] at hr'
        obtain ⟨r, hr, rfl⟩ := Option.map_eq_some_iff.1 hr'
        exact hold r hr
    · rw [he] at hpc hr'
      simp only [Hydration.tick] at hpc hr'
      split at hpc
      · cases hpc
      · rename_i db hdb'
        simp only [hdb'] at hr'
        rw [(Db.setStatus_rows (tryDb_eq_some.1 hdb').2).self] at hr'
        obtain ⟨r, -, rfl⟩ := Option.map_eq_some_iff.1 hr'
        exact SyncStatus.noConfusion

theorem OneFlight.of_hydrationStep (hi : OneFlight w)
    (hu : ∀ x ∈ w.hydrations[k]?, x.Timely m w env)
    (h : step m w (.hydration k env) = some w') : OneFlight w' where
  one := nodup_of_hydrationStep hi hu h
  marked := fun _ _ hr' hs' => marked_of_hydrationStep hi hu h hr' hs'
  woken := fun _ hx _ ha => woken_of_hydrationStep hi hu h hx ha
  uncached := fun _ hx hw _ hr' => uncached_of_hydrationStep hi h hx hw hr'

end Hydration

/-- Every step but an open. -/
theorem OneFlight.of_step {s : Frontend} (hi : OneFlight s.world) (hev : Fetches (.world ev))
    (hu : Timely m s (.world ev)) (hopen : ∀ i, ev ≠ .request (.open_ i))
    (h : step m s.world ev = some w') : OneFlight w' := by
  cases ev with
  | hydration k env => exact hi.of_hydrationStep hu h
  | read k env =>
    obtain ⟨hrows, hh | ⟨i, id, hh⟩⟩ | ⟨rd, f, hrd, hpc, hdb, hh⟩ := hydrations_of_readStep h
    · exact hi.of_same hrows.rows hh
    · refine hi.of_sameRows hrows.rows hh fun x hx => ?_
      rw [List.mem_singleton.1 hx]
      exact ⟨rfl, fun a => HydrationPc.noConfusion⟩
    · exact hi.of_claim (hu rd hrd f (by rw [hpc]; rfl)) hdb hh
  | prefetch parent =>
    rw [← Option.some.inj h]
    rw [prefetchSmallFiles]
    split
    · exact hi
    · refine hi.of_sameRows (fun _ => rfl) rfl fun x hx => ?_
      obtain ⟨child, -, rfl⟩ := List.mem_map.1 hx
      exact ⟨rfl, fun a => HydrationPc.noConfusion⟩
  | foreign e =>
    rw [← Option.some.inj h]
    exact hi.of_same (fun _ => rfl) rfl
  | clock n =>
    rw [← Option.some.inj h]
    exact hi.of_same (fun _ => rfl) rfl
  | request r =>
    rw [(step_request h).2]
    cases r with
    | open_ i => exact absurd rfl (hopen i)
    | release fh =>
      rw [serve, handleRelease]
      repeat' split
      all_goals exact hi.of_same (fun _ => rfl) rfl
    | read fh offset size =>
      exact hi.of_same (fun _ => rfl) rfl
    | _ => cases hev
  | _ => cases hev

/-- An open that starts no download. -/
theorem OneFlight.of_handleOpen (hi : OneFlight w) (hr : w.db.getByInode i = some r)
    (hs : ¬startsHydration m r = true) : OneFlight (handleOpen m w i).2 := by
  simp only [startsHydration] at hs
  simp only [handleOpen, hr, World.allocFh]
  rw [if_neg hs]
  split
  · exact hi.of_same (fun _ => rfl) rfl
  · refine hi.of_same (fun j => ?_) rfl
    rw [World.logDb]
    cases htouch : World.tryDb .fine (w.db.touchLru i) with
    | none => rfl
    | some db => exact (Db.sameRows_of_touchLru (tryDb_eq_some.1 htouch).2).rows j

/-- An open that starts one. -/
theorem OneFlight.of_mark {o : Opening} {env : Env} (hi : OneFlight w) (hu : Unclaimed w o.inode) :
    OneFlight (o.mark m w env) := by
  rw [Opening.mark]
  split
  · exact hi
  · rename_i db hdb
    exact hi.of_claim hu (tryDb_eq_some.1 hdb).2 rfl

end Steps

/-! ## Every run -/

section Run

variable {s s' : Frontend} {e : FrontendEvent}

theorem step_of_frontend (h : Frontend.step m s (.world ev) = some s') :
    (∀ i, ev ≠ .request (.open_ i)) ∧ step m s.world ev = some s'.world := by
  simp only [Frontend.step] at h
  split at h
  · cases h
  · rename_i hopen
    obtain ⟨w', hw, rfl⟩ := Option.map_eq_some_iff.1 h
    exact ⟨fun i => hopen i, hw⟩

/-- **The step**: who acts on a look that is still true keeps the hydrations apart. -/
theorem OneFlight.step (hi : OneFlight s.world) (hev : Fetches e) (hu : Timely m s e)
    (h : Frontend.step m s e = some s') : OneFlight s'.world := by
  cases e with
  | world ev =>
    obtain ⟨hopen, h⟩ := step_of_frontend h
    exact hi.of_step hev hu hopen h
  | open_ i =>
    simp only [Frontend.step] at h
    split at h
    · rw [← Option.some.inj h]
      exact hi
    · rename_i hr
      split at h
      · rw [← Option.some.inj h]
        exact hi
      · rename_i hs
        rw [← Option.some.inj h]
        exact hi.of_handleOpen hr hs
  | mark k env =>
    obtain ⟨o, ho, rfl⟩ := Option.map_eq_some_iff.1 h
    exact hi.of_mark (hu o ho)

theorem flightStep_of_step (hi : OneFlight s.world) (hev : Fetches e) (hu : Timely m s e)
    (h : Frontend.step m s e = some s') : FlightStep m s e s' where
  after := (hi.step hev hu h).singleFlight
  ends := by
    rintro k env rfl x hx hn hdone
    obtain ⟨-, h⟩ := step_of_frontend h
    obtain ⟨pc', hpc', -⟩ | ⟨result, hpc⟩ := goto_of_notifies hn (hu x hx)
    · exact absurd hpc' (hdone pc')
    · exact not_waiting_of_notify h hx hpc
  timesOut := by
    rintro k env rfl x hx a ha
    have hnot := hu x hx
    rw [Hydration.Timely, ha] at hnot
    obtain ⟨y, hy, hyi, hn⟩ := hi.woken x (List.mem_of_getElem? hx) a ha
    have hw : y.pc.working = true := by
      cases hpc : y.pc with
      | notify result =>
        have hend := hnot y hy hyi
        rw [hpc] at hend
        cases hend
      | _ => rwa [hpc] at hn
    exact ⟨⟨y, hy, hyi, hw⟩, hyi ▸ hi.uncached y hy hw⟩

theorem AtStart.oneFlight (h : AtStart s) : OneFlight s.world where
  one := by
    rw [h.idle]
    exact List.nodup_nil
  marked := fun i r hr hs => absurd hs (h.unmarked i r hr)
  woken := by
    rw [h.idle]
    exact fun x hx => by cases hx
  uncached := by
    rw [h.idle]
    exact fun x hx => by cases hx

/-- **Single flight without lost wake-ups**, in every run of openers, readers and prefetchers in
which no one acts on an outdated look. -/
theorem singleFlight_of_run {evs : List FrontendEvent} (hs : AtStart s)
    (hg : Guarded (Frontend.step m) (fun s e => Fetches e ∧ Timely m s e) s evs) :
    Along (Frontend.step m) (FlightStep m) s evs := by
  refine along_of_guarded (I := fun s => OneFlight s.world) (fun s e s' hi hg h => ?_)
    (fun s e s' hi hg h => ?_) hs.oneFlight hg
  · exact hi.step hg.1 hg.2 h
  · exact flightStep_of_step hi hg.1 hg.2 h

end Run

section Decidable

variable (m : Mount)

instance (w : World) (i : Inode) : Decidable (Unclaimed w i) :=
  inferInstanceAs (Decidable ((∃ r ∈ w.db.getByInode i, r.status.needsHydration = true) ∧
    ¬((∀ r ∈ w.db.getByInode i, r.status ≠ .hydrating) ∧
      ∃ h ∈ w.hydrations, h.inode = i ∧ h.pc.working = true)))

instance : (e : FrontendEvent) → Decidable (Fetches e)
  | .world ev => inferInstanceAs (Decidable (ev.fetches = true))
  | .open_ _ | .mark .. => .isTrue trivial

instance (w : World) (env : Env) : (h : Hydration) → Decidable (h.Timely m w env)
  | ⟨i, .claim _, _⟩ => inferInstanceAs (Decidable (Unclaimed w i))
  | ⟨i, .register _, _⟩ =>
    inferInstanceAs (Decidable (∃ r ∈ w.db.getByInode i, r.status = .hydrating))
  | ⟨i, .wait _ none, _⟩ =>
    inferInstanceAs (Decidable (∀ x ∈ w.hydrations, x.inode = i → x.pc.ended = false))
  | ⟨i, .reload, _⟩ =>
    inferInstanceAs (Decidable (env.fault = false ∧ (w.db.getByInode i).isSome = true))
  | ⟨_, .begin_ e, _⟩ =>
    inferInstanceAs (Decidable (safeCachePath w.fs m.cacheDir e.remotePath ≠ none))
  | ⟨_, .rollback .., _⟩ => inferInstanceAs (Decidable (env.fault = false))
  | ⟨_, .enter _, _⟩ | ⟨_, .wait _ (some _), _⟩ | ⟨_, .download .., _⟩ | ⟨_, .install .., _⟩
  | ⟨_, .record .., _⟩ | ⟨_, .verify _, _⟩ | ⟨_, .prune _, _⟩ | ⟨_, .backfill .., _⟩
  | ⟨_, .notify _, _⟩ => .isTrue trivial

instance (s : Frontend) : (e : FrontendEvent) → Decidable (Timely m s e)
  | .mark k _ => inferInstanceAs (Decidable (∀ o ∈ s.opening[k]?, Unclaimed s.world o.inode))
  | .world (.read k _) => inferInstanceAs (Decidable (∀ rd ∈ s.world.reads[k]?,
      ∀ f ∈ rd.pc.claimed, Unclaimed s.world f.inode))
  | .world (.hydration k env) => inferInstanceAs (Decidable (∀ h ∈ s.world.hydrations[k]?,
      h.Timely m s.world env))
  | .open_ _ | .world (.request _) | .world (.fuse _) | .world (.launch _) | .world (.upload ..)
  | .world .startEviction | .world (.eviction _) | .world (.background ..) | .world (.prefetch _)
  | .world (.poll _) | .world (.foreign _) | .world (.clock _) => .isTrue trivial

end Decidable

/-- Another client's file `a`, as the index has listed it. -/
def listedOnce : Frontend where
  world := { World.init sampleMount 0 with
    db := (World.init sampleMount 0).db.applyRemote (reportedFile ['a'] 1 ['v'])
    remote := (World.init sampleMount 0).remote.put ['a'] ⟨[1], some ['v'], 0, none⟩ }
  opening := []

theorem atStart_listedOnce : AtStart listedOnce where
  idle := rfl
  unmarked := by
    intro i r hr
    have hrows : ∀ r ∈ listedOnce.world.db.fileIndex.rows, r.status ≠ .hydrating := by decide
    exact hrows r (Db.mem_rows_of_getByInode hr)

/-- A reader joins the hydration that an `open` has started, and gets its result. -/
def readWhileHydrating : List FrontendEvent :=
  [.open_ 2, .mark 0 .fine, .world (.request (.read 1 0 1)), .world (.read 0 .fine),
    .world (.read 0 .fine), .world (.read 0 { Env.fine with error := some .transient }),
    .world (.hydration 1 .fine), .world (.hydration 1 .fine), .world (.hydration 0 .fine),
    .world (.hydration 0 .fine), .world (.hydration 0 .fine), .world (.hydration 0 .fine),
    .world (.hydration 0 .fine), .world (.hydration 0 .fine), .world (.hydration 0 .fine)]

theorem singleFlight_readWhileHydrating :
    Along (Frontend.step sampleMount) (FlightStep sampleMount) listedOnce readWhileHydrating :=
  singleFlight_of_run atStart_listedOnce (by decide)

/-- The prefetch has listed the file, an `open` marks it, and both download it. -/
def openWhilePrefetching : List FrontendEvent :=
  [.world (.prefetch 1), .open_ 2, .mark 0 .fine, .world (.hydration 1 .fine),
    .world (.hydration 1 .fine), .world (.hydration 0 .fine)]

theorem not_singleFlight_openWhilePrefetching :
    ¬∀ (m : Mount) (s : Frontend) (evs : List FrontendEvent), AtStart s →
      Guarded (Frontend.step m) (fun _ e => Fetches e) s evs →
        Along (Frontend.step m) (FlightStep m) s evs := by
  intro h
  have hrun := h { sampleMount with prefetchThreshold := 100 } listedOnce
    (openWhilePrefetching ++ [.world (.hydration 0 .fine)]) atStart_listedOnce (by decide)
  obtain ⟨s, hs⟩ : ∃ s, run (Frontend.step { sampleMount with prefetchThreshold := 100 })
    listedOnce openWhilePrefetching = some s := ⟨_, rfl⟩
  have hcount : ((run (Frontend.step { sampleMount with prefetchThreshold := 100 }) listedOnce
      (openWhilePrefetching ++ [.world (.hydration 0 .fine)])).map fun s =>
        (s.world.hydrations.filter fun h => h.inode = 2 ∧ h.pc.downloading = true).length) =
      some 2 := rfl
  rw [run_append, hs, Option.bind_some] at hcount
  obtain ⟨s', hs', hlen⟩ := Option.map_eq_some_iff.1 hcount
  obtain ⟨t, ht, hr⟩ := run_cons_eq_some.1 hs'
  obtain rfl := Option.some.inj hr
  have hone := (hrun.drop hs t ht).1.after.oneDownload 2
  rw [hlen] at hone
  exact absurd hone (by decide)

end Stratosync

import Mathlib.Data.List.AList
import Stratosync.Daemon.Step

/-!
# The event loop of the upload queue

`upload_loop`: a map of pending inodes, each with the time its debounce window expires, and the
uploads in flight. One event is one iteration: a trigger has arrived, a deadline has expired, or an
upload has completed. Between two events time passes, and the clock on the wall, which the transfer
window is compared with, may be set.

The loop refines the queue of the transition system (`Queues`): there a pending inode is launched
at some time, here the debounce windows, the transfer window and the limit on concurrent uploads
choose the time.

An instant and a duration are in nanoseconds. The maps that serve the dashboard only (start times,
attempts, progress) are left out.
-/

namespace Stratosync

open Foundations.Pool Foundations.Runs

/-! ## The transfer window -/

/-- A daily interval, in minutes since midnight. -/
structure TransferWindow where
  startMin : ℕ
  endMin : ℕ
  deriving DecidableEq, Repr

/-- A reading of the clock on the wall. -/
structure TimeOfDay where
  minute : Fin 1440
  second : Fin 60
  deriving DecidableEq, Repr

namespace TransferWindow

/-- The interval is half-open, and may wrap past midnight. -/
def containsMinute (w : TransferWindow) (minute : ℕ) : Bool :=
  if w.startMin = w.endMin then true
  else if w.startMin < w.endMin then w.startMin ≤ minute ∧ minute < w.endMin
  else w.startMin ≤ minute ∨ minute < w.endMin

/-- Seconds until the window opens, 0 when it is open. -/
def secondsUntilOpen (w : TransferWindow) (nowMin nowSec : ℕ) : ℕ :=
  if w.containsMinute nowMin then 0
  else
    let diff : ℤ := (w.startMin * 60 : ℤ) - (nowMin * 60 + nowSec)
    (if diff ≤ 0 then diff + 24 * 60 * 60 else diff).toNat

end TransferWindow

/-- `secs_until_window_opens`: 0 also when no window is configured. -/
def secsUntilWindowOpens (window : Option TransferWindow) (t : TimeOfDay) : ℕ :=
  match window with
  | none => 0
  | some w => w.secondsUntilOpen t.minute t.second

/-! ## The state of the loop -/

/-- A trigger of an upload. `snapshot` is the request of the dashboard, which changes nothing. -/
inductive UploadTrigger
  | write (inode : Inode)
  | close (inode : Inode)
  | fsync (inode : Inode)
  | snapshot
  deriving DecidableEq, Repr

/-- An upload that waits for its debounce window to expire. `immediate` uploads are not held back
by the transfer window. -/
structure PendingUpload where
  dueAt : ℕ
  immediate : Bool
  deriving DecidableEq, Repr

structure UploadConfig where
  debounce : ℕ
  closeDebounce : ℕ
  maxConcurrent : ℕ
  uploadWindow : Option TransferWindow
  deriving DecidableEq, Repr

/-- The state of the loop. `nowTokio` and `secsUntilOpen` are what it read of the clocks at the
start of the iteration. -/
structure UploadLoop where
  now : ℕ
  localTime : TimeOfDay
  pending : AList fun _ : Inode => PendingUpload
  inFlight : List Inode
  nowTokio : ℕ
  secsUntilOpen : ℕ

/-- `effective_due_at`: an upload that is not immediate waits for the window to open. -/
def effectiveDueAt (p : PendingUpload) (window : Option TransferWindow) (now secsUntilOpen : ℕ) :
    ℕ :=
  if p.immediate ∨ window.isNone ∨ secsUntilOpen = 0 then p.dueAt
  else max p.dueAt (now + secsUntilOpen * 1000000000)

/-- What a trigger is about: its inode, its debounce window and whether it is an `fsync`. -/
def UploadTrigger.request (cfg : UploadConfig) : UploadTrigger → Option (Inode × ℕ × Bool)
  | write i => some (i, cfg.debounce, false)
  | close i => some (i, cfg.closeDebounce, false)
  | fsync i => some (i, 0, true)
  | snapshot => none

namespace UploadLoop

variable (cfg : UploadConfig) (s : UploadLoop)

/-- The start of an iteration. -/
def iterate : UploadLoop :=
  { s with
    nowTokio := s.now, secsUntilOpen := secsUntilWindowOpens cfg.uploadWindow s.localTime }

/-- The loop as it starts, with nothing pending. -/
def start (now : ℕ) (localTime : TimeOfDay) : UploadLoop :=
  iterate cfg
    { now, localTime, pending := ∅, inFlight := [], nowTokio := now, secsUntilOpen := 0 }

/-- The soonest deadline among the pending uploads. -/
def nextDeadline : Option ℕ :=
  (s.pending.entries.map fun e =>
    effectiveDueAt e.2 cfg.uploadWindow s.nowTokio s.secsUntilOpen).min?

/-- The entry of an inode after a trigger. -/
def triggered (i : Inode) (window : ℕ) (isFsync : Bool) : PendingUpload :=
  let newDue := s.now + window
  match s.pending.lookup i with
  | some entry =>
    -- a write resets the debounce window, a close or an `fsync` shortens it
    { dueAt := if window = cfg.debounce then newDue else min entry.dueAt newDue
      immediate := isFsync || entry.immediate }
  | none => { dueAt := newDue, immediate := isFsync }

/-- A trigger arrives. -/
def handleTrigger (i : Inode) (window : ℕ) (isFsync : Bool) : UploadLoop :=
  { s with pending := s.pending.insert i (s.triggered cfg i window isFsync) }

/-- The pending uploads that may start now, in the order of the list. -/
def ready : List Inode :=
  let windowOpenNow := secsUntilWindowOpens cfg.uploadWindow s.localTime = 0
  (s.pending.entries.filter fun e => e.2.dueAt ≤ s.now ∧ (e.2.immediate ∨ windowOpenNow)).map
    Sigma.fst

/-- Launch the ready uploads while there are free slots. -/
def dispatch : List Inode → UploadLoop → UploadLoop
  | [], s => s
  | i :: rest, s =>
    if s.inFlight.length ≥ cfg.maxConcurrent then s
    else dispatch rest { s with pending := s.pending.erase i, inFlight := s.inFlight ++ [i] }

/-- An upload has completed. The resolver of a conflict does not reach the queue. -/
def handleCompleted (k : ℕ) (result : Except SyncError Unit) : Option UploadLoop :=
  s.inFlight[k]?.map fun i =>
    let s := { s with inFlight := s.inFlight.eraseIdx k }
    match result with
    | .ok () => s
    | .error .conflict => s
    | .error e =>
      if e.isRetryable then
        { s with pending := s.pending.insert i ⟨s.now + cfg.debounce, false⟩ }
      else s

end UploadLoop

/-- What the loop waits for, and the passing of time. A hash map yields the ready uploads in some
`order`. -/
inductive LoopEvent
  | elapse (nanos : ℕ) (localTime : TimeOfDay)
  | trigger (t : UploadTrigger)
  | timer (order : List Inode)
  | completed (k : ℕ) (result : Except SyncError Unit)
  | panicked (k : ℕ)

namespace UploadLoop

/-- One event of the loop; `none` when it is not enabled. -/
def step (cfg : UploadConfig) (s : UploadLoop) : LoopEvent → Option UploadLoop
  | .elapse nanos localTime => some { s with now := s.now + nanos, localTime }
  | .trigger t =>
    match t.request cfg with
    | none => some (s.iterate cfg)
    | some (i, window, isFsync) => some ((s.handleTrigger cfg i window isFsync).iterate cfg)
  | .timer order =>
    -- at capacity the deadlines are not looked at
    if s.inFlight.length ≥ cfg.maxConcurrent then none
    else
      (s.nextDeadline cfg).bind fun deadline =>
        if deadline ≤ s.now ∧ order.Perm (s.ready cfg) then
          some ((dispatch cfg order s).iterate cfg)
        else none
  | .completed k result => (s.handleCompleted cfg k result).map (iterate cfg)
  | .panicked k =>
    s.inFlight[k]?.map fun _ => { s with inFlight := s.inFlight.eraseIdx k }.iterate cfg

/-! ## What an event does -/

/-- The uploads an event launches: as many of the ready ones as there are free slots. -/
def launched (cfg : UploadConfig) (s : UploadLoop) : LoopEvent → List Inode
  | .timer order => order.take (cfg.maxConcurrent - s.inFlight.length)
  | _ => []

/-- The entry an event writes. -/
def written (cfg : UploadConfig) (s : UploadLoop) : LoopEvent → Option (Inode × PendingUpload)
  | .trigger t => (t.request cfg).map fun x => (x.1, s.triggered cfg x.1 x.2.1 x.2.2)
  | .completed k (.error e) =>
    if e.isRetryable then s.inFlight[k]?.map fun i => (i, ⟨s.now + cfg.debounce, false⟩) else none
  | _ => none

/-- The uploads that an event leaves in flight. -/
def unfinished (s : UploadLoop) : LoopEvent → List Inode
  | .completed k _ | .panicked k => s.inFlight.eraseIdx k
  | _ => s.inFlight

variable {cfg : UploadConfig} {s s' : UploadLoop} {e : LoopEvent}

theorem inFlight_dispatch (order : List Inode) (s : UploadLoop) : (dispatch cfg order s).inFlight =
    s.inFlight ++ order.take (cfg.maxConcurrent - s.inFlight.length) := by
  induction order generalizing s with
  | nil => rw [dispatch, List.take_nil, List.append_nil]
  | cons i rest ih =>
    rw [dispatch]
    split
    · rename_i hfull
      rw [Nat.sub_eq_zero_of_le hfull, List.take_zero, List.append_nil]
    · rename_i hfree
      obtain ⟨n, hn⟩ : ∃ n, cfg.maxConcurrent - s.inFlight.length = n + 1 :=
        ⟨cfg.maxConcurrent - s.inFlight.length - 1, by omega⟩
      have hrest : cfg.maxConcurrent - (s.inFlight.length + 1) = n := by omega
      rw [ih, hn, List.take_succ_cons, List.length_append, List.length_singleton, hrest,
        List.append_assoc, List.singleton_append]

theorem lookup_dispatch (order : List Inode) (s : UploadLoop) (i : Inode) :
    (dispatch cfg order s).pending.lookup i =
      if i ∈ order.take (cfg.maxConcurrent - s.inFlight.length) then none
      else s.pending.lookup i := by
  induction order generalizing s with
  | nil => rw [dispatch, List.take_nil, if_neg List.not_mem_nil]
  | cons j rest ih =>
    rw [dispatch]
    split
    · rename_i hfull
      rw [Nat.sub_eq_zero_of_le hfull, List.take_zero, if_neg List.not_mem_nil]
    · rename_i hfree
      obtain ⟨n, hn⟩ : ∃ n, cfg.maxConcurrent - s.inFlight.length = n + 1 :=
        ⟨cfg.maxConcurrent - s.inFlight.length - 1, by omega⟩
      have hrest : cfg.maxConcurrent - (s.inFlight.length + 1) = n := by omega
      rw [ih, hn, List.take_succ_cons, List.length_append, List.length_singleton, hrest]
      by_cases hij : i = j
      · rw [hij, AList.lookup_erase, ite_self, if_pos List.mem_cons_self]
      · rw [AList.lookup_erase_ne hij]
        simp only [List.mem_cons, hij, false_or]

theorem step_timer {order : List Inode} (h : step cfg s (.timer order) = some s') :
    s.inFlight.length < cfg.maxConcurrent ∧ (∃ deadline ∈ s.nextDeadline cfg, deadline ≤ s.now) ∧
      order.Perm (s.ready cfg) ∧ s' = (dispatch cfg order s).iterate cfg := by
  simp only [step] at h
  split at h
  · cases h
  · rename_i hfree
    obtain ⟨deadline, hd, h⟩ := Option.bind_eq_some_iff.1 h
    split at h
    · rename_i hready
      exact ⟨Nat.lt_of_not_ge hfree, ⟨deadline, hd, hready.1⟩, hready.2, (Option.some.inj h).symm⟩
    · cases h

/-- **What an event does to the pending map**: it removes what it launches, writes one entry at
most, and keeps the others. -/
theorem lookup_of_step (h : step cfg s e = some s') (i : Inode) : s'.pending.lookup i =
    if i ∈ s.launched cfg e then none
    else ((s.written cfg e).bind fun x => if i = x.1 then some x.2 else none).or
      (s.pending.lookup i) := by
  have hinsert : ∀ (j : Inode) (p : PendingUpload), (s.pending.insert j p).lookup i =
      (if i = j then some p else none).or (s.pending.lookup i) := by
    intro j p
    by_cases hij : i = j
    · rw [hij, AList.lookup_insert, if_pos rfl]
      rfl
    · rw [AList.lookup_insert_ne hij, if_neg hij, Option.none_or]
  cases e with
  | elapse nanos localTime =>
    obtain rfl := Option.some.inj h
    rfl
  | trigger t =>
    simp only [step] at h
    rw [if_neg (show i ∉ s.launched cfg (.trigger t) from List.not_mem_nil), written]
    split at h
    · rename_i hreq
      rw [← Option.some.inj h, hreq]
      rfl
    · rename_i j window isFsync hreq
      rw [← Option.some.inj h, hreq]
      exact hinsert j _
  | timer order =>
    obtain ⟨-, -, -, rfl⟩ := step_timer h
    exact lookup_dispatch order s i
  | completed k result =>
    obtain ⟨t, ht, rfl⟩ := Option.map_eq_some_iff.1 h
    obtain ⟨j, hj, rfl⟩ := Option.map_eq_some_iff.1 ht
    rw [if_neg (show i ∉ s.launched cfg (.completed k result) from List.not_mem_nil)]
    obtain error | _ := result
    · cases error with
      | transient =>
        simp only [written, SyncError.isRetryable, hj]
        exact hinsert j _
      | _ => rfl
    · rfl
  | panicked k =>
    obtain ⟨j, -, rfl⟩ := Option.map_eq_some_iff.1 h
    rfl

/-- **What an event does to the uploads in flight.** -/
theorem inFlight_of_step (h : step cfg s e = some s') :
    s'.inFlight = s.unfinished e ++ s.launched cfg e := by
  cases e with
  | elapse nanos localTime =>
    obtain rfl := Option.some.inj h
    exact (List.append_nil _).symm
  | trigger t =>
    simp only [step] at h
    split at h <;> exact Option.some.inj h ▸ (List.append_nil _).symm
  | timer order =>
    obtain ⟨-, -, -, rfl⟩ := step_timer h
    exact inFlight_dispatch order s
  | completed k result =>
    obtain ⟨t, ht, rfl⟩ := Option.map_eq_some_iff.1 h
    obtain ⟨j, hj, rfl⟩ := Option.map_eq_some_iff.1 ht
    refine Eq.trans ?_ (List.append_nil _).symm
    obtain error | _ := result
    · cases error <;> rfl
    · rfl
  | panicked k =>
    obtain ⟨j, -, rfl⟩ := Option.map_eq_some_iff.1 h
    exact (List.append_nil _).symm

end UploadLoop

/-! ## The queue of the transition system -/

/-- The world has the queue of the loop, without the times. -/
structure Queues (s : UploadLoop) (w : World) : Prop where
  pending : ∀ i, i ∈ s.pending ↔ i ∈ w.pending
  uploads : w.uploads.map Upload.inode = s.inFlight

section Queues

variable {cfg : UploadConfig} {s s' : UploadLoop} {w : World} {m : Mount}

/-- A trigger is put into the queue. -/
theorem Queues.trigger {t : UploadTrigger} {i : Inode} {window : ℕ} {isFsync : Bool}
    (ht : Queues s w) (hreq : t.request cfg = some (i, window, isFsync))
    (h : UploadLoop.step cfg s (.trigger t) = some s') : Queues s' (w.enqueue i) := by
  simp only [UploadLoop.step, hreq] at h
  obtain rfl := Option.some.inj h
  refine ⟨fun j => ?_, ht.uploads⟩
  rw [mem_enqueue, ← ht.pending j]
  exact AList.mem_insert s.pending

/-- The ready uploads are launched, one after another, as far as there are free slots. -/
theorem Queues.dispatch {order : List Inode} (ht : Queues s w) (hn : order.Nodup)
    (hp : ∀ i ∈ order, i ∈ s.pending) :
    ∃ w', run (Stratosync.step m) w
        ((order.take (cfg.maxConcurrent - s.inFlight.length)).map Event.launch) = some w' ∧
      Queues (UploadLoop.dispatch cfg order s) w' := by
  induction order generalizing s w with
  | nil => exact ⟨w, by rw [List.take_nil, List.map_nil, run_nil], ht⟩
  | cons i rest ih =>
    rw [UploadLoop.dispatch]
    split
    · rename_i hfull
      rw [Nat.sub_eq_zero_of_le hfull, List.take_zero]
      exact ⟨w, rfl, ht⟩
    · rename_i hfree
      obtain ⟨n, hslots⟩ : ∃ n, cfg.maxConcurrent - s.inFlight.length = n + 1 :=
        ⟨cfg.maxConcurrent - s.inFlight.length - 1, by omega⟩
      obtain ⟨hi, hrest⟩ := List.nodup_cons.1 hn
      have hpending : w.pending.contains i = true :=
        List.contains_iff_mem.2 ((ht.pending i).1 (hp i List.mem_cons_self))
      have hlaunch : Stratosync.step m w (.launch i) = some { w with
          pending := w.pending.filter (· ≠ i), uploads := w.uploads ++ [⟨i, .load⟩] } :=
        if_pos hpending
      have hnext : Queues { s with pending := s.pending.erase i, inFlight := s.inFlight ++ [i] }
          { w with
            pending := w.pending.filter (· ≠ i), uploads := w.uploads ++ [⟨i, .load⟩] } := by
        refine ⟨fun j => ?_, ?_⟩
        · rw [AList.mem_erase, ht.pending j, List.mem_filter, decide_eq_true_eq, and_comm]
        · rw [List.map_append, ht.uploads]
          rfl
      obtain ⟨w', hw', ht'⟩ := ih hnext hrest fun j hj =>
        AList.mem_erase.2 ⟨fun hji => hi (hji ▸ hj), hp j (List.mem_cons_of_mem i hj)⟩
      have hleft : cfg.maxConcurrent - (s.inFlight ++ [i]).length = n := by
        rw [List.length_append, List.length_singleton]
        omega
      rw [hleft] at hw'
      rw [hslots, List.take_succ_cons, List.map_cons]
      exact ⟨w', run_cons_eq_some.2 ⟨_, hlaunch, hw'⟩, ht'⟩

theorem ready_nodup : (s.ready cfg).Nodup :=
  s.pending.keys_nodup.sublist (List.filter_sublist.map Sigma.fst)

theorem mem_pending_of_ready {i : Inode} (h : i ∈ s.ready cfg) : i ∈ s.pending := by
  obtain ⟨x, hx, rfl⟩ := List.mem_map.1 h
  exact List.mem_map_of_mem (List.mem_of_mem_filter hx)

/-- **A deadline that expires** launches pending uploads. -/
theorem Queues.timer {order : List Inode} (ht : Queues s w)
    (h : UploadLoop.step cfg s (.timer order) = some s') :
    ∃ w', run (Stratosync.step m) w ((s.launched cfg (.timer order)).map Event.launch) =
      some w' ∧ Queues s' w' := by
  obtain ⟨-, -, hperm, rfl⟩ := UploadLoop.step_timer h
  obtain ⟨w', hw', hqueues⟩ := ht.dispatch (m := m) (hperm.nodup_iff.2 ready_nodup) fun i hi =>
    mem_pending_of_ready (hperm.mem_iff.1 hi)
  exact ⟨w', hw', hqueues.pending, hqueues.uploads⟩

/-- **An upload that has completed** leaves the pool, and is pending again when its error is worth
another attempt. -/
theorem Queues.completed {k : ℕ} {i : Inode} {result : Except SyncError Unit} (ht : Queues s w)
    (hu : w.uploads[k]? = some ⟨i, .finish result⟩)
    (h : UploadLoop.step cfg s (.completed k result) = some s') (env : Env) :
    ∃ w', Stratosync.step m w (.upload k env) = some w' ∧ Queues s' w' := by
  have hi : s.inFlight[k]? = some i := by
    rw [← ht.uploads, List.getElem?_map, hu]
    rfl
  obtain ⟨t, htt, rfl⟩ := Option.map_eq_some_iff.1 h
  rw [UploadLoop.handleCompleted, hi] at htt
  obtain rfl := Option.some.inj htt
  refine ⟨_, congrArg (Option.map _) hu, ?_⟩
  have herase : (w.uploads.eraseIdx k).map Upload.inode = s.inFlight.eraseIdx k := by
    rw [← ht.uploads, List.eraseIdx_map]
  obtain error | _ := result
  · cases error with
    | transient =>
      refine ⟨fun j => ?_, herase⟩
      refine (AList.mem_insert s.pending).trans ?_
      rw [ht.pending j]
      exact mem_enqueue.symm
    | conflict =>
      simp only [Upload.tick]
      split <;> exact ⟨ht.pending, herase⟩
    | _ => exact ⟨ht.pending, herase⟩
  · exact ⟨ht.pending, herase⟩

end Queues

end Stratosync

import Mathlib.Algebra.GroupWithZero.Nat
import Mathlib.Algebra.Ring.Int.Defs
import Stratosync.Foundations.Runs
import Stratosync.Foundations.Since
import Stratosync.State.Types

/-!
# The loop of the poller

`RemotePoller::run`: a poll, then a pause, for ever. From the third failure in a row up to the ninth
the pause is doubled, to ten minutes at most; a success takes it back to the configured interval.

`status_of_run`: the loop goes on whatever the polls have been, although the message after ten
failures says that it has halted, and what it shows the dashboard is a function of the last poll and
of the number of failures since the last success. The pause stays between the configured interval
and ten minutes (`backoff_mem`): failures shorten an interval of more than ten minutes.

A duration is in nanoseconds. The counter is a `u32`, which the runs of less than `2 ^ 32` polls do
not exhaust.
-/

namespace Stratosync

open Foundations.Runs Foundations.Since

/-- What the loop shows the dashboard. -/
structure PollerStatus where
  mode : Str
  lastPollUnix : Option ℤ
  nextPollUnix : Option ℤ
  consecutiveFailures : ℕ
  currentIntervalSecs : ℕ
  lastError : Option Str
  deriving DecidableEq, Repr

/-- The local variables of the loop, and the state it shares. -/
structure PollLoop where
  baseInterval : ℕ
  currentInterval : ℕ
  consecutiveFailures : ℕ
  state : PollerStatus
  deriving DecidableEq, Repr

/-- A poll: what the clock on the wall shows at its end, and its error, if it has failed. -/
structure Poll where
  now : ℤ
  error : Option Str
  deriving DecidableEq, Repr

def Poll.succeeded (p : Poll) : Bool := p.error.isNone

/-- The whole seconds of a duration. -/
def asSecs (nanos : ℕ) : ℕ := nanos / 1000000000

/-- The doubled pause, ten minutes at most. A duration of `2 ^ 64` seconds overflows, which ends the
task of the poller. -/
def doubled (nanos : ℕ) : Option ℕ :=
  if nanos * 2 < 2 ^ 64 * 1000000000 then some (min (nanos * 2) (600 * 1000000000)) else none

namespace PollLoop

def start (mode : Str) (pollInterval : ℕ) : PollLoop :=
  { baseInterval := pollInterval
    currentInterval := pollInterval
    consecutiveFailures := 0
    state :=
      { mode, lastPollUnix := none, nextPollUnix := none, consecutiveFailures := 0
        currentIntervalSecs := asSecs pollInterval, lastError := none } }

/-- `update_state`. The sum is an `i64`. -/
def updateState (s : PollLoop) (now : ℤ) (error : Option Str) : PollLoop :=
  { s with state :=
      { mode := s.state.mode
        lastPollUnix := some now
        nextPollUnix := some ((now + asSecs s.currentInterval).bmod (2 ^ 64))
        consecutiveFailures := s.consecutiveFailures
        currentIntervalSecs := asSecs s.currentInterval
        lastError := error } }

/-- One turn of the loop; `none` when the task has ended. -/
def turn (s : PollLoop) (p : Poll) : Option PollLoop :=
  match p.error with
  | none =>
    let s :=
      if s.consecutiveFailures > 0 then
        { s with currentInterval := s.baseInterval, consecutiveFailures := 0 }
      else s
    some (s.updateState p.now none)
  | some e =>
    let s := { s with consecutiveFailures := (s.consecutiveFailures + 1) % 2 ^ 32 }
    if s.consecutiveFailures ≥ 10 then some (s.updateState p.now (some e))
    else if s.consecutiveFailures ≥ 3 then
      (doubled s.currentInterval).map fun d =>
        { s with currentInterval := d }.updateState p.now (some e)
    else some (s.updateState p.now (some e))

end PollLoop

/-! ## The pause after failures -/

/-- The pause after `k` failures in a row. -/
def backoff (base k : ℕ) : ℕ :=
  if k < 3 then base else min (2 ^ (min k 9 - 2) * base) (600 * 1000000000)

theorem backoff_of_lt {base k : ℕ} (hk : k < 3) : backoff base k = base := if_pos hk

/-- A failure from the third to the ninth doubles the pause. -/
theorem backoff_succ_of_lt {base k : ℕ} (hk : 2 ≤ k) (hk' : k < 9) :
    backoff base (k + 1) = min (backoff base k * 2) (600 * 1000000000) := by
  have hpow : 2 ^ (min (k + 1) 9 - 2) = 2 ^ (min k 9 - 2) * 2 := by
    rw [← Nat.pow_succ]
    congr 1
    omega
  rw [backoff, if_neg (by omega), hpow, backoff]
  split
  · obtain rfl : k = 2 := by omega
    rw [show 2 ^ (min 2 9 - 2) * 2 = 2 from rfl, Nat.mul_comm]
  · rw [Nat.mul_right_comm]
    omega

theorem backoff_succ_of_le {base k : ℕ} (hk : 9 ≤ k) : backoff base (k + 1) = backoff base k := by
  have hexp : min (k + 1) 9 = min k 9 := by omega
  rw [backoff, backoff, if_neg (by omega), if_neg (by omega), hexp]

/-- The pause lies between the configured interval and ten minutes. -/
theorem backoff_mem (base k : ℕ) :
    min base (600 * 1000000000) ≤ backoff base k ∧
      backoff base k ≤ max base (600 * 1000000000) := by
  have hpow : base ≤ 2 ^ (min k 9 - 2) * base := Nat.le_mul_of_pos_left base (Nat.two_pow_pos _)
  rw [backoff]
  split <;> omega

/-! ## What the dashboard is shown -/

/-- The failures since the last success. -/
def failures (polls : List Poll) : ℕ := (since Poll.succeeded polls).length

/-- What is known of the poller after some polls. -/
def reportedStatus (mode : Str) (base : ℕ) (polls : List Poll) : PollerStatus :=
  { mode
    lastPollUnix := polls.getLast?.map Poll.now
    nextPollUnix := polls.getLast?.map fun p : Poll =>
      (p.now + asSecs (backoff base (failures polls))).bmod (2 ^ 64)
    consecutiveFailures := failures polls
    currentIntervalSecs := asSecs (backoff base (failures polls))
    lastError := polls.getLast?.bind Poll.error }

/-- The variables of the loop after some polls. -/
structure After (mode : Str) (base : ℕ) (polls : List Poll) (s : PollLoop) : Prop where
  baseInterval : s.baseInterval = base
  consecutiveFailures : s.consecutiveFailures = failures polls
  currentInterval : s.currentInterval = backoff base (failures polls)
  state : s.state = reportedStatus mode base polls

variable {mode : Str} {base : ℕ} {polls : List Poll} {p : Poll} {s s' : PollLoop}

theorem failures_concat_of_error {e : Str} (hp : p.error = some e) :
    failures (polls ++ [p]) = failures polls + 1 := by
  rw [failures, since_concat_of_not (by rw [Poll.succeeded, hp]; rfl), List.length_append]
  rfl

theorem failures_concat_of_none (hp : p.error = none) : failures (polls ++ [p]) = 0 := by
  rw [failures, since_concat_reset (by rw [Poll.succeeded, hp]; rfl), List.length_nil]

theorem failures_le_length (polls : List Poll) : failures polls ≤ polls.length :=
  (since_suffix _ _).length_le

/-- The state is written last. -/
theorem after_updateState (hbase : s.baseInterval = base) (hmode : s.state.mode = mode)
    (hfailures : s.consecutiveFailures = failures (polls ++ [p]))
    (hinterval : s.currentInterval = backoff base (failures (polls ++ [p]))) :
    After mode base (polls ++ [p]) (s.updateState p.now p.error) := by
  refine ⟨hbase, hfailures, hinterval, ?_⟩
  simp only [PollLoop.updateState, reportedStatus, List.getLast?_concat, Option.map_some,
    Option.bind_some, hmode, hfailures, hinterval]

/-- **The turn.** -/
theorem after_turn (hlen : polls.length + 1 < 2 ^ 32) (hs : After mode base polls s)
    (h : s.turn p = some s') : After mode base (polls ++ [p]) s' := by
  have hmode : s.state.mode = mode := by rw [hs.state, reportedStatus]
  cases hp : p.error with
  | none =>
    simp only [PollLoop.turn, hp] at h
    obtain rfl := Option.some.inj h
    rw [← hp]
    have hzero : failures (polls ++ [p]) = 0 := failures_concat_of_none hp
    split
    · exact after_updateState hs.baseInterval hmode hzero.symm
        (by rw [hzero, backoff_of_lt (by decide)]; exact hs.baseInterval)
    · rename_i hnone
      have hbefore : failures polls = 0 := by
        rw [← hs.consecutiveFailures]
        omega
      refine after_updateState hs.baseInterval hmode ?_ ?_
      · rw [hs.consecutiveFailures, hbefore, hzero]
      · rw [hs.currentInterval, hbefore, hzero]
  | some e =>
    have hsucc : failures (polls ++ [p]) = failures polls + 1 := failures_concat_of_error hp
    have hmod : (s.consecutiveFailures + 1) % 2 ^ 32 = failures (polls ++ [p]) := by
      have hle := failures_le_length polls
      rw [hs.consecutiveFailures, hsucc]
      exact Nat.mod_eq_of_lt (by omega)
    simp only [PollLoop.turn, hp, hmod] at h
    split at h
    · rename_i hten
      obtain rfl := Option.some.inj h
      rw [← hp]
      refine after_updateState hs.baseInterval hmode rfl ?_
      rw [hs.currentInterval, hsucc, backoff_succ_of_le (by omega)]
    split at h
    · rename_i hten hthree
      obtain ⟨d, hd, rfl⟩ := Option.map_eq_some_iff.1 h
      rw [← hp]
      refine after_updateState hs.baseInterval hmode rfl ?_
      rw [doubled] at hd
      split at hd
      · rw [← Option.some.inj hd, hs.currentInterval, hsucc,
          backoff_succ_of_lt (by omega) (by omega)]
      · cases hd
    · rename_i hten hthree
      obtain rfl := Option.some.inj h
      rw [← hp]
      refine after_updateState hs.baseInterval hmode rfl ?_
      rw [hs.currentInterval, backoff_of_lt (by omega), backoff_of_lt (by omega)]

theorem after_of_run (done : List Poll) (hlen : (done ++ polls).length < 2 ^ 32)
    (hs : After mode base done s) (h : run PollLoop.turn s polls = some s') :
    After mode base (done ++ polls) s' := by
  induction polls generalizing done s with
  | nil =>
    obtain rfl := Option.some.inj h
    rwa [List.append_nil]
  | cons p polls ih =>
    obtain ⟨t, ht, hrest⟩ := run_cons_eq_some.1 h
    rw [List.append_cons]
    rw [List.append_cons] at hlen
    refine ih _ hlen (after_turn ?_ hs ht) hrest
    rw [List.length_append, List.length_append, List.length_singleton] at hlen
    omega

/-- The task ends only where the doubled pause overflows, and it does not with an interval of up to
`2 ^ 63` seconds. -/
theorem exists_turn (hbase : base * 2 < 2 ^ 64 * 1000000000) (hs : After mode base polls s)
    (p : Poll) : ∃ s', s.turn p = some s' := by
  have hdoubled : ∃ d, doubled s.currentInterval = some d := by
    have hle := (backoff_mem base (failures polls)).2
    rw [hs.currentInterval]
    exact ⟨_, if_pos (by omega)⟩
  obtain ⟨d, hd⟩ := hdoubled
  rw [PollLoop.turn]
  split
  · exact ⟨_, rfl⟩
  · dsimp only
    split
    · exact ⟨_, rfl⟩
    split
    · exact ⟨_, by rw [hd, Option.map_some]⟩
    · exact ⟨_, rfl⟩

/-- **The loop goes on** after any polls, and shows the dashboard what they have told. -/
theorem status_of_run (mode : Str) (hbase : base * 2 < 2 ^ 64 * 1000000000)
    (hlen : polls.length < 2 ^ 32) :
    ∃ s, run PollLoop.turn (.start mode base) polls = some s ∧
      s.state = reportedStatus mode base polls := by
  have hrun : ∃ s, run PollLoop.turn (.start mode base) polls = some s := by
    induction polls using List.reverseRecOn with
    | nil => exact ⟨_, rfl⟩
    | append_singleton polls p ih =>
      rw [List.length_append, List.length_singleton] at hlen
      obtain ⟨s, hs⟩ := ih (by omega)
      have hafter : After mode base polls s :=
        after_of_run [] (by rw [List.nil_append]; omega) ⟨rfl, rfl, rfl, rfl⟩ hs
      obtain ⟨s', hs'⟩ := exists_turn hbase hafter p
      exact ⟨s', by rw [run_append, hs, Option.bind_some, run_cons, hs']; rfl⟩
  obtain ⟨s, hs⟩ := hrun
  exact ⟨s, hs, (after_of_run [] hlen ⟨rfl, rfl, rfl, rfl⟩ hs).state⟩

/-- Four failures, every 60 seconds at first. -/
def fourFailures : List Poll :=
  [⟨0, some ['a']⟩, ⟨60, some ['a']⟩, ⟨120, some ['a']⟩, ⟨240, some ['b']⟩]

theorem status_of_run_fourFailures :
    (∃ s, run PollLoop.turn (.start ['d'] 60000000000) fourFailures = some s ∧
      s.state = reportedStatus ['d'] 60000000000 fourFailures) ∧
    reportedStatus ['d'] 60000000000 fourFailures =
      ⟨['d'], some 240, some 480, 4, 240, some ['b']⟩ :=
  ⟨status_of_run ['d'] (by decide) (by decide), by decide +kernel⟩

end Stratosync

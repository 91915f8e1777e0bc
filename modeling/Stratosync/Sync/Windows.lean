import Stratosync.Foundations.Search
import Stratosync.Hashes
import Stratosync.Sync.Poller
import Stratosync.Sync.UploadLoop
import Mathlib.Order.Bounds.Basic
import Mathlib.Order.MinMax

/-!
# The transfer window

How the window is read from the configuration, and what it does to the uploads.
`isLeast_secondsUntilOpen`: the seconds until the window opens are the fewest after which it is
open. `gated_of_run`: in a run on whole seconds in which no timer is late and a slot is free while
time passes, an upload that is not immediate waits for its due time and for the window, and for
nothing else.
-/

namespace Stratosync

open Foundations.Runs

/-! ## Reading a window -/

/-- `s.split_once(sep)`. -/
def splitOnce (sep : Char) (s : Str) : Option (Str × Str) :=
  (Foundations.Search.before [sep] s).map fun a => (a, s.drop (a.length + 1))

/-- `s.parse::<u32>()`. -/
def parseU32 (s : Str) : Option ℕ := (parseU64 s).filter (· < 2 ^ 32)

def parseHhmm (s : Str) : Option ℕ :=
  (splitOnce ':' s).bind fun (h, m) =>
    (parseU32 h).bind fun h => (parseU32 m).bind fun m =>
      if h ≥ 24 then none else if m ≥ 60 then none else some (h * 60 + m)

def parseTransferWindow (s : Str) : Option TransferWindow :=
  (splitOnce '-' (trim s)).bind fun (start, «end») =>
    (parseHhmm (trim start)).bind fun startMin =>
      (parseHhmm (trim «end»)).map fun endMin => ⟨startMin, endMin⟩

theorem parseHhmm_lt {s : Str} {n : ℕ} (h : parseHhmm s = some n) : n < 1440 := by
  obtain ⟨⟨a, b⟩, -, h⟩ := Option.bind_eq_some_iff.1 h
  obtain ⟨hour, -, h⟩ := Option.bind_eq_some_iff.1 h
  obtain ⟨minute, -, h⟩ := Option.bind_eq_some_iff.1 h
  split at h
  · cases h
  split at h
  · cases h
  · have := Option.some.inj h
    omega

/-- A window that is accepted begins and ends within the day. -/
theorem lt_of_parseTransferWindow {s : Str} {w : TransferWindow}
    (h : parseTransferWindow s = some w) : w.startMin < 1440 ∧ w.endMin < 1440 := by
  obtain ⟨⟨a, b⟩, -, h⟩ := Option.bind_eq_some_iff.1 h
  obtain ⟨startMin, hstart, h⟩ := Option.bind_eq_some_iff.1 h
  obtain ⟨endMin, hend, rfl⟩ := Option.map_eq_some_iff.1 h
  exact ⟨parseHhmm_lt hstart, parseHhmm_lt hend⟩

example : parseTransferWindow " 22:00-6:30".toList = some ⟨1320, 390⟩ := by decide

/-! ## The clock on the wall -/

namespace TimeOfDay

/-- The seconds since midnight. -/
def seconds (t : TimeOfDay) : ℕ := t.minute * 60 + t.second

/-- The reading `n` seconds later. -/
def after (t : TimeOfDay) (n : ℕ) : TimeOfDay where
  minute := ⟨(t.seconds + n) / 60 % 1440, Nat.mod_lt _ (by decide)⟩
  second := ⟨(t.seconds + n) % 60, Nat.mod_lt _ (by decide)⟩

variable (t : TimeOfDay)

theorem minute_after (n : ℕ) : ((t.after n).minute : ℕ) = (t.seconds + n) / 60 % 1440 := rfl

theorem second_after (n : ℕ) : ((t.after n).second : ℕ) = (t.seconds + n) % 60 := rfl

theorem ext_val {t t' : TimeOfDay} (hm : (t.minute : ℕ) = t'.minute)
    (hs : (t.second : ℕ) = t'.second) : t = t' := by
  cases t
  cases t'
  congr
  · exact Fin.ext hm
  · exact Fin.ext hs

@[simp] theorem after_zero : t.after 0 = t := by
  have hm := t.minute.isLt
  have hs := t.second.isLt
  apply ext_val
  · rw [minute_after, seconds]
    omega
  · rw [second_after, seconds]
    omega

theorem after_after (a b : ℕ) : (t.after a).after b = t.after (a + b) := by
  apply ext_val
  · rw [minute_after, seconds, minute_after, second_after, minute_after]
    omega
  · rw [second_after, seconds, minute_after, second_after, second_after]
    omega

end TimeOfDay

namespace TransferWindow

variable {w : TransferWindow}

/-- The window has no seconds to wait exactly when it is open. -/
theorem secondsUntilOpen_eq_zero_iff (t : TimeOfDay) :
    w.secondsUntilOpen t.minute t.second = 0 ↔ w.containsMinute t.minute = true := by
  have hm := t.minute.isLt
  have hs := t.second.isLt
  rw [secondsUntilOpen]
  split
  · rename_i hopen
    exact iff_of_true rfl hopen
  · rename_i hclosed
    refine iff_of_false ?_ hclosed
    dsimp only
    split <;> omega

/-- A window that is closed opens at its first minute. -/
theorem minute_after_secondsUntilOpen (hw : w.startMin < 1440) {t : TimeOfDay}
    (hclosed : w.containsMinute t.minute = false) :
    ((t.after (w.secondsUntilOpen t.minute t.second)).minute : ℕ) = w.startMin := by
  have hm := t.minute.isLt
  have hs := t.second.isLt
  rw [TimeOfDay.minute_after, TimeOfDay.seconds, secondsUntilOpen, hclosed]
  simp only [Bool.false_eq_true, if_false]
  split <;> omega

theorem containsMinute_startMin (w : TransferWindow) : w.containsMinute w.startMin = true := by
  rw [containsMinute]
  split
  · rfl
  · split
    · rename_i hlt
      exact decide_eq_true ⟨Nat.le_refl _, hlt⟩
    · exact decide_eq_true (.inl (Nat.le_refl _))

/-- A window that is closed stays so until the seconds have passed. -/
theorem secondsUntilOpen_le (hw : w.startMin < 1440) {t : TimeOfDay} {n : ℕ}
    (hopen : w.containsMinute (t.after n).minute = true) :
    w.secondsUntilOpen t.minute t.second ≤ n := by
  have hm := t.minute.isLt
  have hs := t.second.isLt
  rw [secondsUntilOpen]
  split
  · exact Nat.zero_le n
  rename_i hclosed
  rw [TimeOfDay.minute_after, TimeOfDay.seconds] at hopen
  rw [containsMinute] at hopen hclosed
  split at hclosed
  · exact absurd rfl hclosed
  rename_i hne
  rw [if_neg hne] at hopen
  dsimp only
  split at hclosed
  · rename_i hlt
    rw [if_pos hlt, decide_eq_true_eq] at hopen
    rw [decide_eq_true_eq, not_and_or, not_le, not_lt] at hclosed
    split <;> omega
  · rename_i hlt
    rw [if_neg hlt, decide_eq_true_eq] at hopen
    rw [decide_eq_true_eq, not_or, not_le, not_lt] at hclosed
    split <;> omega

/-- **The seconds until the window opens** are the fewest after which it is open. -/
theorem isLeast_secondsUntilOpen (hw : w.startMin < 1440) (t : TimeOfDay) :
    IsLeast {n | w.containsMinute (t.after n).minute = true}
      (w.secondsUntilOpen t.minute t.second) := by
  refine ⟨?_, fun n hopen => secondsUntilOpen_le hw hopen⟩
  change w.containsMinute (t.after (w.secondsUntilOpen t.minute t.second)).minute = true
  cases hc : w.containsMinute t.minute with
  | true => rwa [(secondsUntilOpen_eq_zero_iff t).2 hc, TimeOfDay.after_zero]
  | false =>
    rw [minute_after_secondsUntilOpen hw hc]
    exact w.containsMinute_startMin

end TransferWindow

/-! ## The uploads and the window -/

/-- The nanoseconds of a second. -/
abbrev nanosPerSec : ℕ := 1000000000

/-- The window is open at a reading of the clock, or there is none. -/
def WindowOpen (window : Option TransferWindow) (t : TimeOfDay) : Prop :=
  ∀ w ∈ window, w.containsMinute t.minute = true

theorem secsUntilWindowOpens_eq_zero_iff {window : Option TransferWindow} {t : TimeOfDay} :
    secsUntilWindowOpens window t = 0 ↔ WindowOpen window t := by
  cases window with
  | none => exact iff_of_true rfl fun _ h => nomatch h
  | some w =>
    refine (TransferWindow.secondsUntilOpen_eq_zero_iff t).trans ?_
    exact ⟨fun h _ hw => Option.some.inj hw ▸ h, fun h => h w rfl⟩

/-- Before the seconds are over the window is closed. -/
theorem not_windowOpen_of_lt {window : Option TransferWindow}
    (hw : ∀ w ∈ window, w.startMin < 1440) {t : TimeOfDay} {n : ℕ}
    (hn : n < secsUntilWindowOpens window t) : ¬WindowOpen window (t.after n) := by
  cases window with
  | none => exact absurd hn (Nat.not_lt_zero n)
  | some w =>
    intro hopen
    have hle := TransferWindow.secondsUntilOpen_le (hw w rfl) (hopen w rfl)
    exact absurd hn (Nat.not_lt.2 hle)

/-- A pending upload may start: it is due, and is immediate or finds the window open. -/
def PendingUpload.MayStart (window : Option TransferWindow) (p : PendingUpload) (now : ℕ)
    (t : TimeOfDay) : Prop :=
  p.dueAt ≤ now ∧ (p.immediate = true ∨ WindowOpen window t)

namespace UploadLoop

variable {cfg : UploadConfig} {s₀ s s' : UploadLoop} {e : LoopEvent} {i : Inode} {p : PendingUpload}

/-- Time passes in whole seconds, on the wall as in the loop, while a slot is free, and not past
the deadline that the loop sleeps until. -/
def Prompt (cfg : UploadConfig) (s : UploadLoop) : LoopEvent → Prop
  | .elapse nanos localTime =>
    s.inFlight.length < cfg.maxConcurrent ∧
      (∃ secs, nanos = secs * nanosPerSec ∧ localTime = s.localTime.after secs) ∧
      ∀ d ∈ s.nextDeadline cfg, s.now + nanos ≤ max s.now d
  | _ => True

/-- **The window gates the uploads exactly**, in a run from `s₀`. -/
structure Gated (cfg : UploadConfig) (s₀ s : UploadLoop) (e : LoopEvent) (s' : UploadLoop) :
    Prop where
  /-- No upload is in flight that was not, but one that was pending and due, and immediate or not
  behind a closed window. -/
  launched : ∀ i, s.inFlight.count i < s'.inFlight.count i → ∃ p ∈ s.pending.lookup i,
    p.MayStart cfg.uploadWindow s.now s.localTime
  /-- What is pending stays so until it is in flight. -/
  kept : ∀ i ∈ s.pending, i ∉ s'.pending → s'.inFlight.count i = s.inFlight.count i + 1
  /-- An upload that waits has found the window closed at every second since it was due. -/
  waits : ∀ i, ∀ p ∈ s'.pending.lookup i, p.immediate = false →
    ∀ n, s₀.now + n * nanosPerSec < s'.now → p.dueAt ≤ s₀.now + n * nanosPerSec →
      ¬WindowOpen cfg.uploadWindow (s₀.localTime.after n)
  /-- One that is immediate does not wait beyond its due time. -/
  atOnce : ∀ i, ∀ p ∈ s.pending.lookup i, p.immediate = true → s'.now ≤ max s.now p.dueAt
  /-- The timer can fire while one may start and a slot is free, and puts it in flight unless
  others take all the slots. -/
  served : ∀ i, ∀ p ∈ s.pending.lookup i, p.MayStart cfg.uploadWindow s.now s.localTime →
    s.inFlight.length < cfg.maxConcurrent → ∀ order, order.Perm (s.ready cfg) →
      ∃ s'', step cfg s (.timer order) = some s'' ∧
        (s''.inFlight.count i = s.inFlight.count i + 1 ∧ i ∉ s''.pending ∨
          s''.inFlight.length = cfg.maxConcurrent)

/-- What the loop knows of the clocks, `n` seconds after the start of the run and `k` after the
start of the iteration. -/
structure Clocks (cfg : UploadConfig) (s₀ s : UploadLoop) (n k : ℕ) : Prop where
  now : s.now = s₀.now + (n + k) * nanosPerSec
  localTime : s.localTime = s₀.localTime.after (n + k)
  nowTokio : s.nowTokio = s₀.now + n * nanosPerSec
  secsUntilOpen : s.secsUntilOpen =
    secsUntilWindowOpens cfg.uploadWindow (s₀.localTime.after n)

/-- **The invariant** of a run on whole seconds. -/
structure WindowInv (cfg : UploadConfig) (s₀ s : UploadLoop) : Prop where
  clocks : ∃ n k, Clocks cfg s₀ s n k
  waits : ∀ i, ∀ p ∈ s.pending.lookup i, p.immediate = false →
    ∀ n, s₀.now + n * nanosPerSec < s.now → p.dueAt ≤ s₀.now + n * nanosPerSec →
      ¬WindowOpen cfg.uploadWindow (s₀.localTime.after n)

theorem mem_ready_iff : i ∈ s.ready cfg ↔
    ∃ p ∈ s.pending.lookup i, p.MayStart cfg.uploadWindow s.now s.localTime := by
  simp only [ready, List.mem_map, List.mem_filter, decide_eq_true_eq,
    secsUntilWindowOpens_eq_zero_iff]
  constructor
  · rintro ⟨⟨j, p⟩, ⟨hmem, hstart⟩, rfl⟩
    exact ⟨p, AList.mem_lookup_iff.2 hmem, hstart⟩
  · rintro ⟨p, hp, hstart⟩
    exact ⟨⟨i, p⟩, ⟨AList.mem_lookup_iff.1 hp, hstart⟩, rfl⟩

/-- The loop sleeps no longer than until a pending upload is effectively due. -/
theorem nextDeadline_le (cfg : UploadConfig) (hp : s.pending.lookup i = some p) :
    ∃ d ∈ s.nextDeadline cfg,
      d ≤ effectiveDueAt p cfg.uploadWindow s.nowTokio s.secsUntilOpen := by
  have hmem : effectiveDueAt p cfg.uploadWindow s.nowTokio s.secsUntilOpen ∈
      s.pending.entries.map fun e =>
        effectiveDueAt e.2 cfg.uploadWindow s.nowTokio s.secsUntilOpen :=
    List.mem_map.2 ⟨⟨i, p⟩, AList.mem_lookup_iff.1 hp, rfl⟩
  cases hd : s.nextDeadline cfg with
  | none =>
    rw [nextDeadline, List.min?_eq_none_iff] at hd
    rw [hd] at hmem
    cases hmem
  | some d => exact ⟨d, rfl, (List.min?_eq_some_iff.1 hd).2 _ hmem⟩

/-- **An upload that may start is due effectively**: the loop does not sleep over it. -/
theorem effectiveDueAt_le (hw : ∀ w ∈ cfg.uploadWindow, w.startMin < 1440) {n k : ℕ}
    (hc : Clocks cfg s₀ s n k) (hp : p.MayStart cfg.uploadWindow s.now s.localTime) :
    effectiveDueAt p cfg.uploadWindow s.nowTokio s.secsUntilOpen ≤ s.now := by
  rw [effectiveDueAt]
  split
  · exact hp.1
  · rename_i hgated
    rw [not_or] at hgated
    have hopen := hp.2.resolve_left hgated.1
    rw [hc.localTime, ← TimeOfDay.after_after] at hopen
    have hk : s.secsUntilOpen ≤ k := by
      by_contra hlt
      rw [hc.secsUntilOpen, not_le] at hlt
      exact not_windowOpen_of_lt hw hlt hopen
    refine max_le hp.1 ?_
    rw [hc.nowTokio, hc.now]
    simp only [nanosPerSec]
    omega

/-- While the loop sleeps until an upload is effectively due, the upload may not start. -/
theorem not_windowOpen_of_lt_effectiveDueAt (hw : ∀ w ∈ cfg.uploadWindow, w.startMin < 1440)
    {n k m : ℕ} (hc : Clocks cfg s₀ s n k)
    (hdue : p.dueAt ≤ s₀.now + (n + m) * nanosPerSec)
    (hlt : s₀.now + (n + m) * nanosPerSec <
      effectiveDueAt p cfg.uploadWindow s.nowTokio s.secsUntilOpen) :
    ¬WindowOpen cfg.uploadWindow (s₀.localTime.after (n + m)) := by
  rw [effectiveDueAt] at hlt
  split at hlt
  · omega
  · rw [hc.nowTokio, hc.secsUntilOpen, lt_max_iff, or_iff_right (not_lt.2 hdue)] at hlt
    rw [← TimeOfDay.after_after]
    apply not_windowOpen_of_lt hw
    simp only [nanosPerSec] at hlt
    omega

/-- A run starts with the clocks read. -/
theorem windowInv_iterate (cfg : UploadConfig) (s₀ : UploadLoop) :
    WindowInv cfg s₀ (s₀.iterate cfg) := by
  refine ⟨⟨0, 0, ?_, ?_, ?_, ?_⟩, fun i p _ _ n hn => ?_⟩
  · exact (Nat.add_zero _).symm
  · exact (TimeOfDay.after_zero _).symm
  · exact (Nat.add_zero _).symm
  · exact congrArg (secsUntilWindowOpens cfg.uploadWindow) (TimeOfDay.after_zero _).symm
  · exact absurd hn (Nat.not_lt.2 (Nat.le_add_right _ _))

/-- Time that passes changes the readings of the clocks and nothing else. -/
theorem eq_of_elapse {nanos : ℕ} {localTime : TimeOfDay}
    (h : step cfg s (.elapse nanos localTime) = some s') :
    s'.now = s.now + nanos ∧ s'.localTime = localTime ∧ s'.pending = s.pending ∧
      s'.nowTokio = s.nowTokio ∧ s'.secsUntilOpen = s.secsUntilOpen := by
  obtain rfl := Option.some.inj h
  exact ⟨rfl, rfl, rfl, rfl, rfl⟩

/-- Time that passes promptly leaves every upload that is not immediate waiting for the window. -/
theorem WindowInv.elapse {nanos : ℕ} {localTime : TimeOfDay}
    (hw : ∀ w ∈ cfg.uploadWindow, w.startMin < 1440) (hi : WindowInv cfg s₀ s)
    (hg : Prompt cfg s (.elapse nanos localTime))
    (h : step cfg s (.elapse nanos localTime) = some s') : WindowInv cfg s₀ s' := by
  obtain ⟨hnow', htime', hpending', htokio', hsecs'⟩ := eq_of_elapse h
  obtain ⟨n, k, hc⟩ := hi.clocks
  obtain ⟨-, ⟨secs, rfl, rfl⟩, hd⟩ := hg
  have hnow := hc.now
  refine ⟨⟨n, k + secs, ?_, ?_, ?_, ?_⟩, fun i p hp himm m hm hdue => ?_⟩
  · rw [hnow', hnow, Nat.add_assoc, ← Nat.add_mul, Nat.add_assoc]
  · rw [htime', hc.localTime, TimeOfDay.after_after, Nat.add_assoc]
  · rw [htokio', hc.nowTokio]
  · rw [hsecs', hc.secsUntilOpen]
  · rw [hpending'] at hp
    by_cases hold : s₀.now + m * nanosPerSec < s.now
    · exact hi.waits i p hp himm m hold hdue
    -- a second that has passed now: the loop slept through it
    obtain ⟨d, hmem, hle⟩ := nextDeadline_le cfg hp
    have hsleep := hd d hmem
    rw [hnow'] at hm
    rw [hnow, not_lt, Nat.add_le_add_iff_left] at hold
    obtain ⟨j, rfl⟩ : ∃ j, m = n + j :=
      Nat.exists_eq_add_of_le ((Nat.le_add_right n k).trans (Nat.le_of_mul_le_mul_right hold
        (by decide)))
    apply not_windowOpen_of_lt_effectiveDueAt hw hc hdue
    rcases lt_max_iff.1 (hm.trans_le hsleep) with hpast | hahead
    · rw [hnow, Nat.add_lt_add_iff_left] at hpast
      exact absurd hpast (Nat.not_lt.2 hold)
    · exact hahead.trans_le hle

/-- A trigger makes an upload due later than now, or hastens the one that was pending. -/
theorem entry_of_triggered {window : ℕ} {isFsync : Bool}
    (himm : (s.triggered cfg i window isFsync).immediate = false) :
    s.now ≤ (s.triggered cfg i window isFsync).dueAt ∨ ∃ q ∈ s.pending.lookup i,
      q.immediate = false ∧ q.dueAt ≤ (s.triggered cfg i window isFsync).dueAt := by
  simp only [triggered] at himm ⊢
  split
  · rename_i entry hentry
    rw [hentry] at himm
    dsimp only at himm ⊢
    split
    · exact .inl (Nat.le_add_right _ _)
    · obtain hle | hle := Nat.le_total entry.dueAt (s.now + window)
      · rw [Nat.min_eq_left hle]
        exact .inr ⟨entry, hentry, (Bool.or_eq_false_iff.1 himm).2, Nat.le_refl _⟩
      · rw [Nat.min_eq_right hle]
        exact .inl (Nat.le_add_right _ _)
  · exact .inl (Nat.le_add_right _ _)

/-- What an event other than the passing of time leaves pending was pending, is due later or was
only hastened. -/
theorem entry_of_step (h : step cfg s e = some s') (he : ∀ nanos t, e ≠ .elapse nanos t)
    (hp : s'.pending.lookup i = some p) (himm : p.immediate = false) :
    s.now ≤ p.dueAt ∨ ∃ q ∈ s.pending.lookup i, q.immediate = false ∧ q.dueAt ≤ p.dueAt := by
  rw [lookup_of_step h] at hp
  split at hp
  · cases hp
  obtain hw | ⟨-, hp⟩ := Option.or_eq_some_iff.1 hp
  · obtain ⟨⟨j, q⟩, hwritten, hq⟩ := Option.bind_eq_some_iff.1 hw
    split at hq
    · rename_i hij
      obtain rfl := Option.some.inj hq
      obtain rfl : i = j := hij
      cases e with
      | trigger t =>
        obtain ⟨⟨j, window, isFsync⟩, hreq, hx⟩ := Option.map_eq_some_iff.1 hwritten
        obtain ⟨rfl, rfl⟩ := Prod.mk.inj hx
        exact entry_of_triggered himm
      | completed k result =>
        obtain error | _ := result
        · simp only [written] at hwritten
          split at hwritten
          · obtain ⟨j, -, hx⟩ := Option.map_eq_some_iff.1 hwritten
            rw [← (Prod.mk.inj hx).2]
            exact .inl (Nat.le_add_right _ _)
          · cases hwritten
        · cases hwritten
      | elapse nanos t => exact absurd rfl (he nanos t)
      | _ => cases hwritten
    · cases hq
  · exact .inr ⟨p, hp, himm, Nat.le_refl _⟩

theorem clocks_of_dispatch (cfg : UploadConfig) (order : List Inode) (s : UploadLoop) :
    (dispatch cfg order s).now = s.now ∧ (dispatch cfg order s).localTime = s.localTime := by
  induction order generalizing s with
  | nil => exact ⟨rfl, rfl⟩
  | cons i rest ih =>
    rw [dispatch]
    split
    · exact ⟨rfl, rfl⟩
    · exact ih _

/-- The other events leave the clocks, and start an iteration. -/
theorem clocks_of_step {n k : ℕ} (hc : Clocks cfg s₀ s n k) (h : step cfg s e = some s')
    (he : ∀ nanos t, e ≠ .elapse nanos t) : s'.now = s.now ∧ Clocks cfg s₀ s' (n + k) 0 := by
  have hiterate : ∀ u : UploadLoop, u.now = s.now → u.localTime = s.localTime →
      (u.iterate cfg).now = s.now ∧ Clocks cfg s₀ (u.iterate cfg) (n + k) 0 := by
    intro u hnow htime
    refine ⟨hnow, hnow.trans hc.now, htime.trans hc.localTime, hnow.trans hc.now, ?_⟩
    exact congrArg (secsUntilWindowOpens cfg.uploadWindow) (htime.trans hc.localTime)
  cases e with
  | elapse nanos t => exact absurd rfl (he nanos t)
  | trigger t =>
    simp only [step] at h
    split at h <;> rw [← Option.some.inj h] <;> exact hiterate _ rfl rfl
  | timer order =>
    obtain ⟨-, -, -, rfl⟩ := step_timer h
    obtain ⟨hnow, htime⟩ := clocks_of_dispatch cfg order s
    exact hiterate _ hnow htime
  | completed k result =>
    obtain ⟨u, hu, rfl⟩ := Option.map_eq_some_iff.1 h
    obtain ⟨j, -, rfl⟩ := Option.map_eq_some_iff.1 hu
    obtain error | _ := result
    · cases error <;> exact hiterate _ rfl rfl
    · exact hiterate _ rfl rfl
  | panicked k =>
    obtain ⟨j, -, rfl⟩ := Option.map_eq_some_iff.1 h
    exact hiterate _ rfl rfl

/-- **The step** keeps the invariant. -/
theorem WindowInv.step (hw : ∀ w ∈ cfg.uploadWindow, w.startMin < 1440) (hi : WindowInv cfg s₀ s)
    (hg : Prompt cfg s e) (h : step cfg s e = some s') : WindowInv cfg s₀ s' := by
  by_cases he : ∀ nanos t, e ≠ .elapse nanos t
  · obtain ⟨n, k, hc⟩ := hi.clocks
    obtain ⟨hnow, hc'⟩ := clocks_of_step hc h he
    refine ⟨⟨_, _, hc'⟩, fun i p hp himm m hm hdue => ?_⟩
    rw [hnow] at hm
    obtain hlate | ⟨q, hq, hqimm, hqdue⟩ := entry_of_step h he hp himm
    · omega
    · exact hi.waits i q hq hqimm m hm (hqdue.trans hdue)
  · push Not at he
    obtain ⟨nanos, t, rfl⟩ := he
    exact hi.elapse hw hg h

/-- What is in flight only after the step has been launched by it. -/
theorem mem_launched_of_count_lt (h : UploadLoop.step cfg s e = some s')
    (hlt : s.inFlight.count i < s'.inFlight.count i) : i ∈ s.launched cfg e := by
  have hle : (s.unfinished e).count i ≤ s.inFlight.count i := by
    cases e with
    | completed k result => exact (List.eraseIdx_sublist _ k).count_le i
    | panicked k => exact (List.eraseIdx_sublist _ k).count_le i
    | _ => exact Nat.le_refl _
  rw [inFlight_of_step h, List.count_append] at hlt
  exact List.count_pos_iff.1 (by omega)

/-- Only what is launched is no longer pending. -/
theorem mem_launched_of_not_mem (h : UploadLoop.step cfg s e = some s') (hi : i ∈ s.pending)
    (hi' : i ∉ s'.pending) : i ∈ s.launched cfg e := by
  by_contra hnot
  have hlookup := lookup_of_step h i
  rw [if_neg hnot, AList.lookup_eq_none.2 hi'] at hlookup
  have hnone := (Option.or_eq_none_iff.1 hlookup.symm).2
  exact AList.lookup_eq_none.1 hnone hi

/-- An inode is launched once in a step, and by the timer. -/
theorem count_of_launched (h : UploadLoop.step cfg s e = some s') (hi : i ∈ s.launched cfg e) :
    s'.inFlight.count i = s.inFlight.count i + 1 := by
  have hcount := congrArg (List.count i) (inFlight_of_step h)
  cases e with
  | timer order =>
    obtain ⟨-, -, hperm, -⟩ := step_timer h
    have hnodup : (s.launched cfg (.timer order)).Nodup :=
      (hperm.nodup_iff.2 ready_nodup).sublist (List.take_sublist _ order)
    rw [hcount, List.count_append, List.count_eq_one_of_mem hnodup hi]
    rfl
  | _ => cases hi

/-- A timer that fires puts every ready upload in flight, or fills the slots. -/
theorem count_of_timer {order : List Inode} (h : UploadLoop.step cfg s (.timer order) = some s')
    (hi : i ∈ order) : s'.inFlight.count i = s.inFlight.count i + 1 ∧ i ∉ s'.pending ∨
      s'.inFlight.length = cfg.maxConcurrent := by
  have hfree := (step_timer h).1
  obtain hshort | hlong := Nat.lt_or_ge (cfg.maxConcurrent - s.inFlight.length) order.length
  · right
    rw [inFlight_of_step h, List.length_append]
    change s.inFlight.length + (order.take _).length = _
    rw [List.length_take, Nat.min_eq_left hshort.le]
    omega
  · left
    have hmem : i ∈ s.launched cfg (.timer order) := by
      rw [launched, List.take_of_length_le hlong]
      exact hi
    refine ⟨count_of_launched h hmem, AList.lookup_eq_none.1 ?_⟩
    rw [lookup_of_step h, if_pos hmem]

/-- A step from a state with the invariant is gated. -/
theorem gated_of_step (hw : ∀ w ∈ cfg.uploadWindow, w.startMin < 1440) (hi : WindowInv cfg s₀ s)
    (hg : Prompt cfg s e) (h : UploadLoop.step cfg s e = some s') : Gated cfg s₀ s e s' := by
  refine ⟨fun i hlt => ?_, fun i hin hout => ?_, (hi.step hw hg h).waits, fun i p hp himm => ?_,
    fun i p hp hstart hfree order hperm => ?_⟩
  · have hmem := mem_launched_of_count_lt h hlt
    cases e with
    | timer order =>
      obtain ⟨-, -, hperm, -⟩ := step_timer h
      exact mem_ready_iff.1 (hperm.mem_iff.1 (List.mem_of_mem_take hmem))
    | _ => cases hmem
  · exact count_of_launched h (mem_launched_of_not_mem h hin hout)
  · obtain ⟨n, k, hc⟩ := hi.clocks
    by_cases he : ∀ nanos t, e ≠ .elapse nanos t
    · rw [(clocks_of_step hc h he).1]
      exact Nat.le_max_left _ _
    · push Not at he
      obtain ⟨nanos, t, rfl⟩ := he
      obtain rfl := Option.some.inj h
      obtain ⟨d, hmem, hle⟩ := nextDeadline_le cfg hp
      rw [effectiveDueAt, if_pos (.inl himm)] at hle
      exact (hg.2.2 d hmem).trans (max_le_max_left s.now hle)
  · obtain ⟨n, k, hc⟩ := hi.clocks
    obtain ⟨d, hmem, hle⟩ := nextDeadline_le cfg hp
    have hdue : d ≤ s.now := hle.trans (effectiveDueAt_le hw hc hstart)
    have hfires : UploadLoop.step cfg s (.timer order) =
        some ((dispatch cfg order s).iterate cfg) := by
      simp only [UploadLoop.step, if_neg (Nat.not_le.2 hfree), Option.mem_def.1 hmem,
        Option.bind_some, if_pos (And.intro hdue hperm)]
    exact ⟨_, hfires, count_of_timer hfires (hperm.mem_iff.2 (mem_ready_iff.2 ⟨p, hp, hstart⟩))⟩

/-- **The window gates the uploads exactly**, whatever is pending at first. -/
theorem gated_of_run (hw : ∀ w ∈ cfg.uploadWindow, w.startMin < 1440) (s₀ : UploadLoop)
    {es : List LoopEvent}
    (hg : Guarded (UploadLoop.step cfg) (Prompt cfg) (s₀.iterate cfg) es) :
    Along (UploadLoop.step cfg) (Gated cfg s₀) (s₀.iterate cfg) es :=
  along_of_guarded (I := WindowInv cfg s₀) (fun _ _ _ hi hg h => hi.step hw hg h)
    (fun _ _ _ hi hg h => gated_of_step hw hi hg h) (windowInv_iterate cfg s₀) hg

/-- The loop does not spin: when the timer has fired and a slot is left, the next deadline is
ahead. -/
theorem now_lt_nextDeadline {order : List Inode} (h : step cfg s (.timer order) = some s')
    (hfree : s'.inFlight.length < cfg.maxConcurrent) : ∀ d ∈ s'.nextDeadline cfg, s'.now < d := by
  obtain ⟨-, -, hperm, rfl⟩ := step_timer h
  intro d hd
  obtain ⟨⟨i, p⟩, hmem, rfl⟩ := List.mem_map.1 (List.min?_mem hd)
  have hp : (dispatch cfg order s).pending.lookup i = some p := AList.mem_lookup_iff.2 hmem
  rw [lookup_dispatch] at hp
  split at hp
  · cases hp
  rename_i hnot
  have hall : order.take (cfg.maxConcurrent - s.inFlight.length) = order := by
    change (dispatch cfg order s).inFlight.length < _ at hfree
    rw [inFlight_dispatch, List.length_append, List.length_take] at hfree
    apply List.take_of_length_le
    omega
  rw [hall, hperm.mem_iff, mem_ready_iff] at hnot
  obtain ⟨hnow, htime⟩ := clocks_of_dispatch cfg order s
  by_contra hlate
  apply hnot
  rw [not_lt] at hlate
  change effectiveDueAt p cfg.uploadWindow (dispatch cfg order s).now
    (secsUntilWindowOpens cfg.uploadWindow (dispatch cfg order s).localTime) ≤
      (dispatch cfg order s).now at hlate
  rw [hnow, htime, effectiveDueAt] at hlate
  refine ⟨p, hp, ?_⟩
  split at hlate
  · rename_i hungated
    refine ⟨hlate, hungated.imp id fun hopen => ?_⟩
    rcases hopen with hnone | hzero
    · intro w hw
      rw [Option.mem_def.1 hw] at hnone
      cases hnone
    · exact secsUntilWindowOpens_eq_zero_iff.1 hzero
  · have := (max_le_iff.1 hlate).2
    omega

/-- Uploads at night, one at a time. -/
def nightly : UploadConfig :=
  { debounce := nanosPerSec, closeDebounce := 0, maxConcurrent := 1
    uploadWindow := some ⟨1320, 360⟩ }

/-- A file is written before the window opens, and uploaded when it does. -/
def writeAtDusk : List LoopEvent :=
  [.trigger (.write 2), .elapse (3 * nanosPerSec) ⟨⟨1320, by decide⟩, ⟨0, by decide⟩⟩, .timer [2]]

end UploadLoop

end Stratosync

import Stratosync.Backend.RcloneErrors
import Stratosync.Foundations.Runs

/-!
# The stall watchdog

While rclone runs, one task of `run_with_progress` reads the lines of its stderr and counts those
that show it is alive. Another sleeps for the stall timeout, again and again, and when the count is
the one of the last time it aborts the transfer. `WatchdogSound` has the sides of it: an abort
follows a whole interval without such a line, a transfer that only repeats its byte count is
aborted within two intervals, and one whose byte count changes in every interval is not aborted.

The first task ends at a line that is not UTF-8, and counts neither that line nor a later one; the
watchdog is sound where there is none (`watchdogSound_of_utf8`).
-/

namespace Stratosync.Rclone

open Foundations

section

variable (fromStr : Str → Option JsonValue)

/-- `(stats.bytes, stats.totalBytes)` of a line of statistics. -/
def parseJsonStats (line : Str) : Option (ℕ × Option ℕ) :=
  (fromStr (trim line)).bind fun parsed =>
    (parsed.get "stats").bind fun stats =>
      ((stats.get "bytes").bind JsonValue.asU64).map fun bytes =>
        (bytes, (stats.get "totalBytes").bind JsonValue.asU64)

/-- Whether the line shows that the transfer is alive, and the byte count to remember. -/
def stderrLineShowsLiveness (line : Str) (lastBytes : Option ℕ) : Bool × Option ℕ :=
  match parseJsonStats fromStr line with
  | none => (true, lastBytes)
  | some (bytes, total) =>
    (lastBytes ≠ some bytes || total.any fun t => 0 < t && t ≤ bytes, some bytes)

end

/-! ## The two tasks -/

inductive ChildStatus
  | running
  | exited (result : Option (Except SyncError Bytes))
  | aborted (error : SyncError)
  deriving DecidableEq

/-- The task that reads stderr: it reads, has come to a line that is not UTF-8, or to the end. -/
inductive StderrTask
  | reading
  | failed
  | ended
  deriving DecidableEq, Repr

/-- The state of the two tasks. Times are in nanoseconds. -/
structure Transfer where
  now : ℕ
  /-- The end of the sleep. -/
  deadline : ℕ
  activity : ℕ
  lastSeen : ℕ
  lastBytes : Option ℕ
  full : List Str
  stderr : StderrTask
  status : ChildStatus

/-- What happens to a transfer. -/
inductive TransferEvent
  /-- The child prints a line; `none` is one that is not UTF-8. -/
  | line (text : Option Str)
  | stderrEnds
  | elapse (d : ℕ)
  /-- The sleep ends. -/
  | wake
  | exit (stdout : Bytes) (code : Option ℤ)

namespace TransferEvent

def duration : TransferEvent → ℕ
  | elapse d => d
  | _ => 0

def printed : TransferEvent → Option (Option Str)
  | line text => some text
  | _ => none

end TransferEvent

/-- `rclone stalled (no progress for {secs}s)`. -/
def stallError (stallTimeout : ℕ) : SyncError :=
  .network ("rclone stalled (no progress for ".toList ++
    ((toString (stallTimeout / 10 ^ 9)).toList ++ "s)".toList))

namespace Transfer

section

variable (unicode : Char → Str) (fromStr : Str → Option JsonValue) (stallTimeout : ℕ)

/-- One turn of the task that reads stderr. -/
def readLine (t : Transfer) (line : Option Str) : Transfer :=
  match t.stderr, line with
  | .reading, some text =>
    let (alive, lastBytes) := stderrLineShowsLiveness fromStr text t.lastBytes
    { t with
      activity := if alive then t.activity + 1 else t.activity, lastBytes
      full := t.full ++ [text] }
  | .reading, none => { t with stderr := .failed }
  | _, _ => t

/-- The watchdog starts, when some lines may have been read. -/
def start (now : ℕ) (read : List (Option Str)) : Transfer :=
  let t := read.foldl (readLine fromStr)
    ⟨now, now + stallTimeout, 0, 0, none, [], .reading, .running⟩
  { t with lastSeen := t.activity }

/-- One turn of the loop of the watchdog. -/
def check (t : Transfer) : Transfer :=
  if t.activity = t.lastSeen then { t with status := .aborted (stallError stallTimeout) }
  else { t with lastSeen := t.activity, deadline := t.now + stallTimeout }

/-- One step of the tasks; no time passes after the end of the sleep before the watchdog has
looked. -/
def step (t : Transfer) (e : TransferEvent) : Option Transfer :=
  if t.status = .running then
    match e with
    | .line line => if t.stderr = .ended then none else some (t.readLine fromStr line)
    | .stderrEnds => some { t with stderr := .ended }
    | .elapse d => if t.now + d ≤ t.deadline then some { t with now := t.now + d } else none
    | .wake => if t.now = t.deadline then some (t.check stallTimeout) else none
    | .exit stdout code =>
      some { t with status := .exited (runWithProgress unicode fromStr stdout t.full code) }
  else none

/-! ## Lines of statistics -/

/-- The line is a JSON object with an object `stats`, which has the byte count as `bytes`, and the
total as `totalBytes` where that is a count. -/
def StatsLine (line : Option Str) (bytes : ℕ) (total : Option ℕ) : Prop :=
  ∃ text members stats, line = some text ∧ fromStr (trim text) = some (.object members) ∧
    members.lookup "stats".toList = some (.object stats) ∧
    stats.lookup "bytes".toList = some (.number (some bytes)) ∧
    ∀ n, total = some n ↔ stats.lookup "totalBytes".toList = some (.number (some n))

/-- The byte count of the last line of statistics among the lines. -/
def PreviousBytes (lines : List (Option Str)) (bytes : ℕ) : Prop :=
  ∃ before line after total, lines = before ++ line :: after ∧ StatsLine fromStr line bytes total ∧
    ∀ l ∈ after, ∀ b n, ¬StatsLine fromStr l b n

/-- A line shows liveness unless it is one of statistics that repeats the byte count, which is not
a total that has been reached. -/
def ShowsLiveness (before : List (Option Str)) (line : Option Str) : Prop :=
  ∀ bytes total, StatsLine fromStr line bytes total →
    ¬PreviousBytes fromStr before bytes ∨ ∃ n, total = some n ∧ 0 < n ∧ n ≤ bytes

/-- A line of statistics that repeats the byte count, with no total or below it. -/
def Repeats (before : List (Option Str)) (line : Option Str) : Prop :=
  ∃ bytes total, StatsLine fromStr line bytes total ∧ PreviousBytes fromStr before bytes ∧
    ∀ n, total = some n → bytes < n

/-- A line of statistics with another byte count than the one before. -/
def Changes (before : List (Option Str)) (line : Option Str) : Prop :=
  ∃ bytes total, StatsLine fromStr line bytes total ∧ ¬PreviousBytes fromStr before bytes

/-- Each line that is printed satisfies `P`, with the lines before it. -/
def Each (P : List (Option Str) → Option Str → Prop) (before : List (Option Str)) :
    List TransferEvent → Prop
  | [] => True
  | .line line :: es => P before line ∧ Each P (before ++ [line]) es
  | _ :: es => Each P before es

/-! ## The guarantee -/

/-- The time that passes in a part of a run. -/
def elapsed (es : List TransferEvent) : ℕ := (es.map TransferEvent.duration).sum

/-- A transfer gets to the state by the events. -/
def Reaches (now : ℕ) (read : List (Option Str)) (es : List TransferEvent) (t : Transfer) : Prop :=
  Runs.run (step unicode fromStr stallTimeout) (start fromStr stallTimeout now read) es = some t

/-- The lines that the child has printed. -/
def printed (read : List (Option Str)) (es : List TransferEvent) : List (Option Str) :=
  read ++ es.filterMap TransferEvent.printed

/-- **The watchdog aborts stalled transfers and no others**, in the run of the events. -/
structure WatchdogSound (now : ℕ) (read : List (Option Str)) (es : List TransferEvent) : Prop where
  /-- An abort follows a whole interval without a line that shows liveness. -/
  onlyStalled : ∀ t error, Reaches unicode fromStr stallTimeout now read es t →
    t.status = .aborted error → error = stallError stallTimeout ∧
      ∃ es₁ es₂, es = es₁ ++ es₂ ++ [.wake] ∧ elapsed es₂ = stallTimeout ∧
        Each (fun before line => ¬ShowsLiveness fromStr before line) (printed read es₁) es₂
  /-- A line that repeats the byte count is not counted. -/
  repeatsQuiet : ∀ t line t', Reaches unicode fromStr stallTimeout now read es t →
    t.step unicode fromStr stallTimeout (.line line) = some t' →
      Repeats fromStr (printed read es) line → t'.activity = t.activity
  /-- With such lines only, the transfer runs for two more intervals at most, and the watchdog
  alone will abort it by then. -/
  abortedInTime : ∀ t es' t', Reaches unicode fromStr stallTimeout now read es t →
    Runs.run (step unicode fromStr stallTimeout) t es' = some t' →
      Each (Repeats fromStr) (printed read es) es' → t'.status = .running →
        t'.now ≤ t.now + 2 * stallTimeout ∧ ∃ es'' t'' error,
          (∀ e ∈ es'', e = .wake ∨ ∃ d, e = .elapse d) ∧
            Runs.run (step unicode fromStr stallTimeout) t' es'' = some t'' ∧
            t''.status = .aborted error ∧ t''.now ≤ t.now + 2 * stallTimeout
  /-- A transfer whose byte count changes in every interval is not aborted. -/
  progressing : ∀ t, Reaches unicode fromStr stallTimeout now read es t →
    (∀ es₁ es₂ es₃, es = es₁ ++ es₂ ++ es₃ → elapsed es₂ = stallTimeout →
        ¬Each (fun before line => ¬Changes fromStr before line) (printed read es₁) es₂) →
      ∀ error, t.status ≠ .aborted error

end

/-! ## One step -/

variable {unicode : Char → Str} {fromStr : Str → Option JsonValue} {stallTimeout : ℕ}
  {t t' : Transfer} {e : TransferEvent} {before : List (Option Str)} {line : Option Str}

theorem running_of_step (h : t.step unicode fromStr stallTimeout e = some t') :
    t.status = .running := by
  unfold step at h
  split at h
  · assumption
  · cases h

theorem readLine_spec (fromStr : Str → Option JsonValue) (t : Transfer) (line : Option Str) :
    (t.readLine fromStr line).now = t.now ∧ (t.readLine fromStr line).deadline = t.deadline ∧
      (t.readLine fromStr line).lastSeen = t.lastSeen ∧
      (t.readLine fromStr line).status = t.status ∧
      t.activity ≤ (t.readLine fromStr line).activity := by
  unfold readLine
  split
  · refine ⟨rfl, rfl, rfl, rfl, ?_⟩
    dsimp only
    split
    · exact Nat.le_succ _
    · exact le_rfl
  · exact ⟨rfl, rfl, rfl, rfl, le_rfl⟩
  · exact ⟨rfl, rfl, rfl, rfl, le_rfl⟩

theorem step_line (h : t.step unicode fromStr stallTimeout (.line line) = some t') :
    t.stderr ≠ .ended ∧ t' = t.readLine fromStr line := by
  have hrun := running_of_step h
  rw [step, if_pos hrun] at h
  split at h
  · cases h
  · rename_i hopen
    exact ⟨hopen, (Option.some.inj h).symm⟩

/-- What a step that is not the end of the sleep does. -/
theorem step_spec (h : t.step unicode fromStr stallTimeout e = some t') (he : e ≠ .wake) :
    t'.deadline = t.deadline ∧ t'.lastSeen = t.lastSeen ∧ t'.now = t.now + e.duration ∧
      t.activity ≤ t'.activity ∧ (t.now ≤ t.deadline → t'.now ≤ t'.deadline) ∧
      ∀ error, t'.status ≠ .aborted error := by
  have hrun := running_of_step h
  cases e with
  | line line =>
    obtain ⟨-, rfl⟩ := step_line h
    obtain ⟨hnow, hdeadline, hseen, hstatus, hle⟩ := readLine_spec fromStr t line
    rw [hnow, hdeadline, hseen, hstatus, hrun]
    exact ⟨rfl, rfl, rfl, hle, id, fun _ h => by cases h⟩
  | stderrEnds =>
    rw [step, if_pos hrun] at h
    cases h
    exact ⟨rfl, rfl, rfl, le_rfl, id, fun _ h => by cases hrun.symm.trans h⟩
  | elapse d =>
    rw [step, if_pos hrun] at h
    split at h
    · rename_i hle
      cases h
      exact ⟨rfl, rfl, rfl, le_rfl, fun _ => hle, fun _ h => by cases hrun.symm.trans h⟩
    · cases h
  | wake => exact absurd rfl he
  | exit stdout code =>
    rw [step, if_pos hrun] at h
    cases h
    exact ⟨rfl, rfl, rfl, le_rfl, id, fun _ h => by cases h⟩

/-- What the watchdog does when the sleep ends. -/
theorem step_wake (h : t.step unicode fromStr stallTimeout .wake = some t') :
    t.now = t.deadline ∧ t' = t.check stallTimeout := by
  have hrun := running_of_step h
  rw [step, if_pos hrun] at h
  split at h
  · rename_i hdue
    exact ⟨hdue, (Option.some.inj h).symm⟩
  · cases h

/-! ## Lines of statistics -/

theorem asU64_eq_some {v : JsonValue} {n : ℕ} :
    v.asU64 = some n ↔ v = .number (some n) := by
  cases v <;> simp [JsonValue.asU64]

theorem get_eq_some {v w : JsonValue} {key : String} : v.get key = some w ↔
    ∃ members, v = .object members ∧ members.lookup key.toList = some w := by
  cases v <;> simp [JsonValue.get]

/-- `parse_json_stats` reads the lines of statistics. -/
theorem parseJsonStats_eq_some {text : Str} {bytes : ℕ} {total : Option ℕ} :
    parseJsonStats fromStr text = some (bytes, total) ↔
      StatsLine fromStr (some text) bytes total := by
  simp only [parseJsonStats, Option.bind_eq_some_iff, Option.map_eq_some_iff, Prod.mk.injEq,
    get_eq_some, asU64_eq_some]
  constructor
  · rintro ⟨_, hparsed, _, ⟨members, rfl, hstats⟩, _, ⟨_, ⟨stats, rfl, hbytes⟩, rfl⟩, rfl, rfl⟩
    refine ⟨text, members, stats, rfl, hparsed, hstats, hbytes, fun n => ?_⟩
    simp [get_eq_some, Option.bind_eq_some_iff, asU64_eq_some]
  · rintro ⟨_, members, stats, htext, hparsed, hstats, hbytes, htotal⟩
    cases htext
    refine ⟨_, hparsed, _, ⟨members, rfl, hstats⟩, bytes, ⟨_, ⟨stats, rfl, hbytes⟩, rfl⟩, rfl, ?_⟩
    ext n
    rw [htotal, Option.bind_eq_some_iff]
    simp [get_eq_some, asU64_eq_some]

theorem not_statsLine_none {bytes : ℕ} {total : Option ℕ} :
    ¬StatsLine fromStr none bytes total := by
  rintro ⟨_, _, _, h, -⟩
  cases h

theorem StatsLine.unique {b b' : ℕ} {n n' : Option ℕ} (h : StatsLine fromStr line b n)
    (h' : StatsLine fromStr line b' n') : b = b' ∧ n = n' := by
  cases line with
  | none => exact absurd h not_statsLine_none
  | some text =>
    have hsame := (parseJsonStats_eq_some.2 h).symm.trans (parseJsonStats_eq_some.2 h')
    exact Prod.mk.inj (Option.some.inj hsame)

theorem previousBytes_nil {bytes : ℕ} : ¬PreviousBytes fromStr [] bytes := by
  rintro ⟨before, line, after, total, h, -⟩
  simp at h

theorem previousBytes_concat {bytes : ℕ} : PreviousBytes fromStr (before ++ [line]) bytes ↔
    (∃ total, StatsLine fromStr line bytes total) ∨
      (∀ b n, ¬StatsLine fromStr line b n) ∧ PreviousBytes fromStr before bytes := by
  constructor
  · rintro ⟨first, l, after, total, hlines, hstats, hafter⟩
    obtain rfl | ⟨rest, x, rfl⟩ := List.eq_nil_or_concat after
    · obtain ⟨rfl, hl⟩ := List.append_inj' hlines rfl
      exact .inl ⟨total, (List.singleton_injective hl) ▸ hstats⟩
    · rw [List.concat_eq_append, ← List.cons_append, ← List.append_assoc] at hlines
      obtain ⟨rfl, hx⟩ := List.append_inj' hlines rfl
      obtain rfl := List.singleton_injective hx
      refine .inr ⟨hafter line (by simp), first, l, rest, total, rfl, hstats, fun y hy => ?_⟩
      exact hafter y (by simp [hy])
  · rintro (⟨total, hstats⟩ | ⟨hnot, first, l, after, total, rfl, hstats, hafter⟩)
    · exact ⟨before, line, [], total, rfl, hstats, fun l hl => by cases hl⟩
    · refine ⟨first, l, after ++ [line], total, by simp, hstats, fun y hy => ?_⟩
      obtain hy | hy := List.mem_append.1 hy
      · exact hafter y hy
      · exact List.mem_singleton.1 hy ▸ hnot

/-- The task has read all lines, and remembers the last byte count. -/
structure HasRead (fromStr : Str → Option JsonValue) (before : List (Option Str)) (t : Transfer) :
    Prop where
  stderr : t.stderr ≠ .failed
  lastBytes : ∀ bytes, t.lastBytes = some bytes ↔ PreviousBytes fromStr before bytes

/-- A line that is read is counted when it shows liveness. -/
theorem HasRead.readLine {text : Str} (h : HasRead fromStr before t) (hopen : t.stderr ≠ .ended) :
    HasRead fromStr (before ++ [some text]) (t.readLine fromStr (some text)) ∧
      ((t.readLine fromStr (some text)).activity = t.activity ↔
        ¬ShowsLiveness fromStr before (some text)) := by
  have hreading : t.stderr = .reading := by
    have hstderr := h.stderr
    cases ht : t.stderr with
    | reading => rfl
    | failed => exact absurd ht hstderr
    | ended => exact absurd ht hopen
  cases hparse : parseJsonStats fromStr text with
  | none =>
    have hshows : stderrLineShowsLiveness fromStr text t.lastBytes = (true, t.lastBytes) := by
      rw [stderrLineShowsLiveness, hparse]
    simp only [Transfer.readLine, hreading, hshows]
    have hnot : ∀ b n, ¬StatsLine fromStr (some text) b n := by
      intro b n hstats
      cases hparse.symm.trans (parseJsonStats_eq_some.2 hstats)
    refine ⟨⟨by simp, fun bytes => ?_⟩, ?_⟩
    · rw [previousBytes_concat, h.lastBytes]
      simp [hnot]
    · refine iff_of_false (by simp) (not_not.2 fun b n hstats => ?_)
      exact absurd hstats (hnot b n)
  | some p =>
    obtain ⟨bytes, total⟩ := p
    have hstats := parseJsonStats_eq_some.1 hparse
    have hshows : stderrLineShowsLiveness fromStr text t.lastBytes =
        (t.lastBytes ≠ some bytes || total.any fun n => 0 < n && n ≤ bytes, some bytes) := by
      rw [stderrLineShowsLiveness, hparse]
    simp only [Transfer.readLine, hreading, hshows]
    refine ⟨⟨by simp, fun b => ?_⟩, ?_⟩
    · rw [previousBytes_concat]
      constructor
      · intro hb
        obtain rfl := Option.some.inj hb
        exact .inl ⟨total, hstats⟩
      · rintro (⟨n, hb⟩ | ⟨hnot, -⟩)
        · exact congrArg some (hstats.unique hb).1
        · exact absurd hstats (hnot _ _)
    · have hlive : ShowsLiveness fromStr before (some text) ↔
          t.lastBytes ≠ some bytes ∨ ∃ n, total = some n ∧ 0 < n ∧ n ≤ bytes := by
        rw [ne_eq, h.lastBytes]
        refine ⟨fun hl => hl bytes total hstats, fun hl b n hb => ?_⟩
        obtain ⟨rfl, rfl⟩ := hstats.unique hb
        exact hl
      rw [hlive]
      cases total <;> simp

/-! ## Runs -/

variable {now : ℕ} {read : List (Option Str)} {es : List TransferEvent}

theorem reaches_nil : Reaches unicode fromStr stallTimeout now read [] t ↔
    start fromStr stallTimeout now read = t := Option.some_inj

theorem reaches_concat : Reaches unicode fromStr stallTimeout now read (es ++ [e]) t' ↔
    ∃ t, Reaches unicode fromStr stallTimeout now read es t ∧
      t.step unicode fromStr stallTimeout e = some t' := by
  rw [Reaches, Runs.run_append, Option.bind_eq_some_iff]
  refine exists_congr fun t => and_congr_right fun _ => ?_
  rw [Runs.run_cons, Option.bind_eq_some_iff]
  exact ⟨fun ⟨u, hu, he⟩ => Option.some.inj he ▸ hu, fun h => ⟨t', h, rfl⟩⟩

theorem foldl_readLine (fromStr : Str → Option JsonValue) (read : List (Option Str))
    (t : Transfer) : (read.foldl (readLine fromStr) t).now = t.now ∧
      (read.foldl (readLine fromStr) t).deadline = t.deadline ∧
      (read.foldl (readLine fromStr) t).status = t.status ∧
      (t.stderr ≠ .ended → (read.foldl (readLine fromStr) t).stderr ≠ .ended) := by
  induction read generalizing t with
  | nil => exact ⟨rfl, rfl, rfl, id⟩
  | cons line read ih =>
    obtain ⟨hnow, hdeadline, -, hstatus, -⟩ := readLine_spec fromStr t line
    obtain ⟨hnow', hdeadline', hstatus', hopen'⟩ := ih (t.readLine fromStr line)
    refine ⟨hnow'.trans hnow, hdeadline'.trans hdeadline, hstatus'.trans hstatus, fun h => ?_⟩
    refine hopen' ?_
    unfold Transfer.readLine
    split
    · exact h
    · exact fun hended => by cases hended
    · exact h

/-- The lines that are read at first are remembered like the others. -/
theorem hasRead_foldl (hread : ∀ line ∈ read, line ≠ none) (h : HasRead fromStr before t)
    (hopen : t.stderr ≠ .ended) :
    HasRead fromStr (before ++ read) (read.foldl (readLine fromStr) t) := by
  induction read generalizing t before with
  | nil => simpa using h
  | cons line read ih =>
    obtain ⟨text, rfl⟩ := Option.ne_none_iff_exists'.1 (hread line List.mem_cons_self)
    rw [List.foldl_cons, List.append_cons]
    refine ih (fun l hl => hread l (List.mem_cons_of_mem _ hl)) (h.readLine hopen).1 ?_
    have := (foldl_readLine fromStr [some text] t).2.2.2 hopen
    exact this

theorem start_spec (fromStr : Str → Option JsonValue) (stallTimeout now : ℕ)
    (read : List (Option Str)) :
    (start fromStr stallTimeout now read).now = now ∧
      (start fromStr stallTimeout now read).deadline = now + stallTimeout ∧
      (start fromStr stallTimeout now read).status = .running ∧
      (start fromStr stallTimeout now read).activity =
        (start fromStr stallTimeout now read).lastSeen := by
  obtain ⟨hnow, hdeadline, hstatus, -⟩ := foldl_readLine fromStr read
    ⟨now, now + stallTimeout, 0, 0, none, [], .reading, .running⟩
  exact ⟨hnow, hdeadline, hstatus, rfl⟩

theorem hasRead_start (hread : ∀ line ∈ read, line ≠ none) :
    HasRead fromStr read (start fromStr stallTimeout now read) := by
  have hstart : HasRead fromStr []
      ⟨now, now + stallTimeout, 0, 0, none, [], .reading, .running⟩ :=
    ⟨by simp, fun bytes => iff_of_false (by simp) previousBytes_nil⟩
  obtain ⟨hstderr, hbytes⟩ := hasRead_foldl hread hstart (by simp)
  exact ⟨hstderr, hbytes⟩

theorem eq_line_of_printed (h : e.printed = some line) : e = .line line := by
  cases e with
  | line l => exact congrArg TransferEvent.line (Option.some.inj h)
  | _ => cases h

/-- A step without a line leaves what has been read and counted. -/
theorem step_silent (h : t.step unicode fromStr stallTimeout e = some t')
    (he : e.printed = none) : (t'.stderr = t.stderr ∨ t'.stderr = .ended) ∧
      t'.lastBytes = t.lastBytes ∧ t'.activity = t.activity := by
  have hrun := running_of_step h
  cases e with
  | line line => cases he
  | stderrEnds =>
    rw [step, if_pos hrun] at h
    cases h
    exact ⟨.inr rfl, rfl, rfl⟩
  | elapse d =>
    rw [step, if_pos hrun] at h
    split at h
    · cases h
      exact ⟨.inl rfl, rfl, rfl⟩
    · cases h
  | wake =>
    obtain ⟨-, rfl⟩ := step_wake h
    rw [check]
    split <;> exact ⟨.inl rfl, rfl, rfl⟩
  | exit stdout code =>
    rw [step, if_pos hrun] at h
    cases h
    exact ⟨.inl rfl, rfl, rfl⟩

theorem HasRead.silent (h : HasRead fromStr before t)
    (hstep : t.step unicode fromStr stallTimeout e = some t') (he : e.printed = none) :
    HasRead fromStr before t' := by
  obtain ⟨hstderr, hbytes, -⟩ := step_silent hstep he
  refine ⟨fun hfailed => ?_, fun bytes => hbytes ▸ h.lastBytes bytes⟩
  obtain hsame | hended := hstderr
  · exact h.stderr (hsame.symm.trans hfailed)
  · cases hended.symm.trans hfailed

theorem HasRead.counted (h : HasRead fromStr before t)
    (hstep : t.step unicode fromStr stallTimeout (.line line) = some t') (hline : line ≠ none) :
    HasRead fromStr (before ++ [line]) t' ∧
      (t'.activity = t.activity ↔ ¬ShowsLiveness fromStr before line) := by
  obtain ⟨hopen, rfl⟩ := step_line hstep
  obtain ⟨text, rfl⟩ := Option.ne_none_iff_exists'.1 hline
  exact h.readLine hopen

theorem HasRead.step (h : HasRead fromStr before t)
    (hstep : t.step unicode fromStr stallTimeout e = some t')
    (hline : ∀ line, e.printed = some line → line ≠ none) :
    HasRead fromStr (before ++ e.printed.toList) t' := by
  cases hp : e.printed with
  | none =>
    rw [Option.toList_none, List.append_nil]
    exact h.silent hstep hp
  | some line =>
    obtain rfl := eq_line_of_printed hp
    exact (h.counted hstep (hline line hp)).1

theorem printed_concat : printed read (es ++ [e]) = printed read es ++ e.printed.toList := by
  rw [printed, printed, List.filterMap_append, List.append_assoc]
  cases e <;> rfl

theorem hasRead_of_reaches (h : Reaches unicode fromStr stallTimeout now read es t)
    (hlines : ∀ line ∈ printed read es, line ≠ none) : HasRead fromStr (printed read es) t := by
  induction es using List.reverseRecOn generalizing t with
  | nil =>
    obtain rfl := reaches_nil.1 h
    simpa [printed] using hasRead_start fun line hl => hlines line (by simpa [printed] using hl)
  | append_singleton es e ih =>
    rw [printed_concat] at hlines ⊢
    obtain ⟨u, hu, hstep⟩ := reaches_concat.1 h
    refine (ih hu fun line hl => hlines line (List.mem_append_left _ hl)).step hstep ?_
    intro line hp
    exact hlines line (List.mem_append_right _ (Option.mem_toList.2 hp))

/-- The step counts no line. -/
def Quiet (t : Transfer) (_ : TransferEvent) (t' : Transfer) : Prop := t'.activity = t.activity

theorem each_cons_silent {P : List (Option Str) → Option Str → Prop} (he : e.printed = none) :
    Each P before (e :: es) ↔ Each P before es := by
  cases e with
  | line line => cases he
  | _ => rfl

/-- A part of a run that counts no line has none that shows liveness. -/
theorem each_of_quiet (h : HasRead fromStr before t)
    (hr : Runs.run (step unicode fromStr stallTimeout) t es = some t')
    (hlines : ∀ line ∈ es.filterMap TransferEvent.printed, line ≠ none)
    (hquiet : Runs.Along (step unicode fromStr stallTimeout) Quiet t es) :
    Each (fun before line => ¬ShowsLiveness fromStr before line) before es := by
  induction es generalizing t before with
  | nil => trivial
  | cons e es ih =>
    obtain ⟨u, hu, hrun⟩ := Runs.run_cons_eq_some.1 hr
    obtain ⟨hq, hrest⟩ := hquiet u hu
    cases hp : e.printed with
    | none =>
      rw [List.filterMap_cons_none hp] at hlines
      exact (each_cons_silent hp).2 (ih (h.silent hu hp) hrun hlines hrest)
    | some line =>
      rw [List.filterMap_cons_some hp] at hlines
      obtain rfl := eq_line_of_printed hp
      obtain ⟨hnext, hcount⟩ := h.counted hu (hlines line List.mem_cons_self)
      exact ⟨hcount.1 hq,
        ih hnext hrun (fun l hl => hlines l (List.mem_cons_of_mem _ hl)) hrest⟩

/-- A line that repeats the byte count shows no liveness. -/
theorem not_showsLiveness_of_repeats (h : Repeats fromStr before line) :
    ¬ShowsLiveness fromStr before line := by
  obtain ⟨bytes, total, hstats, hprevious, hbelow⟩ := h
  intro hlive
  obtain hchanged | ⟨n, hn, -, hle⟩ := hlive bytes total hstats
  · exact hchanged hprevious
  · exact absurd (hbelow n hn) (Nat.not_lt.2 hle)

theorem ne_none_of_repeats (h : Repeats fromStr before line) : line ≠ none := by
  rintro rfl
  obtain ⟨bytes, total, hstats, -⟩ := h
  exact not_statsLine_none hstats

/-- A part of a run with such lines only counts none. -/
theorem quiet_of_each (h : HasRead fromStr before t) (hes : Each (Repeats fromStr) before es) :
    Runs.Along (step unicode fromStr stallTimeout) Quiet t es := by
  induction es generalizing t before with
  | nil => trivial
  | cons e es ih =>
    intro u hu
    cases hp : e.printed with
    | none =>
      exact ⟨(step_silent hu hp).2.2, ih (h.silent hu hp) ((each_cons_silent hp).1 hes)⟩
    | some line =>
      obtain rfl := eq_line_of_printed hp
      obtain ⟨hrepeats, hrest⟩ := hes
      obtain ⟨hnext, hcount⟩ := h.counted hu (ne_none_of_repeats hrepeats)
      exact ⟨hcount.2 (not_showsLiveness_of_repeats hrepeats), ih hnext hrest⟩

/-- A child that is running was running all the time. -/
theorem running_of_run (h : Runs.run (step unicode fromStr stallTimeout) t es = some t')
    (hrun : t'.status = .running) : t.status = .running := by
  cases es with
  | nil => exact Option.some.inj h ▸ hrun
  | cons e es =>
    obtain ⟨u, hu, -⟩ := Runs.run_cons_eq_some.1 h
    exact running_of_step hu

/-- Between two looks of the watchdog: the deadline and the count it has seen stay, and when the
count stays too no line is counted. -/
theorem run_spec (h : Runs.run (step unicode fromStr stallTimeout) t es = some t')
    (hes : TransferEvent.wake ∉ es) :
    t'.deadline = t.deadline ∧ t'.lastSeen = t.lastSeen ∧ t'.now = t.now + elapsed es ∧
      t.activity ≤ t'.activity ∧ (t'.activity = t.activity →
        Runs.Along (step unicode fromStr stallTimeout) Quiet t es) := by
  induction es generalizing t with
  | nil =>
    obtain rfl := Option.some.inj h
    exact ⟨rfl, rfl, rfl, le_rfl, fun _ => trivial⟩
  | cons e es ih =>
    obtain ⟨u, hu, hrun⟩ := Runs.run_cons_eq_some.1 h
    obtain ⟨hne, hes⟩ := not_or.1 (mt List.mem_cons.2 hes)
    obtain ⟨hdeadline, hseen, hnow, hle, -⟩ := step_spec hu (Ne.symm hne)
    obtain ⟨hdeadline', hseen', hnow', hle', hquiet'⟩ := ih hrun hes
    refine ⟨hdeadline'.trans hdeadline, hseen'.trans hseen, ?_, hle.trans hle', fun hsame => ?_⟩
    · rw [hnow', hnow, elapsed, elapsed, List.map_cons, List.sum_cons, Nat.add_assoc]
    · intro u' hu'
      obtain rfl := Option.some.inj (hu.symm.trans hu')
      have hstays : u.activity = t.activity := by omega
      exact ⟨hstays, hquiet' (by omega)⟩

/-- The time since the watchdog looked last, or started. -/
theorem exists_interval (h : Reaches unicode fromStr stallTimeout now read es t)
    (ht : t.status = .running) :
    t.now ≤ t.deadline ∧ ∃ es₁ es₂ t₁, es = es₁ ++ es₂ ∧ TransferEvent.wake ∉ es₂ ∧
      Reaches unicode fromStr stallTimeout now read es₁ t₁ ∧
      Runs.run (step unicode fromStr stallTimeout) t₁ es₂ = some t ∧
      t₁.deadline = t₁.now + stallTimeout ∧ t₁.activity = t₁.lastSeen := by
  induction es using List.reverseRecOn generalizing t with
  | nil =>
    obtain rfl := reaches_nil.1 h
    obtain ⟨hnow, hdeadline, -, hseen⟩ := start_spec fromStr stallTimeout now read
    refine ⟨by omega, [], [], _, rfl, List.not_mem_nil, h, rfl, ?_, hseen⟩
    rw [hdeadline, hnow]
  | append_singleton es e ih =>
    obtain ⟨u, hu, hstep⟩ := reaches_concat.1 h
    obtain ⟨hle, es₁, es₂, t₁, rfl, hwake, h₁, h₂, hstart⟩ := ih hu (running_of_step hstep)
    by_cases he : e = .wake
    · subst he
      obtain ⟨-, rfl⟩ := step_wake hstep
      rw [check] at ht h hstep ⊢
      split at ht
      · cases ht
      · rename_i hseen
        rw [if_neg hseen] at h hstep ⊢
        exact ⟨Nat.le_add_right _ _, _, [], _, (List.append_nil _).symm, List.not_mem_nil, h, rfl,
          rfl, rfl⟩
    · refine ⟨(step_spec hstep he).2.2.2.2.1 hle, es₁, es₂ ++ [e], t₁,
        List.append_assoc _ _ _, ?_, h₁, ?_, hstart⟩
      · simp [hwake, Ne.symm he]
      · rw [Runs.run_append, h₂, Option.bind_some, Runs.run_cons, hstep]
        rfl

/-! ## Aborts -/

/-- A line that shows no liveness does not change the byte count. -/
theorem not_changes_of_not_showsLiveness (h : ¬ShowsLiveness fromStr before line) :
    ¬Changes fromStr before line := by
  rintro ⟨bytes, total, hstats, hchanged⟩
  refine h fun b n hb => .inl ?_
  obtain ⟨rfl, rfl⟩ := hstats.unique hb
  exact hchanged

theorem Each.mono {P Q : List (Option Str) → Option Str → Prop} (h : Each P before es)
    (hPQ : ∀ before line, P before line → Q before line) : Each Q before es := by
  induction es generalizing before with
  | nil => trivial
  | cons e es ih =>
    cases e with
    | line line => exact ⟨hPQ _ _ h.1, ih h.2⟩
    | _ => exact ih h

/-- **An abort ends a whole interval without a sign of life.** -/
theorem quiet_of_aborted {error : SyncError}
    (h : Reaches unicode fromStr stallTimeout now read es t) (ht : t.status = .aborted error) :
    error = stallError stallTimeout ∧ ∃ es₁ es₂ t₁ t₂, es = es₁ ++ es₂ ++ [.wake] ∧
      Reaches unicode fromStr stallTimeout now read es₁ t₁ ∧
      Runs.run (step unicode fromStr stallTimeout) t₁ es₂ = some t₂ ∧
      elapsed es₂ = stallTimeout ∧
      Runs.Along (step unicode fromStr stallTimeout) Quiet t₁ es₂ := by
  obtain rfl | ⟨es, e, rfl⟩ := List.eq_nil_or_concat es
  · obtain rfl := reaches_nil.1 h
    rw [(start_spec fromStr stallTimeout now read).2.2.1] at ht
    cases ht
  rw [List.concat_eq_append] at h
  obtain ⟨u, hu, hstep⟩ := reaches_concat.1 h
  have he : e = .wake := by
    by_contra he
    exact (step_spec hstep he).2.2.2.2.2 error ht
  subst he
  obtain ⟨hdue, rfl⟩ := step_wake hstep
  obtain ⟨-, es₁, es₂, t₁, rfl, hwake, h₁, h₂, hstart, hseen⟩ :=
    exists_interval hu (running_of_step hstep)
  obtain ⟨hdeadline, hsame, hnow, -, hquiet⟩ := run_spec h₂ hwake
  have hcount : u.activity = u.lastSeen := by
    by_contra hno
    rw [check, if_neg hno] at ht
    cases (running_of_step hstep).symm.trans ht
  refine ⟨?_, es₁, es₂, t₁, u, by rw [List.concat_eq_append], h₁, h₂, by omega, hquiet (by omega)⟩
  rw [check, if_pos hcount] at ht
  exact (ChildStatus.aborted.inj ht).symm

/-! ## A transfer that has stalled -/

/-- Nothing has shown liveness since the count was `count`, at a time from which two intervals
are left until `limit`: the watchdog has still to see that count, or it will abort next. -/
structure Stalling (stallTimeout count limit : ℕ) (t : Transfer) : Prop where
  asleep : t.now ≤ t.deadline
  counted : t.activity = count
  inTime : t.deadline + stallTimeout ≤ limit ∨ t.lastSeen = count ∧ t.deadline ≤ limit

variable {count limit : ℕ}

theorem stalling_check (h : Stalling stallTimeout count limit t) (hdue : t.now = t.deadline)
    (hrun : t.status = .running) (hseen : t.activity ≠ t.lastSeen) :
    Stalling stallTimeout count limit (t.check stallTimeout) ∧
      (t.check stallTimeout).lastSeen = count ∧
      (t.check stallTimeout).deadline = t.deadline + stallTimeout ∧
      (t.check stallTimeout).now = t.deadline ∧ (t.check stallTimeout).status = .running := by
  have hleft : t.deadline + stallTimeout ≤ limit :=
    h.inTime.resolve_right fun hs => hseen (h.counted.trans hs.1.symm)
  rw [check, if_neg hseen]
  exact ⟨⟨Nat.le_add_right _ _, h.counted, .inr ⟨h.counted, by simpa [hdue] using hleft⟩⟩, h.counted,
    by simp [hdue], hdue, hrun⟩

theorem stalling_of_step (h : Stalling stallTimeout count limit t)
    (hstep : t.step unicode fromStr stallTimeout e = some t') (hquiet : Quiet t e t')
    (hrun : t'.status = .running) : Stalling stallTimeout count limit t' := by
  by_cases he : e = .wake
  · subst he
    obtain ⟨hdue, rfl⟩ := step_wake hstep
    by_cases hseen : t.activity = t.lastSeen
    · rw [check, if_pos hseen] at hrun
      cases hrun
    · exact (stalling_check h hdue (running_of_step hstep) hseen).1
  · obtain ⟨hdeadline, hsame, -, -, hle, -⟩ := step_spec hstep he
    refine ⟨hle h.asleep, hquiet.trans h.counted, ?_⟩
    rw [hdeadline, hsame]
    exact h.inTime

theorem stalling_of_run {es : List TransferEvent} (h : Stalling stallTimeout count limit t)
    (hr : Runs.run (step unicode fromStr stallTimeout) t es = some t')
    (hquiet : Runs.Along (step unicode fromStr stallTimeout) Quiet t es)
    (hrun : t'.status = .running) : Stalling stallTimeout count limit t' := by
  induction es generalizing t with
  | nil => exact Option.some.inj hr ▸ h
  | cons e es ih =>
    obtain ⟨u, hu, hr⟩ := Runs.run_cons_eq_some.1 hr
    obtain ⟨hq, hquiet⟩ := hquiet u hu
    exact ih (stalling_of_step h hu hq (running_of_run hr hrun)) hr hquiet

/-- The watchdog sleeps to the end and looks. -/
theorem run_sleep (hrun : t.status = .running) (hle : t.now ≤ t.deadline) :
    Runs.run (step unicode fromStr stallTimeout) t [.elapse (t.deadline - t.now), .wake] =
      some ({ t with now := t.deadline }.check stallTimeout) := by
  have hadd : t.now + (t.deadline - t.now) = t.deadline := by omega
  rw [Runs.run_cons, step, if_pos hrun, if_pos hadd.le, Option.bind_some, Runs.run_cons, step,
    if_pos hrun, if_pos hadd, hadd]
  rfl

/-- When the count is the one the watchdog has seen, it aborts at the end of the sleep. -/
theorem abort_of_seen (fromStr : Str → Option JsonValue)
    (h : Stalling stallTimeout count limit t) (hrun : t.status = .running)
    (hseen : t.activity = t.lastSeen) :
    ∃ d t', Runs.run (step unicode fromStr stallTimeout) t [.elapse d, .wake] = some t' ∧
      t'.status = .aborted (stallError stallTimeout) ∧ t'.now ≤ limit := by
  have hlimit : t.deadline ≤ limit := by
    obtain hleft | ⟨-, hleft⟩ := h.inTime <;> omega
  refine ⟨_, _, run_sleep hrun h.asleep, ?_⟩
  rw [check, if_pos hseen]
  exact ⟨rfl, hlimit⟩

/-- The watchdog alone aborts it in time. -/
theorem exists_abort (h : Stalling stallTimeout count limit t) (hrun : t.status = .running) :
    ∃ es t' error, (∀ e ∈ es, e = .wake ∨ ∃ d, e = .elapse d) ∧
      Runs.run (step unicode fromStr stallTimeout) t es = some t' ∧ t'.status = .aborted error ∧
      t'.now ≤ limit := by
  by_cases hseen : t.activity = t.lastSeen
  · obtain ⟨d, t', hr, haborted, hlimit⟩ := abort_of_seen fromStr h hrun hseen
    exact ⟨[.elapse d, .wake], t', _, by simp, hr, haborted, hlimit⟩
  · -- the watchdog sees the count at the end of the first sleep, and again at that of the second
    have hdue : Stalling stallTimeout count limit { t with now := t.deadline } :=
      ⟨le_rfl, h.counted, h.inTime⟩
    obtain ⟨hnext, hnew, -, -, hrunning⟩ := stalling_check hdue rfl hrun hseen
    obtain ⟨d, t', hr, haborted, hlimit⟩ := abort_of_seen fromStr hnext hrunning
      (hnext.counted.trans hnew.symm)
    refine ⟨[.elapse (t.deadline - t.now), .wake] ++ [.elapse d, .wake], t', _, by simp, ?_,
      haborted, hlimit⟩
    rw [Runs.run_append, run_sleep hrun h.asleep, Option.bind_some]
    exact hr

/-! ## When the watchdog is sound -/

theorem printed_append {es₁ es₂ : List TransferEvent} :
    printed read (es₁ ++ es₂) = printed read es₁ ++ es₂.filterMap TransferEvent.printed := by
  rw [printed, printed, List.filterMap_append, List.append_assoc]

/-- **The watchdog is sound** in a run in which all lines of stderr are UTF-8. -/
theorem watchdogSound_of_utf8 (unicode : Char → Str) (fromStr : Str → Option JsonValue)
    (stallTimeout now : ℕ) (read : List (Option Str)) (es : List TransferEvent)
    (hlines : ∀ line ∈ printed read es, line ≠ none) :
    WatchdogSound unicode fromStr stallTimeout now read es where
  onlyStalled t error h ht := by
    obtain ⟨herror, es₁, es₂, t₁, t₂, rfl, h₁, h₂, htime, hquiet⟩ := quiet_of_aborted h ht
    refine ⟨herror, es₁, es₂, rfl, htime, ?_⟩
    rw [printed_append, printed_append] at hlines
    have hread := hasRead_of_reaches h₁ fun line hl =>
      hlines line (List.mem_append_left _ (List.mem_append_left _ hl))
    exact each_of_quiet hread h₂
      (fun line hl => hlines line (List.mem_append_left _ (List.mem_append_right _ hl))) hquiet
  repeatsQuiet t line t' h hstep hrepeats :=
    ((hasRead_of_reaches h hlines).counted hstep (ne_none_of_repeats hrepeats)).2.2
      (not_showsLiveness_of_repeats hrepeats)
  abortedInTime t es' t' h hr hrepeats hrun := by
    have hquiet : Runs.Along (step unicode fromStr stallTimeout) Quiet t es' :=
      quiet_of_each (hasRead_of_reaches h hlines) hrepeats
    obtain ⟨hle, es₁, es₂, t₁, -, hwake, -, h₂, hstart, -⟩ :=
      exists_interval h (running_of_run hr hrun)
    obtain ⟨hdeadline, -, hnow, -⟩ := run_spec h₂ hwake
    have hstalling : Stalling stallTimeout t.activity (t.now + 2 * stallTimeout) t :=
      ⟨hle, rfl, .inl (by omega)⟩
    have hstalling' := stalling_of_run hstalling hr hquiet hrun
    refine ⟨?_, exists_abort hstalling' hrun⟩
    have hasleep := hstalling'.asleep
    obtain hleft | ⟨-, hleft⟩ := hstalling'.inTime <;> omega
  progressing t h hchanges error ht := by
    obtain ⟨-, es₁, es₂, t₁, t₂, rfl, h₁, h₂, htime, hquiet⟩ := quiet_of_aborted h ht
    rw [printed_append, printed_append] at hlines
    have hread := hasRead_of_reaches h₁ fun line hl =>
      hlines line (List.mem_append_left _ (List.mem_append_left _ hl))
    refine hchanges es₁ es₂ [.wake] rfl htime (Each.mono (each_of_quiet hread h₂
      (fun line hl => hlines line (List.mem_append_left _ (List.mem_append_right _ hl))) hquiet)
        fun _ _ => not_changes_of_not_showsLiveness)

/-- What `serde_json` reads of a line of statistics with one byte. -/
def oneByte (text : Str) : Option JsonValue :=
  if text = ['s'] then
    some (.object [("stats".toList, .object [("bytes".toList, .number (some 1))])])
  else none

/-- A line of statistics, silence for an interval, the line once more, and the abort. -/
def oneByteTwice : List TransferEvent :=
  [.elapse 1, .line (some ['s']), .elapse 4, .wake, .elapse 2, .line (some ['s']), .elapse 3, .wake]

theorem watchdogSound_oneByteTwice :
    WatchdogSound (fun c => [c]) oneByte 5 0 [] oneByteTwice ∧
      ∃ t, Reaches (fun c => [c]) oneByte 5 0 [] oneByteTwice t ∧
        t.status = .aborted (stallError 5) :=
  ⟨watchdogSound_of_utf8 _ _ 5 0 [] oneByteTwice (by decide), _, rfl, by decide⟩

/-- A line that is not UTF-8, and the watchdog looks. -/
def notUtf8 : List TransferEvent := [.elapse 3, .line none, .elapse 2, .wake]

/-- The transfer is aborted although a line other than one of statistics has arrived. -/
theorem not_watchdogSound_notUtf8 :
    ¬WatchdogSound (fun c => [c]) (fun _ => none) 5 0 [] notUtf8 := by
  intro h
  obtain ⟨-, es₁, es₂, hes, htime, heach⟩ := h.onlyStalled
    ⟨5, 5, 0, 0, none, [], .failed, .aborted (stallError 5)⟩ (stallError 5) rfl rfl
  have hlive : ShowsLiveness (fun _ => none) [] none := by
    intro bytes total hstats
    exact absurd hstats not_statsLine_none
  obtain rfl : es₁ = [] := by
    have hlen : (es₁ ++ es₂).map TransferEvent.duration = [3, 0, 2] := by
      have hall := congrArg (List.map TransferEvent.duration) hes
      rw [List.map_append] at hall
      exact (List.append_inj' hall.symm rfl).1
    cases es₁ with
    | nil => rfl
    | cons e es₁ =>
      have hsum := congrArg List.sum hlen
      have hfirst := (List.cons.inj hlen).1
      rw [List.map_append, List.sum_append, List.map_cons, List.sum_cons] at hsum
      change _ + (es₂.map TransferEvent.duration).sum = 5 at hsum
      rw [show (es₂.map TransferEvent.duration).sum = 5 from htime, hfirst] at hsum
      omega
  obtain rfl : es₂ = [.elapse 3, .line none, .elapse 2] := (List.append_inj' hes.symm rfl).1
  exact heach.1 hlive

end Transfer

end Stratosync.Rclone

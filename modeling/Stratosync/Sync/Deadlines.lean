import Stratosync.Sync.UploadLoop

/-!
# Triggers that bring an upload forward

A `Close` or an `Fsync` is to shorten the debounce window of a pending upload, and only a `Write`
is to reset it. The loop tells the two apart by the length of the window: a trigger whose window
is the debounce window resets the deadline, whatever its kind. `broughtForward_iff`: the deadlines
are only brought forward in exactly the runs in which no `Close` or `Fsync` of such a window meets
an upload that is due sooner. `forall_broughtForward_iff` says for which configurations that is
every run.
-/

namespace Stratosync

open Foundations.Runs

/-- The inode of a trigger that is to bring its upload forward. -/
def UploadTrigger.hastens : UploadTrigger → Option Inode
  | close i | fsync i => some i
  | write _ | snapshot => none

namespace UploadLoop

/-- **A `Close` or an `Fsync` never moves a deadline later**: the upload that was pending stays
so and is due no later. -/
def BroughtForward (s : UploadLoop) (e : LoopEvent) (s' : UploadLoop) : Prop :=
  match e with
  | .trigger t => ∀ i ∈ t.hastens, ∀ p ∈ s.pending.lookup i,
      ∃ p' ∈ s'.pending.lookup i, p'.dueAt ≤ p.dueAt
  | _ => True

/-- The upload that a `Close` or an `Fsync` with the debounce window finds pending is not due before
the end of the window. -/
def Unexpired (cfg : UploadConfig) (s : UploadLoop) (e : LoopEvent) : Prop :=
  match e with
  | .trigger (.close i) => cfg.closeDebounce = cfg.debounce →
      ∀ p ∈ s.pending.lookup i, s.now + cfg.debounce ≤ p.dueAt
  | .trigger (.fsync i) => cfg.debounce = 0 → ∀ p ∈ s.pending.lookup i, s.now ≤ p.dueAt
  | _ => True

variable {cfg : UploadConfig} {s s' : UploadLoop} {i : Inode} {window : ℕ} {isFsync : Bool}

/-- A trigger moves the deadline later only when it resets it. -/
theorem dueAt_triggered_le_iff {p : PendingUpload} (hp : s.pending.lookup i = some p) :
    (s.triggered cfg i window isFsync).dueAt ≤ p.dueAt ↔
      (window = cfg.debounce → s.now + window ≤ p.dueAt) := by
  simp only [triggered, hp]
  split
  · rename_i hw
    exact ⟨fun h _ => h, fun h => h hw⟩
  · rename_i hw
    exact iff_of_true (Nat.min_le_left _ _) fun h => absurd h hw

/-- The deadlines of the uploads of an inode, before and after a trigger of it. -/
theorem broughtForward_trigger_iff {t : UploadTrigger} (ht : t.hastens = some i)
    (hreq : t.request cfg = some (i, window, isFsync)) (h : step cfg s (.trigger t) = some s') :
    BroughtForward s (.trigger t) s' ↔
      (window = cfg.debounce → ∀ p ∈ s.pending.lookup i, s.now + window ≤ p.dueAt) := by
  have hlookup : s'.pending.lookup i = some (s.triggered cfg i window isFsync) := by
    rw [lookup_of_step h, if_neg (show i ∉ s.launched cfg (.trigger t) from List.not_mem_nil),
      written, hreq, Option.map_some, Option.bind_some, if_pos rfl, Option.some_or]
  simp only [BroughtForward, ht, hlookup, Option.mem_def, Option.some.injEq, forall_eq',
    exists_eq_left']
  constructor
  · intro hle hw p hp
    exact (dueAt_triggered_le_iff hp).1 (hle p hp) hw
  · intro hw p hp
    exact (dueAt_triggered_le_iff hp).2 fun he => hw he p hp

/-- **The step**: a deadline is brought forward exactly when no window resets it to a later one. -/
theorem broughtForward_step_iff {e : LoopEvent} (h : step cfg s e = some s') :
    BroughtForward s e s' ↔ Unexpired cfg s e := by
  cases e with
  | trigger t =>
    cases t with
    | close i =>
      rw [broughtForward_trigger_iff rfl rfl h]
      refine forall_congr' fun hw => ?_
      rw [hw]
    | fsync i =>
      rw [broughtForward_trigger_iff rfl rfl h]
      simp only [Unexpired, Nat.add_zero, eq_comm (a := 0)]
    | write i | snapshot => exact iff_of_true (fun _ hi => nomatch hi) trivial
  | _ => exact Iff.rfl

/-- **`Close` and `Fsync` only bring an upload forward**, from every state, in exactly the runs in
which none with the debounce window finds an upload that is due before the end of the window. -/
theorem broughtForward_iff (cfg : UploadConfig) (s : UploadLoop) (es : List LoopEvent) :
    Along (step cfg) BroughtForward s es ↔
      Along (step cfg) (fun s e _ => Unexpired cfg s e) s es := by
  refine along_congr (fun s e s' h => ?_) s es
  exact broughtForward_step_iff h

theorem unexpired_of_broughtForward {es : List LoopEvent}
    (h : Along (step cfg) BroughtForward s es) :
    Along (step cfg) (fun s e _ => Unexpired cfg s e) s es := by
  refine (along_congr (fun s e s' h => ?_) s es).1 h
  exact broughtForward_step_iff h

/-- The window of a `Close` is as long as that of a write. -/
def equalWindows : UploadConfig :=
  { debounce := 30, closeDebounce := 30, maxConcurrent := 1, uploadWindow := none }

/-- A file is written, and closed or synchronised when some time has passed. -/
def writeThen (t : UploadTrigger) : List LoopEvent :=
  [.trigger (.write 2), .elapse 1 ⟨0, 0⟩, .trigger t]

/-- The write is due a debounce window after it, and the last trigger comes later. -/
theorem unexpired_writeThen {now : ℕ} {time : TimeOfDay} {t : UploadTrigger}
    (h : Along (step cfg) (fun s e _ => Unexpired cfg s e) (start cfg now time) (writeThen t)) :
    ∃ s, s.now = now + 1 ∧ s.pending.lookup 2 = some ⟨now + cfg.debounce, false⟩ ∧
      Unexpired cfg s (.trigger t) := by
  have hwritten := (h _ rfl).2
  have helapsed := (hwritten _ rfl).2
  refine ⟨{ ((start cfg now time).handleTrigger cfg 2 cfg.debounce false).iterate cfg with
    now := now + 1, localTime := ⟨0, 0⟩ }, rfl, AList.lookup_insert _, ?_⟩
  cases t with
  | snapshot => trivial
  | _ => exact (helapsed _ rfl).1

theorem not_broughtForward_writeThenClose : ¬∀ (cfg : UploadConfig) (s : UploadLoop)
    (es : List LoopEvent), Along (step cfg) BroughtForward s es := by
  intro h
  have hrun := unexpired_of_broughtForward (h equalWindows (start equalWindows 0 ⟨0, 0⟩)
    (writeThen (.close 2)))
  obtain ⟨s, hnow, hp, hs⟩ := unexpired_writeThen hrun
  have hdue := hs rfl _ hp
  rw [hnow] at hdue
  exact absurd hdue (by decide)

/-! ## Configurations -/

/-- Every run only brings uploads forward when the window of a `Close` differs from that of a write,
which is not empty. With any other configuration some run from the start does not. -/
theorem forall_broughtForward_iff (cfg : UploadConfig) :
    (∀ now time es, Along (step cfg) BroughtForward (start cfg now time) es) ↔
      cfg.closeDebounce ≠ cfg.debounce ∧ cfg.debounce ≠ 0 := by
  constructor
  · intro h
    have hlate : ∀ t, ∃ s : UploadLoop, s.now = 1 ∧
        s.pending.lookup 2 = some ⟨cfg.debounce, false⟩ ∧ Unexpired cfg s (.trigger t) := by
      intro t
      obtain ⟨s, hnow, hp, hs⟩ := unexpired_writeThen
        (unexpired_of_broughtForward (h 0 ⟨0, 0⟩ (writeThen t)))
      rw [Nat.zero_add] at hnow hp
      exact ⟨s, hnow, hp, hs⟩
    constructor
    · intro heq
      obtain ⟨s, hnow, hp, hs⟩ := hlate (.close 2)
      have hdue := hs heq _ hp
      dsimp only at hdue
      omega
    · intro hzero
      obtain ⟨s, hnow, hp, hs⟩ := hlate (.fsync 2)
      have hdue := hs hzero _ hp
      dsimp only at hdue
      omega
  · rintro ⟨hclose, hdebounce⟩ now time es
    refine along_of_guarded (G := fun _ _ => True) (I := fun _ => True) (fun _ _ _ _ _ _ => trivial)
      (fun s e s' _ _ h => ?_) trivial (Guarded.of_forall (fun _ _ _ => trivial) _)
    rw [broughtForward_step_iff h]
    cases e with
    | trigger t =>
      cases t with
      | close i => exact fun heq => absurd heq hclose
      | fsync i => exact fun hzero => absurd hzero hdebounce
      | _ => trivial
    | _ => trivial

end UploadLoop

end Stratosync

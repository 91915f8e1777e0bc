import Stratosync.Sync.OneUpload

/-!
# The priority of an `fsync`

An `fsync` makes the pending entry of its inode immediate and due at once, and until an upload of
the inode is launched the entry should stay so. Two of the three places that write an entry do not
merge it that way: a trigger whose window is the debounce window resets the deadline, and a retry
overwrites the entry. `sticks_iff`: the entries stay as the `fsync`s left them in exactly the runs
in which no trigger of the first kind reaches past the time of an `fsync` that is still owed its
upload, and no upload of such an inode fails with an error worth another attempt.
-/

namespace Stratosync

open Foundations.Runs

namespace UploadLoop

/-- The inodes that are owed an upload, with the time of the `fsync`. -/
abbrev Owed := List (Inode × ℕ)

/-- An `fsync` is owed an upload until one is launched. -/
def owe (cfg : UploadConfig) (s : UploadLoop) (e : LoopEvent) (_ : UploadLoop) (owed : Owed) :
    Owed :=
  match e with
  | .trigger (.fsync i) => owed ++ [(i, s.now)]
  | e => owed.filter fun o => o.1 ∉ s.launched cfg e

/-- The loop with the `fsync`s it owes. -/
abbrev owingStep (cfg : UploadConfig) :
    UploadLoop × Owed → LoopEvent → Option (UploadLoop × Owed) :=
  withHistory (step cfg) (owe cfg)

/-- **Priority sticks**: the entry of an inode that is owed an upload is immediate, and due since
its `fsync`. -/
def Sticks (x : UploadLoop × Owed) : Prop :=
  ∀ o ∈ x.2, ∃ p, x.1.pending.lookup o.1 = some p ∧ p.immediate = true ∧ p.dueAt ≤ o.2

/-- No trigger that resets a deadline moves it past an `fsync`, and no upload that is to be retried
is of an inode with one. -/
def Undemoted (cfg : UploadConfig) (x : UploadLoop × Owed) : LoopEvent → Prop
  | .trigger t => ∀ r ∈ t.request cfg, r.2.1 = cfg.debounce →
      ∀ o ∈ x.2, o.1 = r.1 → x.1.now + r.2.1 ≤ o.2
  | .completed k (.error e) => e.isRetryable = true →
      ∀ i ∈ x.1.inFlight[k]?, ∀ o ∈ x.2, o.1 ≠ i
  | _ => True

variable {cfg : UploadConfig} {x x' : UploadLoop × Owed} {e : LoopEvent}

/-- An event that writes no entry keeps the priorities. -/
theorem Sticks.of_not_written (hs : Sticks x) (h : step cfg x.1 e = some x'.1)
    (ho : x'.2 = x.2.filter fun o => o.1 ∉ x.1.launched cfg e) (hw : x.1.written cfg e = none) :
    Sticks x' := by
  intro o hmem
  rw [ho, List.mem_filter, decide_eq_true_eq] at hmem
  rw [lookup_of_step h, if_neg hmem.2, hw, Option.bind_none, Option.none_or]
  exact hs o hmem.1

/-- A trigger keeps the entry of an inode that is owed an upload, but for its deadline when the
window is the debounce window. -/
theorem triggered_sticks_iff {s : UploadLoop} {i : Inode} {t : ℕ} {p : PendingUpload} (cfg)
    (window : ℕ) (isFsync : Bool) (hp : s.pending.lookup i = some p) (hi : p.immediate = true)
    (hd : p.dueAt ≤ t) :
    (s.triggered cfg i window isFsync).immediate = true ∧
      ((s.triggered cfg i window isFsync).dueAt ≤ t ↔
        (window = cfg.debounce → s.now + window ≤ t)) := by
  simp only [triggered, hp, hi, Bool.or_true, true_and]
  split
  · rename_i hw
    exact ⟨fun hle _ => hle, fun hle => hle hw⟩
  · rename_i hw
    exact iff_of_true ((Nat.min_le_left _ _).trans hd) fun h => absurd h hw

/-- An `fsync` makes the entry immediate and due. -/
theorem triggered_of_fsync (s : UploadLoop) (i : Inode) :
    (s.triggered cfg i 0 true).immediate = true ∧ (s.triggered cfg i 0 true).dueAt ≤ s.now := by
  simp only [triggered]
  split
  · refine ⟨rfl, ?_⟩
    dsimp only
    split
    · exact Nat.le_refl _
    · exact Nat.min_le_right _ _
  · exact ⟨rfl, Nat.le_refl _⟩

/-- The `fsync`s that were owed stay so after a trigger, which may add one. -/
theorem owed_of_trigger {t : UploadTrigger} (ho : x'.2 = owe cfg x.1 (.trigger t) x'.1 x.2) :
    x'.2 = x.2 ∨ ∃ i, t = .fsync i ∧ x'.2 = x.2 ++ [(i, x.1.now)] := by
  have hall : (x.2.filter fun o => o.1 ∉ x.1.launched cfg (.trigger t)) = x.2 :=
    List.filter_eq_self.2 fun o _ => decide_eq_true List.not_mem_nil
  cases t with
  | fsync i => exact .inr ⟨i, rfl, ho⟩
  | _ => exact .inl (ho.trans hall)

/-- A retry of an inode that is owed an upload loses its priority. -/
theorem sticks_completed_iff {k : ℕ} {result : Except SyncError Unit} (hs : Sticks x)
    (h : step cfg x.1 (.completed k result) = some x'.1)
    (ho : x'.2 = x.2.filter fun o => o.1 ∉ x.1.launched cfg (.completed k result)) :
    Sticks x' ↔ Undemoted cfg x (.completed k result) := by
  obtain error | _ := result
  · by_cases hr : error.isRetryable = true
    · obtain ⟨t, ht, -⟩ := Option.map_eq_some_iff.1 h
      obtain ⟨i, hi, -⟩ := Option.map_eq_some_iff.1 ht
      have hall : x'.2 = x.2 := ho.trans (List.filter_eq_self.2 fun o _ =>
        decide_eq_true List.not_mem_nil)
      have hlookup : ∀ j, x'.1.pending.lookup j =
          (if j = i then some ⟨x.1.now + cfg.debounce, false⟩ else none).or
            (x.1.pending.lookup j) := by
        intro j
        rw [lookup_of_step h, if_neg (show j ∉ x.1.launched cfg (.completed k (.error error)) from
          List.not_mem_nil), written, if_pos hr, hi]
        rfl
      constructor
      · intro hs' _ j hj o hmem hoj
        obtain rfl := Option.some.inj (hi.symm.trans hj)
        obtain ⟨p, hp, himm, -⟩ := hs' o (hall ▸ hmem)
        rw [hlookup, if_pos hoj] at hp
        obtain rfl := Option.some.inj hp
        cases himm
      · intro hu o hmem
        rw [hall] at hmem
        rw [hlookup, if_neg (hu hr i hi o hmem), Option.none_or]
        exact hs o hmem
    · refine iff_of_true (hs.of_not_written h ho (if_neg hr)) fun hr' => absurd hr' hr
  · exact iff_of_true (hs.of_not_written h ho rfl) trivial

theorem sticks_trigger_iff {t : UploadTrigger} (hs : Sticks x)
    (h : step cfg x.1 (.trigger t) = some x'.1)
    (ho : x'.2 = owe cfg x.1 (.trigger t) x'.1 x.2) :
    Sticks x' ↔ Undemoted cfg x (.trigger t) := by
  have howed := owed_of_trigger ho
  cases hreq : t.request cfg with
  | none =>
    refine iff_of_true (hs.of_not_written h ?_ ?_) fun r hr => ?_
    · cases t with
      | snapshot => exact ho
      | _ => cases hreq
    · rw [written, hreq]
      rfl
    · rw [hreq] at hr
      cases hr
  | some r =>
    obtain ⟨i, window, isFsync⟩ := r
    have hlookup : ∀ j, x'.1.pending.lookup j =
        (if j = i then some (x.1.triggered cfg i window isFsync) else none).or
          (x.1.pending.lookup j) := by
      intro j
      rw [lookup_of_step h, if_neg (show j ∉ x.1.launched cfg (.trigger t) from List.not_mem_nil),
        written, hreq]
      rfl
    constructor
    · intro hs' r hr hw o hmem hoi
      obtain rfl := Option.some.inj (hreq.symm.trans hr)
      obtain ⟨p, hp, himm, hdue⟩ := hs o hmem
      obtain ⟨p', hp', -, hdue'⟩ := hs' o (by
        obtain hsame | ⟨j, -, hnew⟩ := howed
        · rwa [hsame]
        · rw [hnew]
          exact List.mem_append_left _ hmem)
      rw [hlookup, if_pos hoi, Option.some_or] at hp'
      obtain rfl := Option.some.inj hp'
      rw [show o.1 = i from hoi] at hp
      exact (triggered_sticks_iff cfg window isFsync hp himm hdue).2.1 hdue' hw
    · intro hu o hmem
      have hold : o ∈ x.2 → ∃ p, x'.1.pending.lookup o.1 = some p ∧ p.immediate = true ∧
          p.dueAt ≤ o.2 := by
        intro hmem
        obtain ⟨p, hp, himm, hdue⟩ := hs o hmem
        by_cases hoi : o.1 = i
        · obtain ⟨himm', hdue'⟩ :=
            triggered_sticks_iff cfg window isFsync (hoi ▸ hp) himm hdue
          rw [hlookup, if_pos hoi, Option.some_or]
          exact ⟨_, rfl, himm', hdue'.2 fun hw => hu _ hreq hw o hmem hoi⟩
        · rw [hlookup, if_neg hoi, Option.none_or]
          exact ⟨p, hp, himm, hdue⟩
      obtain hsame | ⟨j, rfl, hnew⟩ := howed
      · exact hold (hsame ▸ hmem)
      · rw [hnew] at hmem
        obtain hmem | hmem := List.mem_append.1 hmem
        · exact hold hmem
        · obtain rfl := List.mem_singleton.1 hmem
          obtain ⟨rfl, rfl, rfl⟩ : j = i ∧ 0 = window ∧ true = isFsync := by
            simpa [UploadTrigger.request] using hreq
          rw [hlookup, if_pos rfl, Option.some_or]
          exact ⟨_, rfl, triggered_of_fsync x.1 j⟩

/-- **The step**: the priorities stick exactly when none is demoted. -/
theorem sticks_step_iff (hs : Sticks x) (h : owingStep cfg x e = some x') :
    Sticks x' ↔ Undemoted cfg x e := by
  obtain ⟨h, ho⟩ := withHistory_eq_some.1 h
  cases e with
  | elapse | timer | panicked => exact iff_of_true (hs.of_not_written h ho rfl) trivial
  | completed k result => exact sticks_completed_iff hs h ho
  | trigger t => exact sticks_trigger_iff hs h ho

/-- **The priority of an `fsync` sticks**, in exactly the runs that demote none. -/
theorem sticks_iff (cfg : UploadConfig) (now : ℕ) (t : TimeOfDay) (es : List LoopEvent) :
    Along (owingStep cfg) (fun _ _ x' => Sticks x') (start cfg now t, []) es ↔
      Along (owingStep cfg) (fun x e _ => Undemoted cfg x e) (start cfg now t, []) es := by
  refine along_congr_of_inv (I := Sticks) (fun x e x' hs h => ?_) (fun x e x' _ _ hs => hs) es
    fun o ho => ?_
  · exact sticks_step_iff hs h
  · cases ho

/-- A write after an `fsync`, before the upload of the `fsync` is launched. -/
def writeAfterFsync : List LoopEvent := [.trigger (.fsync 2), .trigger (.write 2)]

theorem not_sticks_writeAfterFsync : ¬∀ (cfg : UploadConfig) (now : ℕ) (t : TimeOfDay)
    (es : List LoopEvent),
    Along (owingStep cfg) (fun _ _ x' => Sticks x') (start cfg now t, []) es := by
  intro h
  have hrun := h twoSlots 0 ⟨0, 0⟩ writeAfterFsync
  obtain ⟨x, hx⟩ : ∃ x, run (owingStep twoSlots) (start twoSlots 0 ⟨0, 0⟩, [])
    (writeAfterFsync.take 1) = some x := ⟨_, rfl⟩
  have hlate : (run (owingStep twoSlots) (start twoSlots 0 ⟨0, 0⟩, [])
      (writeAfterFsync.take 1 ++ [.trigger (.write 2)])).map (fun x =>
        (x.1.pending.lookup 2, x.2)) = some (some ⟨2, true⟩, [(2, 0)]) := rfl
  rw [run_append, hx, Option.bind_some] at hlate
  obtain ⟨x', hx', hlate⟩ := Option.map_eq_some_iff.1 hlate
  obtain ⟨u, hu, hus⟩ := run_cons_eq_some.1 hx'
  obtain rfl := Option.some.inj hus
  obtain ⟨hentry, howed⟩ := Prod.mk.inj hlate
  have hsticks : Sticks u := (hrun.drop hx u hu).1
  obtain ⟨p, hp, -, hdue⟩ := hsticks (2, 0) (howed ▸ List.mem_singleton.2 rfl)
  obtain rfl := Option.some.inj (hentry.symm.trans hp)
  exact absurd hdue (by decide)

end UploadLoop

end Stratosync

import Stratosync.Sync.UploadLoop

/-!
# Uploads in flight

The loop does not look at the uploads in flight when it launches one: a trigger that arrives while
an upload of its inode runs starts a second one. `oneUpload_iff`: in a run no inode has two uploads
in flight exactly when every expired deadline launches only inodes that have none. With a single
slot this is always so (`oneUpload_of_one_slot`).

What the loop does keep is the triggers. `pending_or_launched`: after a trigger its inode stays
pending until an upload of it is launched.
-/

namespace Stratosync

open Foundations.Runs

namespace UploadLoop

variable {cfg : UploadConfig} {s s' s'' : UploadLoop} {e : LoopEvent} {i : Inode}

/-! ## One upload of an inode -/

/-- The event launches no upload of an inode that has one in flight. -/
def Spaced (cfg : UploadConfig) (s : UploadLoop) (e : LoopEvent) : Prop :=
  ∀ i ∈ s.launched cfg e, i ∉ s.inFlight

theorem nodup_launched (h : step cfg s e = some s') : (s.launched cfg e).Nodup := by
  cases e with
  | timer order =>
    obtain ⟨-, -, hperm, -⟩ := step_timer h
    exact (hperm.nodup_iff.2 ready_nodup).sublist (List.take_sublist _ order)
  | _ => exact List.nodup_nil

/-- **The step**: an inode gets a second upload in flight exactly when the loop launches one. -/
theorem nodup_inFlight_iff (hn : s.inFlight.Nodup) (h : step cfg s e = some s') :
    s'.inFlight.Nodup ↔ Spaced cfg s e := by
  rw [inFlight_of_step h]
  cases e with
  | timer order =>
    constructor
    · intro hnodup i hi hin
      exact (List.nodup_append.1 hnodup).2.2 i hin i hi rfl
    · intro hspaced
      refine List.nodup_append.2 ⟨hn, nodup_launched h, fun i hi j hj hij => ?_⟩
      exact hspaced j hj (hij ▸ hi)
  | completed k result =>
    rw [show s.launched cfg (.completed k result) = [] from rfl, List.append_nil]
    exact iff_of_true (hn.sublist (List.eraseIdx_sublist s.inFlight k))
      fun i hi => absurd hi List.not_mem_nil
  | panicked k =>
    rw [show s.launched cfg (.panicked k) = [] from rfl, List.append_nil]
    exact iff_of_true (hn.sublist (List.eraseIdx_sublist s.inFlight k))
      fun i hi => absurd hi List.not_mem_nil
  | _ =>
    refine iff_of_true ?_ fun i hi => absurd hi List.not_mem_nil
    exact (List.append_nil s.inFlight).symm ▸ hn

/-- **At most one upload of an inode**, in exactly the runs that launch none over another. -/
theorem oneUpload_iff (cfg : UploadConfig) (now : ℕ) (t : TimeOfDay) (es : List LoopEvent) :
    Along (step cfg) (fun _ _ s' => s'.inFlight.Nodup) (start cfg now t) es ↔
      Along (step cfg) (fun s e _ => Spaced cfg s e) (start cfg now t) es := by
  refine along_congr_of_inv (I := fun s : UploadLoop => s.inFlight.Nodup)
    (fun s e s' hn h => ?_) (fun s e s' _ _ hn => hn) es List.nodup_nil
  exact nodup_inFlight_iff hn h

/-- Two slots, and no debounce window to speak of. -/
def twoSlots : UploadConfig :=
  { debounce := 2, closeDebounce := 1, maxConcurrent := 2, uploadWindow := none }

/-- An `fsync` while the upload of an earlier one is under way. -/
def fsyncTwice : List LoopEvent :=
  [.trigger (.fsync 2), .timer [2], .trigger (.fsync 2), .timer [2]]

theorem not_oneUpload_fsyncTwice : ¬∀ (cfg : UploadConfig) (now : ℕ) (t : TimeOfDay)
    (es : List LoopEvent),
    Along (step cfg) (fun _ _ s' => s'.inFlight.Nodup) (start cfg now t) es := by
  intro h
  have hrun := h twoSlots 0 ⟨0, 0⟩ fsyncTwice
  obtain ⟨s, hs⟩ : ∃ s, run (step twoSlots) (start twoSlots 0 ⟨0, 0⟩) (fsyncTwice.take 3) =
    some s := ⟨_, rfl⟩
  have hboth : (run (step twoSlots) (start twoSlots 0 ⟨0, 0⟩)
      (fsyncTwice.take 3 ++ [.timer [2]])).map inFlight = some [2, 2] := rfl
  rw [run_append, hs, Option.bind_some] at hboth
  obtain ⟨s', hs', hflight⟩ := Option.map_eq_some_iff.1 hboth
  obtain ⟨u, hu, hus⟩ := run_cons_eq_some.1 hs'
  obtain rfl := Option.some.inj hus
  have hnodup := (hrun.drop hs u hu).1
  rw [hflight] at hnodup
  exact absurd hnodup (by decide)

/-- The limit on concurrent uploads is kept. -/
theorem length_inFlight_of_step (hlen : s.inFlight.length ≤ cfg.maxConcurrent)
    (h : step cfg s e = some s') : s'.inFlight.length ≤ cfg.maxConcurrent := by
  rw [inFlight_of_step h, List.length_append]
  cases e with
  | timer order =>
    have htake := List.length_take_le (cfg.maxConcurrent - s.inFlight.length) order
    simp only [unfinished, launched]
    omega
  | completed k | panicked k => exact (List.length_eraseIdx_le s.inFlight k).trans hlen
  | _ => exact hlen

/-- With one slot an upload is launched only when none is in flight. -/
theorem oneUpload_of_one_slot (hslot : cfg.maxConcurrent ≤ 1) (now : ℕ) (t : TimeOfDay)
    (es : List LoopEvent) :
    Along (step cfg) (fun _ _ s' => s'.inFlight.Nodup) (start cfg now t) es := by
  refine along_of_guarded (G := fun _ _ => True)
    (I := fun s : UploadLoop => s.inFlight.length ≤ cfg.maxConcurrent)
    (fun s e s' hlen _ h => length_inFlight_of_step hlen h) (fun s e s' hlen _ h => ?_)
    (Nat.zero_le _) (Guarded.of_forall (fun _ _ _ => trivial) _)
  have hone := (length_inFlight_of_step hlen h).trans hslot
  match hs : s'.inFlight with
  | [] => exact List.nodup_nil
  | [i] => exact List.nodup_singleton i
  | i :: j :: rest =>
    rw [hs, List.length_cons, List.length_cons] at hone
    omega

/-! ## No trigger is lost -/

/-- An upload of the inode is launched in the run. -/
def Launches (cfg : UploadConfig) (i : Inode) : UploadLoop → List LoopEvent → Prop
  | _, [] => False
  | s, e :: es => ∃ s', step cfg s e = some s' ∧
      (s.inFlight.count i < s'.inFlight.count i ∨ Launches cfg i s' es)

theorem mem_pending_of_trigger {t : UploadTrigger} {window : ℕ} {isFsync : Bool}
    (hreq : t.request cfg = some (i, window, isFsync))
    (h : step cfg s (.trigger t) = some s') : i ∈ s'.pending := by
  refine AList.lookup_isSome.1 ?_
  rw [lookup_of_step h, if_neg (show i ∉ s.launched cfg (.trigger t) from List.not_mem_nil),
    written, hreq, Option.map_some, Option.bind_some, if_pos rfl]
  rfl

/-- **The step**: a pending inode stays so unless an upload of it is launched. -/
theorem mem_pending_of_step (hi : i ∈ s.pending) (h : step cfg s e = some s') :
    i ∈ s'.pending ∨ s.inFlight.count i < s'.inFlight.count i := by
  obtain ⟨p, hp⟩ := Option.isSome_iff_exists.1 (AList.lookup_isSome.2 hi)
  by_cases hl : i ∈ s.launched cfg e
  · right
    have hkeep : s.unfinished e = s.inFlight := by
      cases e with
      | completed | panicked => exact absurd hl List.not_mem_nil
      | _ => rfl
    rw [inFlight_of_step h, hkeep, List.count_append]
    exact Nat.lt_add_of_pos_right (List.count_pos_iff.2 hl)
  · left
    refine AList.lookup_isSome.1 ?_
    rw [lookup_of_step h, if_neg hl, hp, Option.or_some]
    exact Option.isSome_some

/-- **No trigger is lost**: its inode is pending until an upload of it is launched. -/
theorem pending_or_launched {t : UploadTrigger} {window : ℕ} {isFsync : Bool}
    {es : List LoopEvent} (hreq : t.request cfg = some (i, window, isFsync))
    (h : step cfg s (.trigger t) = some s') (hr : run (step cfg) s' es = some s'') :
    i ∈ s''.pending ∨ Launches cfg i s' es := by
  have hi := mem_pending_of_trigger hreq h
  clear h
  induction es generalizing s' with
  | nil => exact .inl (Option.some.inj hr ▸ hi)
  | cons e es ih =>
    obtain ⟨u, hu, hr⟩ := run_cons_eq_some.1 hr
    obtain hiu | hlaunch := mem_pending_of_step hi hu
    · exact (ih hr hiu).imp id fun hl => ⟨u, hu, .inr hl⟩
    · exact .inr ⟨u, hu, .inl hlaunch⟩

theorem pending_or_launched_fsyncTwice : ∃ s' s'',
    step twoSlots (start twoSlots 0 ⟨0, 0⟩) (.trigger (.fsync 2)) = some s' ∧
      run (step twoSlots) s' (fsyncTwice.drop 1) = some s'' ∧
        (2 ∈ s''.pending ∨ Launches twoSlots 2 s' (fsyncTwice.drop 1)) :=
  ⟨_, _, rfl, rfl,
    pending_or_launched (s := start twoSlots 0 ⟨0, 0⟩) (t := .fsync 2) rfl rfl rfl⟩

end UploadLoop

end Stratosync

import Stratosync.Sync.UnsyncedBytes

/-!
# Eviction and unsynced data

Between the re-check of a candidate and `set_evicted` nothing keeps a write from the candidate's
file. `evictsSynced_of_run` shows that no unsynced data is lost in a run in which no change of a
candidate starts in that window, or is only half done when it opens; then a removed file holds the
bytes the backend accepted last, and no row that is dirty or uploading becomes remote.
-/

namespace Stratosync

open Foundations.Runs Foundations.Pool

/-- The candidate whose re-check is past and which is not evicted yet. -/
def Eviction.chosen (ev : Eviction) : Option EvictionCandidate :=
  match ev.pc with
  | .remove c .. | .evicted c .. => some c
  | _ => none

def World.chosen (w : World) : Option EvictionCandidate := w.eviction.bind Eviction.chosen

/-- The step does not touch the chosen candidate, and a candidate is chosen only when no change of
it is half done and removed only when its path is no other row's. -/
def SparesChosen (w : World) : Event → Prop
  | .request (.write fh _ _) => ∀ c ∈ w.chosen, ∀ f ∈ w.openFiles fh, f.inode ≠ c.inode
  | .request (.setattr i _) => ∀ c ∈ w.chosen, i ≠ c.inode
  | .upload k _ => ∀ c ∈ w.chosen, ∀ u ∈ w.uploads[k]?, u.inode = c.inode → u.pc.flags = false
  | .eviction _ => ∀ ev ∈ w.eviction,
      match ev.pc with
      | .recheck (c :: _) _ => ¬InProgress w c.inode
      | .remove c _ _ => OnlyRecordedBy w c.cachePath c.inode
      | _ => True
  | _ => True

/-- The row of the chosen candidate is neither dirty nor uploading, nor about to be. -/
def ChosenSynced (w : World) : Prop :=
  ∀ c ∈ w.chosen, c.inode ≤ w.db.seq ∧ ¬RowUnsynced w c.inode ∧ ¬InProgress w c.inode

structure EvictInv (x : World × AcceptedBytes) : Prop where
  flagged : Flagged x
  bounded : InodesBounded x.1
  chosen : ChosenSynced x.1

/-- A step of the eviction removes no cache file with bytes the backend has not accepted and
leaves the rows that are dirty or uploading as they are. -/
def EvictsSynced (x : World × AcceptedBytes) (ev : Event) (y : World × AcceptedBytes) : Prop :=
  ∀ env, ev = .eviction env → ∀ i r, x.1.db.getByInode i = some r →
    (∀ p ∈ r.cachePath, ∀ b ∈ x.1.fs.files p, y.1.fs.files p = none → x.2 i = some b) ∧
      (r.status.isUnsynced = true → y.1.db.getByInode i = some r)

section Decidable

instance (w : World) : (ev : Event) → Decidable (SparesChosen w ev)
  | .request (.write fh _ _) =>
    inferInstanceAs (Decidable (∀ c ∈ w.chosen, ∀ f ∈ w.openFiles fh, f.inode ≠ c.inode))
  | .request (.setattr i _) => inferInstanceAs (Decidable (∀ c ∈ w.chosen, i ≠ c.inode))
  | .request (.open_ _) | .request (.release _) | .request (.fsync _) | .request (.read ..)
  | .request (.create ..) | .request (.mkdir ..) | .request (.unlink ..) | .request (.rmdir ..)
  | .request (.rename ..) => .isTrue trivial
  | .upload k _ => inferInstanceAs (Decidable (∀ c ∈ w.chosen, ∀ u ∈ w.uploads[k]?,
      u.inode = c.inode → u.pc.flags = false))
  | .eviction _ =>
    have : ∀ ev : Eviction, Decidable (match ev.pc with
        | .recheck (c :: _) _ => ¬InProgress w c.inode
        | .remove c _ _ => OnlyRecordedBy w c.cachePath c.inode
        | _ => True) := fun ev =>
      match ev.pc with
      | .recheck (c :: _) _ => inferInstanceAs (Decidable (¬InProgress w c.inode))
      | .remove c _ _ => inferInstanceAs (Decidable (OnlyRecordedBy w c.cachePath c.inode))
      | .query | .recheck [] _ | .evicted .. => .isTrue trivial
    inferInstanceAs (Decidable (∀ ev ∈ w.eviction, _))
  | .fuse _ | .launch _ | .hydration .. | .read .. | .startEviction | .background ..
  | .prefetch _ | .poll _ | .foreign _ | .clock _ => .isTrue trivial

end Decidable

variable {m : Mount} {w w' : World} {g : AcceptedBytes} {ev : Event} {i : Inode}

theorem chosen_endPass (x : Eviction) (n : ℕ) : (x.endPass n).bind Eviction.chosen = none := by
  rw [Eviction.endPass]
  split <;> rfl

/-- A candidate is chosen when its row is found to be cached. -/
theorem chosen_of_tick {x : Eviction} {env : Env} {c : EvictionCandidate}
    (h : (x.tick m w env).2.bind Eviction.chosen = some c) :
    x.chosen = some c ∨
      ∃ rest n r, x.pc = .recheck (c :: rest) n ∧ w.db.getByInode c.inode = some r ∧
        r.status = .cached := by
  obtain ⟨toFree, freed, pc⟩ := x
  cases pc with
  | query =>
    simp only [Eviction.tick] at h
    repeat' split at h
    all_goals cases h
  | recheck cs n =>
    cases cs with
    | nil => cases (chosen_endPass _ _).symm.trans h
    | cons d rest =>
      simp only [Eviction.tick] at h
      split at h
      · cases (chosen_endPass _ _).symm.trans h
      split at h
      · cases h
      split at h
      · rename_i hrow
        obtain rfl : d = c := Option.some.inj h
        obtain ⟨r, hr, hs⟩ := (Option.any_eq_true ..).1 hrow
        exact .inr ⟨rest, n, r, rfl, hr, by simpa using hs⟩
      · cases h
  | remove d rest n =>
    simp only [Eviction.tick] at h
    split at h
    · cases h
    · exact .inl h
  | evicted d rest n =>
    simp only [Eviction.tick] at h
    split at h <;> cases h

/-- A request in progress after a request is about the inode that request changed. -/
theorem inProgress_serve {r : Request} (hw : w.fuse = none) (h : InProgress (serve m w r) i) :
    (∃ fh offset data f, r = .write fh offset data ∧ w.openFiles fh = some f ∧ f.inode = i) ∨
      ∃ n, r = .setattr i n := by
  obtain ⟨c, hc, hi⟩ := h
  have hne : w.fuse ≠ some c := by rw [hw]; rintro ⟨⟩
  cases r with
  | write fh offset data =>
    simp only [serve, handleWrite] at hc
    split at hc
    · exact absurd hc hne
    rename_i f hf
    split at hc
    · exact absurd hc hne
    · obtain rfl := Option.some.inj hc
      exact .inl ⟨fh, offset, data, f, rfl, hf, hi⟩
  | setattr j n =>
    right
    simp only [serve, handleSetattr] at hc
    repeat' split at hc
    all_goals first
      | exact absurd hc hne
      | (obtain rfl := Option.some.inj hc; exact ⟨n, congrArg (Request.setattr · n) hi⟩)
  | _ =>
    exfalso
    simp only [serve, handleOpen, handleRelease, handleFsync, handleRead, handleCreate, handleMkdir,
      handleUnlink, handleRmdir, handleRename, World.allocFh] at hc
    repeat' split at hc
    all_goals exact hne hc

/-- A candidate that is chosen after a step was so before, or its row has just been found to be
cached. -/
theorem chosen_of_step (hi : EvictInv (w, g)) (hg : SparesChosen w ev)
    (h : step m w ev = some w') {c : EvictionCandidate} (hc : w'.chosen = some c) :
    w.chosen = some c ∨ ((∃ env, ev = .eviction env) ∧ c.inode ≤ w.db.seq ∧
      ¬RowUnsynced w c.inode ∧ ¬InProgress w c.inode) := by
  rcases eviction_of_step h with he | ⟨-, he⟩ | ⟨env, x, rfl, hx, he⟩ <;>
    rw [World.chosen, he] at hc
  · exact .inl hc
  · simp only [startEviction] at hc
    split at hc <;> cases hc
  · rcases chosen_of_tick hc with hc | ⟨rest, n, r, hpc, hr, hs⟩
    · exact .inl (by rw [World.chosen, hx]; exact hc)
    · have hn := hg x hx
      simp only [hpc] at hn
      refine .inr ⟨⟨env, rfl⟩, hi.bounded c.inode r hr, ?_, hn⟩
      rintro ⟨q, hq, hqs⟩
      obtain rfl := Option.some.inj (hr.symm.trans hq)
      rw [hs] at hqs
      cases hqs

theorem EvictInv.step (hi : EvictInv (w, g)) (hk : KeepsFlags m (w, g) ev) (hg : SparesChosen w ev)
    (h : Stratosync.step m w ev = some w') : EvictInv (w', recordAccepted w ev w' g) := by
  refine ⟨flagged_of_step hi.flagged hk h, hi.bounded.step h, fun c hc => ?_⟩
  have hbefore := chosen_of_step hi hg h hc
  obtain ⟨hle, hs, hn⟩ : c.inode ≤ w.db.seq ∧ ¬RowUnsynced w c.inode ∧ ¬InProgress w c.inode :=
    hbefore.elim (hi.chosen c) And.right
  have hfuse : ∀ env f, ev = .fuse env → w.fuse = some f → f.inode ≠ c.inode :=
    fun _ f _ hf hfi => hn ⟨f, hf, hfi⟩
  refine ⟨hle.trans (seq_le_of_step h), not_rowUnsynced_of_step h hle hs hfuse ?_, ?_⟩
  · rintro k env u rfl hu hui
    rcases hbefore with hc | ⟨⟨_, hev⟩, -⟩
    · exact hg c hc u hu hui
    · cases hev
  · rintro ⟨f, hf, hfi⟩
    rcases fuse_of_step h with he | ⟨_, -, he⟩ | ⟨r, rfl, hfuse, rfl⟩
    · exact hn ⟨f, he ▸ hf, hfi⟩
    · rw [he] at hf
      cases hf
    · rcases hbefore with hold | ⟨⟨_, hev⟩, -⟩
      · rcases inProgress_serve hfuse ⟨f, hf, hfi⟩ with ⟨_, _, _, o, rfl, ho, hoi⟩ | ⟨_, rfl⟩
        · exact hg c hold o ho hoi
        · exact hg c hold rfl
      · cases hev

theorem evictsSynced_of_step (hi : EvictInv (w, g)) (hg : SparesChosen w ev)
    (h : step m w ev = some w') : EvictsSynced (w, g) ev (w', recordAccepted w ev w' g) := by
  rintro env rfl i r hr
  refine ⟨fun p hp b hb hnone => ?_, fun hs => ?_⟩
  · have hfile := file_of_step h p
    simp only [Option.mem_def] at hb
    simp only at hnone
    rw [hb, hnone] at hfile
    generalize hq : p = q at hfile
    cases hfile with
    | @evicted _ x c rest n _ hx hpc =>
      have hown := hg x hx
      simp only [hpc] at hown
      have hci : r.inode = c.inode := hown r (Db.mem_rows_of_getByInode hr) (hq ▸ hp)
      rw [Db.inode_of_getByInode hr] at hci
      subst hci
      have hchosen : w.chosen = some c := by
        rw [World.chosen, hx, Option.bind_some, Eviction.chosen, hpc]
      obtain ⟨-, hs, hn⟩ := hi.chosen c hchosen
      rcases hi.flagged c.inode with hf | hf | hf
      · exact absurd hf hs
      · exact absurd hf hn
      · exact hf b (mem_cacheBytes.2 ⟨r, hr, p, hp, hb⟩)
  · have hrow := row_of_step h hr
    generalize ho : w'.db.getByInode i = o at hrow
    cases hrow with
    | same => rfl
    | @evicted _ x c rest n _ hx hpc =>
      have hchosen : w.chosen = some c := by
        rw [World.chosen, hx, Option.bind_some, Eviction.chosen, hpc]
      exact absurd ⟨r, hr, hs⟩ (hi.chosen c hchosen).2.1

/-- **Eviction loses no unsynced data** in a run in which changes of a candidate stay out of the
window between its re-check and `set_evicted`. -/
theorem evictsSynced_of_run {x : World × AcceptedBytes} {evs : List Event} (h₀ : EvictInv x)
    (hg : Guarded (acceptStep m) (fun x ev => KeepsFlags m x ev ∧ SparesChosen x.1 ev) x evs) :
    Along (acceptStep m) EvictsSynced x evs := by
  refine along_of_guarded (I := EvictInv) ?_ ?_ h₀ hg
  all_goals
    rintro ⟨w, g⟩ ev ⟨w', g'⟩ hi hg h
    obtain ⟨hw, hg'⟩ := withHistory_eq_some.1 h
    dsimp only at hw hg'
    subst hg'
  · exact hi.step hg.1 hg.2 hw
  · exact evictsSynced_of_step hi hg.2 hw

/-- The eviction of a file that was uploaded. -/
def evictUploaded : List Event :=
  uploadFirst ++ [.startEviction, .eviction .fine, .eviction .fine, .eviction .fine,
    .eviction .fine, .eviction .fine]

theorem evictsSynced_evictUploaded :
    Along (acceptStep sampleMount) EvictsSynced (World.init sampleMount 0, fun _ => none)
      evictUploaded :=
  have hinit : EvictInv (World.init sampleMount 0, fun _ => none) :=
    ⟨flagged_init sampleMount 0, inodesBounded_init sampleMount 0, fun _ hc => nomatch hc⟩
  have hguard : Guarded (acceptStep sampleMount)
      (fun x ev => KeepsFlags sampleMount x ev ∧ SparesChosen x.1 ev)
      (World.init sampleMount 0, fun _ => none) evictUploaded := by decide
  evictsSynced_of_run hinit hguard

/-- The file is written after the re-check. -/
def writeAfterRecheck : List Event :=
  uploadFirst ++ [.startEviction, .eviction .fine, .eviction .fine, .request (.write 1 0 [8]),
    .fuse .fine]

theorem not_evictsSynced_writeAfterRecheck :
    ¬∀ (m : Mount) (y z : World × AcceptedBytes) (evs : List Event) (ev : Event),
      run (acceptStep m) (World.init m 0, fun _ => none) evs = some y →
        acceptStep m y ev = some z → EvictsSynced y ev z := by
  intro h
  have hevict := h sampleMount _ _ writeAfterRecheck (.eviction .fine) rfl rfl .fine rfl 2 _ rfl
  exact absurd (hevict.1 _ rfl [8] rfl rfl) (by decide)

end Stratosync

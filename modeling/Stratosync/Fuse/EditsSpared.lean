import Stratosync.Sync.UnsyncedBytes

/-!
# Hydration and local edits

A hydration acts on the row as it was when the hydration started: it downloads over the cache
file, marks the row as cached, resets its status or drops it, without looking at the row again. It
is `Armed` from the moment it has decided to until it has. `sparesEdits_of_run` shows that local
edits are spared in a run in which no row becomes dirty or uploading while a hydration of it is
armed and no hydration downloads over the file of another row.
-/

namespace Stratosync

open Foundations.Runs Foundations.Pool

/-- The hydration goes on to change the row or the cache file without looking at the row again. -/
def HydrationPc.armed : HydrationPc → Bool
  | .enter _ | .wait _ (some _) | .notify _ => false
  | _ => true

/-- A hydration or a read is about to act on the row as it was. -/
def Armed (w : World) (i : Inode) : Prop :=
  (∃ h ∈ w.hydrations, h.inode = i ∧ h.pc.armed = true) ∨
    ∃ rd ∈ w.reads, ∃ f ∈ rd.pc.claimed, f.inode = i

/-- The steps of hydrations and of what starts them. -/
def Event.hydrates : Event → Bool
  | .hydration .. | .read .. | .prefetch _ | .request (.open_ _) => true
  | _ => false

/-- Rows with an armed hydration carry no local edit. -/
structure ArmedSynced (w : World) : Prop where
  bounded : InodesBounded w
  synced : ∀ i, Armed w i → i ≤ w.db.seq ∧ ¬RowUnsynced w i

/-- No row is marked as dirty or uploading while a hydration of it is armed, and a hydration
downloads over no file of another row. -/
def MarksUnarmed (w : World) : Event → Prop
  | .fuse _ => ∀ c ∈ w.fuse, ¬Armed w c.inode
  | .upload k _ => ∀ u ∈ w.uploads[k]?, u.pc.flags = true → ¬Armed w u.inode
  | .hydration k _ => ∀ h ∈ w.hydrations[k]?,
      match h.pc with
      | .install _ cp _ => OnlyRecordedBy w cp h.inode
      | _ => True
  | _ => True

/-- A step of a hydration leaves the rows that are dirty or uploading as they are, and so their
cache files. -/
def SparesEdits (w : World) (ev : Event) (w' : World) : Prop :=
  ev.hydrates = true → ∀ i r, w.db.getByInode i = some r → r.status.isUnsynced = true →
    w'.db.getByInode i = some r ∧ ∀ p ∈ r.cachePath, w'.fs.files p = w.fs.files p

section Decidable

instance (w : World) (i : Inode) : Decidable (Armed w i) :=
  inferInstanceAs (Decidable ((∃ h ∈ w.hydrations, h.inode = i ∧ h.pc.armed = true) ∨
    ∃ rd ∈ w.reads, ∃ f ∈ rd.pc.claimed, f.inode = i))

instance (w : World) : (ev : Event) → Decidable (MarksUnarmed w ev)
  | .fuse _ => inferInstanceAs (Decidable (∀ c ∈ w.fuse, ¬Armed w c.inode))
  | .upload k _ => inferInstanceAs (Decidable
      (∀ u ∈ w.uploads[k]?, u.pc.flags = true → ¬Armed w u.inode))
  | .hydration k _ =>
    have : ∀ h : Hydration, Decidable (match h.pc with
        | .install _ cp _ => OnlyRecordedBy w cp h.inode
        | _ => True) := fun h =>
      match h.pc with
      | .install _ cp _ => inferInstanceAs (Decidable (OnlyRecordedBy w cp h.inode))
      | .enter _ | .register _ | .wait .. | .claim _ | .reload | .begin_ _ | .download ..
      | .record .. | .verify _ | .prune _ | .backfill .. | .rollback .. | .notify _ =>
        .isTrue trivial
    inferInstanceAs (Decidable (∀ h ∈ w.hydrations[k]?, _))
  | .request _ | .launch _ | .read .. | .startEviction | .eviction _ | .background ..
  | .prefetch _ | .poll _ | .foreign _ | .clock _ => .isTrue trivial

end Decidable

variable {m : Mount} {w w' : World} {ev : Event} {i : Inode}

/-! ## How a hydration becomes armed -/

theorem Armed.of_eq (hh : w'.hydrations = w.hydrations) (hr : w'.reads = w.reads)
    (h : Armed w' i) : Armed w i := by
  rwa [Armed, hh, hr] at h

/-- A hydration becomes armed when it has seen a row that carries no local edit. -/
theorem armed_of_goto {env : Env} {pc pc' : HydrationPc}
    (h : (Hydration.tick m w i env pc).2 = .goto pc') (ha : pc'.armed = true) :
    pc.armed = true ∨ ∃ r, w.db.getByInode i = some r ∧ r.status.isUnsynced = false := by
  cases pc with
  | enter a =>
    right
    simp only [Hydration.tick] at h
    split at h
    · cases h
    · rename_i entry hentry
      refine ⟨entry, (by split at hentry <;> [cases hentry; exact hentry]), ?_⟩
      split at h <;> cases h <;> simp [*, SyncStatus.isUnsynced]
  | wait a signal =>
    cases signal with
    | none => exact .inl rfl
    | some b => cases b <;> cases h
  | notify result => cases h
  | _ => exact .inl rfl

/-- Telling the waiters disarms hydrations and arms none. -/
theorem hydrations_of_tick {env : Env} {pc : HydrationPc} {h : Hydration}
    (hh : h ∈ (Hydration.tick m w i env pc).1.hydrations) :
    ∃ h₀ ∈ w.hydrations, h₀.inode = h.inode ∧ (h.pc.armed = true → h₀.pc.armed = true) := by
  cases pc with
  | notify result =>
    obtain ⟨h₀, hh₀, rfl⟩ := List.mem_map.1 hh
    refine ⟨h₀, hh₀, ?_, fun ha => ?_⟩
    · repeat' split
      all_goals rfl
    · split at ha
      · split at ha
        · cases ha
        · exact ha
      · exact ha
  | _ =>
    refine ⟨h, ?_, rfl, id⟩
    unfold Hydration.tick at hh
    split at hh <;> try (repeat' split at hh)
    all_goals first
      | exact hh
      | contradiction

theorem reads_of_tick {env : Env} {pc : HydrationPc} :
    (Hydration.tick m w i env pc).1.reads = w.reads := by
  obtain ⟨_, _, _, hw⟩ := hydration_tick_eq m w i env pc
  rw [hw]

/-- Giving a read its result makes it claim nothing. -/
theorem claimed_of_deliver {reader : Option ℕ} {result : Except SyncError Unit} {rd : Read}
    {f : OpenFile} (hr : rd ∈ (w.deliver reader result).reads) (hf : rd.pc.claimed = some f) :
    ∃ rd₀ ∈ w.reads, rd₀.pc.claimed = some f := by
  obtain ⟨rd₀, hr₀, rfl⟩ := List.mem_map.1 hr
  refine ⟨rd₀, hr₀, ?_⟩
  split at hf
  · split at hf
    · cases hf
    · exact hf
  · exact hf

/-- A read is about to mark a row when it has seen it without content. -/
theorem claimed_of_goto {env : Env} {rd : Read} {pc : ReadPc} {f : OpenFile}
    (h : (Read.tick m w env rd).2 = .goto pc) (hf : pc.claimed = some f) :
    ∃ r, w.db.getByInode f.inode = some r ∧ r.status.isUnsynced = false := by
  simp only [Read.tick] at h
  split at h
  case h_2 f₀ _ =>
    split at h
    · cases h
      cases hf
    · rename_i entry hentry
      split at h
      · cases h
        cases hf
      split at h
      · rename_i hremote
        cases h
        obtain rfl := Option.some.inj hf
        exact ⟨entry, (by split at hentry <;> [cases hentry; exact hentry]), by rw [hremote.2]; rfl⟩
      · cases h
        cases hf
  all_goals
    repeat' split at h
    all_goals cases h <;> cases hf

/-- A read starts a hydration of the row it marked, and calls ones that look at the row first. -/
theorem hydrations_of_read {env : Env} {rd : Read} {h : Hydration}
    (hh : h ∈ (Read.tick m w env rd).1.hydrations) (ha : h.pc.armed = true) :
    h ∈ w.hydrations ∨ ∃ f, rd.pc.claimed = some f ∧ h.inode = f.inode := by
  simp only [Read.tick] at hh
  split at hh
  case h_3 f hpc =>
    split at hh
    · exact .inl hh
    · rcases List.mem_append.1 hh with hh | hh
      · exact .inl hh
      · rw [List.mem_singleton.1 hh, hpc]
        exact .inr ⟨f, rfl, rfl⟩
  case h_4 f hpc =>
    split at hh
    · left
      split at hh <;> exact hh
    · rcases List.mem_append.1 hh with hh | hh
      · exact .inl hh
      · rw [List.mem_singleton.1 hh] at ha
        cases ha
  all_goals
    left
    repeat' split at hh
    all_goals exact hh

/-- A request arms a hydration only of a row it found in need of one. -/
theorem armed_of_serve {r : Request} (h : Armed (serve m w r) i) :
    Armed w i ∨ ((Event.request r).hydrates = true ∧
      ∃ q, w.db.getByInode i = some q ∧ q.status.isUnsynced = false) := by
  cases r with
  | open_ j =>
    simp only [serve, handleOpen, World.allocFh] at h
    split at h
    · exact .inl h
    rename_i entry hentry
    split at h
    · rename_i hneeds
      split at h
      · exact .inl h
      rcases h with ⟨x, hx, hxi, hxa⟩ | hr
      · rcases List.mem_append.1 hx with hx | hx
        · exact .inl (.inl ⟨x, hx, hxi, hxa⟩)
        · obtain rfl : j = i := by rw [← hxi, List.mem_singleton.1 hx]
          exact .inr ⟨rfl, entry, hentry, SyncStatus.isUnsynced_of_needsHydration
            (Bool.and_eq_true_iff.1 hneeds).1⟩
      · exact .inl (.inr hr)
    · left
      split at h <;> exact h
  | read fh offset size =>
    left
    rcases h with h | ⟨rd, hrd, f, hf, hi⟩
    · exact .inl h
    · rcases List.mem_append.1 hrd with hrd | hrd
      · exact .inr ⟨rd, hrd, f, hf, hi⟩
      · rw [List.mem_singleton.1 hrd] at hf
        cases hf
  | _ =>
    left
    simp only [serve, handleWrite, handleSetattr, handleRelease, handleFsync, handleCreate,
      handleMkdir, handleUnlink, handleRmdir, handleRename, World.allocFh] at h
    repeat' split at h
    all_goals exact h

theorem armed_of_hydration {k : ℕ} {env : Env} (h : hydrationStep m w k env = some w')
    (ha : Armed w' i) :
    Armed w i ∨ ∃ r, w.db.getByInode i = some r ∧ r.status.isUnsynced = false := by
  obtain ⟨x, hx, rfl⟩ := Option.map_eq_some_iff.1 h
  have hold : ∀ y ∈ (Hydration.tick m w x.inode env x.pc).1.hydrations,
      y.inode = i → y.pc.armed = true → Armed w i := by
    intro y hy hyi hya
    obtain ⟨y₀, hy₀, hi, ha⟩ := hydrations_of_tick hy
    exact .inl ⟨y₀, hy₀, hi.trans hyi, ha hya⟩
  dsimp only at ha
  split at ha
  · rename_i pc hpc
    rcases ha with ⟨y, hy, hyi, hya⟩ | ⟨rd, hrd, hf⟩
    · have hy : y ∈ advance (Hydration.tick m w x.inode env x.pc).1.hydrations k
          (some { x with pc }) := hy
      rcases mem_of_mem_advance hy with hy | hy
      · exact .inl (hold y hy hyi hya)
      · obtain rfl := Option.some.inj hy
        subst hyi
        exact (armed_of_goto hpc hya).imp_left fun hxa => .inl ⟨x, mem_of_getElem? hx, rfl, hxa⟩
    · exact .inl (.inr ⟨rd, reads_of_tick ▸ hrd, hf⟩)
  · rcases ha with ⟨y, hy, hyi, hya⟩ | ⟨rd, hrd, f, hf, hfi⟩
    · have hy : y ∈ advance (Hydration.tick m w x.inode env x.pc).1.hydrations k none := hy
      rcases mem_of_mem_advance hy with hy | hy
      · exact .inl (hold y hy hyi hya)
      · cases hy
    · obtain ⟨rd₀, hrd₀, hf₀⟩ := claimed_of_deliver hrd hf
      exact .inl (.inr ⟨rd₀, reads_of_tick ▸ hrd₀, f, hf₀, hfi⟩)

theorem armed_of_read {k : ℕ} {env : Env} (h : readStep m w k env = some w') (ha : Armed w' i) :
    Armed w i ∨ ∃ r, w.db.getByInode i = some r ∧ r.status.isUnsynced = false := by
  obtain ⟨rd, hrd, rfl⟩ := Option.map_eq_some_iff.1 h
  have hhyd : ∀ y ∈ (Read.tick m w env rd).1.hydrations, y.inode = i → y.pc.armed = true →
      Armed w i := by
    intro y hy hyi hya
    rcases hydrations_of_read hy hya with hy | ⟨f, hf, hyf⟩
    · exact .inl ⟨y, hy, hyi, hya⟩
    · exact .inr ⟨rd, mem_of_getElem? hrd, f, hf, hyf.symm.trans hyi⟩
  have hreads : (Read.tick m w env rd).1.reads = w.reads := by
    obtain ⟨_, _, _, _, hw⟩ := read_tick_eq m w env rd
    rw [hw]
  dsimp only at ha
  split at ha
  · rename_i pc hpc
    rcases ha with ⟨y, hy, hyi, hya⟩ | ⟨q, hq, f, hf, hfi⟩
    · exact .inl (hhyd y hy hyi hya)
    · have hq : q ∈ advance (Read.tick m w env rd).1.reads k (some { rd with pc }) := hq
      rcases mem_of_mem_advance hq with hq | hq
      · exact .inl (.inr ⟨q, hreads ▸ hq, f, hf, hfi⟩)
      · obtain rfl := Option.some.inj hq
        exact .inr (hfi ▸ claimed_of_goto hpc hf)
  · rcases ha with ⟨y, hy, hyi, hya⟩ | ⟨q, hq, f, hf, hfi⟩
    · exact .inl (hhyd y hy hyi hya)
    · have hq : q ∈ advance (Read.tick m w env rd).1.reads k none := hq
      rcases mem_of_mem_advance hq with hq | hq
      · exact .inl (.inr ⟨q, hreads ▸ hq, f, hf, hfi⟩)
      · cases hq

/-- **How a hydration becomes armed**: by a step of one, or of what starts one, that saw a row
without local edits. -/
theorem armed_of_step (h : step m w ev = some w') (ha : Armed w' i) :
    Armed w i ∨ (ev.hydrates = true ∧
      ∃ r, w.db.getByInode i = some r ∧ r.status.isUnsynced = false) := by
  have hframe := frame_of_step h
  cases ev with
  | request r =>
    obtain ⟨-, rfl⟩ := step_request h
    exact armed_of_serve ha
  | hydration k env => exact (armed_of_hydration h ha).imp_right fun hr => ⟨rfl, hr⟩
  | read k env => exact (armed_of_read h ha).imp_right fun hr => ⟨rfl, hr⟩
  | prefetch parent =>
    obtain rfl := Option.some.inj h
    rw [prefetchSmallFiles] at ha
    split at ha
    · exact .inl ha
    rcases ha with ⟨x, hx, hxi, hxa⟩ | hr
    · rcases List.mem_append.1 hx with hx | hx
      · exact .inl (.inl ⟨x, hx, hxi, hxa⟩)
      · obtain ⟨child, hchild, rfl⟩ := List.mem_map.1 hx
        obtain ⟨hmem, hneeds⟩ := List.mem_filter.1 hchild
        refine .inr ⟨rfl, child, hxi ▸ Db.getByInode_of_mem (Db.mem_listChildren.1 hmem).1, ?_⟩
        exact SyncStatus.isUnsynced_of_needsHydration (of_decide_eq_true hneeds).2.1
    · exact .inl (.inr hr)
  | _ => exact .inl (ha.of_eq (hframe.hydrations rfl) (hframe.reads rfl))

/-! ## Local edits are spared -/

theorem ArmedSynced.step (hi : ArmedSynced w) (hg : MarksUnarmed w ev)
    (h : Stratosync.step m w ev = some w') : ArmedSynced w' := by
  refine ⟨hi.bounded.step h, fun i ha => ?_⟩
  have hbefore := armed_of_step h ha
  obtain ⟨hle, hs⟩ : i ≤ w.db.seq ∧ ¬RowUnsynced w i := by
    rcases hbefore with ha | ⟨-, r, hr, hs⟩
    · exact hi.synced i ha
    · refine ⟨hi.bounded i r hr, ?_⟩
      rintro ⟨q, hq, hqs⟩
      obtain rfl := Option.some.inj (hr.symm.trans hq)
      rw [hs] at hqs
      cases hqs
  refine ⟨hle.trans (seq_le_of_step h), not_rowUnsynced_of_step h hle hs ?_ ?_⟩
  · rintro env c rfl hc rfl
    rcases hbefore with ha | ⟨hev, -⟩
    · exact hg c hc ha
    · cases hev
  · rintro k env u rfl hu rfl
    rcases hbefore with ha | ⟨hev, -⟩
    · exact Bool.eq_false_iff.2 fun hf => hg u hu hf ha
    · cases hev

theorem armed_of_hydration_mem {k : ℕ} {h : Hydration} (hh : w.hydrations[k]? = some h)
    (ha : h.pc.armed = true) : Armed w h.inode :=
  .inl ⟨h, mem_of_getElem? hh, rfl, ha⟩

theorem sparesEdits_of_step (hi : ArmedSynced w) (hg : MarksUnarmed w ev)
    (h : step m w ev = some w') : SparesEdits w ev w' := by
  intro hev i r hr hs
  have hunarmed : ¬Armed w i := fun ha => (hi.synced i ha).2 ⟨r, hr, hs⟩
  constructor
  · have hrow := row_of_step h hr
    generalize w'.db.getByInode i = o at hrow
    cases hrow with
    | same => rfl
    | opened hneeds =>
      rw [SyncStatus.isUnsynced_of_needsHydration hneeds] at hs
      cases hs
    | claimed hh | timedOut hh | rolledBack hh | hydrated hh | backfilled hh | pruned hh =>
      exact absurd (armed_of_hydration_mem hh rfl) hunarmed
    | claimedByRead hrd hpc =>
      exact absurd (.inr ⟨_, mem_of_getElem? hrd, _, by rw [hpc]; rfl, rfl⟩) hunarmed
    | dirtied | renamed | replaced | unlinked | removed | reset | reverted | marked | uploaded
    | failed | evicted | refreshed | dropped => cases hev
  · intro p hp
    have hfile := file_of_step h p
    generalize w.fs.files p = b, w'.fs.files p = b' at hfile
    cases hfile with
    | same => rfl
    | installed hh =>
      have hown : r.inode = _ := hg _ hh r (Db.mem_rows_of_getByInode hr) hp
      rw [Db.inode_of_getByInode hr] at hown
      subst hown
      exact absurd (armed_of_hydration_mem hh rfl) hunarmed
    | written | truncated | derived | created | unlinked | movedAway | movedTo | evicted
    | dropped => cases hev

/-- **Hydration spares local edits** in a run in which no row is marked as dirty or uploading while
a hydration of it is armed. -/
theorem sparesEdits_of_run {evs : List Event} (h₀ : ArmedSynced w)
    (hg : Guarded (step m) MarksUnarmed w evs) : Along (step m) SparesEdits w evs :=
  along_of_guarded (I := ArmedSynced) (fun _ _ _ hi hg h => hi.step hg h)
    (fun _ _ _ hi hg h => sparesEdits_of_step hi hg h) h₀ hg

theorem armedSynced_init (m : Mount) (now : ℕ) : ArmedSynced (World.init m now) :=
  ⟨inodesBounded_init m now, fun _ ha => ha.elim (fun ⟨_, hh, _⟩ => nomatch hh)
    fun ⟨_, hrd, _⟩ => nomatch hrd⟩

/-- A file of the remote is opened and hydrated. -/
def openAndHydrate : List Event :=
  [foreignVersion ['a'] [1, 2] ['v'], .poll (reportedFile ['a'] 2 ['v']), .request (.open_ 2),
    .hydration 0 .fine, .hydration 0 .fine, .hydration 0 .fine, .hydration 0 .fine,
    .hydration 0 .fine, .hydration 0 .fine]

/-- The file is truncated once it is hydrated; a second open of it changes nothing. -/
def truncateHydrated : List Event :=
  openAndHydrate ++ [.request (.setattr 2 1), .fuse .fine, .request (.open_ 2)]

theorem sparesEdits_truncateHydrated :
    Along (step sampleMount) SparesEdits (World.init sampleMount 0) truncateHydrated :=
  have hguard : Guarded (step sampleMount) MarksUnarmed (World.init sampleMount 0)
      truncateHydrated := by decide
  sparesEdits_of_run (armedSynced_init sampleMount 0) hguard

/-- The file is truncated while it is being downloaded. -/
def truncateDuringDownload : List Event :=
  openAndHydrate.take 5 ++ [.request (.setattr 2 1), .fuse .fine, .hydration 0 .fine]

theorem not_sparesEdits_truncateDuringDownload :
    ¬∀ (m : Mount) (w w' : World) (evs : List Event) (ev : Event),
      run (step m) (World.init m 0) evs = some w → step m w ev = some w' →
        SparesEdits w ev w' := by
  intro h
  have hspares :=
    h sampleMount _ _ truncateDuringDownload (.hydration 0 .fine) rfl rfl rfl 2 _ rfl rfl
  exact absurd (hspares.2 _ rfl) (by decide)

end Stratosync

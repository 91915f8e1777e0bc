import Stratosync.Conflict.Bases

/-!
# Runs that keep the bases common ancestors

What a step of the whole does to the bases, from what each party does, and the runs: in every run
in which the transfers of one row do not overlap, the cache file stays as it was transferred until
the base is copied, and a blob under the hash of a content has that content, the base of every row
is a common ancestor (`ancestorBases_of_run`).
-/

namespace Stratosync

open Foundations.Pool Foundations.Replicas Foundations.Runs Foundations.Tasks

/-! ## What a step does -/

section Steps

variable {m : Mount} {t : MergeTools} {b b' : Bench} {L L' : Lines} {ev : BenchEvent}

theorem Hydration.window_eq_some {x : Hydration} {i : Inode} (h : x.window = some i) :
    x.pc.downloaded = true ∧ x.inode = i := by
  rw [window] at h
  split at h
  · exact ⟨‹_›, Option.some.inj h⟩
  · cases h

/-- A hydration without a download needs nothing. -/
theorem Hydration.sound_of_not_downloaded {h : Holdings} {c : Copies Bytes} {x : Hydration}
    (hx : x.pc.downloaded = false) : x.Sound h c := by
  obtain ⟨i, pc, reader⟩ := x
  cases pc with
  | install | record => cases hx
  | _ => trivial

theorem mem_basePaths_of_proc {p : Proc} {path : PathBuf} (hp : p ∈ b.procs)
    (hpath : path ∈ p.basePath) : path ∈ b.basePaths :=
  List.mem_append_left _ (List.mem_filterMap.2 ⟨p, hp, hpath⟩)

theorem mem_basePaths_of_hydration {x : Hydration} {path : PathBuf}
    (hx : x ∈ b.hold.world.hydrations) (hpath : path ∈ x.basePath) : path ∈ b.basePaths :=
  List.mem_append_right _ (List.mem_filterMap.2 ⟨x, hx, hpath⟩)

/-- **The rule for a step**: it keeps the bases sound when every row but one is unaffected, no
other party is busy with that row, and what becomes of the one whose step it is, and what is new,
has what it must have. -/
theorem BasesSound.of_step (hi : BasesSound (b, L)) (hg : Undisturbed m t (b, L) ev)
    (h : Bench.step m t b ev = some b') (hblobs : b.hold.KeepsBlobs b'.hold)
    (hstored : ∀ i hash, b'.hold.baseHash i = some hash → (b'.hold.objects hash).isSome = true)
    (hcommon : ∀ i, ∀ data ∈ b'.hold.base i, (L' i).Common data)
    (hprocs : ∀ p ∈ b.bystanders ev, ∀ i ∈ p.window,
      Unaffected b.hold b'.hold (L i) (L' i) i)
    (hmoved : ∀ k env p, ev = .proc k env → b.procs[k]? = some p →
      b'.hold = (p.tick t b.hold env).1 → ∀ q ∈ (p.tick t b.hold env).2, q.Sound b'.hold L')
    (hfresh : ∀ p, Bench.Fresh m b ev p → p.Sound b'.hold L')
    (hhydrations : ∀ x ∈ b'.hold.world.hydrations, x.pc.downloaded = true →
      (x ∈ b.hold.world.hydrations ∧ Unaffected b.hold b'.hold (L x.inode) (L' x.inode) x.inode) ∨
        x.Sound b'.hold (L' x.inode)) : BasesSound (b', L') where
  stored := hstored
  common := hcommon
  procs := by
    refine Bench.procs_of_step h (fun p hp => ?_) hmoved hfresh
    have hmem := Bench.mem_of_mem_bystanders hp
    exact (hi.procs p hmem).congr hblobs (hprocs p hp) fun path hpath =>
      hg.2.1 b' h path (mem_basePaths_of_proc hmem hpath)
  hydrations := by
    intro x hx
    cases hd : x.pc.downloaded with
    | false => exact Hydration.sound_of_not_downloaded hd
    | true =>
      obtain ⟨hmem, hrow⟩ | hs := hhydrations x hx hd
      · refine (hi.hydrations x hmem).congr (fun i hwindow => ?_) fun path hpath =>
          hg.2.1 b' h path (mem_basePaths_of_hydration hmem hpath)
        obtain ⟨-, rfl⟩ := Hydration.window_eq_some hwindow
        exact hrow
      · exact hs

/-- A step that changes no base, and reads no copy. -/
theorem BasesSound.of_idle (hi : BasesSound (b, L)) (hg : Undisturbed m t (b, L) ev)
    (h : Bench.step m t b ev = some b') (hev : ∀ k env, ev ≠ .proc k env)
    (hblobs : b.hold.KeepsBlobs b'.hold) (hhash : b'.hold.baseHash = b.hold.baseHash)
    (hfresh : ∀ p, Bench.Fresh m b ev p → p.Sound b'.hold L)
    (hhydrations : ∀ x ∈ b'.hold.world.hydrations, x.pc.downloaded = true →
      x ∈ b.hold.world.hydrations) : BasesSound (b', L) := by
  have hbase : ∀ i, b'.hold.base i = b.hold.base i := fun i =>
    Holdings.base_congr (hi.stored i) hblobs (by rw [hhash])
  have hrow : ∀ i, Unaffected b.hold b'.hold (L i) (L i) i := fun i => ⟨hbase i, .refl _⟩
  refine hi.of_step hg h hblobs ?_ ?_ (fun _ _ i _ => hrow i) ?_ hfresh fun x hx hd =>
    .inl ⟨hhydrations x hx hd, hrow x.inode⟩
  · intro i hash hi'
    rw [hhash] at hi'
    obtain ⟨data, hdata⟩ := Option.isSome_iff_exists.1 (hi.stored i hash hi')
    rw [hblobs hash data hdata]
    rfl
  · intro i
    rw [hbase]
    exact hi.common i
  · intro k env p he
    exact absurd he (hev k env)

/-- **The step of a party.** -/
theorem BasesSound.step_proc {k : ℕ} {env : ResolveEnv} (hi : BasesSound (b, L))
    (hg : Undisturbed m t (b, L) (.proc k env))
    (h : Bench.step m t b (.proc k env) = some b') :
    BasesSound (b', L.next (b.transfer m t (.proc k env))) := by
  obtain ⟨p, hk, rfl⟩ := Option.map_eq_some_iff.1 h
  have hp := List.mem_of_getElem? hk
  have htransfer : b.transfer m t (.proc k env) =
      (p.transfer t b.hold env).map (p.row, ·) := by
    rw [Bench.transfer, hk]
    rfl
  have hother : ∀ j, j ≠ p.row → L.next (b.transfer m t (.proc k env)) j = L j := by
    intro j hj
    rw [htransfer, Lines.next_map, Function.update_of_ne hj]
  have hblob : ∀ s ∈ p.stores b.hold, ∀ data ∈ b.hold.objects s.1, s.2 = some data :=
    fun s hs => hg.2.2 s (by rw [Bench.stores, hk]; exact hs)
  have hmoves := Proc.moves (hi.stored p.row) (hi.common p.row) (hi.procs p hp) hblob
    fun path hpath => hg.2.1 _ h path (mem_basePaths_of_proc hp hpath)
  rw [← htransfer] at hmoves
  generalize L.next (b.transfer m t (.proc k env)) = L' at hother hmoves ⊢
  -- other rows are unaffected, and its own where it is not busy with it
  have hrow : ∀ i, i ≠ p.row ∨ p.between = false →
      Unaffected b.hold (p.tick t b.hold env).1 (L i) (L' i) i := by
    intro i hi'
    by_cases hrow : i = p.row
    · subst hrow
      obtain ⟨hhash, hgrown⟩ := hmoves.apart (hi'.resolve_left fun h => h rfl)
      exact ⟨Holdings.base_congr (hi.stored _) hmoves.step.blobs hhash, hgrown⟩
    · refine ⟨Holdings.base_congr (hi.stored i) hmoves.step.blobs (hmoves.step.others i hrow), ?_⟩
      rw [hother i hrow]
      exact .refl _
  have hwindow : p.between = true → p.window = some p.row := fun h => if_pos h
  obtain ⟨hprocs, -, hdisjoint⟩ := List.nodup_append.1 hg.1
  refine hi.of_step hg h hmoves.step.blobs ?_ ?_ ?_ ?_ ?_ ?_
  · intro i hash hhash
    by_cases hrow : i = p.row
    · subst hrow
      exact hmoves.step.stored hash hhash
    · obtain ⟨data, hdata⟩ := Option.isSome_iff_exists.1
        (hi.stored i hash ((hmoves.step.others i hrow).symm.trans hhash))
      exact Option.isSome_iff_exists.2 ⟨data, hmoves.step.blobs hash data hdata⟩
  · intro i data hdata
    by_cases hrow' : i = p.row
    · subst hrow'
      exact hmoves.step.common data hdata
    · obtain ⟨hbase, hgrown⟩ := hrow i (.inl hrow')
      exact (hi.common i data (hbase ▸ hdata)).grown hgrown
  · intro q hq i hqi
    refine hrow i ?_
    cases hbetween : p.between with
    | false => exact .inr rfl
    | true =>
      left
      rintro rfl
      exact ne_of_nodup_filterMap hprocs hk (hwindow hbetween) q hq hqi
  · rintro k' env' p' he hk' - q hq
    obtain ⟨rfl, rfl⟩ := BenchEvent.proc.inj he
    obtain rfl := Option.some.inj (hk.symm.trans hk')
    exact hmoves.next q hq
  · intro q hq
    cases hq
  · intro x hx hd
    have hx : x ∈ b.hold.world.hydrations := hmoves.hydrations ▸ hx
    refine .inl ⟨hx, hrow x.inode ?_⟩
    cases hbetween : p.between with
    | false => exact .inr rfl
    | true =>
      left
      intro hrow'
      exact hdisjoint _ (List.mem_filterMap.2 ⟨p, hp, hwindow hbetween⟩) _
        (List.mem_filterMap.2 ⟨x, hx, if_pos hd⟩) hrow'.symm

/-- **The step of a hydration.** -/
theorem BasesSound.step_hydration {k : ℕ} {env : Env} (hi : BasesSound (b, L))
    (hg : Undisturbed m t (b, L) (.world (.hydration k env)))
    (h : Bench.step m t b (.world (.hydration k env)) = some b') :
    BasesSound (b', L.next (b.transfer m t (.world (.hydration k env)))) := by
  obtain ⟨world, hworld, rfl⟩ := Bench.world_of_step h
  obtain ⟨x₀, hx₀, hw⟩ := Option.map_eq_some_iff.1 hworld
  have hmem := List.mem_of_getElem? hx₀
  have htransfer : b.transfer m t (.world (.hydration k env)) =
      (x₀.pc.transfer (Hydration.tick m b.hold.world x₀.inode env x₀.pc).2).map (x₀.inode, ·) := by
    rw [Bench.transfer, hx₀]
    rfl
  have hfs : world.fs = (Hydration.tick m b.hold.world x₀.inode env x₀.pc).1.fs := by
    rw [← hw]
    dsimp only
    split <;> rfl
  have htick : Hydration.tick m b.hold.world x₀.inode env x₀.pc =
    ((Hydration.tick m b.hold.world x₀.inode env x₀.pc).1,
      (Hydration.tick m b.hold.world x₀.inode env x₀.pc).2) := rfl
  obtain ⟨hcommon, hgrown, hnext⟩ :=
    Hydration.sound_of_tick (hi.common x₀.inode) (hi.hydrations x₀ hmem) htick
  have hown : L.next (b.transfer m t (.world (.hydration k env))) x₀.inode = (L x₀.inode).next
      (x₀.pc.transfer (Hydration.tick m b.hold.world x₀.inode env x₀.pc).2) := by
    rw [htransfer, Lines.next_map, Function.update_self]
  have hother : ∀ j, j ≠ x₀.inode →
      L.next (b.transfer m t (.world (.hydration k env))) j = L j := by
    intro j hj
    rw [htransfer, Lines.next_map, Function.update_of_ne hj]
  rw [← hown] at hcommon hgrown hnext
  generalize L.next (b.transfer m t (.world (.hydration k env))) = L' at *
  have hrow : ∀ i, i ≠ x₀.inode ∨ x₀.pc.downloaded = false →
      Unaffected b.hold { b.hold with world } (L i) (L' i) i := by
    intro i hi'
    refine ⟨rfl, ?_⟩
    by_cases hrow : i = x₀.inode
    · subst hrow
      exact hgrown (hi'.resolve_left fun h => h rfl)
    · rw [hother i hrow]
      exact .refl _
  have hwindow : x₀.pc.downloaded = true → x₀.window = some x₀.inode := fun h => if_pos h
  obtain ⟨-, hhydrations, hdisjoint⟩ := List.nodup_append.1 hg.1
  refine hi.of_step hg h (fun _ _ h => h) hi.stored ?_ ?_ ?_ ?_ ?_
  · intro i data hdata
    by_cases hrow' : i = x₀.inode
    · subst hrow'
      exact hcommon data hdata
    · exact (hi.common i data hdata).grown (hrow i (.inl hrow')).grown
  · intro q hq i hqi
    refine hrow i ?_
    cases hd : x₀.pc.downloaded with
    | false => exact .inr rfl
    | true =>
      left
      intro hrow'
      exact hdisjoint _ (List.mem_filterMap.2 ⟨q, hq, hqi⟩) _
        (List.mem_filterMap.2 ⟨x₀, hmem, hwindow hd⟩) hrow'
  · rintro k' env' p ⟨⟩
  · intro p hp
    cases hp with
    | hydrated hp =>
      obtain ⟨k', env', i, entry, cachePath, reader, data, he, hx, -, rfl⟩ := Bench.mem_hydrated hp
      obtain ⟨rfl, rfl⟩ := Event.hydration.inj he
      obtain rfl := Option.some.inj (hx₀.symm.trans hx)
      refine Holdings.Exchanged.congr (hi.hydrations _ hmem) ?_
        (hg.2.1 _ h cachePath (mem_basePaths_of_hydration hmem rfl))
      rw [hown]
      exact .refl _
  · intro x hx hd
    obtain hx | ⟨k', env', x₁, he, hx₁, hinode, hpc⟩ := downloaded_of_step hworld hx hd
    · refine .inl ⟨mem_of_mem_otherHydrations hx, hrow x.inode ?_⟩
      cases hd₀ : x₀.pc.downloaded with
      | false => exact .inr rfl
      | true =>
        left
        intro hrow'
        exact ne_of_nodup_filterMap hhydrations hx₀ (hwindow hd₀) x hx
          (hrow' ▸ if_pos hd)
    · right
      obtain ⟨rfl, rfl⟩ := Event.hydration.inj he
      obtain rfl := Option.some.inj (hx₀.symm.trans hx₁)
      have hs := hnext x.pc world hpc hfs
      obtain ⟨i, pc, reader⟩ := x
      obtain rfl : i = x₀.inode := hinode
      exact hs

/-- **Each step keeps the bases sound.** -/
theorem BasesSound.step (hi : BasesSound (b, L)) (hg : Undisturbed m t (b, L) ev)
    (h : Bench.step m t b ev = some b') : BasesSound (b', L.next (b.transfer m t ev)) := by
  cases ev with
  | proc k env => exact hi.step_proc hg h
  | world ev =>
    obtain ⟨world, hworld, rfl⟩ := Bench.world_of_step h
    have hidle : (∀ k env, ev ≠ .hydration k env) → BasesSound
        ({ hold := { b.hold with world }, procs := b.procs ++ Bench.hydrated b.hold.world ev },
          L) := by
      intro hev
      refine hi.of_idle hg h (by rintro _ _ ⟨⟩) (fun _ _ h => h) rfl ?_ ?_
      · intro p hp
        cases hp with
        | hydrated hp =>
          obtain ⟨k, env, _, _, _, _, _, he, -⟩ := Bench.mem_hydrated hp
          exact absurd he (hev k env)
      · intro x hx hd
        obtain hx | ⟨k, env, _, he, -⟩ := downloaded_of_step hworld hx hd
        · exact mem_of_mem_otherHydrations hx
        · exact absurd he (hev k env)
    cases ev with
    | hydration k env => exact hi.step_hydration hg h
    | _ => exact hidle (by rintro _ _ ⟨⟩)
  | launch i =>
    have hb : ∃ pending, b'.hold = { b.hold with world := { b.hold.world with pending } } := by
      rw [Bench.step] at h
      split at h
      · rw [← Option.some.inj h]
        exact ⟨_, rfl⟩
      · cases h
    obtain ⟨pending, hb⟩ := hb
    refine hi.of_idle hg h (by rintro _ _ ⟨⟩) ?_ ?_ ?_ ?_
    · rw [hb]
      exact fun _ _ h => h
    · rw [hb]
    · intro p hp
      cases hp
      trivial
    · rw [hb]
      exact fun x hx _ => hx
  | resolve k =>
    obtain ⟨entry, hentry, rfl⟩ := Option.map_eq_some_iff.1 h
    refine hi.of_idle hg h (by rintro _ _ ⟨⟩) (fun _ _ h => h) rfl ?_ fun x hx _ => hx
    intro p hp
    cases hp
    trivial
  | command c rel context =>
    have hb : b'.hold = b.hold := by
      rw [Bench.step] at h
      split at h
      · obtain ⟨path, -, rfl⟩ := Option.map_eq_some_iff.1 h
        rfl
      · cases h
    refine hi.of_idle hg h (by rintro _ _ ⟨⟩) ?_ ?_ ?_ ?_
    · rw [hb]
      exact fun _ _ h => h
    · rw [hb]
    · intro p hp
      cases hp
      trivial
    · rw [hb]
      exact fun x hx _ => hx
  | version hash data =>
    obtain rfl := Option.some.inj h
    refine hi.of_idle hg h (by rintro _ _ ⟨⟩) ?_ rfl ?_ fun x hx _ => hx
    · intro hash' data' hdata'
      by_cases hhash : hash' = hash
      · subst hhash
        obtain rfl := Option.some.inj (hg.2.2 (hash', some data) rfl data' hdata')
        exact Function.update_self ..
      · exact (Function.update_of_ne hhash _ _).trans hdata'
    · intro p hp
      cases hp

theorem BasesSound.ancestorBases {x : Bench × Lines} (h : BasesSound x) : AncestorBases x := by
  intro i hash data hi hdata
  refine h.common i data ?_
  rw [Holdings.getBaseHash] at hi
  split at hi
  · rw [Option.mem_def, Holdings.base, hi, Option.bind_some, hdata]
  · cases hi

/-- **The base of a row is a common ancestor**, in every state a run comes to in which the transfers
of one row do not overlap, a cache file that is to be a base stays as it is, and no two contents
have one hash. -/
theorem ancestorBases_of_run {evs : List BenchEvent} {x y : Bench × Lines} (h₀ : BasesSound x)
    (hg : Guarded (linesStep m t) (Undisturbed m t) x evs)
    (hr : run (linesStep m t) x evs = some y) : AncestorBases y := by
  refine BasesSound.ancestorBases (inv_of_run (I := BasesSound) ?_ h₀ hg hr)
  rintro ⟨b, L⟩ ev ⟨b', L'⟩ hi hg h
  obtain ⟨hb, hL⟩ := withHistory_eq_some.1 h
  dsimp only at hb hL
  subst hL
  exact hi.step hg hb

end Steps

/-! ## A base that the remote has not held -/

theorem basesSound_init (m : Mount) : BasesSound (Bench.init m 0, fun _ => .unknown) where
  stored := fun _ _ h => by cases h
  common := fun _ _ h => by cases h
  procs := fun _ h => by cases h
  hydrations := fun _ h => by cases h

theorem ancestorBases_uploadedText : ∃ y,
    run (linesStep sampleMount sampleTools) (Bench.init sampleMount 0, fun _ => .unknown)
      uploadedText = some y ∧ AncestorBases y ∧ y.1.hold.base 2 = some (asciiBytes "1\n2\n3\n") :=
  have hguard : Guarded (linesStep sampleMount sampleTools) (Undisturbed sampleMount sampleTools)
      (Bench.init sampleMount 0, fun _ => .unknown) uploadedText := by decide
  ⟨_, rfl, ancestorBases_of_run (basesSound_init sampleMount) hguard rfl, by decide⟩

/-- `a.txt` is written again after its upload, before the base is taken. -/
def editedText : List BenchEvent :=
  transferredText ++ callsOf 0 2 ++
    [.world (.request (.write 1 0 (asciiBytes "4\n"))), .world (.fuse .fine)] ++ callsOf 0 6

theorem not_ancestorBases_editedText :
    ¬∀ (m : Mount) (t : MergeTools) (evs : List BenchEvent) (y : Bench × Lines),
      run (linesStep m t) (Bench.init m 0, fun _ => .unknown) evs = some y → AncestorBases y := by
  intro h
  have hedited : ∀ y, run (linesStep sampleMount sampleTools)
      (Bench.init sampleMount 0, fun _ => .unknown) editedText = some y → ¬AncestorBases y := by
    intro y hy hancestor
    obtain rfl := Option.some.inj hy
    exact absurd (hancestor 2 _ _ rfl rfl).held (by decide)
  exact hedited _ rfl (h sampleMount sampleTools editedText _ rfl)

end Stratosync

import Stratosync.Conflict.Bench
import Stratosync.Foundations.Runs

/-!
# Which remote version a merge replaces

The uploads that end a merge, and that of `conflicts keep-local`, carry no condition: they replace
whatever is at the canonical path. `replacesSeen_of_guarded`: in every run in which no other step
changes that object between the download (for `keep-local`, its start) and the upload, and in which
`keep-local` starts on the version the row names, each of them replaces only the version it was
based on.
-/

namespace Stratosync

open Foundations.Runs

/-- The row names this version. -/
def FileEntry.Names (entry : FileEntry) (o : RemoteObject) : Prop :=
  entry.etag.isSome ∧ o.etag = entry.etag

instance (entry : FileEntry) (o : RemoteObject) : Decidable (entry.Names o) :=
  inferInstanceAs (Decidable (_ ∧ _))

/-- The resolver has downloaded the remote version it is going to replace. -/
def ResolvePc.replacing : ResolvePc → Bool
  | .mergeSave .. | .merge _ | .writeMerged _ true | .readMerged _ | .putMerged .. => true
  | _ => false

/-- The command is going to replace the remote version: a merge once it has downloaded it,
`keep-local` from its start. -/
def CommandPc.replacing (command : Command) : CommandPc → Bool
  | .start | .fetchRemote _ => command = .keepLocal
  | .saveRemote .. | .merge _ | .writeMerged _ true | .readLocal | .putLocal _ =>
    command = .merge || command = .keepLocal
  | _ => false

namespace Proc

/-- The canonical path whose object a party is going to replace. -/
def replaces : Proc → Option Str
  | .resolve entry _ _ pc => if pc.replacing then some entry.remotePath else none
  | .command run _ pc =>
    if pc.replacing run.command then some run.entry.remotePath else none
  | _ => none

/-- The object there is the one the party is based on: the version it has downloaded, and for
`keep-local` the version its row names, which is the one the user was shown. -/
def SeenIn (r : Remote) : Proc → Prop
  | .resolve entry _ seen _ => r.object entry.remotePath = seen
  | .command run seen _ =>
    match run.command with
    | .keepLocal => ∀ o ∈ r.object run.entry.remotePath, run.entry.Names o
    | _ => r.object run.entry.remotePath = seen
  | _ => True

instance (r : Remote) : DecidablePred (SeenIn r)
  | .command ⟨.keepLocal, _, _⟩ .. => inferInstanceAs (Decidable (∀ _ ∈ _, _))
  | .resolve .. | .command ⟨.keepRemote, _, _⟩ .. | .command ⟨.merge, _, _⟩ ..
  | .command ⟨.pin, _, _⟩ .. => inferInstanceAs (Decidable (_ = _))
  | .upload .. | .snapshot .. => .isTrue trivial

/-- The party's next call is the upload. -/
def storing : Proc → Bool
  | .resolve _ _ _ (.putMerged ..) => true
  | .command run _ (.putLocal _) => run.command = .merge || run.command = .keepLocal
  | _ => false

end Proc

namespace Bench

variable {m : Mount} {t : MergeTools}

/-- **A merge replaces only what it has seen.** -/
def ReplacesSeen (b : Bench) (ev : BenchEvent) (_ : Bench) : Prop :=
  ∀ k env p, ev = .proc k env → env.error = none → b.procs[k]? = some p → p.storing = true →
    p.SeenIn b.hold.world.remote

variable (m t) in
/-- No other step changes the object a party is going to replace, and `keep-local` starts on the
version its row names. -/
def SparesSeen (b : Bench) (ev : BenchEvent) : Prop :=
  (∀ p ∈ b.bystanders ev, ∀ path ∈ p.replaces, ∀ b' ∈ step m t b ev,
    b'.hold.world.remote.object path = b.hold.world.remote.object path) ∧
  match ev with
  | .command .keepLocal _ context =>
    ∀ o ∈ b.hold.world.remote.object context.entry.remotePath, context.entry.Names o
  | _ => True

instance (b : Bench) : DecidablePred (SparesSeen m t b)
  | .command .keepLocal .. => inferInstanceAs (Decidable (_ ∧ _))
  | .command .keepRemote .. | .command .merge .. | .command .pin .. | .world _ | .launch _
  | .proc .. | .resolve _ | .version .. => inferInstanceAs (Decidable (_ ∧ True))

/-- What every party is going to replace is what it has seen. -/
def Seen (b : Bench) : Prop :=
  ∀ p ∈ b.procs, p.replaces.isSome = true → p.SeenIn b.hold.world.remote

end Bench

/-- The resolver changes nothing on the remote before it replaces the version, which it has
downloaded. -/
theorem ResolvePc.replacing_of_tick {t : MergeTools} {entry : FileEntry} {path : PathBuf}
    {h h' : Holdings} {env : ResolveEnv} {pc pc' : ResolvePc}
    (ht : pc.tick t entry path h env = (h', .goto pc')) (hr : pc'.replacing = true) :
    h'.world.remote = h.world.remote ∧ ((∃ hash, pc = .mergeFetch hash) ∨ pc.replacing = true) := by
  cases pc with
  | mergeFetch hash =>
    simp only [tick] at ht
    split at ht
    · cases ht
      exact ⟨rfl, .inl ⟨hash, rfl⟩⟩
    · cases ht
      cases hr
  | mergeSave hash data =>
    simp only [tick] at ht
    split at ht
    · rename_i hsave
      obtain ⟨-, fs, rfl, -⟩ := Holdings.tried_save_spec hsave
      cases ht
      exact ⟨rfl, .inr rfl⟩
    · cases ht
      cases hr
  | merge hash =>
    simp only [tick] at ht
    split at ht
    all_goals
      cases ht
      exact ⟨rfl, .inr rfl⟩
  | writeMerged text clean =>
    obtain ⟨fs, hw, -⟩ | ⟨fs, hw, -⟩ := h.write_cases env path text
    · simp only [tick, hw] at ht
      cases clean with
      | true =>
        cases ht
        exact ⟨rfl, .inr rfl⟩
      | false =>
        cases ht
        cases hr
    · simp only [tick, hw] at ht
      cases ht
  | readMerged size =>
    simp only [tick] at ht
    split at ht
    · cases ht
      exact ⟨rfl, .inr rfl⟩
    · cases ht
  | _ =>
    simp only [tick] at ht
    repeat' split at ht
    all_goals
      cases ht
      try cases hr

/-- Nor does a command. -/
theorem CommandRun.replacing_of_tick {t : MergeTools} {r : CommandRun} {h h' : Holdings}
    {env : ResolveEnv} {pc pc' : CommandPc} (ht : r.tick t h env pc = (h', .goto pc'))
    (hr : pc'.replacing r.command = true) :
    h'.world.remote = h.world.remote ∧
      ((r.command = .merge ∧ ∃ hash, pc = .fetchRemote hash) ∨ pc.replacing r.command = true) := by
  cases pc with
  | start =>
    cases hc : r.command with
    | keepLocal =>
      simp only [tick, begin_, hc] at ht
      split at ht
      · cases ht
        exact ⟨rfl, .inr rfl⟩
      · cases ht
    | merge =>
      simp only [tick, begin_, hc] at ht
      rw [hc] at hr
      repeat' split at ht
      all_goals
        cases ht
        try cases hr
    | keepRemote =>
      simp only [tick, begin_, begin_.createDir, hc] at ht
      rw [hc] at hr
      repeat' split at ht
      all_goals
        cases ht
        try cases hr
    | pin =>
      simp only [tick, begin_, begin_.createDir, hc] at ht
      rw [hc] at hr
      repeat' split at ht
      all_goals
        cases ht
        try cases hr
  | fetchRemote hash =>
    simp only [tick] at ht
    split at ht
    · cases ht
      rw [CommandPc.replacing, Bool.or_eq_true, decide_eq_true_eq] at hr
      exact ⟨rfl, hr.imp_left fun hc => ⟨hc, hash, rfl⟩⟩
    · cases ht
  | saveRemote hash data =>
    simp only [tick] at ht
    split at ht
    · rename_i hsave
      obtain ⟨-, fs, rfl, -⟩ := Holdings.tried_save_spec hsave
      cases ht
      exact ⟨rfl, .inr hr⟩
    all_goals
      cases ht
      try cases hr
  | merge hash =>
    simp only [tick] at ht
    split at ht
    · cases ht
      exact ⟨rfl, .inr hr⟩
    · cases ht
      cases hr
    · cases ht
  | writeMerged text clean =>
    obtain ⟨fs, hw, -⟩ | ⟨fs, hw, -⟩ := h.write_cases env r.cachePath text
    · simp only [tick, hw] at ht
      cases clean with
      | true =>
        cases ht
        exact ⟨rfl, .inr hr⟩
      | false => cases ht
    · simp only [tick, hw] at ht
      cases ht
  | readLocal =>
    simp only [tick] at ht
    split at ht
    · cases ht
      exact ⟨rfl, .inr hr⟩
    · cases ht
  | _ =>
    simp only [tick] at ht
    repeat' split at ht
    all_goals
      cases ht
      try cases hr

/-! ## What a party has seen stays -/

theorem Proc.SeenIn.congr {p : Proc} {path : Str} {r r' : Remote} (hp : p.replaces = some path)
    (hobj : r'.object path = r.object path) (h : p.SeenIn r) : p.SeenIn r' := by
  cases p with
  | upload | snapshot => trivial
  | resolve entry cachePath seen pc =>
    rw [replaces] at hp
    split at hp
    · obtain rfl := Option.some.inj hp
      exact hobj.trans h
    · cases hp
  | command r seen pc =>
    rw [replaces] at hp
    split at hp
    · obtain rfl := Option.some.inj hp
      rw [SeenIn] at h ⊢
      split at h
      · rwa [hobj]
      · rwa [hobj]
    · cases hp

namespace Bench

variable {m : Mount} {t : MergeTools} {b b' : Bench}

/-- A party that has moved and is still going to replace a version has seen it. -/
theorem seenIn_of_tick {env : ResolveEnv} {p q : Proc}
    (hp : p.replaces.isSome = true → p.SeenIn b.hold.world.remote)
    (hq : q ∈ (p.tick t b.hold env).2) (hr : q.replaces.isSome = true) :
    q.SeenIn (p.tick t b.hold env).1.world.remote := by
  cases p with
  | upload i path pc =>
    obtain ⟨_, _, -, rfl, -⟩ | ⟨_, -, rfl⟩ := (Proc.uploadTick_spec _ _ i path pc).2 q hq
    all_goals cases hr
  | snapshot i path pc =>
    obtain ⟨_, rfl⟩ := (Proc.snapshotTick_spec i path pc).2 q hq
    cases hr
  | resolve entry path seen pc =>
    rw [Proc.tick, Proc.resolveTick_fst]
    obtain ⟨seen', pc', hpc, rfl, hseen⟩ | ⟨-, rfl⟩ := Proc.mem_resolveTick hq
    · have hrep : pc'.replacing = true := by
        rw [Proc.replaces] at hr
        split at hr
        · assumption
        · cases hr
      obtain ⟨hremote, hpc⟩ := ResolvePc.replacing_of_tick (Prod.ext rfl hpc) hrep
      rw [hremote, Proc.SeenIn]
      obtain ⟨-, rfl⟩ | ⟨hnot, rfl⟩ := hseen
      · rfl
      · obtain ⟨hash, rfl⟩ | hpc := hpc
        · exact absurd rfl (hnot hash)
        · exact hp (by rw [Proc.replaces, if_pos hpc]; rfl)
    · cases hr
  | command r seen pc =>
    rw [Proc.tick, Proc.commandTick_fst]
    obtain ⟨seen', pc', hpc, rfl, hseen⟩ := Proc.mem_commandTick hq
    have hrep : pc'.replacing r.command = true := by
      rw [Proc.replaces] at hr
      split at hr
      · assumption
      · cases hr
    obtain ⟨hremote, hpc⟩ := CommandRun.replacing_of_tick (Prod.ext rfl hpc) hrep
    rw [hremote]
    obtain ⟨hc, hash, rfl⟩ | hpc := hpc
    · rw [Proc.SeenIn, hc]
      obtain ⟨-, rfl⟩ | ⟨hnot, -⟩ := hseen
      · rfl
      · exact absurd rfl (hnot hash)
    · have hbefore := hp (by rw [Proc.replaces, if_pos hpc]; rfl)
      obtain ⟨⟨hash, rfl⟩, rfl⟩ | ⟨-, rfl⟩ := hseen
      · have hc : r.command = .keepLocal := of_decide_eq_true hpc
        rw [Proc.SeenIn, hc] at hbefore ⊢
        exact hbefore
      · exact hbefore

theorem Seen.step {ev : BenchEvent} (hi : b.Seen) (hg : SparesSeen m t b ev)
    (h : step m t b ev = some b') : b'.Seen := by
  refine procs_of_step h ?_ ?_ ?_
  · intro p hp hr
    obtain ⟨path, hpath⟩ := Option.isSome_iff_exists.1 hr
    exact (hi p (mem_of_mem_bystanders hp) hr).congr hpath (hg.1 p hp path hpath b' h)
  · rintro k env p rfl hk hhold q hq hr
    rw [hhold]
    exact seenIn_of_tick (hi p (List.mem_of_getElem? hk)) hq hr
  · intro p hp hr
    cases hp with
    | upload => cases hr
    | hydrated hp =>
      obtain ⟨_, _, _, _, _, _, _, -, -, -, rfl⟩ := mem_hydrated hp
      cases hr
    | resolve => cases hr
    | @command c rel context path hadmits hp =>
      have hc : c = .keepLocal := by
        rw [Proc.replaces] at hr
        split at hr
        · exact of_decide_eq_true ‹_›
        · cases hr
      subst hc
      have hb : b'.hold = b.hold := by
        rw [Bench.step, if_pos hadmits, hp] at h
        rw [← Option.some.inj h]
      rw [hb]
      exact hg.2

theorem replacesSeen_of_step {ev : BenchEvent} (hi : b.Seen) : ReplacesSeen b ev b' := by
  rintro k env p - - hk hs
  refine hi p (List.mem_of_getElem? hk) ?_
  cases p with
  | upload | snapshot => cases hs
  | resolve entry path seen pc =>
    cases pc with
    | putMerged => rfl
    | _ => cases hs
  | command r seen pc =>
    cases pc with
    | putLocal data =>
      have hpc : (CommandPc.putLocal data).replacing r.command = true := hs
      rw [Proc.replaces, if_pos hpc]
      rfl
    | _ => cases hs

/-- **A merge replaces only the version it has seen**, in every run in which no other step changes
that version while the merge is at work. -/
theorem replacesSeen_of_guarded {evs : List BenchEvent} (h₀ : b.Seen)
    (hg : Guarded (step m t) (SparesSeen m t) b evs) : Along (step m t) ReplacesSeen b evs :=
  along_of_guarded (I := Seen) (fun _ _ _ hi hg h => hi.step hg h)
    (fun _ _ _ hi _ _ => replacesSeen_of_step hi) h₀ hg

end Bench

/-! ## A version that is replaced unseen -/

/-- The first line of `a.txt` is changed, and the last by another client; the resolver merges the
two up to its upload. -/
def mergedText (after : List BenchEvent) : List BenchEvent :=
  uploadedText ++
    [.world (.request (.write 1 0 (asciiBytes "4\n2\n3\n"))), .world (.fuse .fine),
      .world (foreignVersion "a.txt".toList (asciiBytes "1\n2\n5\n") ['w']), .launch 2] ++
    callsOf 0 6 ++ .resolve 0 :: callsOf 0 5 ++ after ++ callsOf 0 4

theorem replacesSeen_mergedText :
    Along (Bench.step sampleMount sampleTools) Bench.ReplacesSeen (Bench.init sampleMount 0)
      (mergedText [] ++ [putBy 0 ['x']]) :=
  have hseen : (Bench.init sampleMount 0).Seen := fun _ hp => by cases hp
  Bench.replacesSeen_of_guarded hseen (by decide)

/-- A third version comes after the download. -/
def thirdVersion : List BenchEvent :=
  mergedText [.world (foreignVersion "a.txt".toList (asciiBytes "1\n6\n5\n") ['w', 'w'])]

theorem not_replacesSeen_thirdVersion :
    ¬∀ (m : Mount) (t : MergeTools) (evs : List BenchEvent),
      Along (Bench.step m t) Bench.ReplacesSeen (Bench.init m 0) evs := by
  intro h
  have hreplaced : ∀ b b', run (Bench.step sampleMount sampleTools) (Bench.init sampleMount 0)
      thirdVersion = some b → ¬Bench.ReplacesSeen b (putBy 0 ['x']) b' := by
    intro b b' hb hreplaces
    obtain rfl := Option.some.inj hb
    exact absurd (hreplaces 0 _ _ rfl rfl rfl rfl) (by decide)
  have hrun := h sampleMount sampleTools (thirdVersion ++ [putBy 0 ['x']])
  exact hreplaced _ _ rfl (hrun.drop rfl _ rfl).1

end Stratosync

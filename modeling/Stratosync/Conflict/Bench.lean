import Stratosync.Conflict.Commands
import Stratosync.Daemon.Step

/-!
# Everything at work on the files of a mount

The system of the daemon together with the parties that work on conflicts and bases: the conflict
resolver, the tasks that store base versions, the command line program. A `Bench` is their state,
`Bench.step` one call of one of them. The uploads are among these parties, because a base is stored
after each; the requests, hydrations, evictions and changes by other clients are steps of the
daemon's system as it is.

A party knows nothing of the others: what it read some calls ago it takes for the state of things.
-/

namespace Stratosync

open Foundations.Pool Foundations.Tasks

/-- Where the snapshot of a base version is. -/
inductive SnapshotPc
  /-- About to look whether the file can be merged as text. -/
  | check (size : ℕ)
  | store (pc : BaseTaskPc)

/-- A party at work on a file. The statements speak of `seen`, the remote version a party has
fetched last; no step reads it. -/
inductive Proc
  /-- `run_upload`; the path is that of the file it has read. -/
  | upload (inode : Inode) (cachePath : PathBuf) (pc : UploadPc)
  | snapshot (inode : Inode) (cachePath : PathBuf) (pc : SnapshotPc)
  | resolve (entry : FileEntry) (cachePath : PathBuf) (seen : Option RemoteObject) (pc : ResolvePc)
  | command (run : CommandRun) (seen : Option RemoteObject) (pc : CommandPc)

namespace Proc

variable (t : MergeTools) (h : Holdings) (env : ResolveEnv)

/-- An upload's next call. One that is recorded leaves a snapshot to be taken. -/
def uploadTick (i : Inode) (cachePath : PathBuf) (pc : UploadPc) : Holdings × List Proc :=
  match pc, Upload.tick h.world i env.toEnv pc with
  | .record metadata, (world, some (.finish (.ok ()))) =>
    ({ h with world }, [.upload i cachePath (.finish (.ok ())),
      .snapshot i cachePath (.check metadata.size)])
  | .read _ path, (world, pc') => ({ h with world }, (pc'.map (.upload i path)).toList)
  | _, (world, pc') => ({ h with world }, (pc'.map (.upload i cachePath)).toList)

def snapshotTick (i : Inode) (cachePath : PathBuf) : SnapshotPc → Holdings × List Proc
  | .check size =>
    let content := if env.fault then none else h.world.fs.files cachePath
    (h, if isTextMergeable t cachePath content size then [.snapshot i cachePath (.store .hash)]
      else [])
  | .store pc =>
    match BaseTask.tick t h env.toEnv ⟨i, cachePath, pc⟩ with
    | (h', pc') => (h', (pc'.map fun pc => .snapshot i cachePath (.store pc)).toList)

/-- The resolver's next call. A clean merge leaves its result to be stored as the base. -/
def resolveTick (entry : FileEntry) (cachePath : PathBuf) (seen : Option RemoteObject)
    (pc : ResolvePc) : Holdings × List Proc :=
  let seen' := match pc with
    | .mergeFetch _ => h.world.remote.object entry.remotePath
    | _ => seen
  match pc.tick t entry cachePath h env with
  | (h', .goto pc') => (h', [.resolve entry cachePath seen' pc'])
  | (h', .ok .merged) => (h', [.snapshot entry.inode cachePath (.store .hash)])
  | (h', _) => (h', [])

def commandTick (r : CommandRun) (seen : Option RemoteObject) (pc : CommandPc) :
    Holdings × List Proc :=
  let seen' := match pc with
    | .fetchRemote _ => h.world.remote.object r.entry.remotePath
    | _ => seen
  match r.tick t h env pc with
  | (h', .goto pc') => (h', [.command r seen' pc'])
  | (h', _) => (h', [])

/-- The next call of a party, and what becomes of it. -/
def tick : Proc → Holdings × List Proc
  | .upload i cachePath pc => uploadTick h env i cachePath pc
  | .snapshot i cachePath pc => snapshotTick t h env i cachePath pc
  | .resolve entry cachePath seen pc => resolveTick t h env entry cachePath seen pc
  | .command r seen pc => commandTick t h env r seen pc

/-! ## What becomes of a party -/

variable {t h env} {q : Proc}

/-- An upload goes on, on the path it has read from last, or has been recorded. -/
theorem uploadTick_spec (h : Holdings) (env : ResolveEnv) (i : Inode) (cachePath : PathBuf)
    (pc : UploadPc) :
    (uploadTick h env i cachePath pc).1 =
        { h with world := (Upload.tick h.world i env.toEnv pc).1 } ∧
      ∀ q ∈ (uploadTick h env i cachePath pc).2,
        (∃ path pc', (Upload.tick h.world i env.toEnv pc).2 = some pc' ∧ q = .upload i path pc' ∧
          ((∃ entry, pc = .read entry path) ∨
            (∀ entry path, pc ≠ .read entry path) ∧ path = cachePath)) ∨
        ∃ metadata, pc = .record metadata ∧ q = .snapshot i cachePath (.check metadata.size) := by
  unfold uploadTick
  split
  · rename_i metadata world htick
    rw [htick]
    refine ⟨rfl, fun q hq => ?_⟩
    obtain rfl | hq := List.mem_cons.1 hq
    · exact .inl ⟨_, _, rfl, rfl, .inr ⟨fun _ _ h => (by cases h), rfl⟩⟩
    · exact .inr ⟨metadata, rfl, List.mem_singleton.1 hq⟩
  · rename_i entry path world pc' htick
    rw [htick]
    refine ⟨rfl, fun q hq => ?_⟩
    obtain ⟨pc', rfl, rfl⟩ := Option.map_eq_some_iff.1 (Option.mem_toList.1 hq)
    exact .inl ⟨_, _, rfl, rfl, .inl ⟨entry, rfl⟩⟩
  · rename_i world pc' _ hread htick
    rw [htick]
    refine ⟨rfl, fun q hq => ?_⟩
    obtain ⟨pc', rfl, rfl⟩ := Option.map_eq_some_iff.1 (Option.mem_toList.1 hq)
    exact .inl ⟨_, _, rfl, rfl, .inr ⟨hread, rfl⟩⟩

/-- What a snapshot leaves is a snapshot of the same file, and the world as it is. -/
theorem snapshotTick_spec (i : Inode) (cachePath : PathBuf) (pc : SnapshotPc) :
    (snapshotTick t h env i cachePath pc).1.world = h.world ∧
      ∀ q ∈ (snapshotTick t h env i cachePath pc).2, ∃ pc', q = .snapshot i cachePath pc' := by
  cases pc with
  | check size =>
    refine ⟨rfl, fun q hq => ?_⟩
    rw [snapshotTick] at hq
    generalize isTextMergeable t cachePath _ size = text at hq
    cases text with
    | true => exact ⟨_, List.mem_singleton.1 hq⟩
    | false => cases hq
  | store pc =>
    refine ⟨BaseTask.world_tick t h env.toEnv ⟨i, cachePath, pc⟩, fun q hq => ?_⟩
    obtain ⟨pc', -, rfl⟩ := Option.map_eq_some_iff.1 (Option.mem_toList.1 hq)
    exact ⟨_, rfl⟩

theorem resolveTick_fst (entry : FileEntry) (cachePath : PathBuf) (seen : Option RemoteObject)
    (pc : ResolvePc) : (resolveTick t h env entry cachePath seen pc).1 =
      (pc.tick t entry cachePath h env).1 := by
  simp only [resolveTick]
  split <;> rename_i htick <;> rw [htick]

/-- The resolver goes on, or has merged. -/
theorem mem_resolveTick {entry : FileEntry} {cachePath : PathBuf} {seen : Option RemoteObject}
    {pc : ResolvePc} (hq : q ∈ (resolveTick t h env entry cachePath seen pc).2) :
    (∃ seen' pc', (pc.tick t entry cachePath h env).2 = .goto pc' ∧
      q = .resolve entry cachePath seen' pc' ∧
      (((∃ hash, pc = .mergeFetch hash) ∧ seen' = h.world.remote.object entry.remotePath) ∨
        (∀ hash, pc ≠ .mergeFetch hash) ∧ seen' = seen)) ∨
    ((pc.tick t entry cachePath h env).2 = .ok .merged ∧
      q = .snapshot entry.inode cachePath (.store .hash)) := by
  simp only [resolveTick] at hq
  split at hq
  · rename_i pc' htick
    rw [htick]
    refine .inl ⟨_, pc', rfl, List.mem_singleton.1 hq, ?_⟩
    split
    · exact .inl ⟨⟨_, rfl⟩, rfl⟩
    · rename_i hpc
      exact .inr ⟨hpc, rfl⟩
  · rename_i htick
    rw [htick]
    exact .inr ⟨rfl, List.mem_singleton.1 hq⟩
  · cases hq

theorem commandTick_fst (r : CommandRun) (seen : Option RemoteObject) (pc : CommandPc) :
    (commandTick t h env r seen pc).1 = (r.tick t h env pc).1 := by
  simp only [commandTick]
  split <;> rename_i htick <;> rw [htick]

/-- A command goes on. -/
theorem mem_commandTick {r : CommandRun} {seen : Option RemoteObject} {pc : CommandPc}
    (hq : q ∈ (commandTick t h env r seen pc).2) :
    ∃ seen' pc', (r.tick t h env pc).2 = .goto pc' ∧ q = .command r seen' pc' ∧
      (((∃ hash, pc = .fetchRemote hash) ∧ seen' = h.world.remote.object r.entry.remotePath) ∨
        (∀ hash, pc ≠ .fetchRemote hash) ∧ seen' = seen) := by
  simp only [commandTick] at hq
  split at hq
  · rename_i pc' htick
    rw [htick]
    refine ⟨_, pc', rfl, List.mem_singleton.1 hq, ?_⟩
    split
    · exact .inl ⟨⟨_, rfl⟩, rfl⟩
    · rename_i hpc
      exact .inr ⟨hpc, rfl⟩
  · cases hq

end Proc

/-- The state of the daemon, the blobs and bases, and the parties at work. -/
structure Bench where
  hold : Holdings
  procs : List Proc

inductive BenchEvent
  /-- A step of the daemon's system that is not of its uploads. -/
  | world (ev : Event)
  | launch (inode : Inode)
  | proc (k : ℕ) (env : ResolveEnv)
  /-- The resolver takes the conflict at position `k`. -/
  | resolve (k : ℕ)
  /-- The user runs a command on this path, which is resolved to this context. -/
  | command (command : Command) (rel : Str) (context : ResolveContext)
  /-- The version history stores a blob. -/
  | version (hash : Str) (data : Bytes)

namespace Bench

/-- The snapshot that a hydration leaves to be taken when it records the cache file. -/
def hydrated (w : World) : Event → List Proc
  | .hydration k env =>
    match w.hydrations[k]? with
    | some ⟨i, .record entry cachePath, _⟩ =>
      match w.fs.files cachePath with
      | some data =>
        if (World.tryDb env (w.db.setCached i cachePath data.length entry.etag entry.mtime
          entry.size)).isSome then [.snapshot i cachePath (.check data.length)]
        else []
      | none => []
    | _ => []
  | _ => []

/-- A command may have come to this context: those on conflicts by `resolve_path`, pinning by a
lookup of the file or of a directory it is in. -/
def Admits (m : Mount) (db : Db) (rel : Str) (context : ResolveContext) : Command → Prop
  | .pin => context.conflictSibling = none ∧ context.entry.kind = .file ∧
      db.getByInode context.entry.inode = some context.entry
  | _ => context ∈ resolvePath db m.mountId rel

instance (m : Mount) (db : Db) (rel : Str) (context : ResolveContext) :
    DecidablePred (Admits m db rel context)
  | .pin => inferInstanceAs (Decidable (_ ∧ _ ∧ _))
  | .keepLocal | .keepRemote | .merge => inferInstanceAs (Decidable (_ ∈ _))

variable (m : Mount) (t : MergeTools) (b : Bench)

/-- **One step of the whole**; `none` when the event is not enabled. -/
def step : BenchEvent → Option Bench
  | .world (.launch _) | .world (.upload ..) => none
  | .world ev =>
    (Stratosync.step m b.hold.world ev).map fun world =>
      { hold := { b.hold with world }, procs := b.procs ++ hydrated b.hold.world ev }
  | .launch i =>
    if b.hold.world.pending.contains i then
      some
        { hold := { b.hold with
            world := { b.hold.world with pending := b.hold.world.pending.filter (· ≠ i) } }
          procs := b.procs ++ [.upload i [] .load] }
    else none
  | .proc k env =>
    b.procs[k]?.map fun p =>
      let r := p.tick t b.hold env
      ⟨r.1, become b.procs k r.2⟩
  | .resolve k =>
    b.hold.world.conflicts[k]?.map fun entry =>
      { hold := { b.hold with
          world := { b.hold.world with conflicts := b.hold.world.conflicts.eraseIdx k } }
        procs := b.procs ++ (entry.cachePath.map fun p => .resolve entry p none .equalStat).toList }
  | .command command rel context =>
    if Admits m b.hold.world.db rel context command then
      (command.cachePath m context.entry).map fun p =>
        { b with procs := b.procs ++ [.command ⟨command, context, p⟩ none .start] }
    else none
  | .version hash data =>
    some { b with hold :=
      { b.hold with objects := Function.update b.hold.objects hash (some data) } }

/-- A daemon that has just been set up. -/
def init (now : ℕ) : Bench :=
  { hold := { world := World.init m now, objects := fun _ => none, baseHash := fun _ => none }
    procs := [] }

/-! ## What a step does to the parties -/

/-- The parties whose step it is not. -/
def bystanders : BenchEvent → List Proc
  | .proc k _ => b.procs.eraseIdx k
  | _ => b.procs

theorem mem_of_mem_bystanders {b : Bench} {ev : BenchEvent} {p : Proc} (h : p ∈ b.bystanders ev) :
    p ∈ b.procs := by
  cases ev with
  | proc => exact List.mem_of_mem_eraseIdx h
  | _ => exact h

theorem mem_hydrated {w : World} {ev : Event} {p : Proc} (h : p ∈ hydrated w ev) :
    ∃ k env i entry cachePath reader data, ev = .hydration k env ∧
      w.hydrations[k]? = some ⟨i, .record entry cachePath, reader⟩ ∧
      w.fs.files cachePath = some data ∧ p = .snapshot i cachePath (.check data.length) := by
  cases ev with
  | hydration k env =>
    rw [hydrated] at h
    split at h
    · rename_i i entry cachePath reader hk
      split at h
      · rename_i data hdata
        split at h
        · exact ⟨k, env, i, entry, cachePath, reader, data, rfl, hk, hdata,
            List.mem_singleton.1 h⟩
        · cases h
      · cases h
    · cases h
  | _ => cases h

/-- The parties that come into being in a step. -/
inductive Fresh : BenchEvent → Proc → Prop
  | upload {i} : Fresh (.launch i) (.upload i [] .load)
  | hydrated {ev p} (h : p ∈ hydrated b.hold.world ev) : Fresh (.world ev) p
  | resolve {k entry path} (h : b.hold.world.conflicts[k]? = some entry)
      (hp : entry.cachePath = some path) : Fresh (.resolve k) (.resolve entry path none .equalStat)
  | command {c rel context path} (h : Admits m b.hold.world.db rel context c)
      (hp : c.cachePath m context.entry = some path) :
      Fresh (.command c rel context) (.command ⟨c, context, path⟩ none .start)

variable {m t b} {b' : Bench}

theorem world_of_step {ev : Event} (h : step m t b (.world ev) = some b') :
    ∃ world, Stratosync.step m b.hold.world ev = some world ∧ b' =
      { hold := { b.hold with world }, procs := b.procs ++ hydrated b.hold.world ev } := by
  have hmap : (Stratosync.step m b.hold.world ev).map (fun world =>
      ({ hold := { b.hold with world }, procs := b.procs ++ hydrated b.hold.world ev } : Bench)) =
        some b' := by
    cases ev with
    | launch | upload => cases h
    | _ => exact h
  obtain ⟨world, hw, rfl⟩ := Option.map_eq_some_iff.1 hmap
  exact ⟨world, hw, rfl⟩

/-- **Where the parties after a step come from**: they are others than the one whose step it is,
what becomes of that one, or fresh. -/
theorem procs_of_step {ev : BenchEvent} (h : step m t b ev = some b') {P : Proc → Prop}
    (hold : ∀ p ∈ b.bystanders ev, P p)
    (hmoved : ∀ k env p, ev = .proc k env → b.procs[k]? = some p →
      b'.hold = (p.tick t b.hold env).1 → ∀ q ∈ (p.tick t b.hold env).2, P q)
    (hfresh : ∀ p, Fresh m b ev p → P p) : ∀ p ∈ b'.procs, P p := by
  cases ev with
  | world ev =>
    obtain ⟨world, -, rfl⟩ := world_of_step h
    exact forall_append hold fun p hp => hfresh p (.hydrated hp)
  | launch i =>
    rw [step] at h
    split at h
    · obtain rfl := Option.some.inj h
      refine forall_append hold fun p hp => ?_
      obtain rfl := List.mem_singleton.1 hp
      exact hfresh _ .upload
    · cases h
  | proc k env =>
    obtain ⟨p, hp, rfl⟩ := Option.map_eq_some_iff.1 h
    exact forall_become (fun j q hj hq => hold q (List.mem_eraseIdx_iff_getElem?.2 ⟨j, hj, hq⟩))
      (hmoved k env p rfl hp rfl)
  | resolve k =>
    obtain ⟨entry, hentry, rfl⟩ := Option.map_eq_some_iff.1 h
    refine forall_append hold fun p hp => ?_
    obtain ⟨path, hpath, rfl⟩ := Option.map_eq_some_iff.1 (Option.mem_toList.1 hp)
    exact hfresh _ (.resolve hentry hpath)
  | command c rel context =>
    rw [step] at h
    split at h
    · rename_i hadmits
      obtain ⟨path, hpath, rfl⟩ := Option.map_eq_some_iff.1 h
      refine forall_append hold fun p hp => ?_
      obtain rfl := List.mem_singleton.1 hp
      exact hfresh _ (.command hadmits hpath)
    · cases h
  | version hash data =>
    obtain rfl := Option.some.inj h
    exact hold

end Bench

/-! ## A file for runs on fixed inputs -/

/-- `git merge-file` where the versions change different lines of the base, of one character each,
in place. -/
def inPlaceMerge (loc base remote : Bytes) : MergeOutcome :=
  if ((loc.zip base).zip remote).all fun x => x.1.1 = x.1.2 || x.2 = x.1.2 then
    .clean (((loc.zip base).zip remote).map fun x => if x.1.1 = x.1.2 then x.2 else x.1.1)
  else .failed

def sampleTools : MergeTools :=
  { textConflictStrategy := .merge, textExtensions := ["txt".toList], baseMaxFileSize := 100
    hasGit := true, mergeFile := inPlaceMerge
    sha256 := fun data => data.map fun byte => Char.ofNat byte.toNat, lower := id }

/-- The calls of one party, none of which fails. -/
def callsOf (k n : ℕ) : List BenchEvent := List.replicate n (.proc k (.fine exampleSuffix.ts))

/-- The call in which the server takes an upload and gives the version this etag. -/
def putBy (k : ℕ) (etag : Str) : BenchEvent :=
  .proc k { ResolveEnv.fine exampleSuffix.ts with etag := some etag }

/-- `a.txt`, new, is written. -/
def writtenText : List BenchEvent :=
  [.world (.request (.create fuseRootInode "a.txt".toList)),
    .world (.request (.write 1 0 (asciiBytes "1\n2\n3\n"))), .world (.fuse .fine)]

/-- It is uploaded up to the transfer; the server gives it etag `v`. -/
def transferredText : List BenchEvent :=
  writtenText ++ .launch 2 :: callsOf 0 4 ++ [putBy 0 ['v']]

/-- The upload is recorded, and the base stored. -/
def uploadedText : List BenchEvent := transferredText ++ callsOf 0 8

end Stratosync

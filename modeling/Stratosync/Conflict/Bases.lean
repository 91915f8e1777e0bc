import Stratosync.Conflict.Bench
import Stratosync.Daemon.Hydrations
import Stratosync.Foundations.Replicas
import Stratosync.Foundations.Runs

/-!
# Bases are common ancestors

The base of a row is taken from its cache file some calls after a transfer. `ancestorBases_of_run`:
in every run in which the file stays as it was transferred until the base is copied, the transfers
of one row do not overlap, and no two contents have one hash, the base of a row is a version the
remote has held and from which both the cache file and the remote object descend.

The lines of versions are those of `Foundations.Replicas`, with the cache file of a row as the copy
at hand and its object as the one far away. Whatever else changes one of them, a write or another
client, changes it in place.
-/

namespace Stratosync

open Foundations.Pool Foundations.Replicas Foundations.Runs Foundations.Tasks

/-! ## The transfers of each party -/

def UploadPc.transfer : UploadPc → Option UploadPc → Option (Transfer Bytes)
  | .read .., some (.put _ data) => some (.read data)
  | .put _ data, some (.stat _) => some (.put data)
  | _, _ => none

def HydrationPc.transfer : HydrationPc → HydrationNext → Option (Transfer Bytes)
  | .download .., .goto (.install _ _ data) => some (.fetch data)
  | .install _ _ data, .goto (.record ..) => some (.save data)
  | _, _ => none

/-- The download of a merge is to another file. -/
def ResolvePc.transfer : ResolvePc → ResolveNext → Option (Transfer Bytes)
  | .readMerged _, .goto (.putMerged _ data) => some (.read data)
  | .putMerged _ data, .goto (.statMerged _) => some (.put data)
  | .fetchRemote _, .goto (.saveRemote _ data) => some (.fetch data)
  | .saveRemote _ data, .goto (.statRemote _) => some (.save data)
  | _, _ => none

def CommandPc.transfer : CommandPc → CommandNext → Option (Transfer Bytes)
  | .readLocal, .goto (.putLocal data) => some (.read data)
  | .putLocal data, .goto .statUploaded => some (.put data)
  | .fetchRemote none, .goto (.saveRemote _ data) => some (.fetch data)
  | .saveRemote none data, .goto _ => some (.save data)
  | _, _ => none

/-- The cache file is to be the base as it is. -/
def BaseTaskPc.reads : BaseTaskPc → Bool
  | .record _ => false
  | _ => true

def ResolvePc.toBase : ResolvePc → Bool
  | .putMerged .. | .statMerged _ | .recordMerged .. => true
  | _ => false

def CommandPc.toBase (command : Command) : CommandPc → Bool
  | .putLocal _ | .statUploaded | .deleteSibling | .deleteRow _ | .statCanonical | .record _ =>
    command = .merge
  | .storeBase pc => pc.reads
  | _ => false

/-- A transfer is under way, or its base is still to be recorded. -/
def ResolvePc.between : ResolvePc → Bool
  | .saveRemote .. => true
  | pc => pc.toBase

def CommandPc.between (command : Command) : CommandPc → Bool
  | .putLocal _ | .saveRemote none _ | .storeBase _ => true
  | pc => pc.toBase command

def UploadPc.toBase : UploadPc → Bool
  | .put .. | .stat _ | .record _ => true
  | _ => false

namespace Proc

/-- The row a party works on. -/
def row : Proc → Inode
  | .upload i .. | .snapshot i .. => i
  | .resolve entry .. => entry.inode
  | .command run .. => run.entry.inode

def between : Proc → Bool
  | .upload _ _ pc => pc.toBase
  | .snapshot .. => true
  | .resolve _ _ _ pc => pc.between
  | .command run _ pc => pc.between run.command

/-- The row with whose transfer, or with the base it leaves, the party is busy. -/
def window (p : Proc) : Option Inode := if p.between then some p.row else none

/-- The transfer the party's next call is part of. -/
def transfer (t : MergeTools) (h : Holdings) (env : ResolveEnv) : Proc → Option (Transfer Bytes)
  | .upload i _ pc => pc.transfer (Upload.tick h.world i env.toEnv pc).2
  | .snapshot .. => none
  | .resolve entry cachePath _ pc => pc.transfer (pc.tick t entry cachePath h env).2
  | .command run _ pc => pc.transfer (run.tick t h env pc).2

/-- The cache file that is to be the base as it is. -/
def basePath : Proc → Option PathBuf
  | .upload _ cachePath pc => if pc.toBase then some cachePath else none
  | .snapshot _ cachePath (.check _) => some cachePath
  | .snapshot _ cachePath (.store pc) => if pc.reads then some cachePath else none
  | .resolve _ cachePath _ pc => if pc.toBase then some cachePath else none
  | .command run _ pc => if pc.toBase run.command then some run.cachePath else none

/-- The hash the party's next call looks up or stores a blob under, and the file that has it. -/
def stores (h : Holdings) : Proc → Option (Str × Option Bytes)
  | .snapshot _ cachePath (.store (.look hash)) | .snapshot _ cachePath (.store (.copy hash)) =>
    some (hash, h.world.fs.files cachePath)
  | .command run _ (.storeBase (.look hash)) | .command run _ (.storeBase (.copy hash)) =>
    some (hash, h.world.fs.files run.cachePath)
  | _ => none

end Proc

def Hydration.window (x : Hydration) : Option Inode :=
  if x.pc.downloaded then some x.inode else none

def Hydration.basePath (x : Hydration) : Option PathBuf :=
  match x.pc with
  | .record _ cachePath => some cachePath
  | _ => none

/-! ## The bench with the lines of each row -/

/-- For each row its cache file and its object. -/
abbrev Lines := Inode → Copies Bytes

def Lines.next (L : Lines) : Option (Inode × Transfer Bytes) → Lines
  | some (i, transfer) => Function.update L i ((L i).after transfer)
  | none => L

theorem Lines.next_map (L : Lines) (i : Inode) (transfer : Option (Transfer Bytes)) :
    L.next (transfer.map (i, ·)) = Function.update L i ((L i).next transfer) := by
  cases transfer with
  | none => exact (Function.update_eq_self i L).symm
  | some => rfl

namespace Bench

variable (m : Mount) (t : MergeTools) (b : Bench)

/-- The transfer a step is part of. -/
def transfer : BenchEvent → Option (Inode × Transfer Bytes)
  | .proc k env => b.procs[k]?.bind fun p => (p.transfer t b.hold env).map (p.row, ·)
  | .world (.hydration k env) => b.hold.world.hydrations[k]?.bind fun x =>
    (x.pc.transfer (Hydration.tick m b.hold.world x.inode env x.pc).2).map (x.inode, ·)
  | _ => none

/-- The rows that are being transferred, or have a base to come. -/
def windows : List Inode :=
  b.procs.filterMap Proc.window ++ b.hold.world.hydrations.filterMap Hydration.window

/-- The cache files that are to be bases as they are. -/
def basePaths : List PathBuf :=
  b.procs.filterMap Proc.basePath ++ b.hold.world.hydrations.filterMap Hydration.basePath

/-- The hash a step looks up or stores a blob under, and the content that has it. -/
def stores : BenchEvent → Option (Str × Option Bytes)
  | .version hash data => some (hash, some data)
  | .proc k _ => b.procs[k]?.bind (Proc.stores b.hold)
  | _ => none

end Bench

section

variable (m : Mount) (t : MergeTools)

/-- The bench, with the lines of each row. -/
def linesStep : Bench × Lines → BenchEvent → Option (Bench × Lines) :=
  withHistory (Bench.step m t) fun b ev _ L => L.next (b.transfer m t ev)

/-- **The base of a row is a common ancestor**: a version the remote has held and from which the
cache file and the remote object descend. -/
def AncestorBases (x : Bench × Lines) : Prop :=
  ∀ i hash data, x.1.hold.getBaseHash i = some hash → x.1.hold.objects hash = some data →
    (x.2 i).Common data

/-- No transfers of one row overlap, no step changes a cache file that is to be a base, and a blob
under the hash of a content has that content. -/
def Undisturbed (x : Bench × Lines) (ev : BenchEvent) : Prop :=
  x.1.windows.Nodup ∧
  (∀ b' ∈ Bench.step m t x.1 ev, ∀ path ∈ x.1.basePaths,
    b'.hold.world.fs.files path = x.1.hold.world.fs.files path) ∧
  ∀ s ∈ x.1.stores ev, ∀ data ∈ x.1.hold.objects s.1, s.2 = some data

instance (x : Bench × Lines) : DecidablePred (Undisturbed m t x) := fun _ =>
  inferInstanceAs (Decidable (_ ∧ _ ∧ _))

end

/-! ## What carries the bases -/

namespace Holdings

variable (h : Holdings)

/-- The content of the base of a row. -/
def base (i : Inode) : Option Bytes := (h.baseHash i).bind h.objects

/-- The cache file, as it is, has been exchanged with the remote. -/
def Exchanged (c : Copies Bytes) (cachePath : PathBuf) : Prop :=
  ∀ data ∈ h.world.fs.files cachePath, c.Common data

end Holdings

def BaseTaskPc.Sound (h : Holdings) (c : Copies Bytes) (cachePath : PathBuf) : BaseTaskPc → Prop
  | .record digest => ∃ data, h.objects digest = some data ∧ c.Common data
  | _ => h.Exchanged c cachePath

def UploadPc.Sound (h : Holdings) (c : Copies Bytes) (i : Inode) (cachePath : PathBuf) :
    UploadPc → Prop
  | .put _ data => c.Leaving (h.base i) data ∧ h.world.fs.files cachePath = some data
  | .stat _ | .record _ => h.Exchanged c cachePath
  | _ => True

def SnapshotPc.Sound (h : Holdings) (c : Copies Bytes) (cachePath : PathBuf) : SnapshotPc → Prop
  | .check _ => h.Exchanged c cachePath
  | .store pc => pc.Sound h c cachePath

def ResolvePc.Sound (h : Holdings) (c : Copies Bytes) (i : Inode) (cachePath : PathBuf) :
    ResolvePc → Prop
  | .putMerged _ data => c.Leaving (h.base i) data ∧ h.world.fs.files cachePath = some data
  | .statMerged _ | .recordMerged .. => h.Exchanged c cachePath
  | .saveRemote _ data => c.Coming (h.base i) data
  | _ => True

def CommandPc.Sound (h : Holdings) (c : Copies Bytes) (run : CommandRun) : CommandPc → Prop
  | .putLocal data => c.Leaving (h.base run.entry.inode) data ∧
    (run.command = .merge → h.world.fs.files run.cachePath = some data)
  | .statUploaded | .deleteSibling | .deleteRow _ | .statCanonical | .record _ =>
    run.command = .merge → h.Exchanged c run.cachePath
  | .fetchRemote none => run.command ≠ .merge
  | .saveRemote none data => run.command ≠ .merge ∧ c.Coming (h.base run.entry.inode) data
  | .storeBase pc => pc.Sound h c run.cachePath
  | _ => True

def Hydration.Sound (h : Holdings) (c : Copies Bytes) (x : Hydration) : Prop :=
  match x.pc with
  | .install _ _ data => c.Coming (h.base x.inode) data
  | .record _ cachePath => h.Exchanged c cachePath
  | _ => True

/-- What a party must have for its base to be a common ancestor. -/
def Proc.Sound (h : Holdings) (L : Lines) : Proc → Prop
  | .upload i cachePath pc => pc.Sound h (L i) i cachePath
  | .snapshot i cachePath pc => pc.Sound h (L i) cachePath
  | .resolve entry cachePath _ pc => pc.Sound h (L entry.inode) entry.inode cachePath
  | .command run _ pc => pc.Sound h (L run.entry.inode) run

/-- What carries the bases: their blobs are there, they are common ancestors, and every party has
what it must have. -/
structure BasesSound (x : Bench × Lines) : Prop where
  stored : ∀ i hash, x.1.hold.baseHash i = some hash → (x.1.hold.objects hash).isSome = true
  common : ∀ i, ∀ data ∈ x.1.hold.base i, (x.2 i).Common data
  procs : ∀ p ∈ x.1.procs, p.Sound x.1.hold x.2
  hydrations : ∀ y ∈ x.1.hold.world.hydrations, y.Sound x.1.hold (x.2 y.inode)

/-! ## What others do -/

/-- The blobs that are there stay. -/
def Holdings.KeepsBlobs (h h' : Holdings) : Prop :=
  ∀ hash data, h.objects hash = some data → h'.objects hash = some data

/-- To a row at most reads happened. -/
structure Unaffected (h h' : Holdings) (c c' : Copies Bytes) (i : Inode) : Prop where
  base : h'.base i = h.base i
  grown : c.Grown c'

section Others

variable {h h' : Holdings} {c c' : Copies Bytes} {i : Inode} {cachePath : PathBuf}

theorem Holdings.base_congr (hstored : ∀ hash, h.baseHash i = some hash →
    (h.objects hash).isSome = true) (hblobs : h.KeepsBlobs h')
    (hhash : h'.baseHash i = h.baseHash i) : h'.base i = h.base i := by
  rw [base, base, hhash]
  cases hi : h.baseHash i with
  | none => rfl
  | some hash =>
    obtain ⟨data, hdata⟩ := Option.isSome_iff_exists.1 (hstored hash hi)
    rw [Option.bind_some, Option.bind_some, hdata, hblobs hash data hdata]

theorem Holdings.Exchanged.congr (he : h.Exchanged c cachePath) (hg : c.Grown c')
    (hfile : h'.world.fs.files cachePath = h.world.fs.files cachePath) :
    h'.Exchanged c' cachePath := by
  intro data hdata
  rw [hfile] at hdata
  exact (he data hdata).grown hg

theorem BaseTaskPc.Sound.congr {pc : BaseTaskPc} (hs : pc.Sound h c cachePath)
    (hblobs : h.KeepsBlobs h') (hg : c.Grown c')
    (hfile : pc.reads = true → h'.world.fs.files cachePath = h.world.fs.files cachePath) :
    pc.Sound h' c' cachePath := by
  cases pc with
  | record digest =>
    obtain ⟨data, hdata, hcommon⟩ := hs
    exact ⟨data, hblobs digest data hdata, hcommon.grown hg⟩
  | _ => exact Holdings.Exchanged.congr hs hg (hfile rfl)

/-- A party that did not move has what it had, where its row is unaffected and the file that is to
be a base is as it was. -/
theorem Proc.Sound.congr {p : Proc} {L L' : Lines} (hs : p.Sound h L)
    (hblobs : h.KeepsBlobs h') (hrow : ∀ i ∈ p.window, Unaffected h h' (L i) (L' i) i)
    (hfile : ∀ path ∈ p.basePath, h'.world.fs.files path = h.world.fs.files path) :
    p.Sound h' L' := by
  cases p with
  | upload i cachePath pc =>
    cases pc with
    | put entry data =>
      obtain ⟨hbase, hg⟩ := hrow i rfl
      exact ⟨hbase ▸ hs.1.grown hg, (hfile cachePath rfl).trans hs.2⟩
    | stat | record => exact Holdings.Exchanged.congr hs (hrow i rfl).grown (hfile cachePath rfl)
    | _ => trivial
  | snapshot i cachePath pc =>
    cases pc with
    | check => exact Holdings.Exchanged.congr hs (hrow i rfl).grown (hfile cachePath rfl)
    | store pc =>
      refine BaseTaskPc.Sound.congr hs hblobs (hrow i rfl).grown fun hreads => ?_
      exact hfile cachePath (if_pos hreads)
  | resolve entry cachePath seen pc =>
    cases pc with
    | putMerged size data =>
      obtain ⟨hbase, hg⟩ := hrow entry.inode rfl
      exact ⟨hbase ▸ hs.1.grown hg, (hfile cachePath rfl).trans hs.2⟩
    | statMerged | recordMerged =>
      exact Holdings.Exchanged.congr hs (hrow entry.inode rfl).grown (hfile cachePath rfl)
    | saveRemote name data =>
      obtain ⟨hbase, hg⟩ := hrow entry.inode rfl
      rw [Sound, ResolvePc.Sound, hbase]
      exact Copies.Coming.grown hs hg
    | _ => trivial
  | command run seen pc =>
    cases pc with
    | putLocal data =>
      obtain ⟨hbase, hg⟩ := hrow run.entry.inode rfl
      refine ⟨hbase ▸ hs.1.grown hg, fun hc => ?_⟩
      exact (hfile run.cachePath (if_pos (decide_eq_true hc))).trans (hs.2 hc)
    | statUploaded | deleteSibling | deleteRow | statCanonical | record =>
      intro hc
      have hpos : decide (run.command = .merge) = true := decide_eq_true hc
      exact (hs hc).congr (hrow run.entry.inode (if_pos hpos)).grown
        (hfile run.cachePath (if_pos hpos))
    | fetchRemote hash =>
      cases hash with
      | none => exact hs
      | some => trivial
    | saveRemote hash data =>
      cases hash with
      | none =>
        obtain ⟨hbase, hg⟩ := hrow run.entry.inode rfl
        rw [Sound, CommandPc.Sound, hbase]
        exact ⟨hs.1, hs.2.grown hg⟩
      | some => trivial
    | storeBase pc =>
      refine BaseTaskPc.Sound.congr hs hblobs (hrow run.entry.inode rfl).grown fun hreads => ?_
      exact hfile run.cachePath (if_pos hreads)
    | _ => trivial

theorem Hydration.Sound.congr {x : Hydration} (hs : x.Sound h c)
    (hrow : ∀ i ∈ x.window, Unaffected h h' c c' i)
    (hfile : ∀ path ∈ x.basePath, h'.world.fs.files path = h.world.fs.files path) :
    x.Sound h' c' := by
  obtain ⟨i, pc, reader⟩ := x
  cases pc with
  | install entry cachePath data =>
    obtain ⟨hbase, hg⟩ := hrow i rfl
    rw [Sound, hbase]
    exact Copies.Coming.grown hs hg
  | record entry cachePath =>
    exact Holdings.Exchanged.congr hs (hrow i rfl).grown (hfile cachePath rfl)
  | _ => trivial

end Others

/-! ## What each party does -/

/-- What a party of a row does to the bases. -/
structure PartyStep (h h' : Holdings) (c' : Copies Bytes) (i : Inode) : Prop where
  blobs : h.KeepsBlobs h'
  others : ∀ j, j ≠ i → h'.baseHash j = h.baseHash j
  stored : ∀ hash, h'.baseHash i = some hash → (h'.objects hash).isSome = true
  common : ∀ data ∈ h'.base i, c'.Common data

section Parties

variable {t : MergeTools} {h h' : Holdings} {c : Copies Bytes} {i : Inode} {cachePath : PathBuf}

/-- A copy of the file that is as it was exchanged, once it has been put. -/
theorem Holdings.exchanged_put {data : Bytes} (hl : c.Leaving (h.base i) data)
    (hfile : h'.world.fs.files cachePath = some data) :
    h'.Exchanged (c.after (.put data)) cachePath := by
  intro data' hdata
  rw [hfile] at hdata
  obtain rfl := Option.some.inj hdata
  exact Copies.common_put hl

/-- **An upload.** -/
theorem UploadPc.sound_of_tick {env : Env} {pc : UploadPc} {w' : World} {next : Option UploadPc}
    (hb : ∀ data ∈ h.base i, c.Common data) (hs : pc.Sound h c i cachePath)
    (ht : Upload.tick h.world i env pc = (w', next)) :
    (∀ data ∈ h.base i, (c.next (pc.transfer next)).Common data) ∧
      (pc.toBase = false → c.Grown (c.next (pc.transfer next))) ∧
      ∀ path pc', next = some pc' → ((∃ entry, pc = .read entry path) ∨
        (∀ entry path, pc ≠ .read entry path) ∧ path = cachePath) →
          pc'.Sound { h with world := w' } (c.next (pc.transfer next)) i path := by
  cases pc with
  | read entry from_ =>
    simp only [Upload.tick] at ht
    split at ht
    · cases ht
      refine ⟨hb, fun _ => .refl c, ?_⟩
      rintro path pc' ⟨⟩ -
      trivial
    · cases ht
      refine ⟨hb, fun _ => .refl c, ?_⟩
      rintro path pc' ⟨⟩ -
      trivial
    · rename_i data _ hfile
      cases ht
      refine ⟨fun b hbase => (hb b hbase).grown (Copies.grown_read c data),
        fun _ => Copies.grown_read c data, ?_⟩
      rintro path pc' ⟨⟩ (⟨_, ⟨⟩⟩ | ⟨hread, -⟩)
      · exact ⟨Copies.leaving_read hb, hfile⟩
      · exact absurd rfl (hread _ _)
  | put entry data =>
    simp only [Upload.tick] at ht
    split at ht
    · cases ht
      refine ⟨hb, fun h => (by cases h), ?_⟩
      rintro path pc' ⟨⟩ -
      trivial
    split at ht
    · cases ht
      refine ⟨hb, fun h => (by cases h), ?_⟩
      rintro path pc' ⟨⟩ -
      trivial
    · cases ht
      refine ⟨Copies.base_put hs.1 hb, fun h => (by cases h), ?_⟩
      rintro path pc' ⟨⟩ (⟨_, ⟨⟩⟩ | ⟨-, rfl⟩)
      exact Holdings.exchanged_put hs.1 hs.2
  | stat entry =>
    simp only [Upload.tick] at ht
    split at ht
    all_goals
      cases ht
      refine ⟨hb, fun h => (by cases h), ?_⟩
      rintro path pc' ⟨⟩ (⟨_, ⟨⟩⟩ | ⟨-, rfl⟩)
      first
        | exact hs
        | trivial
  | record metadata =>
    simp only [Upload.tick] at ht
    split at ht
    all_goals
      cases ht
      refine ⟨hb, fun h => (by cases h), ?_⟩
      rintro path pc' ⟨⟩ -
      trivial
  | finish result =>
    refine ⟨hb, fun _ => .refl c, ?_⟩
    rintro path pc' rfl -
    cases result with
    | ok => cases ht
    | error e =>
      cases e
      all_goals
        simp only [Upload.tick] at ht
        split at ht <;> cases ht
  | _ =>
    refine ⟨hb, fun _ => .refl c, ?_⟩
    rintro path pc' rfl -
    simp only [Upload.tick] at ht
    repeat' split at ht
    all_goals
      cases ht
      trivial

/-- The party changes neither blobs nor bases. -/
theorem partyStep_of_eq {c' : Copies Bytes}
    (hstored : ∀ hash, h.baseHash i = some hash → (h.objects hash).isSome = true)
    (hobjects : h'.objects = h.objects) (hhash : h'.baseHash = h.baseHash)
    (hcommon : ∀ data ∈ h.base i, c'.Common data) : PartyStep h h' c' i where
  blobs := fun hash data hdata => hobjects ▸ hdata
  others := fun j _ => by rw [hhash]
  stored := by
    rw [hobjects, hhash]
    exact hstored
  common := by
    rw [Holdings.base, hobjects, hhash]
    exact hcommon

/-- **A task that stores a base.** -/
theorem BaseTaskPc.sound_of_tick {env : Env} {pc : BaseTaskPc} {next : Option BaseTaskPc}
    (hstored : ∀ hash, h.baseHash i = some hash → (h.objects hash).isSome = true)
    (hb : ∀ data ∈ h.base i, c.Common data) (hs : pc.Sound h c cachePath)
    (hblob : ∀ digest, pc = .look digest ∨ pc = .copy digest → ∀ data ∈ h.objects digest,
      h.world.fs.files cachePath = some data)
    (ht : BaseTask.tick t h env ⟨i, cachePath, pc⟩ = (h', next)) :
    PartyStep h h' c i ∧ ∀ pc' ∈ next, pc'.Sound h' c cachePath := by
  cases pc with
  | hash =>
    simp only [BaseTask.tick] at ht
    split at ht
    all_goals
      cases ht
      refine ⟨partyStep_of_eq hstored rfl rfl hb, ?_⟩
      rintro pc' ⟨⟩
    exact hs
  | look digest =>
    cases ht
    refine ⟨partyStep_of_eq hstored rfl rfl hb, ?_⟩
    rintro pc' ⟨⟩
    split
    · rename_i hsome
      obtain ⟨data, hdata⟩ := Option.isSome_iff_exists.1 hsome
      exact ⟨data, hdata, hs data (hblob digest (.inl rfl) data hdata)⟩
    · exact hs
  | copy digest =>
    simp only [BaseTask.tick] at ht
    split at ht
    · cases ht
      refine ⟨partyStep_of_eq hstored rfl rfl hb, ?_⟩
      rintro pc' ⟨⟩
    · rename_i data hfile
      split at hfile
      · cases hfile
      cases ht
      have hblobs : h.KeepsBlobs { h with
          objects := Function.update h.objects digest (some data) } := by
        intro hash data' hdata'
        by_cases hhash : hash = digest
        · subst hhash
          exact (Function.update_self ..).trans
            (hfile.symm.trans (hblob hash (.inr rfl) data' hdata'))
        · exact (Function.update_of_ne hhash _ _).trans hdata'
      refine ⟨⟨hblobs, fun _ _ => rfl, fun hash hhash => ?_, ?_⟩, ?_⟩
      · obtain ⟨data', hdata'⟩ := Option.isSome_iff_exists.1 (hstored hash hhash)
        rw [hblobs hash data' hdata']
        rfl
      · rw [Holdings.base_congr hstored hblobs rfl]
        exact hb
      · rintro pc' ⟨⟩
        exact ⟨data, Function.update_self .., hs data hfile⟩
  | record digest =>
    obtain ⟨data, hdata, hcommon⟩ := hs
    cases ht
    refine ⟨?_, by rintro pc' ⟨⟩⟩
    split
    · exact partyStep_of_eq hstored rfl rfl hb
    rw [Holdings.setBaseHash]
    split
    · refine ⟨fun _ _ h => h, fun j hj => Function.update_of_ne hj _ _, ?_, ?_⟩
      · intro hash hhash
        have hhash : Function.update h.baseHash i (some digest) i = some hash := hhash
        rw [Function.update_self] at hhash
        obtain rfl := Option.some.inj hhash
        exact Option.isSome_iff_exists.2 ⟨data, hdata⟩
      · intro data' hdata'
        dsimp only [Holdings.base] at hdata'
        rw [Function.update_self, Option.bind_some, hdata] at hdata'
        obtain rfl := Option.some.inj hdata'
        exact hcommon
    · exact partyStep_of_eq hstored rfl rfl hb

/-- The resolver changes neither blobs nor bases, and no hydration. -/
theorem ResolvePc.stores_of_tick {entry : FileEntry} {env : ResolveEnv} {pc : ResolvePc}
    {next : ResolveNext} (ht : pc.tick t entry cachePath h env = (h', next)) :
    h'.objects = h.objects ∧ h'.baseHash = h.baseHash ∧
      h'.world.hydrations = h.world.hydrations := by
  cases pc with
  | mergeSave | saveRemote =>
    simp only [tick] at ht
    split at ht
    · rename_i hsave
      obtain ⟨-, fs, rfl, -⟩ := Holdings.tried_save_spec hsave
      cases ht
      exact ⟨rfl, rfl, rfl⟩
    · cases ht
      exact ⟨rfl, rfl, rfl⟩
  | writeMerged text clean =>
    obtain ⟨fs, hw, -⟩ | ⟨fs, hw, -⟩ := h.write_cases env cachePath text
    · simp only [tick, hw] at ht
      cases clean with
      | true | false =>
        cases ht
        exact ⟨rfl, rfl, rfl⟩
    · simp only [tick, hw] at ht
      cases ht
      exact ⟨rfl, rfl, rfl⟩
  | _ =>
    simp only [tick] at ht
    repeat' split at ht
    all_goals
      cases ht
      exact ⟨rfl, rfl, rfl⟩

/-- **The resolver.** -/
theorem ResolvePc.sound_of_tick {entry : FileEntry} {env : ResolveEnv} {pc : ResolvePc}
    {next : ResolveNext} (hb : ∀ data ∈ h.base entry.inode, c.Common data)
    (hs : pc.Sound h c entry.inode cachePath)
    (hfile : pc.toBase = true → h'.world.fs.files cachePath = h.world.fs.files cachePath)
    (ht : pc.tick t entry cachePath h env = (h', next)) :
    (∀ data ∈ h.base entry.inode, (c.next (pc.transfer next)).Common data) ∧
      (pc.between = false → c.Grown (c.next (pc.transfer next))) ∧
      (∀ pc', next = .goto pc' → pc'.Sound h' (c.next (pc.transfer next)) entry.inode cachePath) ∧
      (next = .ok .merged → h'.Exchanged (c.next (pc.transfer next)) cachePath) := by
  cases pc with
  | readMerged size =>
    simp only [tick] at ht
    split at ht
    · rename_i data _ hdata
      cases ht
      refine ⟨fun b hbase => (hb b hbase).grown (Copies.grown_read c data),
        fun _ => Copies.grown_read c data, ?_, fun h => (by cases h)⟩
      rintro pc' ⟨⟩
      exact ⟨Copies.leaving_read hb, hdata⟩
    · cases ht
      exact ⟨hb, fun _ => .refl c, fun _ h => (by cases h), fun h => (by cases h)⟩
  | putMerged size data =>
    simp only [tick] at ht
    split at ht
    · cases ht
      refine ⟨Copies.base_put hs.1 hb, fun h => (by cases h), ?_, fun h => (by cases h)⟩
      rintro pc' ⟨⟩
      exact Holdings.exchanged_put hs.1 hs.2
    · cases ht
      exact ⟨hb, fun h => (by cases h), fun _ h => (by cases h), fun h => (by cases h)⟩
  | statMerged size =>
    simp only [tick] at ht
    split at ht
    · cases ht
      refine ⟨hb, fun h => (by cases h), ?_, fun h => (by cases h)⟩
      rintro pc' ⟨⟩
      exact hs
    · cases ht
      exact ⟨hb, fun h => (by cases h), fun _ h => (by cases h), fun h => (by cases h)⟩
  | recordMerged size metadata =>
    have hexchanged : h'.Exchanged c cachePath :=
      Holdings.Exchanged.congr hs (.refl c) (hfile rfl)
    refine ⟨hb, fun h => (by cases h), ?_, fun _ => hexchanged⟩
    rintro pc' rfl
    simp only [tick] at ht
    split at ht <;> cases ht
  | fetchRemote name =>
    simp only [tick] at ht
    split at ht
    · rename_i o _ _
      cases ht
      refine ⟨fun b hbase => (hb b hbase).grown (Copies.grown_fetch c o.data),
        fun _ => Copies.grown_fetch c o.data, ?_, fun h => (by cases h)⟩
      rintro pc' ⟨⟩
      exact Copies.coming_fetch hb
    · cases ht
      exact ⟨hb, fun _ => .refl c, fun _ h => (by cases h), fun h => (by cases h)⟩
  | saveRemote name data =>
    simp only [tick] at ht
    split at ht
    · cases ht
      refine ⟨Copies.base_save hs hb, fun h => (by cases h), ?_, fun h => (by cases h)⟩
      rintro pc' ⟨⟩
      trivial
    · cases ht
      exact ⟨hb, fun h => (by cases h), fun _ h => (by cases h), fun h => (by cases h)⟩
  | _ =>
    refine ⟨hb, fun _ => .refl c, ?_, ?_⟩
    · rintro pc' rfl
      simp only [tick] at ht
      repeat' split at ht
      all_goals cases ht <;> trivial
    · rintro rfl
      simp only [tick] at ht
      repeat' split at ht
      all_goals cases ht

/-- Nor does a command, before it stores a base. -/
theorem CommandRun.stores_of_tick {r : CommandRun} {env : ResolveEnv} {pc : CommandPc}
    {next : CommandNext} (hpc : ∀ task, pc ≠ .storeBase task)
    (ht : r.tick t h env pc = (h', next)) :
    h'.objects = h.objects ∧ h'.baseHash = h.baseHash ∧
      h'.world.hydrations = h.world.hydrations := by
  cases pc with
  | start =>
    cases hc : r.command with
    | keepLocal | merge | keepRemote | pin =>
      simp only [tick, begin_, begin_.createDir, hc] at ht
      repeat' split at ht
      all_goals
        cases ht
        exact ⟨rfl, rfl, rfl⟩
  | saveRemote hash data =>
    have hsaved : ∀ h'', (if env.fault = true then none else h.save r.target data) = some h'' →
        h''.objects = h.objects ∧ h''.baseHash = h.baseHash ∧
          h''.world.hydrations = h.world.hydrations := by
      intro h'' hsave
      obtain ⟨-, fs, rfl, -⟩ := Holdings.tried_save_spec hsave
      exact ⟨rfl, rfl, rfl⟩
    simp only [tick] at ht
    split at ht
    · rename_i hsave
      cases ht
      exact hsaved _ hsave
    · rename_i hsave _
      cases ht
      exact hsaved _ hsave
    · rename_i hsave _
      cases ht
      exact hsaved _ hsave
    · cases ht
      exact ⟨rfl, rfl, rfl⟩
  | writeMerged text clean =>
    obtain ⟨fs, hw, -⟩ | ⟨fs, hw, -⟩ := h.write_cases env r.cachePath text
    all_goals
      simp only [tick, hw] at ht
      cases ht
      exact ⟨rfl, rfl, rfl⟩
  | storeBase task => exact absurd rfl (hpc task)
  | _ =>
    simp only [tick] at ht
    repeat' split at ht
    all_goals
      cases ht
      exact ⟨rfl, rfl, rfl⟩

/-- **A command.** -/
theorem CommandRun.sound_of_tick {r : CommandRun} {env : ResolveEnv} {pc : CommandPc}
    {next : CommandNext}
    (hstored : ∀ hash, h.baseHash r.entry.inode = some hash → (h.objects hash).isSome = true)
    (hb : ∀ data ∈ h.base r.entry.inode, c.Common data) (hs : pc.Sound h c r)
    (hblob : ∀ digest, pc = .storeBase (.look digest) ∨ pc = .storeBase (.copy digest) →
      ∀ data ∈ h.objects digest, h.world.fs.files r.cachePath = some data)
    (ht : r.tick t h env pc = (h', next)) :
    PartyStep h h' (c.next (pc.transfer next)) r.entry.inode ∧
      (pc.between r.command = false → c.Grown (c.next (pc.transfer next))) ∧
      ∀ pc', next = .goto pc' → pc'.Sound h' (c.next (pc.transfer next)) r := by
  have hstep : (∀ task, pc ≠ .storeBase task) → ∀ c' : Copies Bytes,
      (∀ data ∈ h.base r.entry.inode, c'.Common data) → PartyStep h h' c' r.entry.inode := by
    intro hpc c' hcommon
    obtain ⟨hobjects, hhash, -⟩ := stores_of_tick hpc ht
    exact partyStep_of_eq hstored hobjects hhash hcommon
  cases pc with
  | start =>
    refine ⟨hstep (by rintro _ ⟨⟩) c hb, fun _ => .refl c, ?_⟩
    rintro pc' rfl
    cases hc : r.command with
    | keepLocal | merge =>
      simp only [tick, begin_, hc] at ht
      repeat' split at ht
      all_goals cases ht <;> trivial
    | keepRemote | pin =>
      simp only [tick, begin_, begin_.createDir, hc] at ht
      repeat' split at ht
      all_goals
        cases ht
        try trivial
      all_goals
        rw [CommandPc.Sound, hc]
        decide
  | readLocal =>
    simp only [tick] at ht
    split at ht
    · rename_i data _ hdata
      cases ht
      refine ⟨hstep (by rintro _ ⟨⟩) _ fun b hbase =>
        (hb b hbase).grown (Copies.grown_read c data), fun _ => Copies.grown_read c data, ?_⟩
      rintro pc' ⟨⟩
      exact ⟨Copies.leaving_read hb, fun _ => hdata⟩
    · cases ht
      exact ⟨hstep (by rintro _ ⟨⟩) c hb, fun _ => .refl c, fun _ h => (by cases h)⟩
  | putLocal data =>
    simp only [tick] at ht
    split at ht
    · cases ht
      refine ⟨hstep (by rintro _ ⟨⟩) _ (Copies.base_put hs.1 hb), fun h => (by cases h), ?_⟩
      rintro pc' ⟨⟩ hc
      exact Holdings.exchanged_put hs.1 (hs.2 hc)
    · cases ht
      exact ⟨hstep (by rintro _ ⟨⟩) c hb, fun h => (by cases h), fun _ h => (by cases h)⟩
  | fetchRemote hash =>
    simp only [tick] at ht
    split at ht
    · rename_i o _ _
      cases ht
      cases hash with
      | none =>
        refine ⟨hstep (by rintro _ ⟨⟩) _ fun b hbase =>
          (hb b hbase).grown (Copies.grown_fetch c o.data),
          fun _ => Copies.grown_fetch c o.data, ?_⟩
        rintro pc' ⟨⟩
        exact ⟨hs, Copies.coming_fetch hb⟩
      | some hash =>
        refine ⟨hstep (by rintro _ ⟨⟩) c hb, fun _ => .refl c, ?_⟩
        rintro pc' ⟨⟩
        trivial
    · cases ht
      cases hash with
      | none | some =>
        exact ⟨hstep (by rintro _ ⟨⟩) c hb, fun _ => .refl c, fun _ h => (by cases h)⟩
  | saveRemote hash data =>
    cases hash with
    | some hash =>
      refine ⟨hstep (by rintro _ ⟨⟩) c hb, fun _ => .refl c, ?_⟩
      rintro pc' rfl
      simp only [tick] at ht
      repeat' split at ht
      all_goals cases ht <;> trivial
    | none =>
      have hcommon : ∀ b ∈ h.base r.entry.inode,
          (c.next ((CommandPc.saveRemote none data).transfer next)).Common b := by
        intro b hbase
        cases next with
        | goto => exact Copies.base_save hs.2 hb b hbase
        | ok | err => exact hb b hbase
      refine ⟨hstep (by rintro _ ⟨⟩) _ hcommon, fun h => (by cases h), ?_⟩
      rintro pc' rfl
      simp only [tick] at ht
      split at ht
      · contradiction
      · cases ht
        exact fun hc => absurd hc hs.1
      · cases ht
        exact fun hc => absurd hc hs.1
      · cases ht
  | record metadata =>
    refine ⟨hstep (by rintro _ ⟨⟩) c hb, fun _ => .refl c, ?_⟩
    rintro pc' rfl
    simp only [tick] at ht
    split at ht
    · cases ht
      trivial
    · rename_i hc
      cases ht
      exact hs hc
    · cases ht
    · cases ht
  | storeBase task =>
    have hdigest : ∀ digest, task = .look digest ∨ task = .copy digest →
        ∀ data ∈ h.objects digest, h.world.fs.files r.cachePath = some data :=
      fun digest hd => hblob digest (hd.imp (congrArg _) (congrArg _))
    simp only [tick] at ht
    split at ht
    · rename_i htask
      cases ht
      obtain ⟨hparty, hsound⟩ := BaseTaskPc.sound_of_tick hstored hb hs hdigest htask
      refine ⟨hparty, fun _ => .refl c, ?_⟩
      rintro pc' ⟨⟩
      exact hsound _ rfl
    · rename_i htask
      cases ht
      obtain ⟨hparty, -⟩ := BaseTaskPc.sound_of_tick hstored hb hs hdigest htask
      exact ⟨hparty, fun _ => .refl c, fun _ h => (by cases h)⟩
  | statUploaded | deleteSibling | deleteRow | statCanonical =>
    refine ⟨hstep (by rintro _ ⟨⟩) c hb, fun _ => .refl c, ?_⟩
    rintro pc' rfl
    simp only [tick] at ht
    repeat' split at ht
    all_goals cases ht <;> exact hs
  | _ =>
    refine ⟨hstep (by rintro _ ⟨⟩) c hb, fun _ => .refl c, ?_⟩
    rintro pc' rfl
    simp only [tick] at ht
    repeat' split at ht
    all_goals cases ht <;> trivial

/-- **A hydration.** -/
theorem Hydration.sound_of_tick {m : Mount} {x : Hydration} {env : Env} {w' : World}
    {next : HydrationNext} (hb : ∀ data ∈ h.base x.inode, c.Common data) (hs : x.Sound h c)
    (ht : Hydration.tick m h.world x.inode env x.pc = (w', next)) :
    (∀ data ∈ h.base x.inode, (c.next (x.pc.transfer next)).Common data) ∧
      (x.pc.downloaded = false → c.Grown (c.next (x.pc.transfer next))) ∧
      ∀ pc world, next = .goto pc → world.fs = w'.fs →
        ({ x with pc } : Hydration).Sound { h with world } (c.next (x.pc.transfer next)) := by
  obtain ⟨i, pc, reader⟩ := x
  cases pc with
  | download entry cachePath =>
    simp only [tick] at ht
    split at ht
    · rename_i o _ _
      cases ht
      refine ⟨fun b hbase => (hb b hbase).grown (Copies.grown_fetch c o.data),
        fun _ => Copies.grown_fetch c o.data, ?_⟩
      rintro pc world ⟨⟩ -
      exact Copies.coming_fetch hb
    all_goals
      cases ht
      refine ⟨hb, fun _ => .refl c, ?_⟩
      rintro pc world ⟨⟩ -
      trivial
  | install entry cachePath data =>
    simp only [tick] at ht
    split at ht
    · cases ht
      refine ⟨hb, fun h => (by cases h), ?_⟩
      rintro pc world ⟨⟩ -
      trivial
    · rename_i fs hfs
      split at ht
      · cases ht
        refine ⟨hb, fun h => (by cases h), ?_⟩
        rintro pc world ⟨⟩ -
        trivial
      · cases ht
        refine ⟨Copies.base_save hs hb, fun h => (by cases h), ?_⟩
        rintro pc world ⟨⟩ hworld
        obtain ⟨fs₁, -, hinstall⟩ := Option.bind_eq_some_iff.1 hfs
        intro data' hdata'
        change world.fs.files cachePath = some data' at hdata'
        rw [hworld, CacheFs.files_of_install hinstall, if_pos rfl] at hdata'
        obtain rfl := Option.some.inj hdata'
        exact Copies.common_save hs
  | record entry cachePath =>
    refine ⟨hb, fun h => (by cases h), ?_⟩
    rintro pc world rfl -
    simp only [tick] at ht
    repeat' split at ht
    all_goals
      cases ht
      trivial
  | wait attempt signal =>
    refine ⟨hb, fun _ => .refl c, ?_⟩
    rintro pc world rfl -
    obtain _ | _ | _ := signal
    · simp only [tick] at ht
      split at ht <;> cases ht
      trivial
    · cases ht
    · cases ht
  | _ =>
    refine ⟨hb, fun _ => .refl c, ?_⟩
    rintro pc world rfl -
    simp only [tick] at ht
    repeat' split at ht
    all_goals cases ht <;> trivial

/-- What a step of a party does to its row and what it leaves for the next one. -/
structure Proc.Moves (t : MergeTools) (h : Holdings) (env : ResolveEnv) (L L' : Lines) (p : Proc) :
    Prop where
  step : PartyStep h (p.tick t h env).1 (L' p.row) p.row
  apart : p.between = false → (p.tick t h env).1.baseHash p.row = h.baseHash p.row ∧
    (L p.row).Grown (L' p.row)
  hydrations : (p.tick t h env).1.world.hydrations = h.world.hydrations
  next : ∀ q ∈ (p.tick t h env).2, q.Sound (p.tick t h env).1 L'

/-- **Each party.** -/
theorem Proc.moves {p : Proc} {L : Lines} {env : ResolveEnv}
    (hstored : ∀ hash, h.baseHash p.row = some hash → (h.objects hash).isSome = true)
    (hb : ∀ data ∈ h.base p.row, (L p.row).Common data) (hs : p.Sound h L)
    (hblob : ∀ s ∈ p.stores h, ∀ data ∈ h.objects s.1, s.2 = some data)
    (hfile : ∀ path ∈ p.basePath, (p.tick t h env).1.world.fs.files path = h.world.fs.files path) :
    p.Moves t h env L (L.next ((p.transfer t h env).map (p.row, ·))) := by
  have hrow : L.next ((p.transfer t h env).map (p.row, ·)) p.row =
      (L p.row).next (p.transfer t h env) := by
    rw [Lines.next_map, Function.update_self]
  generalize L.next ((p.transfer t h env).map (p.row, ·)) = L' at hrow
  cases p with
  | upload i cachePath pc =>
    change L' i = (L i).next (pc.transfer (Upload.tick h.world i env.toEnv pc).2) at hrow
    have hb : ∀ data ∈ h.base i, (L i).Common data := hb
    obtain ⟨hhold, hprocs⟩ := uploadTick_spec h env i cachePath pc
    have htick : Upload.tick h.world i env.toEnv pc =
      ((Upload.tick h.world i env.toEnv pc).1, (Upload.tick h.world i env.toEnv pc).2) := rfl
    obtain ⟨hcommon, hgrown, hnext⟩ := UploadPc.sound_of_tick hb hs htick
    rw [← hrow] at hcommon hgrown hnext
    constructor
    · rw [tick, hhold]
      exact partyStep_of_eq hstored rfl rfl hcommon
    · rw [tick, hhold]
      exact fun hbetween => ⟨rfl, hgrown hbetween⟩
    · obtain ⟨_, _, _, _, hw⟩ := upload_tick_eq h.world i env.toEnv pc
      rw [tick, hhold, hw]
    · intro q hq
      rw [tick, hhold]
      obtain ⟨path, pc', hpc, rfl, hpath⟩ | ⟨metadata, rfl, rfl⟩ := hprocs q hq
      · exact hnext path pc' hpc hpath
      · refine Holdings.Exchanged.congr hs ?_ (hhold ▸ hfile cachePath rfl)
        rw [hrow]
        exact .refl (L i)
  | snapshot i cachePath pc =>
    change L' i = L i at hrow
    have hb : ∀ data ∈ h.base i, (L i).Common data := hb
    cases pc with
    | check size =>
      constructor
      · exact partyStep_of_eq hstored rfl rfl (hrow ▸ hb)
      · exact fun h => by cases h
      · rfl
      · intro q hq
        rw [tick, snapshotTick] at hq
        generalize isTextMergeable t cachePath _ size = text at hq
        cases text with
        | true =>
          obtain rfl := List.mem_singleton.1 hq
          change h.Exchanged (L' i) cachePath
          exact hrow ▸ hs
        | false => cases hq
    | store task =>
      have htick : BaseTask.tick t h env.toEnv ⟨i, cachePath, task⟩ =
        ((BaseTask.tick t h env.toEnv ⟨i, cachePath, task⟩).1,
          (BaseTask.tick t h env.toEnv ⟨i, cachePath, task⟩).2) := rfl
      have hdigest : ∀ digest, task = .look digest ∨ task = .copy digest →
          ∀ data ∈ h.objects digest, h.world.fs.files cachePath = some data := by
        rintro digest (rfl | rfl)
        all_goals exact hblob (digest, h.world.fs.files cachePath) rfl
      obtain ⟨hparty, hsound⟩ := BaseTaskPc.sound_of_tick hstored hb hs hdigest htick
      constructor
      · exact hrow ▸ hparty
      · exact fun h => by cases h
      · exact congrArg World.hydrations (snapshotTick_spec i cachePath (.store task)).1
      · intro q hq
        obtain ⟨task', htask, rfl⟩ := Option.map_eq_some_iff.1 (Option.mem_toList.1 hq)
        change task'.Sound _ (L' i) cachePath
        exact hrow ▸ hsound task' htask
  | resolve entry cachePath seen pc =>
    change L' entry.inode = (L entry.inode).next
      (pc.transfer (pc.tick t entry cachePath h env).2) at hrow
    have hb : ∀ data ∈ h.base entry.inode, (L entry.inode).Common data := hb
    have htick : pc.tick t entry cachePath h env = ((pc.tick t entry cachePath h env).1,
      (pc.tick t entry cachePath h env).2) := rfl
    have hfst : ((Proc.resolve entry cachePath seen pc).tick t h env).1 =
      (pc.tick t entry cachePath h env).1 := resolveTick_fst entry cachePath seen pc
    obtain ⟨hcommon, hgrown, hnext, hmerged⟩ := ResolvePc.sound_of_tick hb hs
      (fun hbase => hfst ▸ hfile cachePath (if_pos hbase)) htick
    rw [← hrow] at hcommon hgrown hnext hmerged
    obtain ⟨hobjects, hhash, hhydrations⟩ := ResolvePc.stores_of_tick htick
    constructor
    · rw [hfst]
      exact partyStep_of_eq hstored hobjects hhash hcommon
    · rw [hfst, hhash]
      exact fun hbetween => ⟨rfl, hgrown hbetween⟩
    · rw [hfst, hhydrations]
    · intro q hq
      rw [hfst]
      obtain ⟨_, pc', hpc, rfl, -⟩ | ⟨hok, rfl⟩ := mem_resolveTick hq
      · exact hnext pc' hpc
      · exact hmerged hok
  | command run seen pc =>
    change L' run.entry.inode = (L run.entry.inode).next
      (pc.transfer (run.tick t h env pc).2) at hrow
    have hb : ∀ data ∈ h.base run.entry.inode, (L run.entry.inode).Common data := hb
    have htick : run.tick t h env pc = ((run.tick t h env pc).1, (run.tick t h env pc).2) := rfl
    have hdigest : ∀ digest, pc = .storeBase (.look digest) ∨ pc = .storeBase (.copy digest) →
        ∀ data ∈ h.objects digest, h.world.fs.files run.cachePath = some data := by
      rintro digest (rfl | rfl)
      all_goals exact hblob (digest, h.world.fs.files run.cachePath) rfl
    obtain ⟨hparty, hgrown, hnext⟩ := CommandRun.sound_of_tick hstored hb hs hdigest htick
    rw [← hrow] at hparty hgrown hnext
    have hfst : ((Proc.command run seen pc).tick t h env).1 = (run.tick t h env pc).1 :=
      commandTick_fst run seen pc
    constructor
    · exact hfst ▸ hparty
    · intro hbetween
      have hpc : ∀ task, pc ≠ .storeBase task := by
        rintro task rfl
        cases hbetween
      rw [hfst, (CommandRun.stores_of_tick hpc htick).2.1]
      exact ⟨rfl, hgrown hbetween⟩
    · rw [hfst]
      by_cases hpc : ∃ task, pc = .storeBase task
      · obtain ⟨task, rfl⟩ := hpc
        have hworld := BaseTask.world_tick t h env.toEnv ⟨run.entry.inode, run.cachePath, task⟩
        simp only [CommandRun.tick]
        split <;> rename_i htask <;> rw [htask] at hworld <;>
          exact congrArg World.hydrations hworld
      · exact (CommandRun.stores_of_tick (fun task h => hpc ⟨task, h⟩) htick).2.2
    · intro q hq
      rw [hfst]
      obtain ⟨_, pc', hpc, rfl, -⟩ := mem_commandTick hq
      exact hnext pc' hpc

end Parties

end Stratosync

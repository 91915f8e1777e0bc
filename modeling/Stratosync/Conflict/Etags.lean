import Stratosync.Conflict.Bench
import Stratosync.Foundations.Runs
import Stratosync.Foundations.Versions
import Stratosync.State.Accepts

/-!
# The etag of a row and the bytes of its file

A row is marked as cached at the end of a transfer, with an etag that is fetched by a call of its
own. `namesCached_of_guarded`: in every run in which nothing else changes the remote object between
the transfer and that call, nor the cache file until the row is marked, the bytes of the file are
the version that the etag names, or a later one.
-/

namespace Stratosync

open Foundations.Runs Foundations.Versions

/-! ## What metadata name -/

/-- These bytes are the version the metadata name, or a later one. -/
def ObjectVersions.Names (H : ObjectVersions) (metadata : RemoteMetadata) (data : Bytes) : Prop :=
  ∀ etag ∈ metadata.etag, ∃ o o', AtOrAfter (H metadata.path) o o' ∧ o.etag = some etag ∧
    o'.data = data

theorem ObjectVersions.Names.next {H : ObjectVersions} {metadata : RemoteMetadata} {data : Bytes}
    {r r' : Remote} (h : H.Names metadata data) : (H.next r r').Names metadata data := by
  intro etag hetag
  obtain ⟨o, o', hle, ho, hdata⟩ := h etag hetag
  exact ⟨o, o', hle.record, ho, hdata⟩

/-- The metadata are those of an object at a path. -/
structure RemoteMetadata.Describes (metadata : RemoteMetadata) (path : Str) (o : RemoteObject) :
    Prop where
  path : metadata.path = path
  etag : metadata.etag = o.etag
  size : metadata.size = o.data.length

theorem describes_of_stat {r : Remote} {path : Str} {metadata : RemoteMetadata}
    (h : r.stat path = some metadata) {o : RemoteObject} (ho : o ∈ r.object path) :
    metadata.Describes path o := by
  rw [Option.mem_def, Remote.object] at ho
  split at ho
  · rename_i hpath
    rw [Remote.stat, hpath] at h
    obtain rfl := Option.some.inj h
    obtain rfl := Option.some.inj ho
    exact ⟨rfl, rfl, rfl⟩
  · cases ho

/-- What is described now is named by its metadata. -/
theorem ObjectVersions.UpToDate.names {H : ObjectVersions} {r : Remote} {path : Str}
    {metadata : RemoteMetadata} {o : RemoteObject} (h : H.UpToDate r) (ho : o ∈ r.object path)
    (hd : metadata.Describes path o) : H.Names metadata o.data := by
  intro etag hetag
  rw [hd.etag] at hetag
  rw [hd.path]
  exact ⟨o, o, .of_current (h path) ho, hetag, rfl⟩

/-! ## The parties -/

/-- Between the transfer and the call for the metadata; for the comparison of the contents, between
that call and the transfer. -/
def ResolvePc.watching : ResolvePc → Bool
  | .equalFetch _ | .saveRemote .. | .statRemote _ | .statMerged _ => true
  | _ => false

/-- What of the cache file has been read, or written, is still to be recorded. -/
def ResolvePc.keeping : ResolvePc → Bool
  | .equalFetch _ | .equalCompare .. | .equalRecord _ | .putMerged .. | .statMerged _
  | .recordMerged .. | .statRemote _ | .recordRemote .. => true
  | _ => false

def CommandPc.watching : CommandPc → Bool
  | .saveRemote none _ | .statUploaded | .deleteSibling | .deleteRow _ | .statCanonical => true
  | _ => false

def CommandPc.keeping : CommandPc → Bool
  | .putLocal _ | .statUploaded | .deleteSibling | .deleteRow _ | .statCanonical | .record _ => true
  | _ => false

namespace Proc

/-- The path whose object must stay for the metadata to be those of what was transferred. -/
def watches : Proc → Option Str
  | .upload _ _ (.stat entry) => some entry.remotePath
  | .resolve entry _ _ pc => if pc.watching then some entry.remotePath else none
  | .command run _ pc => if pc.watching then some run.entry.remotePath else none
  | _ => none

/-- The cache file that must stay as it was transferred. -/
def keeps : Proc → Option PathBuf
  | .upload _ cachePath (.put ..) | .upload _ cachePath (.stat _)
  | .upload _ cachePath (.record _) => some cachePath
  | .resolve _ cachePath _ pc => if pc.keeping then some cachePath else none
  | .command run _ pc => if pc.keeping then some run.cachePath else none
  | _ => none

/-- The row that the party's next call marks as cached, and the metadata it takes. -/
def marking (w : World) : Proc → Option (Inode × RemoteMetadata)
  | .upload i _ (.record metadata) => some (i, metadata)
  | .resolve entry _ _ (.recordMerged _ metadata)
  | .resolve entry _ _ (.recordRemote _ _ metadata) => some (entry.inode, metadata)
  | .resolve entry cachePath _ (.equalRecord metadata) =>
    if (w.fs.files cachePath).isSome then some (entry.inode, metadata) else none
  | .command run _ (.record metadata) => some (run.entry.inode, metadata)
  | _ => none

end Proc

/-- The file has the bytes of the object. -/
def World.Agree (w : World) (cachePath : PathBuf) (path : Str) : Prop :=
  ∃ o ∈ w.remote.object path, w.fs.files cachePath = some o.data

/-- The bytes of the file are a version the metadata may name. -/
def World.Backed (w : World) (H : ObjectVersions) (cachePath : PathBuf)
    (metadata : RemoteMetadata) : Prop :=
  ∀ data ∈ w.fs.files cachePath, H.Names metadata data

/-- What the resolver relies on. -/
def ResolvePc.Relies (w : World) (H : ObjectVersions) (entry : FileEntry) (cachePath : PathBuf) :
    ResolvePc → Prop
  | .equalFetch metadata =>
    (∃ data ∈ w.fs.files cachePath, data.length = metadata.size) ∧
      ∀ o ∈ w.remote.object entry.remotePath, metadata.Describes entry.remotePath o
  | .equalCompare metadata remote =>
    (∃ data ∈ w.fs.files cachePath, data.length = metadata.size) ∧
      remote.length = metadata.size ∧ H.Names metadata remote
  | .equalRecord metadata | .recordMerged _ metadata | .recordRemote _ _ metadata =>
    w.Backed H cachePath metadata
  | .putMerged _ data => w.fs.files cachePath = some data
  | .saveRemote _ data => ∃ o ∈ w.remote.object entry.remotePath, o.data = data
  | .statMerged _ | .statRemote _ => w.Agree cachePath entry.remotePath
  | _ => True

/-- What a command relies on; the download of one that is to mark the file goes to the file. -/
def CommandPc.Relies (w : World) (H : ObjectVersions) (run : CommandRun) : CommandPc → Prop
  | .fetchRemote none => run.target = run.cachePath
  | .saveRemote none data =>
    run.target = run.cachePath ∧ ∃ o ∈ w.remote.object run.entry.remotePath, o.data = data
  | .putLocal data => w.fs.files run.cachePath = some data
  | .statUploaded | .deleteSibling | .deleteRow _ | .statCanonical =>
    w.Agree run.cachePath run.entry.remotePath
  | .record metadata => w.Backed H run.cachePath metadata
  | _ => True

/-- What a party relies on for the etag it is going to record. -/
def Proc.Relies (w : World) (H : ObjectVersions) : Proc → Prop
  | .upload _ cachePath (.put _ data) => w.fs.files cachePath = some data
  | .upload _ cachePath (.stat entry) => w.Agree cachePath entry.remotePath
  | .upload _ cachePath (.record metadata) => w.Backed H cachePath metadata
  | .resolve entry cachePath _ pc => pc.Relies w H entry cachePath
  | .command run _ pc => pc.Relies w H run
  | _ => True

/-! ## The bench with the versions of the remote -/

variable (m : Mount) (t : MergeTools)

/-- The bench, recording the versions of each remote path. -/
def versionsStep : Bench × ObjectVersions → BenchEvent → Option (Bench × ObjectVersions) :=
  withHistory (Bench.step m t) fun b _ b' H => H.next b.hold.world.remote b'.hold.world.remote

/-- **A recorded etag is never newer than the cached bytes.** When a row is marked as cached with an
etag, the bytes of its file are the version of that name, or a later one. -/
def NamesCached (x : Bench × ObjectVersions) (ev : BenchEvent) (y : Bench × ObjectVersions) :
    Prop :=
  ∀ k env p i metadata, ev = .proc k env → env.fault = false → x.1.procs[k]? = some p →
    p.marking x.1.hold.world = some (i, metadata) → ∀ r ∈ y.1.hold.world.db.getByInode i,
      ∀ etag ∈ r.etag, ∀ path ∈ r.cachePath, ∀ data ∈ y.1.hold.world.fs.files path,
        ∃ o o', AtOrAfter (y.2 metadata.path) o o' ∧ o.etag = some etag ∧ o'.data = data

/-- The row that an upload is about to record, and the path of the file it has read. -/
def Bench.recorded (b : Bench) : BenchEvent → Option (Inode × PathBuf)
  | .proc k _ =>
    match b.procs[k]? with
    | some (.upload i cachePath (.record _)) => some (i, cachePath)
    | _ => none
  | _ => none

/-- No step changes the remote object between a transfer and the call for its metadata, nor the
cache file until the row is marked, and an upload is recorded in a row with the path of the file it
has read. -/
def NothingBetween (x : Bench × ObjectVersions) (ev : BenchEvent) : Prop :=
  (∀ p ∈ x.1.procs, ∀ b' ∈ Bench.step m t x.1 ev,
    (∀ path ∈ p.watches,
      b'.hold.world.remote.object path = x.1.hold.world.remote.object path) ∧
    ∀ path ∈ p.keeps, b'.hold.world.fs.files path = x.1.hold.world.fs.files path) ∧
  ∀ u ∈ x.1.recorded ev, ∀ r ∈ x.1.hold.world.db.getByInode u.1, ∀ path ∈ r.cachePath, path = u.2

instance : DecidablePred (NothingBetween m t x) := fun _ => inferInstanceAs (Decidable (_ ∧ _))

/-- What carries the etags: the versions are up to date, and every party has what it relies on. -/
structure Reliable (x : Bench × ObjectVersions) : Prop where
  upToDate : x.2.UpToDate x.1.hold.world.remote
  relies : ∀ p ∈ x.1.procs, p.Relies x.1.hold.world x.2

variable {m t}

/-! ## Each party -/

section Parties

variable {w w' : World} {H : ObjectVersions} {cachePath : PathBuf} {path : Str}
  {metadata : RemoteMetadata}

theorem World.Agree.congr (h : w.Agree cachePath path)
    (hobj : w'.remote.object path = w.remote.object path)
    (hfile : w'.fs.files cachePath = w.fs.files cachePath) : w'.Agree cachePath path := by
  rwa [Agree, hobj, hfile]

theorem World.Backed.congr {r r' : Remote} (h : w.Backed H cachePath metadata)
    (hfile : w'.fs.files cachePath = w.fs.files cachePath) :
    w'.Backed (H.next r r') cachePath metadata := by
  intro data hdata
  rw [hfile] at hdata
  exact (h data hdata).next

/-- What a step leaves of what a party watches and keeps, it may still rely on. -/
theorem Proc.Relies.congr {p : Proc} {r r' : Remote} (h : p.Relies w H)
    (hwatch : ∀ path ∈ p.watches, w'.remote.object path = w.remote.object path)
    (hkeep : ∀ path ∈ p.keeps, w'.fs.files path = w.fs.files path) : p.Relies w' (H.next r r') := by
  cases p with
  | upload i cachePath pc =>
    cases pc with
    | put entry data => exact (hkeep cachePath rfl).trans h
    | stat entry => exact World.Agree.congr h (hwatch _ rfl) (hkeep cachePath rfl)
    | record => exact World.Backed.congr h (hkeep cachePath rfl)
    | _ => trivial
  | snapshot => trivial
  | resolve entry cachePath seen pc =>
    cases pc with
    | equalFetch metadata =>
      rw [Relies, ResolvePc.Relies, hkeep cachePath rfl, hwatch _ rfl]
      exact h
    | equalCompare metadata remote =>
      rw [Relies, ResolvePc.Relies, hkeep cachePath rfl]
      exact ⟨h.1, h.2.1, h.2.2.next⟩
    | equalRecord | recordMerged | recordRemote => exact World.Backed.congr h (hkeep cachePath rfl)
    | putMerged size data => exact (hkeep cachePath rfl).trans h
    | saveRemote name data =>
      rw [Relies, ResolvePc.Relies, hwatch _ rfl]
      exact h
    | statMerged | statRemote => exact World.Agree.congr h (hwatch _ rfl) (hkeep cachePath rfl)
    | _ => trivial
  | command run seen pc =>
    cases pc with
    | fetchRemote hash =>
      cases hash with
      | none => exact h
      | some => trivial
    | saveRemote hash data =>
      cases hash with
      | none =>
        rw [Relies, CommandPc.Relies, hwatch _ rfl]
        exact h
      | some => trivial
    | putLocal data => exact (hkeep run.cachePath rfl).trans h
    | statUploaded | deleteSibling | deleteRow | statCanonical =>
      exact World.Agree.congr h (hwatch _ rfl) (hkeep run.cachePath rfl)
    | record => exact World.Backed.congr h (hkeep run.cachePath rfl)
    | _ => trivial

/-- The metadata fetched while the file agrees with the object are backed. -/
theorem World.Agree.backed (h : w.Agree cachePath path) (hH : H.UpToDate w.remote)
    (hs : w.remote.stat path = some metadata) : w.Backed H cachePath metadata := by
  obtain ⟨o, ho, hfile⟩ := h
  intro data hdata
  rw [hfile] at hdata
  obtain rfl := Option.some.inj hdata
  exact hH.names ho (describes_of_stat hs ho)

/-- An upload relies on nothing it has not just seen to. -/
theorem relies_of_uploadTick {i : Inode} {env : Env} {pc pc' : UploadPc} {path : PathBuf}
    (hH : H.UpToDate w.remote) (hi : (Proc.upload i cachePath pc).Relies w H)
    (ht : Upload.tick w i env pc = (w', some pc'))
    (hpath : (∃ entry, pc = .read entry path) ∨
      (∀ entry path, pc ≠ .read entry path) ∧ path = cachePath) :
    (Proc.upload i path pc').Relies w' (H.next w.remote w'.remote) := by
  cases pc with
  | read entry from_ =>
    obtain ⟨_, hread⟩ | ⟨hread, -⟩ := hpath
    · cases hread
      simp only [Upload.tick] at ht
      split at ht
      all_goals
        cases ht
        trivial
    · exact absurd rfl (hread _ _)
  | put entry data =>
    obtain ⟨_, hread⟩ | ⟨-, rfl⟩ := hpath
    · cases hread
    simp only [Upload.tick] at ht
    split at ht
    · cases ht
      trivial
    split at ht
    · cases ht
      trivial
    · rename_i remote hput
      cases ht
      obtain ⟨⟨id, rfl⟩, -⟩ := Remote.upload_ok hput
      exact ⟨⟨data, env.etag, env.mtime, id⟩, (Remote.object_put _ _).trans (if_pos rfl), hi⟩
  | stat entry =>
    obtain ⟨_, hread⟩ | ⟨-, rfl⟩ := hpath
    · cases hread
    simp only [Upload.tick] at ht
    split at ht
    · cases ht
      trivial
    · cases ht
      trivial
    · rename_i hstat
      cases ht
      rw [ObjectVersions.next_self]
      exact World.Agree.backed hi hH hstat
  | finish result =>
    cases result with
    | ok => cases ht
    | error e =>
      cases e
      all_goals
        simp only [Upload.tick] at ht
        split at ht <;> cases ht
  | _ =>
    simp only [Upload.tick] at ht
    repeat' split at ht
    all_goals
      cases ht
      trivial

/-- Nor does the resolver. -/
theorem ResolvePc.relies_of_tick {entry : FileEntry} {h h' : Holdings} {env : ResolveEnv}
    {pc pc' : ResolvePc} (hH : H.UpToDate h.world.remote)
    (hi : pc.Relies h.world H entry cachePath)
    (ht : pc.tick t entry cachePath h env = (h', .goto pc')) :
    pc'.Relies h'.world (H.next h.world.remote h'.world.remote) entry cachePath := by
  cases pc with
  | equalStat =>
    simp only [tick] at ht
    split at ht
    · rename_i metadata data _ hstat hfile
      cases ht
      split
      · exact ⟨⟨data, hfile, ‹_›⟩, fun o ho => describes_of_stat hstat ho⟩
      · trivial
    · cases ht
      trivial
  | equalFetch metadata =>
    simp only [tick] at ht
    split at ht
    · rename_i o _ ho
      cases ht
      have hd := hi.2 o ho
      rw [ObjectVersions.next_self]
      exact ⟨hi.1, hd.size.symm, hH.names ho hd⟩
    · cases ht
      trivial
  | equalCompare metadata remote =>
    simp only [tick] at ht
    split at ht
    · rename_i data hdata
      cases ht
      split
      · rename_i hequal
        obtain ⟨⟨data', hfile, hlen⟩, hlen', hnames⟩ := hi
        split at hdata
        · cases hdata
        obtain rfl := Option.some.inj (hdata.symm.trans hfile)
        rw [ObjectVersions.next_self]
        intro data' hdata'
        obtain rfl := Option.some.inj (hdata.symm.trans hdata')
        simp only [filesEqual, Bool.and_eq_true, decide_eq_true_eq] at hequal
        rw [← hlen, List.take_length, hlen, ← hlen', List.take_length] at hequal
        exact hequal.2 ▸ hnames
      · trivial
    · cases ht
      trivial
  | readMerged size =>
    simp only [tick] at ht
    split at ht
    · rename_i hfile
      cases ht
      exact hfile
    · cases ht
  | putMerged size data =>
    simp only [tick] at ht
    split at ht
    · rename_i hput
      cases ht
      obtain ⟨⟨id, rfl⟩, -⟩ := Remote.upload_ok hput
      exact ⟨⟨data, env.etag, env.mtime, id⟩, (Remote.object_put _ _).trans (if_pos rfl), hi⟩
    · cases ht
  | statMerged size =>
    simp only [tick] at ht
    split at ht
    · rename_i hstat
      cases ht
      rw [ObjectVersions.next_self]
      exact World.Agree.backed hi hH hstat
    · cases ht
  | fetchRemote name =>
    simp only [tick] at ht
    split at ht
    · rename_i o _ ho
      cases ht
      exact ⟨o, ho, rfl⟩
    · cases ht
  | saveRemote name data =>
    simp only [tick] at ht
    split at ht
    · rename_i hsave
      obtain ⟨-, fs, rfl, hfs⟩ := Holdings.tried_save_spec hsave
      cases ht
      obtain ⟨o, ho, rfl⟩ := hi
      exact ⟨o, ho, (hfs cachePath).trans (if_pos rfl)⟩
    · cases ht
  | statRemote name =>
    simp only [tick] at ht
    split at ht
    · cases ht
    split at ht
    · rename_i hstat
      cases ht
      rw [ObjectVersions.next_self]
      exact World.Agree.backed hi hH hstat
    · cases ht
      exact fun _ _ _ h => by cases h
  | _ =>
    simp only [tick] at ht
    repeat' split at ht
    all_goals
      cases ht
      try trivial

/-- Nor does a command that does not delete the object it watches. -/
theorem CommandRun.relies_of_tick {r : CommandRun} {h h' : Holdings} {env : ResolveEnv}
    {pc pc' : CommandPc} (hH : H.UpToDate h.world.remote) (hi : pc.Relies h.world H r)
    (hwatch : pc.watching = true →
      h'.world.remote.object r.entry.remotePath = h.world.remote.object r.entry.remotePath)
    (ht : r.tick t h env pc = (h', .goto pc')) :
    pc'.Relies h'.world (H.next h.world.remote h'.world.remote) r := by
  cases pc with
  | start =>
    cases hc : r.command with
    | keepLocal =>
      simp only [tick, begin_, hc] at ht
      split at ht
      · cases ht
        trivial
      · cases ht
    | merge =>
      simp only [tick, begin_, hc] at ht
      repeat' split at ht
      all_goals
        cases ht
        try trivial
    | keepRemote =>
      simp only [tick, begin_, begin_.createDir, hc] at ht
      split at ht
      · cases ht
        rw [CommandPc.Relies, target, hc]
      · cases ht
    | pin =>
      simp only [tick, begin_, begin_.createDir, hc] at ht
      split at ht
      · split at ht
        · cases ht
          rw [CommandPc.Relies, target, hc]
        · cases ht
      · cases ht
        trivial
  | readLocal =>
    simp only [tick] at ht
    split at ht
    · rename_i hfile
      cases ht
      exact hfile
    · cases ht
  | putLocal data =>
    simp only [tick] at ht
    split at ht
    · rename_i hput
      cases ht
      obtain ⟨⟨id, rfl⟩, -⟩ := Remote.upload_ok hput
      exact ⟨⟨data, env.etag, env.mtime, id⟩, (Remote.object_put _ _).trans (if_pos rfl), hi⟩
    · cases ht
  | statUploaded =>
    simp only [tick] at ht
    split at ht
    · cases ht
      exact hi
    · cases ht
  | fetchRemote hash =>
    simp only [tick] at ht
    split at ht
    · rename_i o _ ho
      cases ht
      cases hash with
      | none => exact ⟨hi, o, ho, rfl⟩
      | some => trivial
    · cases ht
  | saveRemote hash data =>
    have hsaved : hash = none → h.save r.target data = some h' →
        h'.world.Agree r.cachePath r.entry.remotePath := by
      rintro rfl hsave
      obtain ⟨htarget, o, ho, rfl⟩ := hi
      obtain ⟨fs, rfl, hfs⟩ := Holdings.save_spec hsave
      exact ⟨o, ho, (hfs _).trans (if_pos htarget.symm)⟩
    simp only [tick] at ht
    split at ht
    · cases ht
      trivial
    · rename_i hsave _
      split at hsave
      · cases hsave
      cases ht
      exact hsaved rfl hsave
    · rename_i hsave _
      split at hsave
      · cases hsave
      cases ht
      exact hsaved rfl hsave
    · cases ht
  | deleteSibling =>
    have hagree : h'.world.fs = h.world.fs →
        h'.world.Agree r.cachePath r.entry.remotePath := by
      intro hfs
      exact World.Agree.congr hi (hwatch rfl) (by rw [hfs])
    simp only [tick] at ht
    repeat' split at ht
    all_goals
      cases ht
      try exact hagree rfl
  | deleteRow sibling =>
    simp only [tick] at ht
    split at ht
    · cases ht
      exact hi
    · cases ht
  | statCanonical =>
    simp only [tick] at ht
    split at ht
    · rename_i hstat
      cases ht
      rw [ObjectVersions.next_self]
      exact World.Agree.backed hi hH hstat
    · cases ht
  | _ =>
    simp only [tick] at ht
    repeat' split at ht
    all_goals
      cases ht
      try trivial

end Parties

/-! ## The whole -/

section Runs

variable {b b' : Bench} {H H' : ObjectVersions} {ev : BenchEvent}

/-- What has become of a party that has moved. -/
theorem relies_of_tick {env : ResolveEnv} {p q : Proc}
    (hi : Reliable (b, H)) (hp : p.Relies b.hold.world H)
    (hwatch : ∀ path ∈ p.watches, (p.tick t b.hold env).1.world.remote.object path =
      b.hold.world.remote.object path) (hq : q ∈ (p.tick t b.hold env).2) :
    q.Relies (p.tick t b.hold env).1.world
      (H.next b.hold.world.remote (p.tick t b.hold env).1.world.remote) := by
  cases p with
  | upload i path pc =>
    obtain ⟨hhold, hprocs⟩ := Proc.uploadTick_spec b.hold env i path pc
    rw [Proc.tick] at hq ⊢
    rw [hhold]
    obtain ⟨path', pc', hpc, rfl, hpath⟩ | ⟨_, -, rfl⟩ := hprocs q hq
    · exact relies_of_uploadTick hi.upToDate hp (Prod.ext rfl hpc) hpath
    · trivial
  | snapshot i path pc =>
    obtain ⟨_, rfl⟩ := (Proc.snapshotTick_spec i path pc).2 q hq
    trivial
  | resolve entry path seen pc =>
    rw [Proc.tick, Proc.resolveTick_fst]
    obtain ⟨_, pc', hpc, rfl, -⟩ | ⟨-, rfl⟩ := Proc.mem_resolveTick hq
    · exact ResolvePc.relies_of_tick hi.upToDate hp (Prod.ext rfl hpc)
    · trivial
  | command r seen pc =>
    rw [Proc.tick, Proc.commandTick_fst] at hwatch ⊢
    obtain ⟨_, pc', hpc, rfl, -⟩ := Proc.mem_commandTick hq
    refine CommandRun.relies_of_tick hi.upToDate hp (fun hw => ?_) (Prod.ext rfl hpc)
    exact hwatch _ (by rw [Proc.watches, if_pos hw]; rfl)

theorem Reliable.step (hi : Reliable (b, H)) (hg : NothingBetween m t (b, H) ev)
    (h : Bench.step m t b ev = some b') :
    Reliable (b', H.next b.hold.world.remote b'.hold.world.remote) where
  upToDate := hi.upToDate.next
  relies := by
    refine Bench.procs_of_step h ?_ ?_ ?_
    · intro p hp
      have hp := Bench.mem_of_mem_bystanders hp
      obtain ⟨hwatch, hkeep⟩ := hg.1 p hp b' h
      exact (hi.relies p hp).congr hwatch hkeep
    · rintro k env p rfl hk hhold q hq
      have hp := List.mem_of_getElem? hk
      rw [hhold]
      exact relies_of_tick hi (hi.relies p hp) (hhold ▸ (hg.1 p hp b' h).1) hq
    · intro p hp
      cases hp with
      | hydrated hp =>
        obtain ⟨_, _, _, _, _, _, _, -, -, -, rfl⟩ := Bench.mem_hydrated hp
        trivial
      | _ => trivial

/-- A row that is marked as cached has the etag and the path. -/
theorem row_of_setCached {env : Env} {db : Db} {i : Inode} {path : PathBuf} {n mtime size : ℕ}
    {etag : Option Str} {r : FileEntry} (hf : env.fault = false)
    (hr : r ∈ ((World.tryDb env (db.setCached i path n etag mtime size)).getD db).getByInode i) :
    r.etag = etag ∧ ∀ path' ∈ r.cachePath, path' = path := by
  rw [World.tryDb, hf] at hr
  simp only [Bool.false_eq_true, if_false] at hr
  cases hset : db.setCached i path n etag mtime size with
  | none =>
    rw [hset] at hr
    have hsome : (db.setCached i path n etag mtime size).isSome = true :=
      Db.setCached_isSome_iff.2 (Option.isSome_iff_exists.2 ⟨r, hr⟩)
    rw [hset] at hsome
    cases hsome
  | some db' =>
    rw [hset] at hr
    obtain ⟨r₀, -, ⟨-, rfl⟩ | ⟨hne, -⟩⟩ := (Db.setCached_rows hset).inv hr
    · exact ⟨rfl, fun path' h => (Option.some.inj h).symm⟩
    · exact absurd rfl hne

/-- The row that `set_cached` marks, for a process that keeps the file. -/
theorem row_of_marked {env : ResolveEnv} {p : Proc} {db : Db} {i : Inode} {cp : PathBuf} {n : ℕ}
    {metadata : RemoteMetadata} {r : FileEntry} (hf : env.fault = false)
    (hdb : db = (World.tryDb env.toEnv (b.hold.world.db.setCached i cp n metadata.etag
      metadata.mtime metadata.size)).getD b.hold.world.db)
    (hkeep : cp ∈ p.keeps)
    (hbacked : p.Relies b.hold.world H → b.hold.world.Backed H cp metadata)
    (hr : r ∈ db.getByInode i) :
    ∀ path ∈ r.cachePath, r.etag = metadata.etag ∧ path ∈ p.keeps ∧
      (p.Relies b.hold.world H → b.hold.world.Backed H path metadata) := by
  obtain ⟨hetag, hpath⟩ := row_of_setCached hf (hdb ▸ hr)
  intro path h
  obtain rfl := hpath path h
  exact ⟨hetag, hkeep, hbacked⟩

/-- The row that is marked has the etag, and the path of the file that was transferred. -/
theorem row_of_marking {k : ℕ} {env : ResolveEnv} {p : Proc} {i : Inode} {metadata : RemoteMetadata}
    {r : FileEntry} (hg : NothingBetween m t (b, H) (.proc k env)) (hf : env.fault = false)
    (hk : b.procs[k]? = some p) (hmark : p.marking b.hold.world = some (i, metadata))
    (hr : r ∈ (p.tick t b.hold env).1.world.db.getByInode i) :
    ∀ path ∈ r.cachePath, r.etag = metadata.etag ∧ path ∈ p.keeps ∧
      (p.Relies b.hold.world H → b.hold.world.Backed H path metadata) := by
  cases p with
  | upload i cachePath pc =>
    cases pc with
    | record metadata =>
      cases hmark
      intro path hpath
      rw [Proc.tick, (Proc.uploadTick_spec _ _ i cachePath _).1] at hr
      simp only [Upload.tick, World.tryDb, hf, Bool.false_eq_true, if_false] at hr
      have hsame : ∀ r ∈ b.hold.world.db.getByInode i, ∀ path ∈ r.cachePath, path = cachePath :=
        hg.2 (i, cachePath) (by rw [Bench.recorded, hk]; rfl)
      cases hset : b.hold.world.db.setUploaded i metadata.size metadata.etag metadata.mtime
        metadata.size with
      | none =>
        rw [hset] at hr
        have hsome : (b.hold.world.db.setUploaded i metadata.size metadata.etag metadata.mtime
            metadata.size).isSome = true :=
          Db.setUploaded_isSome hr (Option.isSome_iff_exists.2 ⟨path, hpath⟩)
        rw [hset] at hsome
        cases hsome
      | some db =>
        rw [hset] at hr
        obtain ⟨r₀, hr₀, ⟨-, rfl⟩ | ⟨hne, -⟩⟩ := (Db.setUploaded_rows hset).inv hr
        · obtain rfl := hsame r₀ hr₀ path hpath
          exact ⟨rfl, rfl, id⟩
        · exact absurd rfl hne
    | _ => cases hmark
  | snapshot => cases hmark
  | resolve entry cachePath seen pc =>
    rw [Proc.tick, Proc.resolveTick_fst] at hr
    cases pc with
    | recordMerged size metadata =>
      cases hmark
      have hdb :
          ((ResolvePc.recordMerged size metadata).tick t entry cachePath b.hold env).1.world.db =
            (World.tryDb env.toEnv (b.hold.world.db.setCached entry.inode cachePath size
              metadata.etag metadata.mtime metadata.size)).getD b.hold.world.db := by
        simp only [ResolvePc.tick]
        split <;> rename_i h <;> rw [h] <;> rfl
      exact row_of_marked hf hdb rfl id hr
    | recordRemote name size metadata =>
      cases hmark
      have hdb : ((ResolvePc.recordRemote name size metadata).tick t entry cachePath b.hold
          env).1.world.db = (World.tryDb env.toEnv (b.hold.world.db.setCached entry.inode cachePath
            size metadata.etag metadata.mtime metadata.size)).getD b.hold.world.db := by
        simp only [ResolvePc.tick]
        split <;> rename_i h <;> rw [h] <;> rfl
      exact row_of_marked hf hdb rfl id hr
    | equalRecord metadata =>
      cases hfile : b.hold.world.fs.files cachePath with
      | none =>
        rw [Proc.marking, hfile] at hmark
        cases hmark
      | some data =>
        rw [Proc.marking, hfile] at hmark
        cases hmark
        have hdb : ((ResolvePc.equalRecord metadata).tick t entry cachePath b.hold env).1.world.db =
            (World.tryDb env.toEnv (b.hold.world.db.setCached entry.inode cachePath data.length
              metadata.etag metadata.mtime metadata.size)).getD b.hold.world.db := by
          simp only [ResolvePc.tick, hfile]
          split <;> rename_i h <;> rw [h] <;> rfl
        exact row_of_marked hf hdb rfl id hr
    | _ => cases hmark
  | command run seen pc =>
    rw [Proc.tick, Proc.commandTick_fst] at hr
    cases pc with
    | record metadata =>
      cases hmark
      have hdb : (run.tick t b.hold env (.record metadata)).1.world.db =
          (World.tryDb env.toEnv (b.hold.world.db.setCached run.entry.inode run.cachePath
            metadata.size metadata.etag metadata.mtime metadata.size)).getD b.hold.world.db := by
        simp only [CommandRun.tick]
        generalize World.tryDb env.toEnv _ = db
        cases db <;> cases run.command <;> rfl
      exact row_of_marked hf hdb rfl id hr
    | _ => cases hmark

theorem namesCached_of_step (hi : Reliable (b, H)) (hg : NothingBetween m t (b, H) ev)
    (h : Bench.step m t b ev = some b') :
    NamesCached (b, H) ev (b', H.next b.hold.world.remote b'.hold.world.remote) := by
  rintro k env p i metadata rfl hf hk hmark r hr etag hetag path hpath data hdata
  have hp := List.mem_of_getElem? hk
  have hrow : r ∈ (p.tick t b.hold env).1.world.db.getByInode i := by
    obtain ⟨p', hp', rfl⟩ := Option.map_eq_some_iff.1 h
    obtain rfl := Option.some.inj (hk.symm.trans hp')
    exact hr
  obtain ⟨hsame, hkeep, hbacked⟩ := row_of_marking hg hf hk hmark hrow path hpath
  rw [(hg.1 p hp b' h).2 path hkeep] at hdata
  exact (hbacked (hi.relies p hp) data hdata).next etag (hsame ▸ hetag)

/-- **A recorded etag is never newer than the cached bytes**, in every run in which nothing comes
between a transfer and what is recorded of it. -/
theorem namesCached_of_guarded {evs : List BenchEvent} {x : Bench × ObjectVersions}
    (h₀ : Reliable x) (hg : Guarded (versionsStep m t) (NothingBetween m t) x evs) :
    Along (versionsStep m t) NamesCached x evs := by
  refine along_of_guarded (I := Reliable) ?_ ?_ h₀ hg
  · rintro ⟨b, H⟩ ev ⟨b', H'⟩ hi hg h
    obtain ⟨hb, hH⟩ := withHistory_eq_some.1 h
    dsimp only at hb hH
    subst hH
    exact hi.step hg hb
  · rintro ⟨b, H⟩ ev ⟨b', H'⟩ hi hg h
    obtain ⟨hb, hH⟩ := withHistory_eq_some.1 h
    dsimp only at hb hH
    subst hH
    exact namesCached_of_step hi hg hb

end Runs

/-! ## An etag of a version that is not in the file -/

theorem reliable_init (m : Mount) : Reliable (Bench.init m 0, fun _ => []) where
  upToDate := fun _ _ h => by cases h
  relies := fun _ hp => by cases hp

theorem namesCached_uploadedText :
    Along (versionsStep sampleMount sampleTools) NamesCached
      (Bench.init sampleMount 0, fun _ => []) uploadedText :=
  namesCached_of_guarded (reliable_init sampleMount) (by decide)

/-- `a.txt` is uploaded, and replaced by another client before the metadata are fetched. -/
def replacedText : List BenchEvent :=
  transferredText ++ .world (foreignVersion "a.txt".toList (asciiBytes "4\n") ['w']) ::
    callsOf 0 1

theorem not_namesCached_replacedText :
    ¬∀ (m : Mount) (t : MergeTools) (evs : List BenchEvent),
      Along (versionsStep m t) NamesCached (Bench.init m 0, fun _ => []) evs := by
  intro h
  have hmarked : ∀ x y, run (versionsStep sampleMount sampleTools)
      (Bench.init sampleMount 0, fun _ => []) replacedText = some x →
      versionsStep sampleMount sampleTools x (.proc 0 (.fine exampleSuffix.ts)) = some y →
        ¬NamesCached x (.proc 0 (.fine exampleSuffix.ts)) y := by
    intro x y hx hy hnames
    obtain rfl := Option.some.inj hx
    obtain rfl := Option.some.inj hy
    obtain ⟨o, o', ⟨v, n, hle, hv, hn⟩, hetag, hdata⟩ :=
      hnames 0 _ _ _ _ rfl rfl rfl rfl _ rfl _ rfl _ rfl _ rfl
    -- the etag is that of the second version, and the file has the first
    rcases v with _ | _ | v
    · obtain rfl := Option.some.inj hv
      exact absurd hetag (by decide)
    · rcases n with _ | _ | n
      · omega
      · obtain rfl := Option.some.inj hn
        exact absurd hdata (by decide)
      · have hnone : none = some o' := hn
        cases hnone
    · have hnone : none = some o := hv
      cases hnone
  have hrun := h sampleMount sampleTools (replacedText ++ callsOf 0 1)
  exact hmarked _ _ rfl rfl (hrun.drop rfl _ rfl).1

end Stratosync

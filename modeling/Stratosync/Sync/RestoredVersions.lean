import Stratosync.Daemon.Watcher
import Stratosync.Sync.UnsyncedBytes

/-!
# Restoring a version

`versions restore` runs in a process of its own. It copies the version into a temporary file beside
the cache file, marks the row as dirty and moves the copy into place; the watcher of the daemon is
to see the move and hand the row to the upload queue.

`restoreStep` lets the command, the watcher and the uploads take steps in any order.
`queued_of_run`: the restored bytes are accepted, or their row is queued, in every run in which the
watcher looks for the row under the path of its cache file (`Noticed`) and no upload of the row
interferes (`LeavesRestored`).
-/

namespace Stratosync

open Foundations.Runs Foundations.Pool

/-! ## The command -/

/-- Where `versions restore` is. -/
inductive RestorePc
  /-- About to make the directories of the cache file. -/
  | dirs
  | copy
  | mark
  | rename
  /-- It has returned `Ok`. -/
  | returned
  | failed
  deriving DecidableEq, Repr

/-- The row is marked, and the copy is in place or on the way there. -/
def RestorePc.marked : RestorePc → Bool
  | .rename | .returned => true
  | _ => false

def pickOrSynthesizeCachePath (entry : FileEntry) (cacheDir : PathBuf) : PathBuf :=
  entry.cachePath.getD (cacheDir.join (trimStartSlash entry.remotePath))

/-- The temporary file beside the cache file. -/
def restoreTmp (cachePath : PathBuf) : Option PathBuf :=
  cachePath.fileName.map fun name => cachePath.dropLast ++ ['.' :: name ++ ".restore.tmp".toList]

/-- A version that is restored: the row as the command has found it, and the content of the blob. -/
structure RestoreCase where
  mount : Mount
  notify : Notify
  entry : FileEntry
  blob : Bytes

structure RestoreState where
  world : World
  watcher : Watcher
  pc : RestorePc

inductive RestoreEvent
  | restore (fault : Bool)
  | watch (fault : Bool)
  | launch (inode : Inode)
  | upload (k : ℕ) (env : Env)
  deriving DecidableEq, Repr

/-- The call marks the row as uploading. -/
def UploadPc.marks : UploadPc → Bool
  | .mark .. => true
  | _ => false

/-- The queue is about to give the upload up. -/
def UploadPc.givenUp : UploadPc → Bool
  | .finish (.error e) => !e.isRetryable
  | _ => false

/-- The cache path whose row the call may revert. -/
def UploadPc.reverted : UploadPc → Option PathBuf
  | .revert cp => some cp
  | _ => none

/-- The watcher is about to look at the path. -/
def WatchPc.LooksAt (p : PathBuf) : WatchPc → Prop
  | .paths (q :: _) => q = p
  | _ => False

instance (p : PathBuf) : (pc : WatchPc) → Decidable (pc.LooksAt p)
  | .paths (_ :: _) => inferInstanceAs (Decidable (_ = _))
  | .paths [] | .send .. => .isFalse id

namespace RestoreCase

variable (c : RestoreCase)

def cachePath : PathBuf := pickOrSynthesizeCachePath c.entry c.mount.cacheDir

/-- The next step of the command: `create_dir_all`, then `install_restored_content`. -/
def restore (s : RestoreState) (fault : Bool) : Option RestoreState :=
  match s.pc with
  | .dirs =>
    match (if fault then none else s.world.fs.createDirAll c.cachePath.dropLast) with
    | none => some { s with pc := .failed }
    | some fs => some { s with world := { s.world with fs }, pc := .copy }
  | .copy =>
    match restoreTmp c.cachePath with
    | none => some { s with pc := .failed }
    | some tmp =>
      match s.world.fs.create tmp with
      | none => some { s with pc := .failed }
      | some fs =>
        -- a copy that breaks off leaves what it has made
        if fault then some { s with world := { s.world with fs }, pc := .failed }
        else some
          { world := { s.world with fs := fs.put tmp c.blob }
            watcher := s.watcher.notify (c.notify.copied tmp), pc := .mark }
  | .mark =>
    match World.tryDb { Env.fine with fault }
      (s.world.db.setDirtyWithCachePath c.entry.inode c.cachePath c.blob.length) with
    | none =>
      some { s with
        world := { s.world with fs := s.world.fs.removeIfPresent (restoreTmp c.cachePath) }
        pc := .failed }
    | some db => some { s with world := { s.world with db }, pc := .rename }
  | .rename =>
    match restoreTmp c.cachePath with
    | none => some { s with pc := .failed }
    | some tmp =>
      match (if fault then none else s.world.fs.rename tmp c.cachePath) with
      | none => some { s with pc := .failed }
      | some fs => some
          { world := { s.world with fs }
            watcher := s.watcher.notify (c.notify.renamed tmp c.cachePath), pc := .returned }
  | .returned | .failed => none

def step (s : RestoreState) : RestoreEvent → Option RestoreState
  | .restore fault => c.restore s fault
  | .watch fault => (s.watcher.step c.mount s.world fault).map fun t =>
      { s with world := t.1, watcher := t.2 }
  | .launch i => (Stratosync.step c.mount s.world (.launch i)).map fun world => { s with world }
  | .upload k env =>
    (Stratosync.step c.mount s.world (.upload k env)).map fun world => { s with world }

/-- The backend accepts the restored bytes. -/
def accepts (s : RestoreState) : RestoreEvent → Bool
  | .upload k env => (acceptedUpload s.world (.upload k env)).any fun a =>
      a.inode = c.entry.inode && a.data = c.blob
  | _ => false

/-- The system with the history of whether the restored bytes have been accepted. -/
abbrev historyStep : RestoreState × Bool → RestoreEvent → Option (RestoreState × Bool) :=
  withHistory c.step fun s e _ accepted => accepted || c.accepts s e

def start (w : World) (g : Watcher) : RestoreState × Bool :=
  ({ world := w, watcher := g, pc := .dirs }, false)

/-- The row is pending or in flight. -/
def Waits (w : World) : Prop :=
  c.entry.inode ∈ w.pending ∨ ∃ u ∈ w.uploads, u.inode = c.entry.inode

/-- The restored bytes have been accepted, or their row waits for its upload. -/
def Queued (x : RestoreState × Bool) : Prop :=
  x.2 = true ∨ ∃ r, x.1.world.db.getByInode c.entry.inode = some r ∧
    r.status.isUnsynced = true ∧ c.Waits x.1.world

/-- The row waits for an upload that has not been started. -/
def QueuedDirty (x : RestoreState × Bool) : Prop :=
  x.2 = true ∨ ∃ r, x.1.world.db.getByInode c.entry.inode = some r ∧
    r.status = .dirty ∧ c.Waits x.1.world

/-! ## The condition -/

/-- The watcher looks for the row under the path of its cache file. -/
def Noticed : Prop := c.mount.watchedPath c.cachePath = some c.entry.remotePath

/-- **No upload of the row interferes with the restored bytes** before the backend has accepted
them, and the watcher can look the row up: until the watcher is done none marks the row, and none
records, resets or reverts it; one that the queue gives up leaves the row pending. -/
def LeavesRestored (x : RestoreState × Bool) : RestoreEvent → Prop
  | .upload k _ => x.2 = false → x.1.pc.marked = true →
      ∀ u ∈ x.1.world.uploads[k]?, u.inode = c.entry.inode →
        u.pc.settles = false ∧ u.pc.reverted ≠ some c.cachePath ∧
        (u.pc.marks = true → x.1.pc = .returned ∧ x.1.watcher.Idle) ∧
        (u.pc.givenUp = true → x.1.pc = .returned → c.entry.inode ∈ x.1.world.pending)
  | .watch fault => x.1.watcher.pc.LooksAt c.cachePath → fault = false
  | _ => True

section Decidable

instance : Decidable c.Noticed := inferInstanceAs (Decidable (_ = _))

instance (x : RestoreState × Bool) : (e : RestoreEvent) → Decidable (c.LeavesRestored x e)
  | .upload .. => inferInstanceAs (Decidable (_ → _ → ∀ u ∈ _, _ → _ ∧ _ ∧ (_ → _ ∧ _) ∧ _))
  | .watch _ => inferInstanceAs (Decidable (_ → _))
  | .restore _ | .launch _ => .isTrue trivial

end Decidable

end RestoreCase

/-! ## Uploads that will find the bytes -/

/-- The upload has not read the file at the path yet, or has read these bytes there. -/
def UploadPc.Fresh (cp : PathBuf) (b : Bytes) : UploadPc → Prop
  | .load | .reset _ | .finish (.error _) => True
  | .check _ p | .mark _ p | .read _ p => p = cp
  | .put _ data => data = b
  | _ => False

section Fresh

variable {w w' : World} {i : Inode} {r : FileEntry} {cp : PathBuf} {b : Bytes}

/-- Such an upload stays one, leaves its row pending, or the backend accepts the bytes. -/
theorem fresh_of_tick {k : ℕ} (env : Env) {pc : UploadPc} (hk : w.uploads[k]? = some ⟨i, pc⟩)
    (hpc : pc.Fresh cp b) (hr : w.db.getByInode i = some r) (hs : r.status.isUnsynced = true)
    (hp : r.cachePath = some cp) (hb : w.fs.files cp = some b) (hset : pc.settles = false)
    (hup : pc.givenUp = true → i ∈ w.pending) :
    (∃ pc', (Upload.tick w i env pc).2 = some pc' ∧ pc'.Fresh cp b) ∨
      i ∈ (Upload.tick w i env pc).1.pending ∨
      ∃ a, acceptedUpload w (.upload k env) = some a ∧ a.inode = i ∧ a.data = b := by
  cases pc with
  | load =>
    left
    simp only [Upload.tick, hr, hp]
    split
    · exact ⟨_, rfl, trivial⟩
    rw [if_neg (by rintro hc; rw [hc] at hs; cases hs)]
    split
    · exact ⟨_, rfl, trivial⟩
    · exact ⟨_, rfl, rfl⟩
  | reset => cases hset
  | check e p =>
    obtain rfl : p = cp := hpc
    refine .inl ⟨.mark e p, ?_, rfl⟩
    simp only [Upload.tick, CacheFs.exists_, hb, Option.isSome_some, Bool.true_or, if_true]
  | mark e p =>
    left
    simp only [Upload.tick]
    split
    · exact ⟨_, rfl, trivial⟩
    · exact ⟨_, rfl, hpc⟩
  | read e p =>
    obtain rfl : p = cp := hpc
    left
    simp only [Upload.tick, hb]
    split
    · exact ⟨_, rfl, trivial⟩
    · rename_i h
      cases h
    · rename_i h
      exact ⟨_, rfl, (Option.some.inj h).symm⟩
  | put e data =>
    simp only [Upload.tick]
    cases he : env.error with
    | some err => exact .inl ⟨_, rfl, trivial⟩
    | none =>
      cases hu : w.remote.upload e.remotePath e.etag data env.etag env.mtime with
      | error err => exact .inl ⟨_, rfl, trivial⟩
      | ok remote =>
        exact .inr (.inr ⟨⟨i, e, data, env.etag⟩, by simp [acceptedUpload, hk, he, hu], rfl, hpc⟩)
  | finish result =>
    cases result with
    | ok => cases hpc
    | error e =>
      refine .inr (.inl ?_)
      cases hre : e.isRetryable with
      | false => exact mem_pending_of_tick (hup (by rw [UploadPc.givenUp, hre]; rfl))
      | true =>
        obtain rfl : e = .transient := by cases e <;> first | rfl | cases hre
        exact mem_enqueue.2 (.inl rfl)
  | revert | stat | record => cases hpc

end Fresh

namespace RestoreCase

variable {c : RestoreCase} {x x' : RestoreState × Bool}

/-! ## What the steps keep -/

/-- The watcher has still to look at the cache file, or is about to hand the row on. -/
def Coming (c : RestoreCase) (g : Watcher) : Prop :=
  (∃ e ∈ g.channel, e.kind.isWrite = true ∧ c.cachePath ∈ e.paths) ∨
    (∃ i left, g.pc = .send i left ∧ (i = c.entry.inode ∨ c.cachePath ∈ left)) ∨
    ∃ left, g.pc = .paths left ∧ c.cachePath ∈ left

/-- The row is pending, or has an upload in flight that will find the restored bytes. -/
def WaitsFresh (c : RestoreCase) (w : World) : Prop :=
  c.entry.inode ∈ w.pending ∨
    ∃ u ∈ w.uploads, u.inode = c.entry.inode ∧ u.pc.Fresh c.cachePath c.blob

/-- The row names the cache file, and is dirty until the watcher is done. -/
structure RowRestored (c : RestoreCase) (pc : RestorePc) (g : Watcher) (r : FileEntry) : Prop where
  path : r.cachePath = some c.cachePath
  unsynced : r.status.isUnsynced = true
  dirty : ¬(pc = .returned ∧ g.Idle) → r.status = .dirty

/-- The row of the file is where it was, the copy is beside the cache file or in its place, and the
restored row is seen by the watcher or waits for an upload. -/
structure RestoreKept (c : RestoreCase) (x : RestoreState × Bool) : Prop where
  row : ∃ r, x.1.world.db.getByInode c.entry.inode = some r ∧ r.mountId = c.mount.mountId ∧
    r.remotePath = c.entry.remotePath ∧
      (x.2 = false → x.1.pc.marked = true → c.RowRestored x.1.pc x.1.watcher r)
  tmp : x.1.pc = .mark ∨ x.1.pc = .rename → ∀ p ∈ restoreTmp c.cachePath,
    x.1.world.fs.files p = some c.blob
  file : x.1.pc = .returned → x.1.world.fs.files c.cachePath = some c.blob
  seen : x.2 = false → x.1.pc = .returned → c.Coming x.1.watcher ∨ c.WaitsFresh x.1.world

/-- A command that is not past the copy leaves the row to the others. -/
theorem RestoreKept.of_unmarked {s s' : RestoreState} {acc : Bool} (hx : RestoreKept c (s, acc))
    (hdb : s'.world.db = s.world.db) (hpc : s'.pc = .copy ∨ s'.pc = .failed) :
    RestoreKept c (s', acc) := by
  obtain ⟨r, hr, hm, hp, -⟩ := hx.row
  obtain ⟨w, g, pc⟩ := s'
  obtain rfl | rfl := hpc <;> exact ⟨⟨r, hdb ▸ hr, hm, hp, nofun⟩, nofun, nofun, nofun⟩

/-- The command keeps what it has done. -/
theorem RestoreKept.restore {s s' : RestoreState} {acc fault : Bool}
    (hx : RestoreKept c (s, acc)) (h : c.restore s fault = some s') : RestoreKept c (s', acc) := by
  rw [RestoreCase.restore] at h
  split at h
  case h_1 =>
    split at h <;> obtain rfl := Option.some.inj h
    · exact hx.of_unmarked rfl (.inr rfl)
    · exact hx.of_unmarked rfl (.inl rfl)
  case h_2 =>
    split at h
    · exact Option.some.inj h ▸ hx.of_unmarked rfl (.inr rfl)
    rename_i tmp htmp
    split at h
    · exact Option.some.inj h ▸ hx.of_unmarked rfl (.inr rfl)
    split at h
    · exact Option.some.inj h ▸ hx.of_unmarked rfl (.inr rfl)
    · obtain rfl := Option.some.inj h
      obtain ⟨r, hr, hm, hp, -⟩ := hx.row
      refine ⟨⟨r, hr, hm, hp, nofun⟩, fun _ p hp' => ?_, nofun, nofun⟩
      obtain rfl := Option.some.inj (htmp.symm.trans hp')
      exact (CacheFs.files_put _ _ _ _).trans (if_pos rfl)
  case h_3 hpc =>
    split at h
    · exact Option.some.inj h ▸ hx.of_unmarked rfl (.inr rfl)
    · rename_i db hdb
      obtain rfl := Option.some.inj h
      obtain ⟨r, hr, hm, hp, -⟩ := hx.row
      have hrow := (Db.setDirtyWithCachePath_rows (tryDb_eq_some.1 hdb).2).self
      rw [hr] at hrow
      exact ⟨⟨_, hrow, hm, hp, fun _ _ => ⟨rfl, rfl, fun _ => rfl⟩⟩, fun _ => hx.tmp (.inl hpc),
        nofun, nofun⟩
  case h_4 hpc =>
    split at h
    · exact Option.some.inj h ▸ hx.of_unmarked rfl (.inr rfl)
    rename_i tmp htmp
    split at h
    · exact Option.some.inj h ▸ hx.of_unmarked rfl (.inr rfl)
    · rename_i fs hfs
      obtain rfl := Option.some.inj h
      have hren : s.world.fs.rename tmp c.cachePath = some fs := by
        cases fault with
        | false => exact hfs
        | true => cases hfs
      obtain ⟨data, hd, hfiles⟩ := CacheFs.files_of_rename hren
      obtain rfl := Option.some.inj (hd.symm.trans (hx.tmp (.inr hpc) tmp htmp))
      obtain ⟨r, hr, hm, hp, hres⟩ := hx.row
      refine ⟨⟨r, hr, hm, hp, fun ha _ => ?_⟩, nofun, fun _ => (hfiles _).trans (if_pos rfl),
        fun _ _ => .inl (.inl ?_)⟩
      · obtain ⟨h₁, h₂, h₃⟩ := hres ha (by rw [hpc]; rfl)
        exact ⟨h₁, h₂, fun _ => h₃ fun hret => by rw [hpc] at hret; cases hret.1⟩
      · obtain ⟨e, he, hwrite, hmem⟩ := c.notify.arrives tmp c.cachePath
        exact ⟨e, List.mem_append_right _ he, hwrite, hmem⟩
  case h_5 => cases h
  case h_6 => cases h

/-- The watcher leaves the rows as they are. -/
theorem db_of_watch {m : Mount} {w w' : World} {g g' : Watcher} {fault : Bool}
    (h : g.step m w fault = some (w', g')) :
    ¬g.Idle ∧ w'.db = w.db ∧ w'.fs = w.fs ∧ w'.uploads = w.uploads ∧
      ∀ i ∈ w.pending, i ∈ w'.pending := by
  rw [Watcher.step] at h
  split at h
  case h_1 hpc =>
    obtain ⟨rfl, -⟩ := Prod.mk.inj (Option.some.inj h)
    refine ⟨fun hidle => ?_, rfl, rfl, rfl, fun i hi => mem_enqueue.2 (.inr hi)⟩
    rw [hidle.2] at hpc
    cases hpc
  case h_2 hpc =>
    obtain ⟨rfl, -⟩ := Prod.mk.inj (Option.some.inj h)
    refine ⟨fun hidle => ?_, rfl, rfl, rfl, fun i hi => hi⟩
    rw [hidle.2] at hpc
    cases hpc
  case h_3 =>
    split at h
    · cases h
    · rename_i hch
      obtain ⟨rfl, -⟩ := Prod.mk.inj (Option.some.inj h)
      refine ⟨fun hidle => ?_, rfl, rfl, rfl, fun i hi => hi⟩
      rw [hidle.1] at hch
      cases hch

/-- The watcher comes to the cache file, and finds the row dirty under its path. -/
theorem coming_of_watch {w w' : World} {g g' : Watcher} {fault : Bool} {r : FileEntry}
    (hn : c.Noticed) (hf : g.pc.LooksAt c.cachePath → fault = false)
    (hr : w.db.getByInode c.entry.inode = some r) (hm : r.mountId = c.mount.mountId)
    (hp : r.remotePath = c.entry.remotePath) (hs : r.status = .dirty)
    (h : g.step c.mount w fault = some (w', g')) (hc : c.Coming g) :
    c.Coming g' ∨ c.entry.inode ∈ w'.pending := by
  rw [Watcher.step] at h
  split at h
  case h_1 j left hpc =>
    obtain ⟨rfl, rfl⟩ := Prod.mk.inj (Option.some.inj h)
    obtain hch | ⟨i, left', hsend, hi⟩ | ⟨left', hpaths, -⟩ := hc
    · exact .inl (.inl hch)
    · obtain ⟨rfl, rfl⟩ := WatchPc.send.inj (hpc.symm.trans hsend)
      obtain rfl | hleft := hi
      · exact .inr (mem_enqueue.2 (.inl rfl))
      · exact .inl (.inr (.inr ⟨left, rfl, hleft⟩))
    · exact nomatch hpc.symm.trans hpaths
  case h_2 p left hpc =>
    obtain ⟨rfl, rfl⟩ := Prod.mk.inj (Option.some.inj h)
    obtain hch | ⟨i, left', hsend, -⟩ | ⟨left', hpaths, hmem⟩ := hc
    · exact .inl (.inl hch)
    · exact nomatch hpc.symm.trans hsend
    · obtain rfl := WatchPc.paths.inj (hpc.symm.trans hpaths)
      refine .inl (.inr ?_)
      obtain rfl | hleft := List.mem_cons.1 hmem
      · have hfound := handlePath_eq_some_iff.2
          ⟨rfl, r, hr, hm, hs, hn.trans (congrArg some hp.symm)⟩
        rw [hf (hpc ▸ rfl)]
        dsimp only
        rw [hfound]
        exact .inl ⟨_, left, rfl, .inl rfl⟩
      · dsimp only
        cases handlePath c.mount w.db fault p with
        | some i => exact .inl ⟨i, left, rfl, .inr hleft⟩
        | none => exact .inr ⟨left, rfl, hleft⟩
  case h_3 hpc =>
    split at h
    · cases h
    rename_i e rest hch
    obtain ⟨rfl, rfl⟩ := Prod.mk.inj (Option.some.inj h)
    obtain ⟨e', he', hwrite, hmem⟩ | ⟨i, left', hsend, -⟩ | ⟨left', hpaths, hmem⟩ := hc
    · rw [hch] at he'
      obtain rfl | hrest := List.mem_cons.1 he'
      · exact .inl (.inr (.inr ⟨_, rfl, by rwa [if_pos hwrite]⟩))
      · exact .inl (.inl ⟨e', hrest, hwrite, hmem⟩)
    · exact nomatch hpc.symm.trans hsend
    · obtain rfl := WatchPc.paths.inj (hpc.symm.trans hpaths)
      cases hmem

theorem RestoreKept.watch {s : RestoreState} {acc fault : Bool} {w' : World} {g' : Watcher}
    (hx : RestoreKept c (s, acc)) (hn : c.Noticed)
    (hf : s.watcher.pc.LooksAt c.cachePath → fault = false)
    (h : s.watcher.step c.mount s.world fault = some (w', g')) :
    RestoreKept c ({ s with world := w', watcher := g' }, acc) := by
  obtain ⟨hidle, hdb, hfs, hup, hpend⟩ := db_of_watch h
  obtain ⟨r, hr, hm, hp, hres⟩ := hx.row
  have hbusy : ¬(s.pc = .returned ∧ s.watcher.Idle) := fun hret => hidle hret.2
  refine ⟨⟨r, (congrArg (Db.getByInode · _) hdb).trans hr, hm, hp, fun ha hk => ?_⟩,
    fun hpc => hfs ▸ hx.tmp hpc, fun hpc => hfs ▸ hx.file hpc, fun ha hpc => ?_⟩
  · obtain ⟨h₁, h₂, h₃⟩ := hres ha hk
    exact ⟨h₁, h₂, fun _ => h₃ hbusy⟩
  · have hdirty := (hres ha (by rw [hpc]; rfl)).dirty hbusy
    obtain hc | hw | ⟨u, hu, hui⟩ := hx.seen ha hpc
    · exact (coming_of_watch hn hf hr hm hp hdirty h hc).imp id .inl
    · exact .inr (.inl (hpend _ hw))
    · exact .inr (.inr ⟨u, hup ▸ hu, hui⟩)

theorem RestoreKept.launch {s : RestoreState} {acc : Bool} {w' : World} {i : Inode}
    (hx : RestoreKept c (s, acc)) (h : s.world.launch i = some w') :
    RestoreKept c ({ s with world := w' }, acc) := by
  rw [World.launch] at h
  split at h
  · obtain rfl := Option.some.inj h
    refine ⟨hx.row, hx.tmp, hx.file, fun ha hpc => (hx.seen ha hpc).imp id ?_⟩
    rintro (hw | ⟨u, hu, hui⟩)
    · by_cases hi : i = c.entry.inode
      · exact .inr ⟨⟨i, .load⟩, List.mem_append_right _ (List.mem_singleton_self _), hi, trivial⟩
      · exact .inl (List.mem_filter.2 ⟨hw, decide_eq_true fun he => hi he.symm⟩)
    · exact .inr ⟨u, List.mem_append_left _ hu, hui⟩
  · cases h

/-- An upload that does not interfere leaves the restored row unsynced, with its cache file. -/
theorem row_of_upload {s : RestoreState} {acc : Bool} {k : ℕ} {env : Env} {w' : World}
    (hx : RestoreKept c (s, acc)) (hg : c.LeavesRestored (s, acc) (.upload k env))
    (h : Stratosync.step c.mount s.world (.upload k env) = some w') :
    ∃ r, w'.db.getByInode c.entry.inode = some r ∧ r.mountId = c.mount.mountId ∧
      r.remotePath = c.entry.remotePath ∧
        (acc = false → s.pc.marked = true → c.RowRestored s.pc s.watcher r) := by
  obtain ⟨r, hr, hm, hp, hres⟩ := hx.row
  have hstep := row_of_step h hr
  generalize w'.db.getByInode c.entry.inode = o at hstep
  cases hstep with
  | same => exact ⟨r, rfl, hm, hp, hres⟩
  | reset hu =>
    refine ⟨_, rfl, hm, hp, fun ha hk => ?_⟩
    exact nomatch (hg ha hk _ hu rfl).1
  | uploaded hu =>
    refine ⟨_, rfl, hm, hp, fun ha hk => ?_⟩
    exact nomatch (hg ha hk _ hu rfl).1
  | @reverted _ _ _ _ cp hu hat =>
    refine ⟨_, rfl, hm, hp, fun ha hk => ?_⟩
    rw [Db.isDirtyAt, decide_eq_true_eq] at hat
    obtain rfl := Option.some.inj (hat.2.2.symm.trans (hres ha hk).path)
    exact absurd rfl (hg ha hk _ hu rfl).2.1
  | marked hu =>
    refine ⟨_, rfl, hm, hp, fun ha hk => ⟨(hres ha hk).path, rfl, fun hbusy => ?_⟩⟩
    exact absurd ((hg ha hk _ hu rfl).2.2.1 rfl) hbusy
  | failed =>
    exact ⟨_, rfl, hm, hp, fun ha hk => ⟨(hres ha hk).path, rfl, fun _ => rfl⟩⟩

/-- The upload that will find the restored bytes does, unless it fails and is tried again. -/
theorem waitsFresh_of_upload {w w' : World} {k : ℕ} {env : Env} {r : FileEntry}
    (hr : w.db.getByInode c.entry.inode = some r) (hs : r.status.isUnsynced = true)
    (hp : r.cachePath = some c.cachePath) (hb : w.fs.files c.cachePath = some c.blob)
    (hg : ∀ u ∈ w.uploads[k]?, u.inode = c.entry.inode → u.pc.settles = false ∧
      (u.pc.givenUp = true → c.entry.inode ∈ w.pending))
    (h : Stratosync.step c.mount w (.upload k env) = some w') (hw : c.WaitsFresh w) :
    c.WaitsFresh w' ∨ ∃ a, acceptedUpload w (.upload k env) = some a ∧
      a.inode = c.entry.inode ∧ a.data = c.blob := by
  obtain ⟨u, hu, rfl⟩ := Option.map_eq_some_iff.1 h
  have huploads : (Upload.tick w u.inode env u.pc).1.uploads = w.uploads := by
    obtain ⟨_, _, _, _, heq⟩ := upload_tick_eq w u.inode env u.pc
    rw [heq]
  obtain hpend | ⟨v, hv, hvi, hfresh⟩ := hw
  · exact .inl (.inl (mem_pending_of_tick hpend))
  obtain ⟨j, hj⟩ := List.mem_iff_getElem?.1 hv
  by_cases hjk : j = k
  · obtain rfl : u = v := Option.some.inj (hu.symm.trans (hjk ▸ hj))
    obtain ⟨i, pc⟩ := u
    obtain rfl : i = c.entry.inode := hvi
    obtain ⟨hset, hup⟩ := hg _ hu rfl
    obtain ⟨pc', hpc', hfresh'⟩ | hpend | hacc :=
      fresh_of_tick env hu hfresh hr hs hp hb hset hup
    · refine .inl (.inr ⟨⟨c.entry.inode, pc'⟩, ?_, rfl, hfresh'⟩)
      obtain ⟨hk, -⟩ := List.getElem?_eq_some_iff.1 hu
      simp only [huploads, hpc', Option.map_some, advance]
      exact List.mem_set hk _
    · exact .inl (.inl hpend)
    · exact .inr hacc
  · refine .inl (.inr ⟨v, mem_advance_of_other ?_, hvi, hfresh⟩)
    rw [huploads]
    exact List.mem_eraseIdx_iff_getElem?.2 ⟨j, hjk, hj⟩

theorem RestoreKept.upload {s : RestoreState} {acc : Bool} {k : ℕ} {env : Env} {w' : World}
    (hx : RestoreKept c (s, acc)) (hg : c.LeavesRestored (s, acc) (.upload k env))
    (h : Stratosync.step c.mount s.world (.upload k env) = some w') :
    RestoreKept c ({ s with world := w' }, acc || c.accepts s (.upload k env)) := by
  have hfs : w'.fs = s.world.fs := (frame_of_step h).files rfl
  obtain ⟨r', hr', hm', hp', hres'⟩ := row_of_upload hx hg h
  refine ⟨⟨r', hr', hm', hp', fun ha => hres' (Bool.or_eq_false_iff.1 ha).1⟩,
    fun hpc => hfs ▸ hx.tmp hpc, fun hpc => hfs ▸ hx.file hpc, fun hacc hpc => ?_⟩
  obtain ⟨ha, hnot⟩ := Bool.or_eq_false_iff.1 hacc
  refine (hx.seen ha hpc).imp id fun hw => ?_
  have hk : s.pc.marked = true := by
    rw [show s.pc = .returned from hpc]
    rfl
  obtain ⟨r, hr, -, -, hres⟩ := hx.row
  have hup : ∀ u ∈ s.world.uploads[k]?, u.inode = c.entry.inode → u.pc.settles = false ∧
      (u.pc.givenUp = true → c.entry.inode ∈ s.world.pending) := fun u hu hi =>
    ⟨(hg ha hk u hu hi).1, fun hgive => (hg ha hk u hu hi).2.2.2 hgive hpc⟩
  obtain hw' | ⟨a, haccd, hai, hdata⟩ := waitsFresh_of_upload hr (hres ha hk).unsynced
    (hres ha hk).path (hx.file hpc) hup h hw
  · exact hw'
  · rw [accepts, haccd, Option.any_some, hai, hdata] at hnot
    simp at hnot

theorem RestoreKept.step {e : RestoreEvent} (hx : RestoreKept c x) (hn : c.Noticed)
    (hg : c.LeavesRestored x e) (h : c.historyStep x e = some x') : RestoreKept c x' := by
  obtain ⟨s, acc⟩ := x
  obtain ⟨s', acc'⟩ := x'
  obtain ⟨hs, rfl⟩ := withHistory_eq_some.1 h
  cases e with
  | restore fault =>
    change RestoreKept c (s', acc || false)
    rw [Bool.or_false]
    exact hx.restore hs
  | watch fault =>
    change RestoreKept c (s', acc || false)
    rw [Bool.or_false]
    obtain ⟨⟨w', g'⟩, ht, rfl⟩ := Option.map_eq_some_iff.1 hs
    exact hx.watch hn hg ht
  | launch i =>
    change RestoreKept c (s', acc || false)
    rw [Bool.or_false]
    obtain ⟨w', hw, rfl⟩ := Option.map_eq_some_iff.1 hs
    exact hx.launch hw
  | upload k env =>
    obtain ⟨w', hw, rfl⟩ := Option.map_eq_some_iff.1 hs
    exact hx.upload hg hw

/-- The command starts with the row as it has found it. -/
theorem restoreKept_start {w : World} {g : Watcher} {path : Str}
    (hr : w.db.getByRemotePath c.mount.mountId path = some c.entry) :
    RestoreKept c (start w g) := by
  obtain ⟨hrow, hm, -⟩ := Db.getByRemotePath_spec hr
  exact ⟨⟨c.entry, hrow, hm, rfl, nofun⟩, fun h => (by obtain h | h := h <;> cases h), nofun, nofun⟩

/-- When the watcher is done, the row is queued. -/
theorem RestoreKept.queued (hx : RestoreKept c x) (hpc : x.1.pc = .returned)
    (hidle : x.1.watcher.Idle) : c.Queued x := by
  cases ha : x.2 with
  | true => exact .inl ha
  | false =>
    obtain ⟨r, hr, -, -, hres⟩ := hx.row
    refine .inr ⟨r, hr, (hres ha (by rw [hpc]; rfl)).unsynced, ?_⟩
    obtain (⟨e, he, -⟩ | ⟨_, _, hsend, -⟩ | ⟨left, hpaths, hmem⟩) | hpend | ⟨u, hu, hi, -⟩ :=
      hx.seen ha hpc
    · rw [hidle.1] at he
      cases he
    · exact nomatch hidle.2.symm.trans hsend
    · obtain rfl := WatchPc.paths.inj (hidle.2.symm.trans hpaths)
      cases hmem
    · exact .inl hpend
    · exact .inr ⟨u, hu, hi⟩

/-- At the step with which the watcher is done, the row is still dirty. -/
theorem RestoreKept.queuedDirty {fault : Bool} (hx : RestoreKept c x) (hn : c.Noticed)
    (hg : c.LeavesRestored x (.watch fault)) (h : c.historyStep x (.watch fault) = some x')
    (hpc : x'.1.pc = .returned) (hidle : x'.1.watcher.Idle) : c.QueuedDirty x' := by
  obtain hacc | ⟨r', -, -, hwaits⟩ := (hx.step hn hg h).queued hpc hidle
  · exact .inl hacc
  obtain ⟨s, acc⟩ := x
  obtain ⟨s', acc'⟩ := x'
  cases acc' with
  | true => exact .inl rfl
  | false =>
    obtain ⟨hs, hacc⟩ := withHistory_eq_some.1 h
    obtain ⟨⟨w', g'⟩, ht, rfl⟩ := Option.map_eq_some_iff.1 hs
    obtain ⟨hbusy, hdb, -⟩ := db_of_watch ht
    obtain ⟨r, hr, -, -, hres⟩ := hx.row
    refine .inr ⟨r, (congrArg (Db.getByInode · _) hdb).trans hr, ?_, hwaits⟩
    refine (hres (Bool.or_eq_false_iff.1 hacc.symm).1 ?_).dirty fun hdone => hbusy hdone.2
    rw [show s.pc = .returned from hpc]
    rfl

/-- **A restored version is uploaded.** In a run whose steps leave the restored bytes alone, their
row is dirty and queued when the watcher is done, and it is queued from then on until the backend
has accepted them. -/
theorem queued_of_run {w : World} {g : Watcher} {path : Str} {es : List RestoreEvent}
    (hr : w.db.getByRemotePath c.mount.mountId path = some c.entry) (hn : c.Noticed)
    (hg : Guarded c.historyStep c.LeavesRestored (start w g) es)
    (hrun : run c.historyStep (start w g) es = some x) :
    (x.1.pc = .returned → x.1.watcher.Idle → c.Queued x) ∧
      ∀ fault y, c.LeavesRestored x (.watch fault) → c.historyStep x (.watch fault) = some y →
        y.1.pc = .returned → y.1.watcher.Idle → c.QueuedDirty y := by
  have hx := inv_of_run (fun x e x' hx hg h => hx.step hn hg h) (restoreKept_start hr) hg hrun
  exact ⟨hx.queued, fun fault y hg hy => hx.queuedDirty hn hg hy⟩

end RestoreCase

/-- The command runs, and the watcher goes through what it is told. -/
def restoreAndWatch : List RestoreEvent :=
  List.replicate 4 (.restore false) ++ List.replicate 14 (.watch false)

/-- A version of a file is restored that nobody writes. -/
theorem queuedDirty_restoreAndWatch :
    ∃ (c : RestoreCase) (w : World) (x y : RestoreState × Bool),
      run (step sampleMount) (World.init sampleMount 0) uploadFirst = some w ∧
      run c.historyStep (RestoreCase.start w ⟨[], .paths []⟩) (restoreAndWatch.take 17) = some x ∧
      c.historyStep x (.watch false) = some y ∧ y.2 = false ∧ c.QueuedDirty y := by
  obtain ⟨w, r, hw, hr, hguard, x, y, hx, hy, hend⟩ : ∃ w r,
      run (step sampleMount) (World.init sampleMount 0) uploadFirst = some w ∧
      w.db.getByRemotePath sampleMount.mountId ['a'] = some r ∧
      (let c : RestoreCase := ⟨sampleMount, .inotify, r, [9]⟩
      (c.Noticed ∧ Guarded c.historyStep c.LeavesRestored
        (RestoreCase.start w ⟨[], .paths []⟩) (restoreAndWatch.take 17)) ∧ ∃ x y,
        run c.historyStep (RestoreCase.start w ⟨[], .paths []⟩) (restoreAndWatch.take 17) = some x ∧
          c.historyStep x (.watch false) = some y ∧
            y.2 = false ∧ y.1.pc = .returned ∧ y.1.watcher.Idle) :=
    ⟨_, _, rfl, rfl, by decide, _, _, rfl, rfl, rfl, rfl, rfl, rfl⟩
  exact ⟨_, w, x, y, hw, hx, hy, hend.1,
    (RestoreCase.queued_of_run hr hguard.1 hguard.2 hx).2 false y (fun _ => rfl) hy hend.2.1
      hend.2.2⟩

/-- A file is written again, and the upload of the new content is about to be recorded. -/
def uploadRewritten : List Event :=
  uploadFirst ++ [.request (.write 1 0 [8]), .fuse .fine, .launch 2, .upload 0 .fine,
    .upload 0 .fine, .upload 0 .fine, .upload 0 .fine, .upload 0 (.accepted ['w']),
    .upload 0 .fine]

/-- The upload is recorded after the command has marked the row, and before the watcher sees that
the file has been moved. -/
def restoreBesideUpload : List RestoreEvent :=
  List.replicate 4 (.restore false) ++ [.upload 0 .fine, .upload 0 .fine] ++
    List.replicate 12 (.watch false)

theorem not_queued_restoreBesideUpload :
    ¬∀ (c : RestoreCase) (now : ℕ) (evs : List Event) (w : World) (g : Watcher) (path : Str)
      (es : List RestoreEvent) (x : RestoreState × Bool),
      run (step c.mount) (World.init c.mount now) evs = some w →
        w.db.getByRemotePath c.mount.mountId path = some c.entry →
          run c.historyStep (RestoreCase.start w g) es = some x → x.1.pc = .returned →
            x.1.watcher.Idle → c.Queued x := by
  intro h
  obtain ⟨w, r, hw, hr, x, hx, hpc, hidle, hacc, hrow⟩ : ∃ w r,
      run (step sampleMount) (World.init sampleMount 0) uploadRewritten = some w ∧
      w.db.getByRemotePath sampleMount.mountId ['a'] = some r ∧
      (let c : RestoreCase := ⟨sampleMount, .inotify, r, [7]⟩
      ∃ x, run c.historyStep (RestoreCase.start w ⟨[], .paths []⟩) restoreBesideUpload = some x ∧
        x.1.pc = .returned ∧ x.1.watcher.Idle ∧ x.2 = false ∧
          ∀ q ∈ x.1.world.db.getByInode r.inode, q.status.isUnsynced = false) :=
    ⟨_, _, rfl, rfl, _, rfl, rfl, ⟨rfl, rfl⟩, rfl, by decide⟩
  obtain hyes | ⟨q, hq, hs, -⟩ := h ⟨sampleMount, .inotify, r, [7]⟩ 0 uploadRewritten w
    ⟨[], .paths []⟩ ['a'] restoreBesideUpload x hw hr hx hpc hidle
  · exact nomatch hacc.symm.trans hyes
  · exact nomatch hs.symm.trans (hrow q hq)

end Stratosync

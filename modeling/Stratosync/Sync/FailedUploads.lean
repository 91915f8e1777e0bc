import Stratosync.Conflict.Bench
import Stratosync.Conflict.LostSides
import Stratosync.Foundations.Runs

/-!
# Uploads that fail

One attempt to upload a row: `run_upload` and what the queue does with its result, up to the end
of the resolver where that is invoked. `UploadCase.Retryable` says what the end of an attempt owes
to local bytes that the remote does not have. `retryable_of_run` proves it of every attempt in
which no call of the completion fails and no text with conflict markers is written over the local
bytes; `Known` is the invariant, what is where when the attempt has come to a step.

An error of the backend brings the row back to `dirty`. A failure of the resolver does not: the
queue warns of it, and leaves the row as the upload has marked it (`not_pending_of_failed`).
-/

namespace Stratosync

open Foundations.Runs Foundations.Tasks

/-- An attempt to upload a row: the upload, and the resolver where there is a conflict. -/
inductive Attempt
  | upload (pc : UploadPc)
  | resolve (entry : FileEntry) (cachePath : PathBuf) (pc : ResolvePc)

/-- The next call of the attempt to upload inode `i`. It fails where the resolver does; there is
nothing the queue still does then. -/
def Attempt.tick (t : MergeTools) (i : Inode) (h : Holdings) (env : ResolveEnv) :
    Attempt → Holdings × Next Attempt Unit
  | .upload (.finish (.error .conflict)) =>
    match (if env.fault then none else h.world.db.getByInode i) with
    | none => (h, .ok ())
    | some entry =>
      match entry.cachePath with
      | none => (h, .ok ())
      | some cachePath => (h, .goto (.resolve entry cachePath .equalStat))
  | .upload pc =>
    match Upload.tick h.world i env.toEnv pc with
    | (world, some pc') => ({ h with world }, .goto (.upload pc'))
    | (world, none) => ({ h with world }, .ok ())
  | .resolve entry cachePath pc =>
    match pc.tick t entry cachePath h env with
    | (h', .goto pc') => (h', .goto (.resolve entry cachePath pc'))
    | (h', .ok _) => (h', .ok ())
    | (h', .err) => (h', .err)

/-! ## The calls of an attempt are those of an upload and of the resolver -/

section Parties

variable {t : MergeTools} {i : Inode} {h : Holdings} {env : ResolveEnv}

theorem Attempt.tick_upload {pc : UploadPc} (hpc : pc ≠ .finish (.error .conflict)) {w : World}
    {next : Option UploadPc} (ht : Upload.tick h.world i env.toEnv pc = (w, next)) :
    Attempt.tick t i h env (.upload pc) =
      ({ h with world := w }, next.elim (.ok ()) fun pc' => .goto (.upload pc')) := by
  rw [Attempt.tick, ht]
  · cases next <;> rfl
  · exact fun hc => hpc hc

theorem Attempt.fst_tick_resolve (entry : FileEntry) (cachePath : PathBuf) (pc : ResolvePc) :
    (Attempt.tick t i h env (.resolve entry cachePath pc)).1 =
      (pc.tick t entry cachePath h env).1 := by
  rw [Attempt.tick]
  split <;> rename_i ht <;> rw [ht]

end Parties

/-! ## What is to hold -/

/-- The launch of an upload of a row whose local bytes the remote does not have. -/
structure UploadCase where
  tools : MergeTools
  inode : Inode
  row : FileEntry
  cachePath : PathBuf
  start : Holdings
  loc : Bytes
  indexed : start.world.db.getByInode inode = some row
  isFile : row.kind = .file
  unsynced : row.status.isUnsynced = true
  cached : row.cachePath = some cachePath
  hasLocal : start.world.fs.files cachePath = some loc
  launched : inode ∉ start.world.pending

namespace UploadCase

variable (c : UploadCase)

/-- The next call of the attempt; `none` when it has ended. -/
def step : Holdings × Next Attempt Unit → ResolveEnv → Option (Holdings × Next Attempt Unit)
  | (h, .goto a), env => some (a.tick c.tools c.inode h env)
  | _, _ => none

def init : Holdings × Next Attempt Unit := (c.start, .goto (.upload .load))

/-- The remote has the local bytes at the path of the row. -/
def Uploaded (r : Remote) : Prop := (r.object c.row.remotePath).map RemoteObject.data = some c.loc

/-- A version that is at the remote in the attempt: that of its start, or the local one. -/
def AtRemote (data : Bytes) : Prop :=
  (c.start.world.remote.object c.row.remotePath).map RemoteObject.data = some data ∨ data = c.loc

/-- The local bytes merge without a conflict to this text, from the base of the row. -/
def MergesTo (text : Bytes) : Prop :=
  ∃ hash base remote, c.start.baseHash c.inode = some hash ∧ c.start.objects hash = some base ∧
    c.AtRemote remote ∧ c.tools.mergeFile c.loc base remote = .clean text

/-- The remote has accepted the local bytes: as they are, in a conflict file, or merged. -/
inductive Accepted (r : Remote) : Prop
  | uploaded (h : c.Uploaded r)
  | sibling (name : Str)
      (h : (r.object (c.row.conflictPath name)).map RemoteObject.data = some c.loc)
  | merged (text : Bytes) (hm : c.MergesTo text)
      (h : (r.object c.row.remotePath).map RemoteObject.data = some text)

/-- The row is dirty, and its cache file has the local bytes. -/
def Waiting (w : World) : Prop :=
  ∃ r, w.db.getByInode c.inode = some r ∧ r.status = .dirty ∧
    r.cachePath = some c.cachePath ∧ w.fs.files c.cachePath = some c.loc

/-- **The completion leaves a retryable row**: local bytes that were not accepted are in a dirty
row, and a failed resolution is pending again. -/
structure Retryable (s : Holdings × Next Attempt Unit) : Prop where
  kept : (∀ a, s.2 ≠ .goto a) → c.Accepted s.1.world.remote ∨ c.Waiting s.1.world
  again : s.2 = .err → c.inode ∈ s.1.world.pending

/-! ## The condition -/

end UploadCase

/-- The text of a merge with conflict markers. -/
def MergeOutcome.markers : MergeOutcome → Option Bytes
  | .conflictMarkers text => some text
  | _ => none

/-- The call does not fail where `resolve` returns its failure, the remote version is not saved
over the local one, and no text with conflict markers is to be written over other bytes. -/
def ResolvePc.Unfailing (t : MergeTools) (entry : FileEntry) (cachePath : PathBuf) (h : Holdings)
    (env : ResolveEnv) : ResolvePc → Prop
  | .equalRecord _ | .base | .recordMerged _ _ | .recordRemote _ _ _ => env.fault = false
  | .readMerged _ | .statMerged _ | .readSibling _ | .statUploaded _ => env.error = none
  | .mergeSave _ _ => env.fault = false → remoteTmp cachePath ≠ cachePath
  | .merge hash =>
    env.fault = false → ∀ text ∈ (tryThreeWayMerge t (h.objects hash)
      (h.world.fs.files cachePath) (h.world.fs.files (remoteTmp cachePath))).markers,
        h.world.fs.files cachePath = some text
  | .writeMerged text _ =>
    env.fault = false ∧ (h.world.fs.install cachePath text).isSome = true
  | .putMerged _ _ => env.error = none ∧ h.world.remote entry.remotePath ≠ some .dir
  | .putSibling name _ =>
    env.error = none ∧ h.world.remote (entry.conflictPath name) ≠ some .dir
  | .fetchRemote _ =>
    env.error = none ∧ (h.world.remote.object entry.remotePath).isSome = true
  | .saveRemote _ data => env.fault = false ∧ (h.save cachePath data).isSome = true
  | .insertSibling name size etag =>
    env.fault = false ∧ (h.world.db.insertFile (conflictRow entry name (entry.conflictPath name)
      size env.mtime etag)).isSome = true
  | _ => True

namespace UploadCase

variable (c : UploadCase)

/-- No call of the completion fails: the row is written, or read for the resolver, and the
resolver goes through. -/
def Completes : Holdings × Next Attempt Unit → ResolveEnv → Prop
  | (_, .goto (.upload (.finish (.error _)))), env => env.fault = false
  | (h, .goto (.resolve entry cachePath pc)), env => pc.Unfailing c.tools entry cachePath h env
  | _, _ => True

section Decidable

instance (t : MergeTools) (entry : FileEntry) (cachePath : PathBuf) (h : Holdings)
    (env : ResolveEnv) : DecidablePred fun pc => ResolvePc.Unfailing t entry cachePath h env pc
  | .equalRecord _ | .base | .recordMerged _ _ | .recordRemote _ _ _ =>
    inferInstanceAs (Decidable (env.fault = false))
  | .readMerged _ | .statMerged _ | .readSibling _ | .statUploaded _ =>
    inferInstanceAs (Decidable (env.error = none))
  | .mergeSave _ _ =>
    inferInstanceAs (Decidable (env.fault = false → remoteTmp cachePath ≠ cachePath))
  | .merge hash => inferInstanceAs (Decidable (env.fault = false →
      ∀ text ∈ (tryThreeWayMerge t (h.objects hash) (h.world.fs.files cachePath)
        (h.world.fs.files (remoteTmp cachePath))).markers,
          h.world.fs.files cachePath = some text))
  | .writeMerged _ _ | .putMerged _ _ | .putSibling _ _ | .fetchRemote _ | .saveRemote _ _
  | .insertSibling _ _ _ => inferInstanceAs (Decidable (_ ∧ _))
  | .equalStat | .equalFetch _ | .equalCompare _ _ | .mergeFetch _ | .nameSibling | .statRemote _
  | .statSibling _ _ => .isTrue trivial

instance : (s : Holdings × Next Attempt Unit) → (env : ResolveEnv) → Decidable (c.Completes s env)
  | (_, .goto (.upload (.finish (.error _)))), env =>
    inferInstanceAs (Decidable (env.fault = false))
  | (h, .goto (.resolve entry cachePath pc)), env =>
    inferInstanceAs (Decidable (pc.Unfailing c.tools entry cachePath h env))
  | (_, .goto (.upload .load)), _ | (_, .goto (.upload (.reset _))), _
  | (_, .goto (.upload (.check _ _))), _ | (_, .goto (.upload (.revert _))), _
  | (_, .goto (.upload (.mark _ _))), _ | (_, .goto (.upload (.read _ _))), _
  | (_, .goto (.upload (.put _ _))), _ | (_, .goto (.upload (.stat _))), _
  | (_, .goto (.upload (.record _))), _ | (_, .goto (.upload (.finish (.ok _)))), _
  | (_, .ok _), _ | (_, .err), _ => .isTrue trivial

end Decidable

/-! ## What is where at each step -/

/-- The local bytes are where they were, and so is all that a merge reads. -/
structure Local (h : Holdings) : Prop where
  row : ∃ s, h.world.db.getByInode c.inode = some { c.row with status := s }
  file : h.world.fs.files c.cachePath = some c.loc
  remote : ∀ o, h.world.remote.object c.row.remotePath = some o → c.AtRemote o.data
  objects : h.objects = c.start.objects
  bases : h.baseHash = c.start.baseHash

/-- There is a row, so that a cache file can be recorded. -/
def Indexed (h : Holdings) : Prop := (h.world.db.getByInode c.inode).isSome = true

/-- A base to merge from. -/
def HasBase (hash : Str) : Prop :=
  c.start.baseHash c.inode = some hash ∧ ∃ base, c.start.objects hash = some base

/-- The remote version has the length of the local one, and the metadata say so. -/
def SameSize (metadata : RemoteMetadata) (remote : Bytes) : Prop :=
  metadata.size = remote.length ∧ c.loc.length = remote.length

/-- The conflict file of this name has the local bytes. -/
def Stored (name : Str) (h : Holdings) : Prop :=
  (h.world.remote.object (c.row.conflictPath name)).map RemoteObject.data = some c.loc

/-- What is where when the resolver has come to a step. -/
def Resolving (h : Holdings) : ResolvePc → Prop
  | .equalStat | .base | .nameSibling | .readSibling _ => c.Local h
  | .equalFetch metadata =>
    c.Local h ∧ ∀ o, h.world.remote.object c.row.remotePath = some o → c.SameSize metadata o.data
  | .equalCompare metadata remote =>
    c.Local h ∧ c.SameSize metadata remote ∧
      (h.world.remote.object c.row.remotePath).map RemoteObject.data = some remote
  | .equalRecord _ => c.Local h ∧ c.Uploaded h.world.remote
  | .mergeFetch hash => c.Local h ∧ c.HasBase hash
  | .mergeSave hash remote => c.Local h ∧ c.HasBase hash ∧ c.AtRemote remote
  | .merge hash =>
    c.Local h ∧ c.HasBase hash ∧ remoteTmp c.cachePath ≠ c.cachePath ∧
      ∃ remote, c.AtRemote remote ∧ h.world.fs.files (remoteTmp c.cachePath) = some remote
  | .writeMerged text clean =>
    c.Local h ∧ remoteTmp c.cachePath ≠ c.cachePath ∧
      if clean then c.MergesTo text else text = c.loc
  | .readMerged _ =>
    c.Indexed h ∧ ∃ text, c.MergesTo text ∧ h.world.fs.files c.cachePath = some text
  | .putMerged _ text => c.Indexed h ∧ c.MergesTo text
  | .statMerged _ | .recordMerged _ _ =>
    c.Indexed h ∧ ∃ text, c.MergesTo text ∧
      (h.world.remote.object c.row.remotePath).map RemoteObject.data = some text
  | .putSibling _ data => c.Local h ∧ data = c.loc
  | .statUploaded name | .fetchRemote name | .saveRemote name _ => c.Indexed h ∧ c.Stored name h
  | .statRemote name =>
    c.Indexed h ∧ c.Stored name h ∧ (h.world.fs.files c.cachePath).isSome = true
  | .recordRemote name _ _ => c.Indexed h ∧ c.Stored name h
  | .statSibling name _ | .insertSibling name _ _ => c.Stored name h

/-- **What is where when the attempt has come to a step.** -/
def Known (h : Holdings) : Attempt → Prop
  | .upload .load => h = c.start
  | .upload (.reset _) | .upload (.revert _) => False
  | .upload (.check entry path) | .upload (.mark entry path) | .upload (.read entry path) =>
    c.Local h ∧ entry = c.row ∧ path = c.cachePath
  | .upload (.put entry data) => c.Local h ∧ entry = c.row ∧ data = c.loc
  | .upload (.stat entry) => c.Local h ∧ entry = c.row ∧ c.Uploaded h.world.remote
  | .upload (.record _) => c.Local h ∧ c.Uploaded h.world.remote
  | .upload (.finish (.ok _)) => c.Uploaded h.world.remote
  | .upload (.finish (.error _)) => c.Local h
  | .resolve entry path pc =>
    entry.inode = c.inode ∧ entry.remotePath = c.row.remotePath ∧ path = c.cachePath ∧
      c.Resolving h pc

/-- What a step has to leave: the facts of the next one, or what the end owes. -/
def Leaves : Holdings × Next Attempt Unit → Prop
  | (h, .goto a) => c.Known h a
  | (h, .ok _) => c.Accepted h.world.remote ∨ c.Waiting h.world
  | (_, .err) => False

/-- The same of a step of the resolver. -/
def Resolves : Holdings × ResolveNext → Prop
  | (h, .goto pc) => c.Resolving h pc
  | (h, .ok _) => c.Accepted h.world.remote
  | (_, .err) => False

variable {c} {h : Holdings} {env : ResolveEnv} {entry : FileEntry}

theorem local_start : c.Local c.start where
  row := ⟨c.row.status, c.indexed⟩
  file := c.hasLocal
  remote := fun _ ho => .inl (congrArg (Option.map RemoteObject.data) ho)
  objects := rfl
  bases := rfl

theorem Local.indexed (hl : c.Local h) : c.Indexed h := by
  obtain ⟨s, hs⟩ := hl.row
  rw [Indexed, hs]
  rfl

/-- Other files may change. -/
theorem Local.withFs (hl : c.Local h) {fs : CacheFs}
    (hf : fs.files c.cachePath = some c.loc) : c.Local (h.withFs fs) :=
  ⟨hl.row, hf, hl.remote, hl.objects, hl.bases⟩

/-- The status of the row may change. -/
theorem Local.withDb (hl : c.Local h) {db : Db} {s : SyncStatus}
    (hs : h.world.db.setStatus c.inode s = some db) : c.Local (h.withDb db) := by
  refine ⟨⟨s, ?_⟩, hl.file, hl.remote, hl.objects, hl.bases⟩
  obtain ⟨s', hs'⟩ := hl.row
  have hrow := (Db.setStatus_rows hs).self
  rw [hs'] at hrow
  exact hrow

/-- The row is marked as dirty when the database call succeeds. -/
theorem Local.waiting (hl : c.Local h) (hf : env.fault = false) :
    c.Waiting (h.world.logDb env.toEnv (h.world.db.setStatus c.inode .dirty)) := by
  obtain ⟨s, hs⟩ := hl.row
  have hsome : (h.world.db.setStatus c.inode .dirty).isSome = true :=
    Db.updateRow_isSome (fun _ => ⟨rfl, rfl, rfl, rfl, rfl, rfl⟩) fun r hr _ _ => by
      obtain rfl := Option.some.inj (hs.symm.trans hr)
      exact (congrArg Option.isSome c.cached).trans rfl
  obtain ⟨db, hdb⟩ := Option.isSome_iff_exists.1 hsome
  have hrow := (Db.setStatus_rows hdb).self
  rw [hs, Option.map_some] at hrow
  rw [World.logDb, World.tryDb, hf, hdb]
  exact ⟨_, hrow, rfl, c.cached, hl.file⟩

/-- A cache file can be recorded. -/
theorem Indexed.setCached (hi : c.Indexed h) (hf : env.fault = false) (n k l : ℕ)
    (etag : Option Str) :
    ∃ db, World.tryDb env.toEnv
        (h.world.db.setCached c.inode c.cachePath n etag k l) = some db := by
  obtain ⟨db, hdb⟩ := Option.isSome_iff_exists.1
    (Db.setCached_isSome_iff.2 hi : (h.world.db.setCached c.inode c.cachePath n etag k l).isSome)
  exact ⟨db, tryDb_eq_some.2 ⟨hf, hdb⟩⟩

/-! ### The resolver -/

/-- The steps that compare, and the one that looks for a base. -/
theorem resolves_of_comparing {pc : ResolvePc} (hk : c.Resolving h pc)
    (hi : entry.inode = c.inode) (hp : entry.remotePath = c.row.remotePath)
    (hg : pc.Unfailing c.tools entry c.cachePath h env)
    (hpc : pc = .equalStat ∨ (∃ md, pc = .equalFetch md) ∨ (∃ md d, pc = .equalCompare md d) ∨
      (∃ md, pc = .equalRecord md) ∨ pc = .base) :
    c.Resolves (pc.tick c.tools entry c.cachePath h env) := by
  obtain rfl | ⟨md, rfl⟩ | ⟨md, d, rfl⟩ | ⟨md, rfl⟩ | rfl := hpc
  · have hl : c.Local h := hk
    simp only [ResolvePc.tick, hp]
    split
    · rename_i metadata data _ hmd hdata
      obtain rfl := Option.some.inj (hl.file.symm.trans hdata)
      split
      · rename_i hlen
        refine ⟨hl, fun o ho => ?_⟩
        obtain ⟨md', hmd', hsize⟩ := stat_of_object ho
        obtain rfl := Option.some.inj (hmd.symm.trans hmd')
        exact ⟨hsize, hlen.trans hsize⟩
      · exact hl
    · exact hl
  · obtain ⟨hl, hsame⟩ := hk
    simp only [ResolvePc.tick, hp]
    split
    · rename_i o _ ho
      exact ⟨hl, hsame o ho, congrArg (Option.map RemoteObject.data) ho⟩
    · exact hl
  · obtain ⟨hl, ⟨hsize, hlen⟩, hobj⟩ := hk
    simp only [ResolvePc.tick]
    split
    · rename_i data hdata
      split at hdata
      · cases hdata
      obtain rfl := Option.some.inj (hl.file.symm.trans hdata)
      split
      · rename_i heq
        have := ResolveCase.filesEqual_eq (hlen.trans hsize.symm) hsize.symm heq
        exact ⟨hl, hobj.trans (congrArg some this.symm)⟩
      · exact hl
    · exact hl
  · obtain ⟨hl, hup⟩ := hk
    simp only [ResolvePc.tick, hl.file, hi]
    obtain ⟨db, hdb⟩ := hl.indexed.setCached (show env.fault = false from hg) c.loc.length
      md.mtime md.size md.etag
    rw [hdb]
    exact .uploaded hup
  · have hl : c.Local h := hk
    have hf : env.fault = false := hg
    simp only [ResolvePc.tick, hf, Bool.false_eq_true, if_false]
    split
    · rename_i hash hb
      obtain ⟨hget, base, hbase⟩ := mergeBase_spec hb
      rw [Holdings.getBaseHash, hi, if_pos (show _ = true from hl.indexed), hl.bases] at hget
      rw [hl.objects] at hbase
      exact ⟨hl, hget, base, hbase⟩
    · exact hl

/-- The steps up to the merge. -/
theorem resolves_of_fetching {pc : ResolvePc} (hk : c.Resolving h pc)
    (hp : entry.remotePath = c.row.remotePath)
    (hg : pc.Unfailing c.tools entry c.cachePath h env)
    (hpc : (∃ hash, pc = .mergeFetch hash) ∨ (∃ hash d, pc = .mergeSave hash d) ∨
      ∃ hash, pc = .merge hash) :
    c.Resolves (pc.tick c.tools entry c.cachePath h env) := by
  obtain ⟨hash, rfl⟩ | ⟨hash, d, rfl⟩ | ⟨hash, rfl⟩ := hpc
  · obtain ⟨hl, hbase⟩ := hk
    simp only [ResolvePc.tick, hp]
    split
    · rename_i o _ ho
      exact ⟨hl, hbase, hl.remote o ho⟩
    · exact hl
  · obtain ⟨hl, hbase, hd⟩ := hk
    simp only [ResolvePc.tick]
    split
    · rename_i h' hsave
      obtain ⟨hf, fs, rfl, hfiles⟩ := Holdings.tried_save_spec hsave
      have htmp : remoteTmp c.cachePath ≠ c.cachePath := hg hf
      refine ⟨hl.withFs ?_, hbase, htmp, d, hd, (hfiles _).trans (if_pos rfl)⟩
      rw [hfiles, if_neg htmp.symm, hl.file]
    · exact hl
  · obtain ⟨hl, ⟨hhash, base, hbase⟩, htmp, remote, hremote, hfile⟩ := hk
    have hout : tryThreeWayMerge c.tools (h.objects hash) (h.world.fs.files c.cachePath)
        (h.world.fs.files (remoteTmp c.cachePath)) = c.tools.mergeFile c.loc base remote := by
      rw [hl.objects, hbase, hl.file, hfile]
      rfl
    simp only [ResolvePc.tick]
    split
    · rename_i text ho
      split at ho
      · cases ho
      exact ⟨hl, htmp, hash, base, remote, hhash, hbase, hremote, hout ▸ ho⟩
    · rename_i text ho
      split at ho
      · cases ho
      rename_i hf
      have hmark := hg (Bool.eq_false_iff.2 hf) text (by rw [ho]; rfl)
      exact ⟨hl, htmp, Option.some.inj (hmark.symm.trans hl.file)⟩
    · refine hl.withFs ?_
      rw [CacheFs.files_removeIfPresent_some, if_neg htmp.symm, hl.file]

/-- The steps after a merge, where it was clean. -/
theorem resolves_of_merging {pc : ResolvePc} (hk : c.Resolving h pc)
    (hi : entry.inode = c.inode) (hp : entry.remotePath = c.row.remotePath)
    (hg : pc.Unfailing c.tools entry c.cachePath h env)
    (hpc : (∃ text clean, pc = .writeMerged text clean) ∨ (∃ n, pc = .readMerged n) ∨
      (∃ n d, pc = .putMerged n d) ∨ (∃ n, pc = .statMerged n) ∨ ∃ n md, pc = .recordMerged n md) :
    c.Resolves (pc.tick c.tools entry c.cachePath h env) := by
  obtain ⟨text, clean, rfl⟩ | ⟨n, rfl⟩ | ⟨n, d, rfl⟩ | ⟨n, rfl⟩ | ⟨n, md, rfl⟩ := hpc
  · obtain ⟨hl, htmp, htext⟩ := hk
    obtain ⟨hf, hinst⟩ := hg
    obtain ⟨fs, hfs⟩ := Option.isSome_iff_exists.1 hinst
    simp only [ResolvePc.tick, Holdings.write_fine hf hfs]
    have hfile : fs.files c.cachePath = some text := by
      rw [CacheFs.files_of_install hfs, if_pos rfl]
    cases clean with
    | true => exact ⟨hl.indexed, text, htext, hfile⟩
    | false =>
      have htext : text = c.loc := htext
      refine (hl.withFs (hfile.trans (congrArg some htext))).withFs ?_
      rw [CacheFs.files_removeIfPresent_some, if_neg htmp.symm]
      exact hfile.trans (congrArg some htext)
  · obtain ⟨hx, text, hm, hfile⟩ := hk
    have he : env.error = none := hg
    simp only [ResolvePc.tick, he, hfile]
    exact ⟨hx, hm⟩
  · obtain ⟨hx, hm⟩ := hk
    obtain ⟨he, hdir⟩ := hg
    obtain ⟨o, ho, hup⟩ := upload_none d env.etag env.mtime hdir
    simp only [ResolvePc.tick, he, hup]
    refine ⟨hx, d, hm, ?_⟩
    change ((h.world.remote.put entry.remotePath o).object c.row.remotePath).map _ = _
    rw [hp, Remote.object_put, if_pos rfl, Option.map_some, ho]
  · obtain ⟨hx, text, hm, hobj⟩ := hk
    have he : env.error = none := hg
    obtain ⟨o, ho, -⟩ := Option.map_eq_some_iff.1 hobj
    obtain ⟨md, hmd, -⟩ := stat_of_object ho
    simp only [ResolvePc.tick, he, hp, hmd]
    exact ⟨hx, text, hm, hobj⟩
  · obtain ⟨hx, text, hm, hobj⟩ := hk
    obtain ⟨db, hdb⟩ := hx.setCached (show env.fault = false from hg) n md.mtime md.size md.etag
    simp only [ResolvePc.tick, hi, hdb]
    exact .merged text hm hobj

/-- The steps up to the upload of the conflict file. -/
theorem resolves_of_naming {pc : ResolvePc} (hk : c.Resolving h pc)
    (hp : entry.remotePath = c.row.remotePath)
    (hg : pc.Unfailing c.tools entry c.cachePath h env)
    (hpc : pc = .nameSibling ∨ (∃ name, pc = .readSibling name) ∨
      ∃ name d, pc = .putSibling name d) :
    c.Resolves (pc.tick c.tools entry c.cachePath h env) := by
  obtain rfl | ⟨name, rfl⟩ | ⟨name, d, rfl⟩ := hpc
  · exact hk
  · have hl : c.Local h := hk
    have he : env.error = none := hg
    simp only [ResolvePc.tick, he, hl.file]
    exact ⟨hl, rfl⟩
  · obtain ⟨hl, rfl⟩ := hk
    obtain ⟨he, hdir⟩ := hg
    obtain ⟨o, ho, hup⟩ := upload_none c.loc env.etag env.mtime hdir
    simp only [ResolvePc.tick, he, hup]
    refine ⟨hl.indexed, ?_⟩
    change ((h.world.remote.put (entry.conflictPath name) o).object _).map _ = _
    rw [FileEntry.conflictPath, FileEntry.conflictPath, hp, Remote.object_put, if_pos rfl,
      Option.map_some, ho]

/-- The steps after the upload of the conflict file. -/
theorem resolves_of_storing {pc : ResolvePc} (hk : c.Resolving h pc)
    (hi : entry.inode = c.inode) (hp : entry.remotePath = c.row.remotePath)
    (hg : pc.Unfailing c.tools entry c.cachePath h env)
    (hpc : (∃ name, pc = .statUploaded name) ∨ (∃ name, pc = .fetchRemote name) ∨
      (∃ name d, pc = .saveRemote name d) ∨ (∃ name, pc = .statRemote name) ∨
      (∃ name n md, pc = .recordRemote name n md) ∨ (∃ name n, pc = .statSibling name n) ∨
      ∃ name n e, pc = .insertSibling name n e) :
    c.Resolves (pc.tick c.tools entry c.cachePath h env) := by
  obtain ⟨name, rfl⟩ | ⟨name, rfl⟩ | ⟨name, d, rfl⟩ | ⟨name, rfl⟩ | ⟨name, n, md, rfl⟩ |
    ⟨name, n, rfl⟩ | ⟨name, n, e, rfl⟩ := hpc
  · obtain ⟨hx, hst⟩ := hk
    have he : env.error = none := hg
    obtain ⟨o, ho, -⟩ := Option.map_eq_some_iff.1 hst
    obtain ⟨md, hmd, -⟩ := stat_of_object ho
    have hpath : entry.conflictPath name = c.row.conflictPath name := by
      rw [FileEntry.conflictPath, FileEntry.conflictPath, hp]
    simp only [ResolvePc.tick, he, hpath, hmd]
    exact ⟨hx, hst⟩
  · obtain ⟨he, hobj⟩ := hg
    obtain ⟨o, ho⟩ := Option.isSome_iff_exists.1 hobj
    simp only [ResolvePc.tick, he, ho]
    exact hk
  · obtain ⟨hf, hsave⟩ := hg
    obtain ⟨h', hsave⟩ := Option.isSome_iff_exists.1 hsave
    simp only [ResolvePc.tick, hf, Bool.false_eq_true, if_false, hsave]
    obtain ⟨fs, rfl, hfiles⟩ := Holdings.save_spec hsave
    refine ⟨hk.1, hk.2, ?_⟩
    change (fs.files c.cachePath).isSome = true
    rw [hfiles, if_pos rfl]
    rfl
  · obtain ⟨hx, hst, hfile⟩ := hk
    obtain ⟨data, hdata⟩ := Option.isSome_iff_exists.1 hfile
    simp only [ResolvePc.tick, hdata]
    split <;> exact ⟨hx, hst⟩
  · obtain ⟨hx, hst⟩ := hk
    obtain ⟨db, hdb⟩ := hx.setCached (show env.fault = false from hg) n md.mtime md.size md.etag
    simp only [ResolvePc.tick, hi, hdb]
    exact hst
  · simp only [ResolvePc.tick]
    split <;> exact hk
  · obtain ⟨hf, hins⟩ := hg
    obtain ⟨x, hx⟩ := Option.isSome_iff_exists.1 hins
    have hdb : World.tryDb env.toEnv (some x.2) = some x.2 := tryDb_eq_some.2 ⟨hf, rfl⟩
    simp only [ResolvePc.tick, hx, Option.map_some, hdb]
    exact .sibling name hk

theorem resolves_tick {pc : ResolvePc} (hk : c.Resolving h pc) (hi : entry.inode = c.inode)
    (hp : entry.remotePath = c.row.remotePath)
    (hg : pc.Unfailing c.tools entry c.cachePath h env) :
    c.Resolves (pc.tick c.tools entry c.cachePath h env) := by
  cases pc with
  | equalStat | equalFetch | equalCompare | equalRecord | base =>
    exact resolves_of_comparing hk hi hp hg (by simp)
  | mergeFetch | mergeSave | merge => exact resolves_of_fetching hk hp hg (by simp)
  | writeMerged | readMerged | putMerged | statMerged | recordMerged =>
    exact resolves_of_merging hk hi hp hg (by simp)
  | nameSibling | readSibling | putSibling => exact resolves_of_naming hk hp hg (by simp)
  | _ => exact resolves_of_storing hk hi hp hg (by simp)

/-! ### The upload -/

/-- The steps of `run_upload`. -/
theorem known_of_uploading (env : ResolveEnv) {pc : UploadPc} (hk : c.Known h (.upload pc))
    (hpc : ∀ result, pc ≠ .finish result) :
    ∃ world pc', Upload.tick h.world c.inode env.toEnv pc = (world, some pc') ∧
      c.Known { h with world } (.upload pc') := by
  cases pc with
  | load =>
    obtain rfl : h = c.start := hk
    simp only [Upload.tick, c.indexed]
    split
    · exact ⟨_, _, rfl, local_start⟩
    · have hconflict : c.row.status ≠ .conflict := fun hs => by
        have hu := c.unsynced
        rw [hs] at hu
        cases hu
      rw [if_neg hconflict, if_neg (not_not_intro c.isFile), c.cached]
      exact ⟨_, _, rfl, local_start, rfl, rfl⟩
  | reset | revert => exact hk.elim
  | check entry path =>
    obtain ⟨hl, rfl, rfl⟩ := hk
    have hex : h.world.fs.exists_ c.cachePath = true := by
      rw [CacheFs.exists_, hl.file]
      rfl
    simp only [Upload.tick, hex, if_true]
    exact ⟨_, _, rfl, hl, rfl, rfl⟩
  | mark entry path =>
    obtain ⟨hl, rfl, rfl⟩ := hk
    simp only [Upload.tick]
    split
    · exact ⟨_, _, rfl, hl⟩
    · rename_i db hdb
      exact ⟨_, _, rfl, hl.withDb (tryDb_eq_some.1 hdb).2, rfl, rfl⟩
  | read entry path =>
    obtain ⟨hl, rfl, rfl⟩ := hk
    simp only [Upload.tick, hl.file]
    split
    · exact ⟨_, _, rfl, hl⟩
    · rename_i hnone
      cases hnone
    · rename_i data _ hdata
      exact ⟨_, _, rfl, hl, rfl, (Option.some.inj hdata).symm⟩
  | put entry data =>
    obtain ⟨hl, rfl, rfl⟩ := hk
    simp only [Upload.tick]
    split
    · exact ⟨_, _, rfl, hl⟩
    · split
      · exact ⟨_, _, rfl, hl⟩
      · rename_i remote hup
        obtain ⟨⟨id, rfl⟩, -⟩ := Remote.upload_ok hup
        have hobj : (h.world.remote.put c.row.remotePath ⟨c.loc, env.etag, env.mtime, id⟩).object
            c.row.remotePath = some ⟨c.loc, env.etag, env.mtime, id⟩ := by
          rw [Remote.object_put, if_pos rfl]
        refine ⟨_, _, rfl, ⟨hl.row, hl.file, fun o ho => .inr ?_, hl.objects, hl.bases⟩, rfl, ?_⟩
        · rw [← Option.some.inj (hobj.symm.trans ho)]
        · exact congrArg (Option.map RemoteObject.data) hobj
  | stat entry =>
    obtain ⟨hl, rfl, hup⟩ := hk
    simp only [Upload.tick]
    split
    · exact ⟨_, _, rfl, hl⟩
    · exact ⟨_, _, rfl, hl⟩
    · exact ⟨_, _, rfl, hl, hup⟩
  | record metadata =>
    obtain ⟨hl, hup⟩ := hk
    simp only [Upload.tick]
    split
    · exact ⟨_, _, rfl, hl⟩
    · exact ⟨_, _, rfl, hup⟩
  | finish result => exact absurd rfl (hpc result)

/-- What the queue does with the result of an upload. -/
theorem leaves_of_finish {result : Except SyncError Unit}
    (hk : c.Known h (.upload (.finish result)))
    (hg : c.Completes (h, .goto (.upload (.finish result))) env) :
    c.Leaves (Attempt.tick c.tools c.inode h env (.upload (.finish result))) := by
  cases result with
  | ok => exact .inl (.uploaded hk)
  | error e =>
    have hl : c.Local h := hk
    have hf : env.fault = false := hg
    by_cases he : e = .conflict
    · subst he
      obtain ⟨s, hs⟩ := hl.row
      have hi : c.row.inode = c.inode := Db.inode_of_getByInode c.indexed
      simp only [Attempt.tick, hf, Bool.false_eq_true, if_false, hs, c.cached]
      exact ⟨hi, rfl, rfl, hl⟩
    · have hw := hl.waiting (show env.fault = false from hf)
      have htick : Upload.tick h.world c.inode env.toEnv (.finish (.error e)) =
          (if e.isRetryable then (h.world.logDb env.toEnv
            (h.world.db.setStatus c.inode .dirty)).enqueue c.inode
          else h.world.logDb env.toEnv (h.world.db.setStatus c.inode .dirty), none) := by
        cases e <;> first | exact absurd rfl he | rfl
      rw [Attempt.tick_upload (by simp [he]) htick]
      refine .inr ?_
      change c.Waiting (if e.isRetryable then _ else _)
      split <;> exact hw

/-! ## Whole attempts -/

/-- **Every step keeps what is known.** -/
theorem leaves_tick {a : Attempt} (hk : c.Known h a) (hg : c.Completes (h, .goto a) env) :
    c.Leaves (a.tick c.tools c.inode h env) := by
  cases a with
  | upload pc =>
    by_cases hfin : ∃ result, pc = .finish result
    · obtain ⟨result, rfl⟩ := hfin
      exact leaves_of_finish hk hg
    · rw [not_exists] at hfin
      obtain ⟨world, pc', ht, hk'⟩ := known_of_uploading env hk hfin
      rw [Attempt.tick_upload (hfin _) ht]
      exact hk'
  | resolve entry path pc =>
    obtain ⟨hi, hp, rfl, hk⟩ := hk
    have hr := resolves_tick hk hi hp hg
    simp only [Attempt.tick]
    split
    · rename_i ht
      rw [ht] at hr
      exact ⟨hi, hp, rfl, hr⟩
    · rename_i ht
      rw [ht] at hr
      exact .inl hr
    · rename_i ht
      rw [ht] at hr
      exact hr.elim

theorem leaves_of_step {s s' : Holdings × Next Attempt Unit} (hk : c.Leaves s)
    (hg : c.Completes s env) (hs : c.step s env = some s') : c.Leaves s' := by
  obtain ⟨h, next⟩ := s
  cases next with
  | goto a =>
    obtain rfl := Option.some.inj hs
    exact leaves_tick hk hg
  | ok | err => cases hs

/-- **An attempt whose completion goes through leaves a retryable row**, whatever the backend
answers. -/
theorem retryable_of_run {s : Holdings × Next Attempt Unit} {envs : List ResolveEnv}
    (hg : Guarded c.step c.Completes c.init envs) (hr : run c.step c.init envs = some s) :
    c.Retryable s := by
  have h₀ : c.Leaves c.init := show c.Known c.start (.upload .load) from rfl
  have hl : c.Leaves s := inv_of_run (fun _ _ _ hk hg hs => leaves_of_step hk hg hs) h₀ hg hr
  obtain ⟨h, next⟩ := s
  cases next with
  | goto a => exact ⟨fun hend => absurd rfl (hend a), nofun⟩
  | ok => exact ⟨fun _ => hl, nofun⟩
  | err => exact hl.elim

/-! ## A failed resolution -/

theorem upload_tick_pending {w w' : World} {i : Inode} {env : Env} {pc pc' : UploadPc}
    (ht : Upload.tick w i env pc = (w', some pc')) : w'.pending = w.pending := by
  unfold Upload.tick at ht
  split at ht <;> (repeat' split at ht) <;> cases ht <;> rfl

/-- As long as an attempt goes on, and where its resolution fails, the inode is not pending. -/
def Unqueued (c : UploadCase) (s : Holdings × Next Attempt Unit) : Prop :=
  (∃ a, s.2 = .goto a) ∨ s.2 = .err → c.inode ∉ s.1.world.pending

theorem unqueued_of_step {s s' : Holdings × Next Attempt Unit} (hu : c.Unqueued s)
    (hs : c.step s env = some s') : c.Unqueued s' := by
  obtain ⟨h, next⟩ := s
  cases next with
  | ok | err => cases hs
  | goto a =>
    have hp : c.inode ∉ h.world.pending := hu (.inl ⟨a, rfl⟩)
    obtain rfl := Option.some.inj hs
    intro hend
    cases a with
    | resolve entry path pc =>
      obtain ⟨db, fs, remote, hw⟩ := pc.tick_eq c.tools entry path h env
      rw [Attempt.fst_tick_resolve, hw]
      exact hp
    | upload pc =>
      by_cases hpc : pc = .finish (.error .conflict)
      · subst hpc
        rw [Attempt.tick]
        split
        · exact hp
        · split <;> exact hp
      · cases ht : Upload.tick h.world c.inode env.toEnv pc with
        | mk world next =>
          rw [Attempt.tick_upload hpc ht] at hend ⊢
          cases next with
          | none => obtain ⟨_, ha⟩ | ha := hend <;> cases ha
          | some pc' =>
            rw [← upload_tick_pending ht] at hp
            exact hp

/-- **A resolution that fails leaves an inode that nothing uploads again.** -/
theorem not_retryable_of_failed {s : Holdings × Next Attempt Unit} {envs : List ResolveEnv}
    (hr : run c.step c.init envs = some s) (hs : s.2 = .err) : ¬c.Retryable s := by
  have h₀ : c.Unqueued c.init := fun _ => c.launched
  have hu : c.Unqueued s := inv_of_run (G := fun _ _ => True)
    (fun _ _ _ hu _ hs => unqueued_of_step hu hs) h₀ (.of_forall (fun _ _ _ => trivial) _) hr
  exact fun hret => hu (.inr hs) (hret.again hs)

end UploadCase

/-! ## The conflict over a file -/

/-- Conflicts are resolved by keeping both versions. -/
def bothTools : MergeTools := { textTools with textConflictStrategy := .keepBoth }

/-- The upload of the version that clashes is launched. -/
def clashUpload : UploadCase where
  tools := bothTools
  inode := 2
  row := (clashed.world.db.getByInode 2).getD (rootEntry 1)
  cachePath := [['c'], "a.txt".toList]
  start := { clashed with world := (clashed.world.launch 2).getD clashed.world }
  loc := asciiBytes "mine\n"
  indexed := rfl
  isFile := rfl
  unsynced := rfl
  cached := textCase.cached
  hasLocal := rfl
  launched := by decide

/-- Calls that succeed. -/
def fineCalls (n : ℕ) : List ResolveEnv := List.replicate n (.fine exampleSuffix.ts)

/-- The resolver keeps both versions. -/
theorem retryable_keptBoth :
    ∃ s, run clashUpload.step clashUpload.init (fineCalls 20) = some s ∧
      s.2 = .ok () ∧ clashUpload.Retryable s :=
  ⟨_, rfl, rfl, UploadCase.retryable_of_run
    (show Guarded clashUpload.step clashUpload.Completes clashUpload.init (fineCalls 20) by decide)
    rfl⟩

/-- The upload of the conflict file fails: the row stays as the upload has marked it. -/
theorem not_retryable_siblingFails : ¬∀ (c : UploadCase) (envs : List ResolveEnv)
    (s : Holdings × Next Attempt Unit), run c.step c.init envs = some s → c.Retryable s := by
  intro hall
  obtain ⟨s, hrun, hnext, hremote, hstatus⟩ : ∃ s,
      run clashUpload.step clashUpload.init (fineCalls 12 ++ [.failing]) = some s ∧ s.2 = .err ∧
        s.1.world.remote = clashed.world.remote ∧
        (s.1.world.db.getByInode clashUpload.inode).map FileEntry.status = some .uploading :=
    ⟨_, rfl, rfl, rfl, rfl⟩
  obtain ⟨o, o', hclashed⟩ : ∃ o o', clashed.world.remote =
      (Remote.put (fun _ => none) clashUpload.row.remotePath o).put clashUpload.row.remotePath o' :=
    ⟨_, _, rfl⟩
  have hend : ∀ a, s.2 ≠ .goto a := fun a ha => by
    rw [hnext] at ha
    cases ha
  obtain hacc | ⟨r, hr, hdirty, -⟩ := (hall clashUpload _ s hrun).kept hend
  · rw [hremote] at hacc
    cases hacc with
    | uploaded h =>
      rw [UploadCase.Uploaded] at h
      exact absurd h (by decide)
    | sibling name h =>
      rw [hclashed, FileEntry.conflictPath, Remote.object_put,
        if_neg (conflictRemotePath_ne _ _), Remote.object_put,
        if_neg (conflictRemotePath_ne _ _)] at h
      cases h
    | merged text hm =>
      obtain ⟨_, _, _, -, -, -, h⟩ := hm
      cases h
  · rw [hr, Option.map_some, hdirty] at hstatus
    cases hstatus

end Stratosync

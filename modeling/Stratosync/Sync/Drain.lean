import Stratosync.Daemon.Starts
import Stratosync.State.Accepts

/-!
# The queue runs dry

What becomes of the uploads a start has queued when no call fails and nothing else goes on, in
whatever order they are launched and take their steps. `drained_of_restart`: each of them ends after
a bounded number of steps, and then every row that had local work is published as its cache file
has it, or handed to the conflict resolver because the remote has another version, or it had no
cache file any more, or a directory is in the way.
-/

namespace Stratosync

open Foundations.Runs Foundations.Pool

/-- The step of an upload, none of whose calls fails. -/
def Event.drains : Event → Bool
  | .launch _ => true
  | .upload _ env => !env.fault && env.error.isNone
  | _ => false

/-- A file with local work. -/
structure ToUpload (m : Mount) (r : FileEntry) (p : PathBuf) : Prop where
  mountId : r.mountId = m.mountId
  kind : r.kind = .file
  unsynced : r.status.isUnsynced = true
  cachePath : r.cachePath = some p

/-- The object at the path of the row may be replaced by an upload of the row. -/
def Remote.mayReplace (remote : Remote) (r : FileEntry) : Bool :=
  r.etag.all (remote.checkIfMatch r.remotePath)

/-- The row as an upload marks it. -/
def FileEntry.uploading (r : FileEntry) : FileEntry := { r with status := .uploading }

/-- **What becomes of a row with local work.** -/
inductive RowDrained (w₀ w : World) (r : FileEntry) (p : PathBuf) : Prop
  /-- The remote has the bytes of the cache file. -/
  | published {data : Bytes} {o : RemoteObject} (hfile : w₀.fs.files p = some data)
      (hbase : w₀.remote.mayReplace r = true) (hremote : w.remote r.remotePath = some (.file o))
      (hdata : o.data = data)
      (hrow : w.db.getByInode r.inode = some { r with
        status := .cached, cacheSize := some data.length, etag := o.etag, mtime := o.mtime
        size := data.length })
  /-- The remote has a version the row is not based on. -/
  | conflicting {data : Bytes} (hfile : w₀.fs.files p = some data)
      (hbase : w₀.remote.mayReplace r = false)
      (hremote : w.remote r.remotePath = w₀.remote r.remotePath)
      (hrow : w.db.getByInode r.inode = some r.uploading) (hhanded : r.uploading ∈ w.conflicts)
  /-- There was nothing to upload. -/
  | missing (hfile : w₀.fs.exists_ p = false)
      (hremote : w.remote r.remotePath = w₀.remote r.remotePath)
      (hrow : w.db.getByInode r.inode = some { r with
        status := .remote, cachePath := none, cacheSize := none })
  /-- A directory is at the remote path or the cache path. -/
  | blocked (hdir : w₀.remote r.remotePath = some .dir ∨
        w₀.fs.exists_ p = true ∧ w₀.fs.files p = none)
      (hremote : w.remote r.remotePath = w₀.remote r.remotePath)
      (hrow : w.db.getByInode r.inode = some { r with status := .dirty })

/-- Where an upload of the row is, and what it has done. -/
inductive DrainPhase (w₀ w : World) (r : FileEntry) (p : PathBuf) : UploadPc → Prop
  | load (hrow : w.db.getByInode r.inode = some r)
      (hremote : w.remote r.remotePath = w₀.remote r.remotePath) : DrainPhase w₀ w r p .load
  | check (hrow : w.db.getByInode r.inode = some r)
      (hremote : w.remote r.remotePath = w₀.remote r.remotePath) : DrainPhase w₀ w r p (.check r p)
  | revert (hex : w₀.fs.exists_ p = false) (hrow : w.db.getByInode r.inode = some r)
      (hremote : w.remote r.remotePath = w₀.remote r.remotePath) : DrainPhase w₀ w r p (.revert p)
  | mark (hex : w₀.fs.exists_ p = true) (hrow : w.db.getByInode r.inode = some r)
      (hremote : w.remote r.remotePath = w₀.remote r.remotePath) : DrainPhase w₀ w r p (.mark r p)
  | read (hex : w₀.fs.exists_ p = true) (hrow : w.db.getByInode r.inode = some r.uploading)
      (hremote : w.remote r.remotePath = w₀.remote r.remotePath) : DrainPhase w₀ w r p (.read r p)
  | put {data : Bytes} (hfile : w₀.fs.files p = some data)
      (hrow : w.db.getByInode r.inode = some r.uploading)
      (hremote : w.remote r.remotePath = w₀.remote r.remotePath) : DrainPhase w₀ w r p (.put r data)
  | stat {data : Bytes} {o : RemoteObject} (hfile : w₀.fs.files p = some data)
      (hbase : w₀.remote.mayReplace r = true)
      (hrow : w.db.getByInode r.inode = some r.uploading)
      (hremote : w.remote r.remotePath = some (.file o)) (hdata : o.data = data) :
      DrainPhase w₀ w r p (.stat r)
  | record {data : Bytes} {o : RemoteObject} {x : RemoteMetadata}
      (hfile : w₀.fs.files p = some data) (hbase : w₀.remote.mayReplace r = true)
      (hrow : w.db.getByInode r.inode = some r.uploading)
      (hremote : w.remote r.remotePath = some (.file o)) (hdata : o.data = data)
      (hx : x.size = data.length ∧ x.etag = o.etag ∧ x.mtime = o.mtime) :
      DrainPhase w₀ w r p (.record x)
  | ended (h : RowDrained w₀ w r p) : DrainPhase w₀ w r p (.finish (.ok ()))
  | refused {data : Bytes} (hfile : w₀.fs.files p = some data)
      (hbase : w₀.remote.mayReplace r = false)
      (hrow : w.db.getByInode r.inode = some r.uploading)
      (hremote : w.remote r.remotePath = w₀.remote r.remotePath) :
      DrainPhase w₀ w r p (.finish (.error .conflict))
  | failed (hdir : w₀.remote r.remotePath = some .dir ∨
        w₀.fs.exists_ p = true ∧ w₀.fs.files p = none)
      (hrow : w.db.getByInode r.inode = some r.uploading)
      (hremote : w.remote r.remotePath = w₀.remote r.remotePath) :
      DrainPhase w₀ w r p (.finish (.error .fatal))

/-- The number of steps an upload has still to take, at most. -/
def UploadPc.rank : UploadPc → ℕ
  | .load => 8
  | .check .. => 7
  | .mark .. => 6
  | .read .. => 5
  | .put .. => 4
  | .stat _ => 3
  | .record _ | .reset _ | .revert _ => 2
  | .finish _ => 1

theorem UploadPc.rank_pos (pc : UploadPc) : 0 < pc.rank := by
  cases pc <;> simp [UploadPc.rank]

/-- What the step of an upload leaves alone. -/
structure OwnStep (r : FileEntry) (w w' : World) : Prop where
  fs : w'.fs = w.fs
  pending : w'.pending = w.pending
  uploads : w'.uploads = w.uploads
  rows : ∀ j, j ≠ r.inode → w'.db.getByInode j = w.db.getByInode j
  remote : ∀ q, q ≠ r.remotePath → w'.remote q = w.remote q
  conflicts : w.conflicts ⊆ w'.conflicts

namespace OwnStep

variable {r : FileEntry} {w w' : World}

theorem refl (r : FileEntry) (w : World) : OwnStep r w w :=
  ⟨rfl, rfl, rfl, fun _ _ => rfl, fun _ _ => rfl, List.Subset.refl _⟩

theorem ofRow {db : Db} {f : FileEntry → FileEntry} (h : Db.RowMapped w.db db r.inode f) :
    OwnStep r w { w with db } :=
  ⟨rfl, rfl, rfl, fun _ hj => h.of_ne hj, fun _ _ => rfl, List.Subset.refl _⟩

end OwnStep

/-- The result of a step of an upload. -/
structure Ticked (w₀ w : World) (r : FileEntry) (p : PathBuf) (pc : UploadPc)
    (t : World × Option UploadPc) : Prop where
  own : OwnStep r w t.1
  next : ∀ pc', t.2 = some pc' → DrainPhase w₀ t.1 r p pc' ∧ pc'.rank < pc.rank
  ended : t.2 = none → RowDrained w₀ t.1 r p

section Tick

variable {m : Mount} {w₀ w : World} {r : FileEntry} {p : PathBuf} {pc pc' : UploadPc} {env : Env}

theorem Ticked.goto {w' : World} (hown : OwnStep r w w') (h : DrainPhase w₀ w' r p pc')
    (hrank : pc'.rank < pc.rank) : Ticked w₀ w r p pc (w', some pc') :=
  ⟨hown, fun _ hpc => Option.some.inj hpc ▸ ⟨h, hrank⟩, fun hnone => by cases hnone⟩

theorem Ticked.finish {w' : World} (hown : OwnStep r w w') (h : RowDrained w₀ w' r p) :
    Ticked w₀ w r p pc (w', none) :=
  ⟨hown, (fun _ hpc => by cases hpc), fun _ => h⟩

/-- A status the cache path of the row allows can be recorded. -/
theorem exists_setStatus {db : Db} {q : FileEntry} (hrow : db.getByInode r.inode = some q)
    (hp : q.cachePath = some p) (s : SyncStatus) : ∃ db', db.setStatus r.inode s = some db' := by
  refine Option.isSome_iff_exists.1 (Db.updateRow_isSome (fun _ => ⟨rfl, rfl, rfl, rfl, rfl, rfl⟩)
    fun q' hq' _ _ => ?_)
  obtain rfl := Option.some.inj (hrow.symm.trans hq')
  exact hp ▸ rfl

theorem checkIfMatch_congr {a b : Remote} {path : Str} (h : a path = b path) (etag : Str) :
    a.checkIfMatch path etag = b.checkIfMatch path etag := by
  rw [Remote.checkIfMatch, Remote.checkIfMatch, Remote.object, Remote.object, h]

theorem mayReplace_congr {a b : Remote} (h : a r.remotePath = b r.remotePath) :
    a.mayReplace r = b.mayReplace r := by
  rw [Remote.mayReplace, Remote.mayReplace]
  cases r.etag with
  | none => rfl
  | some etag => exact checkIfMatch_congr h etag

/-- The step that writes the object. -/
theorem ticked_put {data : Bytes} (henv : env.error = none) (hfile : w₀.fs.files p = some data)
    (hrow : w.db.getByInode r.inode = some r.uploading)
    (hremote : w.remote r.remotePath = w₀.remote r.remotePath) :
    Ticked w₀ w r p (.put r data) (Upload.tick w r.inode env (.put r data)) := by
  have hbase : r.etag.all (w.remote.checkIfMatch r.remotePath) = w₀.remote.mayReplace r :=
    mayReplace_congr hremote
  rw [Upload.tick, henv]
  dsimp only
  rw [Remote.upload]
  by_cases hdir : w.remote r.remotePath = some .dir
  · rw [if_pos hdir]
    exact .goto (.refl r w) (.failed (.inl (hremote ▸ hdir)) hrow hremote) (by decide : 1 < 4)
  rw [if_neg hdir]
  by_cases hmatch : r.etag.all (w.remote.checkIfMatch r.remotePath) = true
  · rw [if_pos hmatch]
    refine .goto ⟨rfl, rfl, rfl, fun _ _ => rfl, fun q hq => ?_, List.Subset.refl _⟩ ?_
      (by decide : 3 < 4)
    · exact Function.update_of_ne hq _ _
    · exact .stat hfile (hbase.symm.trans hmatch) hrow (Function.update_self ..) rfl
  · rw [if_neg hmatch]
    have hnot : w₀.remote.mayReplace r = false :=
      hbase.symm.trans (Bool.eq_false_iff.2 hmatch)
    exact .goto (.refl r w) (.refused hfile hnot hrow hremote) (by decide : 1 < 4)

/-- **The step of an upload whose calls do not fail.** -/
theorem ticked_of_phase (hr : ToUpload m r p) (hfs : w.fs = w₀.fs) (hfault : env.fault = false)
    (herror : env.error = none) (h : DrainPhase w₀ w r p pc) :
    Ticked w₀ w r p pc (Upload.tick w r.inode env pc) := by
  cases h with
  | load hrow hremote =>
    have hconflict : r.status ≠ .conflict := by
      intro hs
      have hun := hr.unsynced
      rw [hs] at hun
      cases hun
    rw [Upload.tick, hfault, if_neg Bool.false_ne_true, hrow]
    dsimp only
    rw [if_neg hconflict, if_neg (not_not.2 hr.kind), hr.cachePath]
    exact .goto (.refl r w) (.check hrow hremote) (by decide : 7 < 8)
  | check hrow hremote =>
    rw [Upload.tick, hfs]
    cases hex : w₀.fs.exists_ p with
    | true => exact .goto (.refl r w) (.mark hex hrow hremote) (by decide : 6 < 7)
    | false => exact .goto (.refl r w) (.revert hex hrow hremote) (by decide : 2 < 7)
  | revert hex hrow hremote =>
    have hdirty : (w.db.getByInode r.inode).any (Db.isDirtyAt p) = true := by
      rw [hrow, Option.any_some, Db.isDirtyAt, decide_eq_true_eq]
      exact ⟨hr.kind, hr.unsynced, hr.cachePath⟩
    obtain ⟨db, hdb⟩ := Option.isSome_iff_exists.1
      (@Db.updateRow_isSome w.db r.inode (fun q =>
        { q with status := .remote, cachePath := none, cacheSize := none })
        (fun _ => ⟨rfl, rfl, rfl, rfl, rfl, rfl⟩) fun _ _ _ hc => by cases hc)
    have hcall : w.db.revertDirtyWithMissingCache r.inode p = some (true, db.dropLru r.inode) := by
      rw [Db.revertDirtyWithMissingCache, if_pos hdirty, hdb, Option.map_some]
    have hmap := (Db.rowMapped_of_updateRow hdb fun _ => rfl).trans_same
      (Db.sameRows_dropLru (i := r.inode))
    rw [Upload.tick, hfault, if_neg Bool.false_ne_true, hcall]
    refine .goto (.ofRow hmap) (.ended (.missing hex hremote ?_)) (by decide : 1 < 2)
    rw [hmap.self, hrow, Option.map_some]
  | mark hex hrow hremote =>
    obtain ⟨db, hdb⟩ := exists_setStatus hrow hr.cachePath .uploading
    have hmap := Db.setStatus_rows hdb
    rw [Upload.tick, World.tryDb, hfault, if_neg Bool.false_ne_true, hdb]
    refine .goto (.ofRow hmap) (.read hex ?_ hremote) (by decide : 5 < 6)
    rw [hmap.self, hrow, Option.map_some, FileEntry.uploading]
  | read hex hrow hremote =>
    rw [Upload.tick, herror, hfs]
    cases hfile : w₀.fs.files p with
    | none => exact .goto (.refl r w) (.failed (.inr ⟨hex, hfile⟩) hrow hremote) (by decide : 1 < 5)
    | some data => exact .goto (.refl r w) (.put hfile hrow hremote) (by decide : 4 < 5)
  | put hfile hrow hremote => exact ticked_put herror hfile hrow hremote
  | stat hfile hbase hrow hremote hdata =>
    rw [Upload.tick, herror, Remote.stat, hremote]
    refine .goto (.refl r w) (.record hfile hbase hrow hremote hdata ?_) (by decide : 2 < 3)
    exact ⟨congrArg List.length hdata, rfl, rfl⟩
  | record hfile hbase hrow hremote hdata hx =>
    obtain ⟨hsize, hetag, hmtime⟩ := hx
    obtain ⟨db, hdb⟩ := Option.isSome_iff_exists.1
      (Db.setUploaded_isSome hrow (by rw [FileEntry.uploading, hr.cachePath]; rfl))
    have hmap := Db.setUploaded_rows hdb
    rw [Upload.tick, World.tryDb, hfault, if_neg Bool.false_ne_true, hdb]
    refine .goto (.ofRow hmap) (.ended (.published hfile hbase hremote hdata ?_)) (by decide : 1 < 2)
    rw [hmap.self, hrow, Option.map_some, hsize, hetag, hmtime, FileEntry.uploading]
  | ended h =>
    rw [Upload.tick]
    exact .finish (.refl r w) h
  | refused hfile hbase hrow hremote =>
    rw [Upload.tick, hfault, if_neg Bool.false_ne_true, hrow]
    refine .finish ⟨rfl, rfl, rfl, fun _ _ => rfl, fun _ _ => rfl, List.subset_append_left _ _⟩
      (.conflicting hfile hbase hremote hrow ?_)
    exact List.mem_append_right _ (List.mem_singleton_self _)
  | failed hdir hrow hremote =>
    obtain ⟨db, hdb⟩ := exists_setStatus hrow hr.cachePath .dirty
    have hmap := Db.setStatus_rows hdb
    have htick : Upload.tick w r.inode env (.finish (.error .fatal)) = ({ w with db }, none) := by
      simp only [Upload.tick, SyncError.isRetryable, Bool.false_eq_true, if_false, World.logDb,
        World.tryDb, hfault, hdb, Option.getD_some]
    rw [htick]
    refine .finish (.ofRow hmap) (.blocked hdir hremote ?_)
    rw [hmap.self, hrow, Option.map_some, FileEntry.uploading]

end Tick

/-! ## The other uploads -/

section Others

variable {w₀ w w' : World} {r : FileEntry} {p : PathBuf} {pc : UploadPc}

/-- A step that leaves the row and its object alone does not undo what came of the row. -/
theorem RowDrained.kept (h : RowDrained w₀ w r p)
    (hrow : w'.db.getByInode r.inode = w.db.getByInode r.inode)
    (hremote : w'.remote r.remotePath = w.remote r.remotePath)
    (hconflicts : w.conflicts ⊆ w'.conflicts) : RowDrained w₀ w' r p := by
  cases h with
  | published hfile hbase hr hdata hw =>
    exact .published hfile hbase (hremote.trans hr) hdata (hrow.trans hw)
  | conflicting hfile hbase hr hw hhanded =>
    exact .conflicting hfile hbase (hremote.trans hr) (hrow.trans hw) (hconflicts hhanded)
  | missing hfile hr hw => exact .missing hfile (hremote.trans hr) (hrow.trans hw)
  | blocked hdir hr hw => exact .blocked hdir (hremote.trans hr) (hrow.trans hw)

/-- Nor does it disturb an upload of the row. -/
theorem DrainPhase.kept (h : DrainPhase w₀ w r p pc)
    (hrow : w'.db.getByInode r.inode = w.db.getByInode r.inode)
    (hremote : w'.remote r.remotePath = w.remote r.remotePath)
    (hconflicts : w.conflicts ⊆ w'.conflicts) : DrainPhase w₀ w' r p pc := by
  cases h with
  | load hw hr => exact .load (hrow.trans hw) (hremote.trans hr)
  | check hw hr => exact .check (hrow.trans hw) (hremote.trans hr)
  | revert hex hw hr => exact .revert hex (hrow.trans hw) (hremote.trans hr)
  | mark hex hw hr => exact .mark hex (hrow.trans hw) (hremote.trans hr)
  | read hex hw hr => exact .read hex (hrow.trans hw) (hremote.trans hr)
  | put hfile hw hr => exact .put hfile (hrow.trans hw) (hremote.trans hr)
  | stat hfile hbase hw hr hdata =>
    exact .stat hfile hbase (hrow.trans hw) (hremote.trans hr) hdata
  | record hfile hbase hw hr hdata hx =>
    exact .record hfile hbase (hrow.trans hw) (hremote.trans hr) hdata hx
  | ended h => exact .ended (h.kept hrow hremote hconflicts)
  | refused hfile hbase hw hr => exact .refused hfile hbase (hrow.trans hw) (hremote.trans hr)
  | failed hdir hw hr => exact .failed hdir (hrow.trans hw) (hremote.trans hr)

end Others

/-! ## All of them -/

/-- The queue while it runs dry. `w₀` is where it began. -/
structure Draining (m : Mount) (w₀ w : World) : Prop where
  fs : w.fs = w₀.fs
  pending : w.pending.Nodup
  uploads : (w.uploads.map Upload.inode).Nodup
  apart : ∀ u ∈ w.uploads, u.inode ∉ w.pending
  queued : ∀ i, i ∈ w.pending ∨ i ∈ w.uploads.map Upload.inode → i ∈ w₀.pending
  waiting : ∀ i ∈ w.pending, ∀ r p, w₀.db.getByInode i = some r → ToUpload m r p →
    DrainPhase w₀ w r p .load
  working : ∀ u ∈ w.uploads, ∀ r p, w₀.db.getByInode u.inode = some r → ToUpload m r p →
    DrainPhase w₀ w r p u.pc
  ended : ∀ i ∈ w₀.pending, i ∉ w.pending → i ∉ w.uploads.map Upload.inode → ∀ r p,
    w₀.db.getByInode i = some r → ToUpload m r p → RowDrained w₀ w r p
  rows : ∀ i, i ∉ w₀.pending → w.db.getByInode i = w₀.db.getByInode i
  remote : ∀ q, (∀ i ∈ w₀.pending, ∀ r, w₀.db.getByInode i = some r → r.remotePath ≠ q) →
    w.remote q = w₀.remote q

/-- The number of steps there still are, at most. -/
def World.backlog (w : World) : ℕ :=
  9 * w.pending.length + (w.uploads.map fun u => u.pc.rank).sum

/-- Every pending row is a file of the mount with local work. -/
def AllToUpload (m : Mount) (w : World) : Prop :=
  ∀ i ∈ w.pending, ∃ r p, w.db.getByInode i = some r ∧ ToUpload m r p

section Queue

variable {m : Mount} {w₀ w w' : World} {ev : Event}

theorem draining_start (hidle : w₀.uploads = []) (hnodup : w₀.pending.Nodup) :
    Draining m w₀ w₀ where
  fs := rfl
  pending := hnodup
  uploads := by
    rw [hidle]
    exact List.nodup_nil
  apart u hu := by
    rw [hidle] at hu
    cases hu
  queued i hi := by
    rw [hidle] at hi
    exact hi.resolve_right List.not_mem_nil
  waiting i _ r p hr _ := .load (by rw [Db.inode_of_getByInode hr, hr]) rfl
  working u hu := by
    rw [hidle] at hu
    cases hu
  ended i hi hnot := absurd hi hnot
  rows _ _ := rfl
  remote _ _ := rfl

/-- Rows with different inodes are at different paths. -/
theorem remotePath_ne {r q : FileEntry} {p p' : PathBuf} {i j : Inode}
    (hr : w₀.db.getByInode i = some r) (hq : w₀.db.getByInode j = some q) (hij : i ≠ j)
    (hru : ToUpload m r p) (hqu : ToUpload m q p') : r.remotePath ≠ q.remotePath := by
  intro he
  have hself := Db.getByRemotePath_self hr
  rw [hru.mountId, ← hqu.mountId, he, Db.getByRemotePath_self hq] at hself
  obtain rfl := Option.some.inj hself
  exact hij ((Db.inode_of_getByInode hr).symm.trans (Db.inode_of_getByInode hq))

/-- A launch. -/
theorem Draining.launch {i : Inode} (hd : Draining m w₀ w) (h : w.launch i = some w') :
    Draining m w₀ w' ∧ w'.backlog + 1 = w.backlog := by
  rw [World.launch] at h
  split at h
  swap
  · cases h
  rename_i hin
  have hi : i ∈ w.pending := List.contains_iff_mem.1 hin
  obtain rfl := Option.some.inj h
  have hnew : i ∉ w.uploads.map Upload.inode := by
    intro hmem
    obtain ⟨u, hu, rfl⟩ := List.mem_map.1 hmem
    exact hd.apart u hu hi
  have hkept : ∀ {r p pc}, DrainPhase w₀ w r p pc → DrainPhase w₀ { w with
      pending := w.pending.filter (· ≠ i)
      uploads := w.uploads ++ [(⟨i, .load⟩ : Upload)] } r p pc :=
    fun h => h.kept rfl rfl (List.Subset.refl _)
  have hmap : (w.uploads ++ [(⟨i, .load⟩ : Upload)]).map Upload.inode =
      w.uploads.map Upload.inode ++ [i] := List.map_append
  have hleft : ∀ {j}, j ∈ w.pending.filter (· ≠ i) ↔ j ∈ w.pending ∧ j ≠ i := by
    simp [List.mem_filter]
  refine ⟨⟨hd.fs, hd.pending.filter _, ?_, fun u hu => ?_, fun j hj => ?_, fun j hj r p hr hru => ?_,
    fun u hu r p hr hru => ?_, fun j hj hnot hnone r p hr hru => ?_, hd.rows, hd.remote⟩, ?_⟩
  · rw [hmap]
    exact List.nodup_append.2 ⟨hd.uploads, List.nodup_singleton i, fun a ha b hb hab =>
      hnew (List.mem_singleton.1 hb ▸ hab ▸ ha)⟩
  · rw [hleft]
    rintro ⟨hmem, hne⟩
    rcases List.mem_append.1 hu with hu | hu
    · exact hd.apart u hu hmem
    · exact hne (by rw [List.mem_singleton.1 hu])
  · rw [hleft, hmap, List.mem_append, List.mem_singleton] at hj
    rcases hj with ⟨hj, -⟩ | hj | rfl
    · exact hd.queued j (.inl hj)
    · exact hd.queued j (.inr hj)
    · exact hd.queued j (.inl hi)
  · exact hkept (hd.waiting j (hleft.1 hj).1 r p hr hru)
  · rcases List.mem_append.1 hu with hu | hu
    · exact hkept (hd.working u hu r p hr hru)
    · obtain rfl := List.mem_singleton.1 hu
      exact hkept (hd.waiting i hi r p hr hru)
  · rw [hmap, List.mem_append, List.mem_singleton, not_or] at hnone
    have hj' : j ∉ w.pending := fun hmem => hnot (hleft.2 ⟨hmem, hnone.2⟩)
    exact (hd.ended j hj hj' hnone.1 r p hr hru).kept rfl rfl (List.Subset.refl _)
  · have hlen : (w.pending.filter (· ≠ i)).length + 1 = w.pending.length := by
      have herase : w.pending.filter (· ≠ i) = w.pending.erase i := by
        rw [hd.pending.erase_eq_filter]
        exact List.filter_congr fun j _ => by by_cases hj : j = i <;> simp [hj]
      rw [herase, List.length_erase_of_mem hi]
      exact Nat.sub_add_cancel (List.length_pos_of_mem hi)
    simp only [World.backlog, List.map_append, List.sum_append, List.map_singleton,
      List.sum_singleton, UploadPc.rank]
    omega

/-- A step of an upload. -/
theorem Draining.upload {k : ℕ} {env : Env} (hall : AllToUpload m w₀) (hd : Draining m w₀ w)
    (hfault : env.fault = false) (herror : env.error = none)
    (h : uploadStep w k env = some w') : Draining m w₀ w' ∧ w'.backlog + 1 ≤ w.backlog := by
  obtain ⟨u, hu, rfl⟩ := Option.map_eq_some_iff.1 h
  have humem := List.mem_of_getElem? hu
  have hinode : u.inode ∈ w.uploads.map Upload.inode := List.mem_map_of_mem humem
  obtain ⟨q, p', hq, hqu⟩ := hall u.inode (hd.queued _ (.inr hinode))
  have hqi := Db.inode_of_getByInode hq
  have ht := ticked_of_phase hqu hd.fs hfault herror (hd.working u humem q p' hq hqu)
  rw [hqi] at ht
  generalize Upload.tick w u.inode env u.pc = t at ht ⊢
  obtain ⟨w₁, next⟩ := t
  obtain ⟨hown, hnext, hover⟩ := ht
  dsimp only at hown hnext hover ⊢
  rw [hown.uploads]
  -- the other rows, and their objects, are as before
  have hrow : ∀ {j r}, w₀.db.getByInode j = some r → j ≠ u.inode →
      w₁.db.getByInode r.inode = w.db.getByInode r.inode := fun hr hne =>
    hown.rows _ (by rwa [Db.inode_of_getByInode hr, hqi])
  have hnode : ∀ {j r p}, w₀.db.getByInode j = some r → ToUpload m r p → j ≠ u.inode →
      w₁.remote r.remotePath = w.remote r.remotePath := fun hr hru hne =>
    hown.remote _ (remotePath_ne hr hq hne hru hqu)
  have hsub : ∀ v ∈ advance w.uploads k (next.map fun pc => { u with pc }),
      v.inode ∈ w.uploads.map Upload.inode := by
    intro v hv
    rcases mem_of_mem_advance hv with hv | hv
    · exact List.mem_map_of_mem hv
    · obtain ⟨pc, -, rfl⟩ := Option.map_eq_some_iff.1 hv
      exact hinode
  have hothers : ∀ v ∈ w.uploads.eraseIdx k, v.inode ≠ u.inode := by
    intro v hv he
    have hnodup := hd.uploads
    rw [← List.filterMap_eq_map] at hnodup
    exact ne_of_nodup_filterMap hnodup hu rfl v hv (congrArg some he)
  refine ⟨⟨hown.fs.trans hd.fs, hown.pending ▸ hd.pending, ?_, fun v hv => ?_, fun j hj => ?_,
    fun j hj r p hr hru => ?_, fun v hv r p hr hru => ?_, fun j hj hnot hnone r p hr hru => ?_,
    fun j hj => ?_, fun path hpath => ?_⟩, ?_⟩
  · cases next with
    | none => exact hd.uploads.sublist ((List.eraseIdx_sublist _ _).map _)
    | some pc =>
      have hset : (w.uploads.set k { u with pc }).map Upload.inode =
          w.uploads.map Upload.inode := by
        obtain ⟨hk, rfl⟩ := List.getElem?_eq_some_iff.1 hu
        rw [List.map_set, ← List.getElem_map Upload.inode (h := by rwa [List.length_map]),
          List.set_getElem_self]
      exact hset ▸ hd.uploads
  · rw [hown.pending]
    obtain ⟨v', hv', he⟩ := List.mem_map.1 (hsub v hv)
    exact he ▸ hd.apart v' hv'
  · rw [hown.pending] at hj
    refine hd.queued j (hj.imp id fun hj => ?_)
    obtain ⟨v, hv, rfl⟩ := List.mem_map.1 hj
    exact hsub v hv
  · rw [hown.pending] at hj
    have hne : j ≠ u.inode := fun he => hd.apart u humem (he ▸ hj)
    exact (hd.waiting j hj r p hr hru).kept (hrow hr hne) (hnode hr hru hne) hown.conflicts
  · rcases mem_others_of_mem_advance hv with hv | hv
    · have hne := hothers v hv
      have hv := (List.eraseIdx_sublist _ _).subset hv
      exact (hd.working v hv r p hr hru).kept (hrow hr hne) (hnode hr hru hne) hown.conflicts
    · obtain ⟨pc, hpc, rfl⟩ := Option.map_eq_some_iff.1 hv
      obtain rfl := Option.some.inj (hr.symm.trans hq)
      obtain rfl := Option.some.inj (hru.cachePath.symm.trans hqu.cachePath)
      exact (hnext pc hpc).1.kept rfl rfl (List.Subset.refl _)
  · rw [hown.pending] at hnot
    by_cases hne : j = u.inode
    · subst hne
      obtain rfl := Option.some.inj (hr.symm.trans hq)
      obtain rfl := Option.some.inj (hru.cachePath.symm.trans hqu.cachePath)
      cases next with
      | none => exact (hover rfl).kept rfl rfl (List.Subset.refl _)
      | some pc =>
        refine absurd (List.mem_map.2 ⟨{ u with pc }, ?_, rfl⟩) hnone
        exact List.mem_set (List.getElem?_eq_some_iff.1 hu).1 _
    · have hout : j ∉ w.uploads.map Upload.inode := by
        intro hmem
        obtain ⟨v, hv, rfl⟩ := List.mem_map.1 hmem
        rcases mem_others_or_eq hu hv with hv | rfl
        · exact hnone (List.mem_map_of_mem (mem_advance_of_other hv))
        · exact hne rfl
      exact (hd.ended j hj hnot hout r p hr hru).kept (hrow hr hne) (hnode hr hru hne)
        hown.conflicts
  · rw [hown.rows j fun he => hj ?_, hd.rows j hj]
    exact he.symm ▸ hqi.symm ▸ hd.queued _ (.inr hinode)
  · rw [hown.remote path ?_, hd.remote path hpath]
    exact (hpath _ (hd.queued _ (.inr hinode)) q hq).symm
  · have hsum : ((advance w.uploads k (next.map fun pc => { u with pc })).map
        fun u => u.pc.rank).sum + u.pc.rank = _ := sum_map_advance hu
    simp only [World.backlog, hown.pending]
    cases next with
    | none =>
      have hpos := u.pc.rank_pos
      simp only [Option.map_none, Option.getD_none] at hsum ⊢
      omega
    | some pc =>
      have hlt := (hnext pc rfl).2
      simp only [Option.map_some, Option.getD_some] at hsum ⊢
      omega

/-- A step. -/
theorem Draining.step (hall : AllToUpload m w₀) (hd : Draining m w₀ w) (hev : ev.drains = true)
    (h : Stratosync.step m w ev = some w') : Draining m w₀ w' ∧ w'.backlog + 1 ≤ w.backlog := by
  cases ev with
  | launch i =>
    obtain ⟨hd', hb⟩ := hd.launch h
    exact ⟨hd', Nat.le_of_eq hb⟩
  | upload k env =>
    rw [Event.drains, Bool.and_eq_true, Bool.not_eq_true', Option.isNone_iff_eq_none] at hev
    exact hd.upload hall hev.1 hev.2 h
  | _ => cases hev

/-- Where no step is left, nothing waits and no upload is under way. -/
theorem idle_of_stuck (h : ∀ ev, ev.drains = true → Stratosync.step m w ev = none) :
    w.pending = [] ∧ w.uploads = [] := by
  constructor
  · cases hp : w.pending with
    | nil => rfl
    | cons i is =>
      have hlaunch := h (.launch i) rfl
      rw [Stratosync.step, World.launch, hp, List.contains_cons, beq_self_eq_true, Bool.true_or,
        if_pos rfl] at hlaunch
      cases hlaunch
  · cases hu : w.uploads with
    | nil => rfl
    | cons u us =>
      have hupload := h (.upload 0 .fine) rfl
      rw [Stratosync.step, uploadStep, hu] at hupload
      cases hupload

/-- **A queue runs dry**: launches and steps of uploads in which no call fails come to an end,
whatever their order. What the queue has not had is as before, and where no step is left every row
that waited is through. -/
theorem drained_of_run {es : List Event} (hall : AllToUpload m w₀) (hidle : w₀.uploads = [])
    (hnodup : w₀.pending.Nodup) (hes : ∀ e ∈ es, e.drains = true)
    (hr : run (Stratosync.step m) w₀ es = some w) :
    es.length ≤ 9 * w₀.pending.length ∧
      (∀ i, i ∉ w₀.pending → w.db.getByInode i = w₀.db.getByInode i) ∧
      (∀ q, (∀ i ∈ w₀.pending, ∀ r, w₀.db.getByInode i = some r → r.remotePath ≠ q) →
        w.remote q = w₀.remote q) ∧
      ((∀ ev, ev.drains = true → Stratosync.step m w ev = none) →
        ∀ i ∈ w₀.pending, ∀ r p, w₀.db.getByInode i = some r → r.cachePath = some p →
          RowDrained w₀ w r p) := by
  have hstart : Draining m w₀ w₀ := draining_start hidle hnodup
  have hg : Guarded (Stratosync.step m) (fun _ e => e.drains = true) w₀ es :=
    guarded_of_forall (fun _ => hes) w₀
  have hd : Draining m w₀ w :=
    inv_of_run (fun _ _ _ hd hev h => (hd.step hall hev h).1) hstart hg hr
  have hlen := length_le_of_measure (μ := World.backlog)
    (fun _ _ _ hd hev h => hd.step hall hev h) hstart hg hr
  have hbacklog : w₀.backlog = 9 * w₀.pending.length := by
    rw [World.backlog, hidle, List.map_nil, List.sum_nil, Nat.add_zero]
  refine ⟨by omega, hd.rows, hd.remote, fun hstuck i hi r p hr hp => ?_⟩
  obtain ⟨hpending, huploads⟩ := idle_of_stuck hstuck
  obtain ⟨q, p', hq, hqu⟩ := hall i hi
  obtain rfl := Option.some.inj (hr.symm.trans hq)
  obtain rfl := Option.some.inj (hp.symm.trans hqu.cachePath)
  exact hd.ended i hi (hpending ▸ List.not_mem_nil) (huploads ▸ List.not_mem_nil) r p hr hqu

end Queue

/-! ## After a start -/

section Start

variable {m : Mount} {env : StartEnv} {remote : Remote} {disk : Db × CacheFs} {w₀ w : World}
  {es : List Event}

theorem mem_pending_of_restart (h : restart m env remote disk = some w₀) {i : Inode} :
    i ∈ w₀.pending ↔ ∃ r p, w₀.db.getByInode i = some r ∧ ToUpload m r p := by
  rw [show w₀.pending = (w₀.db.getPendingUploads m.mountId).map FileEntry.inode from
    congrArg World.pending (eq_of_restart h).2.2, List.mem_map]
  constructor
  · rintro ⟨r, hr, rfl⟩
    obtain ⟨hmem, hof⟩ := List.mem_filter.1 hr
    obtain ⟨hmount, hunsynced, hkind, hp⟩ := of_decide_eq_true hof
    obtain ⟨p, hp⟩ := Option.isSome_iff_exists.1 hp
    exact ⟨r, p, Db.getByInode_of_mem hmem, hmount, hkind, hunsynced, hp⟩
  · rintro ⟨r, p, hr, hru⟩
    refine ⟨r, List.mem_filter.2 ⟨Db.mem_rows_of_getByInode hr, decide_eq_true ?_⟩,
      Db.inode_of_getByInode hr⟩
    exact ⟨hru.mountId, hru.unsynced, hru.kind, hru.cachePath ▸ rfl⟩

/-- **After a start, all that was left undone is done.** The rows with local work are the ones the
start has queued. -/
theorem drained_of_restart (h : restart m env remote disk = some w₀)
    (hes : ∀ e ∈ es, e.drains = true) (hr : run (step m) w₀ es = some w) :
    es.length ≤ 9 * (w₀.db.getPendingUploads m.mountId).length ∧
      (∀ i, (∀ r p, w₀.db.getByInode i = some r → ¬ToUpload m r p) →
        w.db.getByInode i = w₀.db.getByInode i) ∧
      (∀ q, (∀ i r p, w₀.db.getByInode i = some r → ToUpload m r p → r.remotePath ≠ q) →
        w.remote q = w₀.remote q) ∧
      ((∀ ev, ev.drains = true → step m w ev = none) →
        ∀ i r p, w₀.db.getByInode i = some r → ToUpload m r p → RowDrained w₀ w r p) := by
  have hw₀ := (eq_of_restart h).2.2
  have hpending : w₀.pending = (w₀.db.getPendingUploads m.mountId).map FileEntry.inode :=
    congrArg World.pending hw₀
  have hmem := @mem_pending_of_restart m env remote disk w₀ h
  have hnodup : w₀.pending.Nodup := by
    rw [hpending]
    exact w₀.db.fileIndex.ok.inodeUnique.sublist (List.filter_sublist.map _)
  obtain ⟨hlen, hrows, hremote, hover⟩ := drained_of_run (fun i hi => hmem.1 hi)
    (congrArg World.uploads hw₀) hnodup hes hr
  refine ⟨?_, fun i hi => hrows i fun hin => ?_, fun q hq => hremote q fun i hi r hr => ?_,
    fun hstuck i r p hr hru => hover hstuck i (hmem.2 ⟨r, p, hr, hru⟩) r p hr hru.cachePath⟩
  · rwa [hpending, List.length_map] at hlen
  · obtain ⟨r, p, hr, hru⟩ := hmem.1 hin
    exact hi r p hr hru
  · obtain ⟨r', p, hr', hru⟩ := hmem.1 hi
    obtain rfl := Option.some.inj (hr.symm.trans hr')
    exact hq i r p hr hru

/-- What a crash leaves after a file was made and written. -/
def crashedAfterWrite : World :=
  (run (step sampleMount) (World.init sampleMount 0) [.request (.create fuseRootInode ['a']),
    .request (.write 1 0 [7]), .fuse .fine]).getD (World.init sampleMount 0)

/-- The start after it. -/
def startedAfterWrite : World :=
  (restart sampleMount .fine crashedAfterWrite.remote
    (crashedAfterWrite.db, crashedAfterWrite.fs)).getD crashedAfterWrite

/-- The upload of the file. -/
def uploadAfterStart : List Event :=
  .launch 2 :: List.replicate 8 (.upload 0 .fine)

theorem drained_crashedAfterWrite :
    ∃ w r, run (step sampleMount) startedAfterWrite uploadAfterStart = some w ∧
      startedAfterWrite.db.getByInode 2 = some r ∧
      RowDrained startedAfterWrite w r (sampleMount.cacheDir ++ [['a']]) := by
  have hstart : restart sampleMount .fine crashedAfterWrite.remote
      (crashedAfterWrite.db, crashedAfterWrite.fs) = some startedAfterWrite := rfl
  have hdrains : ∀ ev ∈ uploadAfterStart, ev.drains = true := by decide
  refine ⟨_, _, rfl, rfl, (drained_of_restart hstart hdrains rfl).2.2.2
    (fun ev hev => ?_) 2 _ _ rfl ⟨rfl, rfl, rfl, rfl⟩⟩
  cases ev with
  | launch i => rfl
  | upload k env => rfl
  | _ => cases hev

end Start

end Stratosync

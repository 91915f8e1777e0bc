import Stratosync.Fuse.RemoteRename
import Stratosync.Fuse.RenameCalls

/-!
# Runs of a rename

A rename is served call by call while an upload of the row is pending or under way, and the remote
operation it spawns runs after it. The history variable of the run is the last version of the row
the backend accepted since the handler looked it up.

A rename reaches the remote (`renameReaches_of_run`) when the object is where the handler takes it
to be (`RenameKeeps`), every upload goes to the path the object is at while it runs (`InPlace`), and
no upload of a row with a local edit ends on the way (`Completes`): between the move of the cache
file and the call that enters the row at its new place it would find no cache file.
-/

namespace Stratosync

open Foundations.Runs Foundations.Pool

/-- A rename, in the state in which the handler has looked up the row. -/
structure RenameCase where
  mount : Mount
  request : RenameRequest
  before : World
  entry : FileEntry
  newDir : FileEntry
  source : before.db.getByParentName mount.mountId request.parent request.name = some entry
  parent : before.db.getByInode request.newParent = some newDir
  distinct : (request.newParent, request.newName) ≠ (request.parent, request.name)

namespace RenameCase

variable (c : RenameCase)

def inode : Inode := c.entry.inode

def old : Str := c.entry.remotePath

def new : Str := joinRemote c.newDir.remotePath c.request.newName

/-- The row that is replaced. -/
def replaced : Option FileEntry :=
  c.before.db.getByParentName c.mount.mountId c.request.newParent c.request.newName

/-- The local content of the row. -/
def content : Option Bytes := c.before.cached c.entry

/-- The remote operation the rename is to spawn. -/
def plan : Option Background :=
  (renameBackground c.replaced (needsRemoteRename c.entry.status) c.old c.new).head?

/-- Where it is among the spawned operations. -/
def position : ℕ := c.before.background.length

/-- What is left of the remote operation: all of it, until it is spawned. -/
def remaining (x : World × RenamePc) : Option Background :=
  if x.2.returned.isSome then x.1.background[c.position]? else c.plan

end RenameCase

/-! ## The steps of a run -/

/-- The last version of row `i` the backend accepted. -/
def recordLatest (i : Inode) (x : World × RenamePc) (ev : HandlerMove) (y : World × RenamePc)
    (latest : Option RemoteObject) : Option RemoteObject :=
  match ev with
  | .call _ => latest
  | .daemon ev =>
    match acceptedUpload x.1 ev with
    | some a => if a.inode = i then y.1.remote.object a.entry.remotePath else latest
    | none => latest

/-- The system with the history of the accepted versions of the row. -/
abbrev latestStep (c : RenameCase) :
    (World × RenamePc) × Option RemoteObject → HandlerMove →
      Option ((World × RenamePc) × Option RemoteObject) :=
  withHistory (renameStep c.mount c.request) (recordLatest c.inode)

/-- The steps of the remote operation at position `n`, without an error of the transport, and of
the uploads of inode `i`. -/
def RenameEvent (n : ℕ) (i : Inode) (w : World) : Event → Prop
  | .background k env => k = n ∧ env.error = none
  | .launch j => j = i
  | .upload k _ => ∀ u ∈ w.uploads[k]?, u.inode = i
  | _ => False

/-- A call of the rename, or such a step. -/
def RenameCase.Moves (c : RenameCase) (x : World × RenamePc) : HandlerMove → Prop
  | .call _ => True
  | .daemon ev => RenameEvent c.position c.inode x.1 ev

/-- An upload that is accepted goes to the path the object is at, and a move finds the object. -/
def RenameCase.InPlace (c : RenameCase) (x : World × RenamePc) : HandlerMove → Prop
  | .daemon (.upload k env) => ∀ a ∈ acceptedUpload x.1 (.upload k env),
      objectPath c.old c.new (c.remaining x) = some a.entry.remotePath
  | .daemon (.background k _) => x.1.background[k]? = some (.move c.old c.new) →
      (x.1.remote c.old).isSome = true
  | _ => True

/-- The call does not end an upload of the row short of the backend: the index answers, the row is
not reverted, the cache file is there, and the server has the version the upload replaces. An upload
that a transient error ends is tried again. -/
def UploadPc.goesOn (w : World) (i : Inode) (env : Env) : UploadPc → Bool
  | .load | .mark .. => !env.fault
  | .revert cp => !env.fault && !(w.db.getByInode i).any (Db.isDirtyAt cp)
  | .read _ cp => env.error.elim (w.fs.files cp).isSome SyncError.isRetryable
  | .put e _ => env.error.elim
      (w.remote e.remotePath ≠ some .dir && e.etag.all (w.remote.checkIfMatch e.remotePath))
      SyncError.isRetryable
  | _ => true

/-- No call of an upload ends it short of the backend. -/
def RenameCase.Completes (c : RenameCase) (x : World × RenamePc) : HandlerMove → Prop
  | .daemon (.upload k env) => ∀ u ∈ x.1.uploads[k]?, u.pc.goesOn x.1 c.inode env = true
  | _ => True

/-! ## The condition before the rename, and what it achieves -/

/-- An upload of the row works on one of these cache paths, or has read this content. -/
def UploadPc.Carries (cps : PathBuf → Prop) (content : Option Bytes) : UploadPc → Prop
  | .check _ cp | .mark _ cp | .read _ cp => cps cp
  | .put _ data => content = some data
  | .reset s => s ≠ .conflict
  | _ => True

/-- The upload has yet to hand the content to the backend, or is tried again. -/
def UploadPc.pledged : UploadPc → Bool
  | .load | .check .. | .mark .. | .read .. | .put .. | .revert _ => true
  | .finish (.error e) => e.isRetryable
  | _ => false

/-- An upload of the row is pending, or under way and not past the backend. -/
def Pledged (w : World) (i : Inode) : Prop :=
  i ∈ w.pending ∨ ∃ u ∈ w.uploads, u.inode = i ∧ u.pc.pledged = true

/-- The object of the row has its local content, when `latest` was accepted last. -/
def RenameCase.Delivered (c : RenameCase) (latest : Option RemoteObject) : Prop :=
  ∃ o, (c.before.remote.withLatest c.old latest).object c.old = some o ∧ c.content = some o.data

/-- What a rename of a row that is dirty or uploading relies on: it is a file with its cache file,
which the backend has already or which an upload is to bring there. -/
structure RenameCase.Uploads (c : RenameCase) : Prop where
  kind : c.entry.kind = .file
  content : c.content.isSome = true
  pledged : c.Delivered none ∨ Pledged c.before c.inode

/-- **The rename reached the remote**: the tree is the one before, with the latest content of the
row, in which the row's object is at the new path; and a row that was dirty or uploading has its
content there. -/
structure RenameCase.Reaches (c : RenameCase) (latest : Option RemoteObject) (w' : World) :
    Prop where
  content : ∀ o ∈ latest, c.content = some o.data
  tree : w'.remote = (c.before.remote.withLatest c.old latest).renamed c.old c.new
  delivered : c.entry.status.isUnsynced = true → c.Delivered latest

section Decidable

instance decidableRenameEvent (n : ℕ) (i : Inode) (w : World) :
    (ev : Event) → Decidable (RenameEvent n i w ev)
  | .background k env => inferInstanceAs (Decidable (k = n ∧ env.error = none))
  | .launch j => inferInstanceAs (Decidable (j = i))
  | .upload k _ => inferInstanceAs (Decidable (∀ u ∈ w.uploads[k]?, u.inode = i))
  | .request _ | .fuse _ | .hydration .. | .read .. | .startEviction | .eviction _ | .prefetch _
  | .poll _ | .foreign _ | .clock _ => .isFalse id

instance RenameCase.decidableMoves (c : RenameCase) (x : World × RenamePc) :
    (ev : HandlerMove) → Decidable (c.Moves x ev)
  | .call _ => .isTrue trivial
  | .daemon ev => inferInstanceAs (Decidable (RenameEvent c.position c.inode x.1 ev))

instance RenameCase.decidableInPlace (c : RenameCase) (x : World × RenamePc) :
    (ev : HandlerMove) → Decidable (c.InPlace x ev)
  | .daemon (.upload k env) => inferInstanceAs (Decidable (∀ a ∈ acceptedUpload x.1 (.upload k env),
      _ = some a.entry.remotePath))
  | .daemon (.background k _) =>
    inferInstanceAs (Decidable (x.1.background[k]? = some _ → _ = true))
  | .call _ | .daemon (.request _) | .daemon (.fuse _) | .daemon (.launch _)
  | .daemon (.hydration ..) | .daemon (.read ..) | .daemon .startEviction | .daemon (.eviction _)
  | .daemon (.prefetch _) | .daemon (.poll _) | .daemon (.foreign _) | .daemon (.clock _) =>
    .isTrue trivial

instance RenameCase.decidableCompletes (c : RenameCase) (x : World × RenamePc) :
    (ev : HandlerMove) → Decidable (c.Completes x ev)
  | .daemon (.upload k _) => inferInstanceAs (Decidable (∀ u ∈ x.1.uploads[k]?, _ = true))
  | .call _ | .daemon (.request _) | .daemon (.fuse _) | .daemon (.launch _)
  | .daemon (.background ..) | .daemon (.hydration ..) | .daemon (.read ..)
  | .daemon .startEviction | .daemon (.eviction _) | .daemon (.prefetch _) | .daemon (.poll _)
  | .daemon (.foreign _) | .daemon (.clock _) => .isTrue trivial

end Decidable

/-! ## What a step of the run does to the rows -/

/-- The row is at the place it was. -/
structure StaysPut (r r' : FileEntry) : Prop where
  mountId_eq : r'.mountId = r.mountId
  parent_eq : r'.parent = r.parent
  name_eq : r'.name = r.name
  remotePath_eq : r'.remotePath = r.remotePath
  kind_eq : r'.kind = r.kind

theorem StaysPut.refl (r : FileEntry) : StaysPut r r := ⟨rfl, rfl, rfl, rfl, rfl⟩

theorem StaysPut.trans {r r' r'' : FileEntry} (h : StaysPut r r') (h' : StaysPut r' r'') :
    StaysPut r r'' :=
  ⟨h'.1.trans h.1, h'.2.trans h.2, h'.3.trans h.3, h'.4.trans h.4, h'.5.trans h.5⟩

section Rows

variable {m : Mount} {w w' : World} {n : ℕ} {i j : Inode} {ev : Event} {r r' : FileEntry}

/-- Only the row of the rename changes, and it stays where it is, with its cache file or without
one. -/
theorem row_of_renameEvent (h : step m w ev = some w') (hev : RenameEvent n i w ev)
    (hr : w.db.getByInode j = some r) :
    ∃ r', w'.db.getByInode j = some r' ∧ (j ≠ i → r' = r) ∧ StaysPut r r' ∧
      (r'.cachePath = r.cachePath ∨ r'.cachePath = none) := by
  have hrow := row_of_step h hr
  generalize w'.db.getByInode j = o at hrow
  cases hrow with
  | same => exact ⟨r, rfl, fun _ => rfl, .refl r, .inl rfl⟩
  | reset hu | marked hu | uploaded hu | failed hu =>
    exact ⟨_, rfl, fun hj => absurd (hev _ hu) hj, ⟨rfl, rfl, rfl, rfl, rfl⟩, .inl rfl⟩
  | reverted hu =>
    exact ⟨_, rfl, fun hj => absurd (hev _ hu) hj, ⟨rfl, rfl, rfl, rfl, rfl⟩, .inr rfl⟩
  | _ => exact hev.elim

theorem none_of_renameEvent (h : step m w ev = some w') (hev : RenameEvent n i w ev)
    (hr : w.db.getByInode j = none) : w'.db.getByInode j = none := by
  cases hr' : w'.db.getByInode j with
  | none => rfl
  | some r' =>
    cases ((rowsStep_of_step h).new j r' hr hr').1 <;> exact hev.elim

theorem row_inv_of_renameEvent (h : step m w ev = some w') (hev : RenameEvent n i w ev)
    (hr' : w'.db.getByInode j = some r') :
    ∃ r, w.db.getByInode j = some r ∧ (j ≠ i → r' = r) ∧ StaysPut r r' ∧
      (r'.cachePath = r.cachePath ∨ r'.cachePath = none) := by
  cases hr : w.db.getByInode j with
  | none =>
    rw [none_of_renameEvent h hev hr] at hr'
    cases hr'
  | some r =>
    obtain ⟨q, hq, hkept⟩ := row_of_renameEvent h hev hr
    obtain rfl := Option.some.inj (hr'.symm.trans hq)
    exact ⟨r, rfl, hkept⟩

theorem fs_of_renameEvent (h : step m w ev = some w') (hev : RenameEvent n i w ev) :
    w'.fs = w.fs :=
  (frame_of_step h).files (by cases ev <;> first | rfl | exact hev.elim)

end Rows

/-! ## The content on its way -/

/-- Where the bytes of the row are: every cache path that an upload of it or its row names holds
its content, if anything. -/
structure LocalAt (i : Inode) (content : Option Bytes) (cps : PathBuf → Prop) (w : World) :
    Prop where
  files : ∀ cp data, cps cp → w.fs.files cp = some data → content = some data
  uploads : ∀ u ∈ w.uploads, u.inode = i → u.pc.Carries cps content
  row : ∀ r cp, w.db.getByInode i = some r → r.cachePath = some cp → cps cp

/-- The row is one that `run_upload` takes to the backend. -/
def Uploadable (w : World) (i : Inode) : Prop :=
  ∃ r, w.db.getByInode i = some r ∧ r.kind = .file ∧ r.status ≠ .conflict ∧
    r.cachePath.isSome = true

section Content

variable {m : Mount} {w w' : World} {n k : ℕ} {i : Inode} {ev : Event} {env : Env}
  {content : Option Bytes} {cps : PathBuf → Prop} {pc pc' : UploadPc}

theorem LocalAt.carries_of_tick (h : LocalAt i content cps w) (hpc : pc.Carries cps content)
    (htick : (Upload.tick w i env pc).2 = some pc') : pc'.Carries cps content := by
  cases pc with
  | load =>
    simp only [Upload.tick] at htick
    split at htick
    · cases htick
      trivial
    cases hr : w.db.getByInode i with
    | none =>
      rw [hr] at htick
      cases htick
      trivial
    | some r =>
      rw [hr] at htick
      dsimp only at htick
      split at htick
      · cases htick
        trivial
      split at htick
      · cases htick
        exact SyncStatus.noConfusion
      cases hcp : r.cachePath with
      | none =>
        rw [hcp] at htick
        cases htick
        exact SyncStatus.noConfusion
      | some cp =>
        rw [hcp] at htick
        cases htick
        exact h.row r cp hr hcp
  | check e cp =>
    simp only [Upload.tick] at htick
    split at htick
    · cases htick
      exact hpc
    · cases htick
      trivial
  | mark e cp =>
    simp only [Upload.tick] at htick
    split at htick
    · cases htick
      trivial
    · cases htick
      exact hpc
  | read e cp =>
    simp only [Upload.tick] at htick
    split at htick
    · cases htick
      trivial
    · cases htick
      trivial
    · rename_i data _ hdata
      cases htick
      exact h.files cp data hpc hdata
  | _ =>
    simp only [Upload.tick] at htick
    repeat' split at htick
    all_goals cases htick <;> trivial

theorem LocalAt.congr (h : LocalAt i content cps w) (hfs : w'.fs = w.fs)
    (hu : w'.uploads = w.uploads) (hr : w'.db.getByInode i = w.db.getByInode i) :
    LocalAt i content cps w' :=
  ⟨fun cp data hcp hdata => h.files cp data hcp (hfs ▸ hdata),
    fun u hmem => h.uploads u (hu ▸ hmem), fun r cp hrow => h.row r cp (hr ▸ hrow)⟩

/-- The uploads and the row keep to the content in every step of the run. -/
theorem LocalAt.step (h : LocalAt i content cps w) (hev : RenameEvent n i w ev)
    (hstep : step m w ev = some w') : LocalAt i content cps w' := by
  refine ⟨fun cp data hcp hdata => ?_, ?_, fun r' cp hr' hcp => ?_⟩
  · rw [fs_of_renameEvent hstep hev] at hdata
    exact h.files cp data hcp hdata
  · rcases uploads_of_step hstep with he | ⟨j, -, he⟩ | ⟨k, env, u, rfl, hu, he⟩
    · rw [he]
      exact h.uploads
    · rw [he]
      refine forall_append h.uploads fun u hu _ => ?_
      rw [List.mem_singleton.1 hu]
      trivial
    · rw [he]
      refine forall_advance h.uploads fun u' hu' _ => ?_
      obtain ⟨pc', hpc', rfl⟩ := Option.map_eq_some_iff.1 hu'
      obtain rfl := hev u hu
      exact h.carries_of_tick (h.uploads u (mem_of_getElem? hu) rfl) hpc'
  · obtain ⟨r, hr, -, -, hsame | hnone⟩ := row_inv_of_renameEvent hstep hev hr'
    · exact h.row r cp hr (hsame ▸ hcp)
    · rw [hnone] at hcp
      cases hcp

theorem Uploadable.step (h : Uploadable w i) (hl : LocalAt i content cps w)
    (hev : RenameEvent n i w ev) (hstep : step m w ev = some w')
    (hgo : ∀ k env, ev = .upload k env → ∀ u ∈ w.uploads[k]?, u.pc.goesOn w i env = true) :
    Uploadable w' i := by
  obtain ⟨r, hr, hkind, hstatus, hcp⟩ := h
  have hrow := row_of_step hstep hr
  rw [Uploadable]
  generalize w'.db.getByInode i = o at hrow
  cases hrow with
  | same => exact ⟨r, rfl, hkind, hstatus, hcp⟩
  | @reset _ _ _ _ s hu =>
    have hs : s ≠ .conflict := hl.uploads _ (mem_of_getElem? hu) rfl
    exact ⟨_, rfl, hkind, hs, hcp⟩
  | reverted hu hdirty =>
    have hgo := hgo _ _ rfl _ hu
    simp [UploadPc.goesOn, hr, hdirty] at hgo
  | marked | uploaded | failed => exact ⟨_, rfl, hkind, SyncStatus.noConfusion, hcp⟩
  | _ => exact hev.elim

/-- The server takes a version it has the predecessor of. -/
theorem acceptedUpload_of_goesOn {e : FileEntry} {data : Bytes}
    (hu : w.uploads[k]? = some ⟨i, .put e data⟩) (he : env.error = none)
    (hgo : UploadPc.goesOn w i env (.put e data) = true) :
    acceptedUpload w (.upload k env) = some ⟨i, e, data, env.etag⟩ := by
  simp only [UploadPc.goesOn, he, Option.elim_none, Bool.and_eq_true, decide_eq_true_eq] at hgo
  simp only [acceptedUpload, hu, he, Remote.upload, if_neg hgo.1, if_pos hgo.2]

/-- **A pledged upload stays one, or the backend accepts the content**, when the call does not end
it. -/
theorem pledged_of_tick (h : LocalAt i content cps w) (hup : Uploadable w i)
    (hu : w.uploads[k]? = some ⟨i, pc⟩) (hpc : pc.pledged = true)
    (hgo : pc.goesOn w i env = true) :
    (∃ pc', (Upload.tick w i env pc).2 = some pc' ∧ pc'.pledged = true) ∨
      i ∈ (Upload.tick w i env pc).1.pending ∨
      ∃ a, acceptedUpload w (.upload k env) = some a ∧ a.inode = i ∧ content = some a.data := by
  obtain ⟨r, hr, hkind, hstatus, hcp⟩ := hup
  obtain ⟨cp, hcp⟩ := Option.isSome_iff_exists.1 hcp
  cases pc with
  | load =>
    left
    have hf : env.fault = false := by simpa [UploadPc.goesOn] using hgo
    simp only [Upload.tick, hf, hr, hcp, hkind]
    rw [if_neg Bool.false_ne_true, if_neg hstatus, if_neg (by simp)]
    exact ⟨_, rfl, rfl⟩
  | check e p =>
    left
    simp only [Upload.tick]
    split <;> exact ⟨_, rfl, rfl⟩
  | revert p =>
    left
    obtain ⟨hf, hclean⟩ : env.fault = false ∧ (w.db.getByInode i).any (Db.isDirtyAt p) = false := by
      rwa [UploadPc.goesOn, Bool.and_eq_true, Bool.not_eq_true', Bool.not_eq_true'] at hgo
    simp only [Upload.tick, hf, Db.revertDirtyWithMissingCache, hclean]
    exact ⟨_, rfl, rfl⟩
  | mark e p =>
    left
    have hf : env.fault = false := by simpa [UploadPc.goesOn] using hgo
    have hset : (w.db.setStatus i .uploading).isSome = true := by
      refine Db.updateRow_isSome (fun _ => ⟨rfl, rfl, rfl, rfl, rfl, rfl⟩) fun q hq _ _ => ?_
      obtain rfl := Option.some.inj (hr.symm.trans hq)
      rw [hcp]
      rfl
    obtain ⟨db, hdb⟩ := Option.isSome_iff_exists.1 hset
    simp only [Upload.tick, World.tryDb, hf, hdb]
    exact ⟨_, rfl, rfl⟩
  | read e p =>
    left
    cases he : env.error with
    | some e' =>
      simp only [UploadPc.goesOn, he, Option.elim_some] at hgo
      simp only [Upload.tick, he]
      exact ⟨_, rfl, hgo⟩
    | none =>
      simp only [UploadPc.goesOn, he, Option.elim_none] at hgo
      obtain ⟨data, hdata⟩ := Option.isSome_iff_exists.1 hgo
      simp only [Upload.tick, he, hdata]
      exact ⟨_, rfl, rfl⟩
  | put e data =>
    cases he : env.error with
    | some e' =>
      left
      simp only [UploadPc.goesOn, he, Option.elim_some] at hgo
      simp only [Upload.tick, he]
      exact ⟨_, rfl, hgo⟩
    | none =>
      exact .inr (.inr ⟨_, acceptedUpload_of_goesOn hu he hgo, rfl,
        h.uploads _ (mem_of_getElem? hu) rfl⟩)
  | finish result =>
    obtain _ | ⟨⟨⟩⟩ := result
    · rename_i e
      right
      left
      obtain rfl : e = .transient := by cases e <;> first | rfl | cases hpc
      exact mem_enqueue.2 (.inl rfl)
    · cases hpc
  | _ => cases hpc

end Content

/-! ## The invariant of a run -/

namespace RenameCase

variable (c : RenameCase)

/-- The row is where it was when the handler looked it up. -/
def RowStays (w : World) : Prop :=
  ∃ r, w.db.getByInode c.inode = some r ∧ StaysPut c.entry r

/-- The row is, and the other rows are as they were. -/
structure RowsStay (w : World) : Prop where
  row : c.RowStays w
  others : ∀ j, j ≠ c.inode → w.db.getByInode j = c.before.db.getByInode j

/-- Another row has the new name in the new directory. -/
def Taken (w : World) : Prop :=
  ∃ d, d.inode ≠ c.inode ∧ w.db.getByInode d.inode = some d ∧ d.mountId = c.mount.mountId ∧
    d.parent = some c.request.newParent ∧ d.name = c.request.newName

/-- The handler has found the rows there were, and nothing it has not found is in its way unless
the call that enters the row is to fail. -/
def Found (w : World) : RenamePc → Prop
  | .source => False
  | .parent e => e = c.entry ∧ c.RowsStay w
  | .dest e new => e = c.entry ∧ new = c.new ∧ c.RowsStay w
  | .drop e new d | .header e new d =>
    e = c.entry ∧ new = c.new ∧ c.replaced = some d ∧ c.RowStays w
  | .moveFile e new replaced | .renameRow e new replaced _ =>
    e = c.entry ∧ new = c.new ∧ (replaced = c.replaced ∨ c.Taken w) ∧ c.RowStays w
  | .tombstone e new replaced | .spawn e new replaced =>
    e = c.entry ∧ new = c.new ∧ replaced = c.replaced
  | .done _ => True

/-- The cache file is where it was, until it is moved. -/
def Moved (w : World) : RenamePc → Prop
  | .parent _ | .dest .. | .drop .. | .header .. | .moveFile .. => w.fs = c.before.fs
  | .renameRow _ _ _ newCachePath => newCachePath.isSome = c.entry.cachePath.isSome ∧
      ∀ cp, newCachePath = some cp → w.fs.files cp = c.content
  | _ => True

end RenameCase

/-- The run so far. -/
structure Renaming (c : RenameCase) (x : (World × RenamePc) × Option RemoteObject) : Prop where
  found : c.Found x.1.1 x.1.2
  moved : c.Moved x.1.1 x.1.2
  /-- The operation is to come or at its position, and the object where it should be by then. -/
  ops : ∃ op, RemoteAt c.before.remote c.entry c.new x.2 x.1.1.remote op ∧
    (x.1.2.returned.isSome = true → x.1.1.background = c.before.background ++ Option.toList op) ∧
    (x.1.2.returned = none → x.1.1.background = c.before.background ∧ op = c.plan)
  content : ∀ o ∈ x.2, c.content = some o.data
  local_ : ∃ cps, LocalAt c.inode c.content cps x.1.1 ∧ ∀ cp, c.entry.cachePath = some cp → cps cp
  pledged : c.entry.status.isUnsynced = true → c.content.isSome = true ∧
    Uploadable x.1.1 c.inode ∧ (c.Delivered x.2 ∨ Pledged x.1.1 c.inode)

section Calls

variable {c : RenameCase} {w w' : World} {pc pc' : RenamePc} {fault : Bool}
  {latest : Option RemoteObject}

/-- What moving the cache file does to the files. -/
theorem files_moveCacheFile_of_content (fault : Bool) (fs : CacheFs) (o : Option PathBuf)
    (n : Str) :
    (∀ cp, (Failures.moveCacheFile (fun _ => fault) fs o n).2 = some cp →
        (Failures.moveCacheFile (fun _ => fault) fs o n).1.files cp = o.bind fs.files) ∧
      ∀ cp data, (Failures.moveCacheFile (fun _ => fault) fs o n).1.files cp = some data →
        fs.files cp = some data ∨ o.bind fs.files = some data := by
  cases o with
  | none => exact ⟨(fun cp h => by cases h), fun cp data h => .inl h⟩
  | some old =>
    cases h : Failures.attempt (fun _ => fault) .moveFile
      (fs.rename old (movedCachePath old n)) with
    | none =>
      simp only [Failures.moveCacheFile, h]
      refine ⟨?_, fun cp data h => .inl h⟩
      rintro cp ⟨⟩
      rfl
    | some fs' =>
      obtain ⟨data, hd, hfs⟩ := CacheFs.files_of_rename (attempt_eq_some.1 h).2
      simp only [Failures.moveCacheFile, h, Option.bind_some, hd]
      constructor
      · rintro cp ⟨⟩
        rw [hfs, if_pos rfl]
      · intro cp data' hcp
        rw [hfs] at hcp
        split at hcp
        · exact .inr hcp
        · split at hcp
          · cases hcp
          · exact .inl hcp

/-- The row the handler replaces is another one. -/
theorem RenameCase.replaced_ne {d : FileEntry} (h : c.replaced = some d) : d.inode ≠ c.inode := by
  intro hd
  obtain ⟨hdi, -, hdp, hdn⟩ := Db.getByParentName_spec h
  obtain ⟨hri, -, hrp, hrn⟩ := Db.getByParentName_spec c.source
  have hd : d.inode = c.entry.inode := hd
  rw [hd] at hdi
  obtain rfl := Option.some.inj (hdi.symm.trans hri)
  exact c.distinct (Prod.ext (Option.some.inj (hdp.symm.trans hrp)) (hdn.symm.trans hrn))

/-- While the rows stay, the handler finds the row that is replaced. -/
theorem RenameCase.RowsStay.replaced (h : c.RowsStay w) :
    w.db.getByParentName c.mount.mountId c.request.newParent c.request.newName = c.replaced := by
  cases hd : w.db.getByParentName c.mount.mountId c.request.newParent c.request.newName with
  | none =>
    cases hr : c.replaced with
    | none => rfl
    | some d =>
      have hne := RenameCase.replaced_ne hr
      obtain ⟨hdi, hdm, hdp, hdn⟩ := Db.getByParentName_spec hr
      have hself := Db.getByParentName_self ((h.others _ hne).trans hdi) hdp
      rw [hdm, hdn, hd] at hself
      cases hself
  | some d =>
    obtain ⟨hdi, hdm, hdp, hdn⟩ := Db.getByParentName_spec hd
    have hne : d.inode ≠ c.inode := by
      intro heq
      obtain ⟨-, -, hrp, hrn⟩ := Db.getByParentName_spec c.source
      obtain ⟨r, hr, hsame⟩ := h.row
      obtain rfl := Option.some.inj (hr.symm.trans (heq ▸ hdi))
      refine c.distinct (Prod.ext (Option.some.inj ?_) ?_)
      · exact (hdp.symm.trans hsame.parent_eq).trans hrp
      · exact (hdn.symm.trans hsame.name_eq).trans hrn
    have hself := Db.getByParentName_self ((h.others _ hne).symm.trans hdi) hdp
    rw [hdm, hdn] at hself
    exact hself.symm

/-- The handler takes the new path from the new directory, wherever the row is by then. -/
theorem RenameCase.RowsStay.newRemote (h : c.RowsStay w) {q : FileEntry}
    (hq : w.db.getByInode c.request.newParent = some q) :
    joinRemote q.remotePath c.request.newName = c.new := by
  have hpath : q.remotePath = c.newDir.remotePath := by
    by_cases hi : c.request.newParent = c.inode
    · have hdir := c.parent
      rw [hi] at hq hdir
      obtain ⟨r, hr, hsame⟩ := h.row
      obtain rfl := Option.some.inj (hr.symm.trans hq)
      rw [hsame.remotePath_eq]
      exact congrArg FileEntry.remotePath
        (Option.some.inj ((Db.getByParentName_spec c.source).1.symm.trans hdir))
    · exact congrArg FileEntry.remotePath
        (Option.some.inj ((hq.symm.trans (h.others _ hi)).trans c.parent))
  rw [hpath]
  rfl

/-- The call that enters the row fails when its name is taken. -/
theorem not_taken_of_renameEntry {db' : Db} {cp : Option PathBuf}
    (h : w.db.renameEntry c.inode c.request.newParent c.request.newName c.new cp = some db')
    (hrow : c.RowStays w) : ¬c.Taken w := by
  rintro ⟨d, hne, hd, hdm, hdp, hdn⟩
  obtain ⟨r, hr, hsame⟩ := hrow
  obtain ⟨-, hm, -⟩ := Db.getByParentName_spec c.source
  have hsome : (w.db.renameEntry c.inode c.request.newParent c.request.newName c.new cp).isSome =
      true := Option.isSome_iff_exists.2 ⟨db', h⟩
  have hfits := (Db.updateRow_isSome_iff hr (by exact fun _ => rfl)).1 hsome
  have hri := Db.inode_of_getByInode hr
  exact hfits.name d (Db.mem_rows_of_getByInode hd) (fun he => hne (he.trans hri))
    (hdm.trans (hsame.mountId_eq.trans hm).symm) (by rw [hdp]; rfl) hdp hdn

theorem UploadPc.Carries.mono {cps cps' : PathBuf → Prop} {content : Option Bytes} {pc : UploadPc}
    (h : pc.Carries cps content) (hcps : ∀ cp, cps cp → cps' cp) : pc.Carries cps' content := by
  cases pc <;> first | exact hcps _ h | exact h

/-- A call that leaves the remote and the spawned operations alone. -/
theorem Renaming.of_call (h : Renaming c ((w, pc), latest)) (hpc : pc.returned = none)
    (hpc' : pc'.returned = none) (hfound : c.Found w' pc') (hmoved : c.Moved w' pc')
    (hremote : w'.remote = w.remote) (hback : w'.background = w.background)
    (hlocal : ∃ cps, LocalAt c.inode c.content cps w' ∧ ∀ cp, c.entry.cachePath = some cp → cps cp)
    (hpledged : c.entry.status.isUnsynced = true → c.content.isSome = true ∧
      Uploadable w' c.inode ∧ (c.Delivered latest ∨ Pledged w' c.inode)) :
    Renaming c ((w', pc'), latest) := by
  obtain ⟨op, hat, -, hplan⟩ := h.ops
  refine ⟨hfound, hmoved, ⟨op, hremote ▸ hat, fun hret => ?_, fun _ => ?_⟩, h.content, hlocal,
    hpledged⟩
  · rw [hpc'] at hret
    cases hret
  · exact ⟨hback.trans (hplan hpc).1, (hplan hpc).2⟩

/-- The handler has found what it replaces, or its place is taken. -/
theorem RenameCase.RowsStay.taken (h : c.RowsStay w) : none = c.replaced ∨ c.Taken w := by
  cases hr : c.replaced with
  | none => exact .inl rfl
  | some d =>
    have hne := RenameCase.replaced_ne hr
    obtain ⟨hd, hdm, hdp, hdn⟩ := Db.getByParentName_spec hr
    exact .inr ⟨d, hne, (h.others _ hne).trans hd, hdm, hdp, hdn⟩

/-- Dropping the row that is replaced leaves the renamed one. -/
theorem getByInode_drop {d : FileEntry} (h : c.replaced = some d) :
    ((if fault then none else w.db.deleteEntry d.inode).getD w.db).getByInode c.inode =
      w.db.getByInode c.inode := by
  cases hdb : (if fault then none else w.db.deleteEntry d.inode) with
  | none => rfl
  | some db =>
    have hdel : w.db.deleteEntry d.inode = some db := by
      cases fault <;> simp_all
    rw [Option.getD_some, Db.getByInode_deleteEntry hdel, if_neg (RenameCase.replaced_ne h).symm]

theorem toList_renameBackground (o : Option FileEntry) (b : Bool) (p q : Str) :
    renameBackground o b p q = Option.toList (renameBackground o b p q).head? := by
  cases o <;> cases b <;> rfl

/-- The call that moves the cache file. -/
theorem Renaming.moveFile {e : FileEntry} {new : Str} {replaced : Option FileEntry}
    (h : Renaming c ((w, .moveFile e new replaced), latest)) :
    Renaming c ((RenamePc.moveFile e new replaced).tick c.mount c.request w fault, latest) := by
  obtain ⟨rfl, rfl, hreplaced, hrow⟩ := h.found
  obtain ⟨cps, hlocal, hcps⟩ := h.local_
  have hfs : w.fs = c.before.fs := h.moved
  obtain ⟨hnew, hkept⟩ :=
    files_moveCacheFile_of_content fault w.fs c.entry.cachePath c.request.newName
  have hbind : c.entry.cachePath.bind w.fs.files = c.content := by
    rw [hfs]
    rfl
  refine h.of_call rfl rfl ⟨rfl, rfl, hreplaced, hrow⟩
    ⟨isSome_moveCacheFile w.fs c.entry.cachePath, fun cp hcp => (hnew cp hcp).trans hbind⟩
    rfl rfl ⟨cps, ⟨fun cp data hcp hdata => ?_, hlocal.uploads, hlocal.row⟩, hcps⟩ h.pledged
  rcases hkept cp data hdata with hold | hold
  · exact hlocal.files cp data hcp hold
  · rw [← hbind, hold]

/-- The call that enters the row at its new place. -/
theorem Renaming.renameRow {e : FileEntry} {new : Str} {replaced : Option FileEntry}
    {newCachePath : Option PathBuf}
    (h : Renaming c ((w, .renameRow e new replaced newCachePath), latest)) :
    (∃ x, ((RenamePc.renameRow e new replaced newCachePath).tick c.mount c.request w fault).2 =
      .done (.error x)) ∨
      Renaming c ((RenamePc.renameRow e new replaced newCachePath).tick c.mount c.request w fault,
        latest) := by
  obtain ⟨rfl, rfl, hreplaced, hrow⟩ := h.found
  obtain ⟨hsome, hfile⟩ := h.moved
  obtain ⟨cps, hlocal, hcps⟩ := h.local_
  simp only [RenamePc.tick]
  cases hdb : (if fault then none else w.db.renameEntry c.entry.inode c.request.newParent
      c.request.newName c.new newCachePath) with
  | none => exact .inl ⟨_, rfl⟩
  | some db =>
    right
    have hren : w.db.renameEntry c.inode c.request.newParent c.request.newName c.new
        newCachePath = some db := by
      cases fault <;> simp_all [RenameCase.inode]
    have hself := (Db.renameEntry_rows hren).self
    have hreplaced := hreplaced.resolve_right (not_taken_of_renameEntry hren hrow)
    have hlocal' : LocalAt c.inode c.content (fun cp => cps cp ∨ newCachePath = some cp)
        { w with db } := by
      refine ⟨fun cp data hcp hdata => ?_, fun u hu hi => ?_, fun r' cp hr' hcp => ?_⟩
      · rcases hcp with hcp | hcp
        · exact hlocal.files cp data hcp hdata
        · rw [← hfile cp hcp]
          exact hdata
      · exact (hlocal.uploads u hu hi).mono fun cp hcp => .inl hcp
      · have hr' : db.getByInode c.inode = some r' := hr'
        rw [hself] at hr'
        obtain ⟨r, -, rfl⟩ := Option.map_eq_some_iff.1 hr'
        exact .inr hcp
    have hnext : (if needsRemoteRename c.entry.status then
        RenamePc.tombstone c.entry c.new replaced else .spawn c.entry c.new replaced).returned =
          none := by
      split <;> rfl
    refine h.of_call rfl hnext ?_ ?_ rfl rfl
      ⟨_, hlocal', fun cp hcp => .inl (hcps cp hcp)⟩ fun hu => ?_
    · split <;> exact ⟨rfl, rfl, hreplaced⟩
    · split <;> trivial
    · obtain ⟨hcontent, ⟨r, hr, hkind, hstatus, -⟩, hpledged⟩ := h.pledged hu
      have hr : w.db.getByInode c.inode = some r := hr
      have hcp : c.entry.cachePath.isSome = true := by
        by_contra hnone
        rw [Bool.not_eq_true, Option.isSome_eq_false_iff, Option.isNone_iff_eq_none] at hnone
        rw [RenameCase.content, World.cached, hnone] at hcontent
        cases hcontent
      rw [hr, Option.map_some] at hself
      exact ⟨hcontent, ⟨_, hself, hkind, hstatus, hsome.trans hcp⟩, hpledged⟩

/-- **A call of the rename keeps the invariant**, or the rename fails. -/
theorem Renaming.call (h : Renaming c ((w, pc), latest)) (hpc : pc.returned = none) :
    (∃ e, (pc.tick c.mount c.request w fault).2 = .done (.error e)) ∨
      Renaming c (pc.tick c.mount c.request w fault, latest) := by
  have hfound := h.found
  have hmoved := h.moved
  obtain ⟨cps, hlocal, hcps⟩ := h.local_
  cases pc with
  | source => exact hfound.elim
  | parent e =>
    obtain ⟨rfl, hstay⟩ := hfound
    simp only [RenamePc.tick]
    split
    · exact .inl ⟨_, rfl⟩
    split
    · exact .inl ⟨_, rfl⟩
    rename_i q hq
    exact .inr
      (h.of_call rfl rfl ⟨rfl, hstay.newRemote hq, hstay⟩ hmoved rfl rfl h.local_ h.pledged)
  | dest e new =>
    obtain ⟨rfl, rfl, hstay⟩ := hfound
    right
    simp only [RenamePc.tick]
    cases hd : (if fault then none
        else w.db.getByParentName c.mount.mountId c.request.newParent c.request.newName) with
    | none =>
      exact h.of_call rfl rfl ⟨rfl, rfl, hstay.taken, hstay.row⟩ hmoved rfl rfl h.local_ h.pledged
    | some d =>
      have hreplaced : c.replaced = some d := by
        rw [← hstay.replaced]
        cases fault <;> simp_all
      exact h.of_call rfl rfl ⟨rfl, rfl, hreplaced, hstay.row⟩ hmoved rfl rfl h.local_ h.pledged
  | drop e new d =>
    obtain ⟨rfl, rfl, hreplaced, hrow⟩ := hfound
    right
    have hget := @getByInode_drop c w fault d hreplaced
    refine h.of_call rfl rfl ⟨rfl, rfl, hreplaced, ?_⟩ hmoved rfl rfl
      ⟨cps, hlocal.congr rfl rfl hget, hcps⟩ fun hu => ?_
    · obtain ⟨r, hr, hsame⟩ := hrow
      exact ⟨r, hget.trans hr, hsame⟩
    · obtain ⟨hcontent, ⟨r, hr, hup⟩, hpledged⟩ := h.pledged hu
      exact ⟨hcontent, ⟨r, hget.trans hr, hup⟩, hpledged⟩
  | header e new d =>
    obtain ⟨rfl, rfl, hreplaced, hrow⟩ := hfound
    exact .inr (h.of_call rfl rfl ⟨rfl, rfl, .inl hreplaced.symm, hrow⟩ hmoved rfl rfl
      ⟨cps, hlocal.congr rfl rfl rfl, hcps⟩ h.pledged)
  | moveFile e new replaced => exact .inr h.moveFile
  | renameRow e new replaced newCachePath => exact h.renameRow
  | tombstone e new replaced =>
    obtain ⟨rfl, rfl, hreplaced⟩ := hfound
    right
    simp only [RenamePc.tick]
    cases fault <;>
      exact h.of_call rfl rfl ⟨rfl, rfl, hreplaced⟩ trivial rfl rfl
        ⟨cps, hlocal.congr rfl rfl rfl, hcps⟩ h.pledged
  | spawn e new replaced =>
    obtain ⟨rfl, rfl, rfl⟩ := hfound
    right
    obtain ⟨op, hat, -, hplan⟩ := h.ops
    obtain ⟨hback, rfl⟩ := hplan rfl
    refine ⟨trivial, trivial, ⟨_, hat, fun _ => ?_, fun h => by cases h⟩, h.content,
      ⟨cps, hlocal.congr rfl rfl rfl, hcps⟩, h.pledged⟩
    change w.background ++ _ = _
    rw [hback, toList_renameBackground]
    rfl
  | done result => cases hpc

end Calls

section Steps

variable {c : RenameCase} {w w' : World} {pc : RenamePc} {ev : Event}
  {latest : Option RemoteObject}

theorem RenameCase.RowStays.step (h : c.RowStays w) (hev : RenameEvent c.position c.inode w ev)
    (hstep : step c.mount w ev = some w') : c.RowStays w' := by
  obtain ⟨r, hr, hsame⟩ := h
  obtain ⟨r', hr', -, hsame', -⟩ := row_of_renameEvent hstep hev hr
  exact ⟨r', hr', hsame.trans hsame'⟩

theorem RenameCase.RowsStay.step (h : c.RowsStay w) (hev : RenameEvent c.position c.inode w ev)
    (hstep : step c.mount w ev = some w') : c.RowsStay w' := by
  refine ⟨h.row.step hev hstep, fun j hj => ?_⟩
  rw [← h.others j hj]
  cases hr : w.db.getByInode j with
  | none => exact none_of_renameEvent hstep hev hr
  | some r =>
    obtain ⟨r', hr', hsame, -⟩ := row_of_renameEvent hstep hev hr
    rw [hr', hsame hj]

theorem RenameCase.Taken.step (h : c.Taken w) (hev : RenameEvent c.position c.inode w ev)
    (hstep : step c.mount w ev = some w') : c.Taken w' := by
  obtain ⟨d, hne, hd, hat⟩ := h
  obtain ⟨d', hd', hsame, -⟩ := row_of_renameEvent hstep hev hd
  obtain rfl := hsame hne
  exact ⟨d', hne, hd', hat⟩

theorem RenameCase.Found.step (h : c.Found w pc) (hev : RenameEvent c.position c.inode w ev)
    (hstep : step c.mount w ev = some w') : c.Found w' pc := by
  cases pc with
  | source => exact h
  | parent => exact ⟨h.1, h.2.step hev hstep⟩
  | dest => exact ⟨h.1, h.2.1, h.2.2.step hev hstep⟩
  | drop | header => exact ⟨h.1, h.2.1, h.2.2.1, h.2.2.2.step hev hstep⟩
  | moveFile | renameRow =>
    exact ⟨h.1, h.2.1, h.2.2.1.imp_right fun ht => ht.step hev hstep, h.2.2.2.step hev hstep⟩
  | tombstone | spawn => exact h
  | done => trivial

theorem RenameCase.Moved.step (h : c.Moved w pc) (hev : RenameEvent c.position c.inode w ev)
    (hstep : step c.mount w ev = some w') : c.Moved w' pc := by
  have hfs := fs_of_renameEvent hstep hev
  cases pc <;> simp only [RenameCase.Moved] at h ⊢ <;> rwa [hfs]

/-- An accepted version delivers the content. -/
theorem delivered_of_accepted {o : RemoteObject} (h : c.content = some o.data) :
    c.Delivered (some o) := by
  refine ⟨o, ?_, h⟩
  rw [Remote.withLatest, Option.elim_some, Remote.object_put, if_pos rfl]

/-- What is left of the operation is what the run has at its position. -/
theorem Renaming.remaining {op : Option Background}
    (hret : pc.returned.isSome = true → w.background = c.before.background ++ Option.toList op)
    (hplan : pc.returned = none → w.background = c.before.background ∧ op = c.plan) :
    c.remaining (w, pc) = op := by
  rw [RenameCase.remaining]
  cases hpc : pc.returned with
  | none => exact (hplan hpc).2.symm
  | some result =>
    rw [Option.isSome_some, if_pos rfl, hret (by rw [hpc]; rfl), RenameCase.position]
    cases op <;> simp

/-- The pledge of a row with a local edit is kept, or the content is delivered. -/
theorem pledged_of_step {latest' : Option RemoteObject} {cps : PathBuf → Prop}
    (hlocal : LocalAt c.inode c.content cps w) (hup : Uploadable w c.inode)
    (hev : RenameEvent c.position c.inode w ev) (hstep : step c.mount w ev = some w')
    (hdone : c.Completes (w, pc) (.daemon ev))
    (hlatest : ∀ a, acceptedUpload w ev = some a → ∃ o, latest' = some o ∧ o.data = a.data)
    (h : Pledged w c.inode) : c.Delivered latest' ∨ Pledged w' c.inode := by
  cases ev with
  | launch j =>
    obtain rfl := step_launch hstep
    obtain rfl : j = c.inode := hev
    exact .inr (.inr ⟨⟨c.inode, .load⟩, List.mem_append_right _ List.mem_cons_self, rfl, rfl⟩)
  | upload k env =>
    obtain ⟨u, hu, rfl⟩ := Option.map_eq_some_iff.1 hstep
    have hui := hev u hu
    rcases h with hp | ⟨u', hu', hui', hpc'⟩
    · exact .inr (.inl (mem_pending_of_tick hp))
    · obtain ⟨_, _, _, _, hw⟩ := upload_tick_eq w u.inode env u.pc
      have huploads : (Upload.tick w u.inode env u.pc).1.uploads = w.uploads := by rw [hw]
      obtain ⟨k', hk'⟩ := List.mem_iff_getElem?.1 hu'
      by_cases hkk : k' = k
      · subst hkk
        obtain rfl := Option.some.inj (hk'.symm.trans hu)
        obtain ⟨i, pc⟩ := u'
        obtain rfl : i = c.inode := hui
        rcases pledged_of_tick hlocal hup hu hpc' (hdone _ hu) with
          ⟨pc', hnext, hpledged⟩ | hp | ⟨a, ha, -, hcontent⟩
        · refine .inr (.inr ⟨⟨c.inode, pc'⟩, ?_, rfl, hpledged⟩)
          dsimp only
          rw [hnext, huploads]
          exact List.mem_set (List.getElem?_eq_some_iff.1 hu).1 _
        · exact .inr (.inl hp)
        · obtain ⟨o, rfl, hdata⟩ := hlatest a ha
          exact .inl (delivered_of_accepted (hcontent.trans (congrArg some hdata.symm)))
      · refine .inr (.inr ⟨u', ?_, hui', hpc'⟩)
        dsimp only
        rw [huploads]
        exact mem_advance_of_other (List.mem_eraseIdx_iff_getElem?.2 ⟨k', hkk, hk'⟩)
  | background k env =>
    obtain ⟨b, -, rfl⟩ := Option.map_eq_some_iff.1 hstep
    obtain ⟨_, _, hw⟩ := background_tick_eq c.mount w env b
    right
    rcases h with hp | hu
    · left
      dsimp only
      rwa [hw]
    · right
      dsimp only
      rwa [hw]
  | _ => exact hev.elim

/-- What was to bring the local content to the backend still is, or has. -/
theorem Renaming.pledged_step (h : Renaming c ((w, pc), latest))
    (latest' : Option RemoteObject) (hev : RenameEvent c.position c.inode w ev)
    (hdone : c.entry.status.isUnsynced = true → c.Completes (w, pc) (.daemon ev))
    (hstep : step c.mount w ev = some w')
    (haccepted : ∀ a, acceptedUpload w ev = some a → ∃ o, latest' = some o ∧ o.data = a.data)
    (hdelivered : c.Delivered latest → c.Delivered latest')
    (hu : c.entry.status.isUnsynced = true) :
    c.content.isSome = true ∧ Uploadable w' c.inode ∧
      (c.Delivered latest' ∨ Pledged w' c.inode) := by
  obtain ⟨cps, hlocal, -⟩ := h.local_
  obtain ⟨hsome, hup, hpledged⟩ := h.pledged hu
  refine ⟨hsome, hup.step hlocal hev hstep fun k env he u hmem => ?_, ?_⟩
  · subst he
    exact hdone hu u hmem
  · rcases hpledged with hd | hp
    · exact .inl (hdelivered hd)
    · exact pledged_of_step hlocal hup hev hstep (hdone hu) haccepted hp

/-- A step of an upload keeps the invariant. -/
theorem Renaming.upload {latest' : Option RemoteObject} {k : ℕ} {env : Env}
    (h : Renaming c ((w, pc), latest)) (hev : RenameEvent c.position c.inode w (.upload k env))
    (hplace : c.InPlace (w, pc) (.daemon (.upload k env)))
    (hdone : c.entry.status.isUnsynced = true → c.Completes (w, pc) (.daemon (.upload k env)))
    (hstep : step c.mount w (.upload k env) = some w')
    (hlatest : latest' = recordLatest c.inode (w, pc) (.daemon (.upload k env)) (w', pc) latest) :
    Renaming c ((w', pc), latest') := by
  have hpledge := h.pledged_step latest' hev hdone hstep
  obtain ⟨hfound, hmoved, ⟨op, hat, hret, hplan⟩, hcontent, ⟨cps, hlocal, hcps⟩, -⟩ := h
  have hfound' := hfound.step hev hstep
  have hmoved' := hmoved.step hev hstep
  have hlocal' := hlocal.step hev hstep
  have hback : w'.background = w.background := by
    obtain ⟨u, -, rfl⟩ := Option.map_eq_some_iff.1 hstep
    obtain ⟨_, _, _, _, hw⟩ := upload_tick_eq w u.inode env u.pc
    dsimp only
    rw [hw]
  rcases remote_of_upload hstep with ⟨hnone, hremote⟩ | ⟨a, o, ha, hdata, hremote⟩
  · rw [recordLatest, hnone] at hlatest
    subst hlatest
    refine ⟨hfound', hmoved', ⟨op, hremote ▸ hat, hback ▸ hret, hback ▸ hplan⟩, hcontent,
      ⟨cps, hlocal', hcps⟩, hpledge (fun a ha => ?_) id⟩
    rw [hnone] at ha
    cases ha
  · obtain ⟨_, _, _, hk, hu, -⟩ := acceptedUpload_eq_some ha
    cases hk
    have hinode : a.inode = c.inode := hev _ hu
    have hbytes : c.content = some a.data :=
      hlocal.uploads _ (mem_of_getElem? hu) hinode
    have hobject : w'.remote.object a.entry.remotePath = some o := by
      rw [hremote, Remote.object_put, if_pos rfl]
    rw [recordLatest, ha] at hlatest
    dsimp only at hlatest
    rw [if_pos hinode, hobject] at hlatest
    subst hlatest
    have hpath : objectPath c.old c.new op = some a.entry.remotePath := by
      have hpath := hplace a ha
      rwa [Renaming.remaining hret hplan] at hpath
    have ho : c.content = some o.data := hbytes.trans (congrArg some hdata.symm)
    refine ⟨hfound', hmoved', ⟨op, hremote ▸ hat.put hpath o, hback ▸ hret, hback ▸ hplan⟩,
      fun o' ho' => ?_, ⟨cps, hlocal', hcps⟩, hpledge (fun a' ha' => ?_) fun _ =>
        delivered_of_accepted ho⟩
    · obtain rfl := Option.some.inj ho'
      exact ho
    · obtain rfl := Option.some.inj (ha.symm.trans ha')
      exact ⟨o, rfl, hdata⟩

/-- A step of the remote operation keeps the invariant. -/
theorem Renaming.background {env : Env}
    (hc : RenameKeeps c.before c.entry c.replaced c.new) (h : Renaming c ((w, pc), latest))
    (he : env.error = none) (hplace : c.InPlace (w, pc) (.daemon (.background c.position env)))
    (hdone : c.entry.status.isUnsynced = true →
      c.Completes (w, pc) (.daemon (.background c.position env)))
    (hstep : step c.mount w (.background c.position env) = some w') :
    Renaming c ((w', pc), latest) := by
  have hev : RenameEvent c.position c.inode w (.background c.position env) := ⟨rfl, he⟩
  have hpledge := h.pledged_step latest hev hdone hstep (fun _ ha => by cases ha) id
  obtain ⟨hfound, hmoved, ⟨op, hat, hret, hplan⟩, hcontent, ⟨cps, hlocal, hcps⟩, -⟩ := h
  have hfound' := hfound.step hev hstep
  have hmoved' := hmoved.step hev hstep
  have hlocal' := hlocal.step hev hstep
  obtain ⟨b, hb, hw⟩ := Option.map_eq_some_iff.1 hstep
  cases hpc : pc.returned with
  | none =>
    rw [(hplan hpc).1, RenameCase.position, List.getElem?_eq_none le_rfl] at hb
    cases hb
  | some result =>
    have hop : w.background[c.position]? = op := by
      have hrem := Renaming.remaining hret hplan
      rwa [RenameCase.remaining, hpc, Option.isSome_some, if_pos rfl] at hrem
    rw [hop] at hb
    subst hb
    have hremote : w'.remote = (Background.tick c.mount w env b).1.remote := by rw [← hw]
    have hback : w'.background =
        c.before.background ++ Option.toList (Background.tick c.mount w env b).2 := by
      rw [← hw]
      dsimp only
      obtain ⟨_, _, heq⟩ := background_tick_eq c.mount w env b
      rw [show (Background.tick c.mount w env b).1.background = w.background by rw [heq],
        hret (by rw [hpc]; rfl), RenameCase.position]
      cases (Background.tick c.mount w env b).2 <;>
        simp [advance, List.eraseIdx_append_of_length_le]
    have hnext := @RemoteAt.tick c.mount _ _ _ _ _ env _ _ hat hc he fun hb =>
      hplace (hop.trans (congrArg some hb))
    refine ⟨hfound', hmoved', ⟨_, hremote ▸ hnext, fun _ => hback, fun hnone => ?_⟩, hcontent,
      ⟨cps, hlocal', hcps⟩, hpledge⟩
    rw [hpc] at hnone
    cases hnone

/-- **A step of the daemon keeps the invariant.** -/
theorem Renaming.daemon {latest' : Option RemoteObject}
    (hc : RenameKeeps c.before c.entry c.replaced c.new) (h : Renaming c ((w, pc), latest))
    (hev : RenameEvent c.position c.inode w ev) (hplace : c.InPlace (w, pc) (.daemon ev))
    (hdone : c.entry.status.isUnsynced = true → c.Completes (w, pc) (.daemon ev))
    (hstep : step c.mount w ev = some w')
    (hlatest : latest' = recordLatest c.inode (w, pc) (.daemon ev) (w', pc) latest) :
    Renaming c ((w', pc), latest') := by
  cases ev with
  | launch j =>
    obtain rfl : latest' = latest := hlatest
    have hpledge := h.pledged_step latest' hev hdone hstep (fun _ ha => by cases ha) id
    obtain ⟨hfound, hmoved, hops, hcontent, ⟨cps, hlocal, hcps⟩, -⟩ := h
    have hfound' := hfound.step hev hstep
    have hmoved' := hmoved.step hev hstep
    have hlocal' := hlocal.step hev hstep
    obtain rfl := step_launch hstep
    exact ⟨hfound', hmoved', hops, hcontent, ⟨cps, hlocal', hcps⟩, hpledge⟩
  | upload k env => exact h.upload hev hplace hdone hstep hlatest
  | background k env =>
    obtain ⟨rfl, he⟩ := hev
    obtain rfl : latest' = latest := hlatest
    exact h.background hc he hplace hdone hstep
  | _ => exact hev.elim

end Steps

/-! ## A whole rename -/

/-- What the rename starts from: the object where it should be, and every upload of the row on its
content. -/
theorem RenameCase.renaming_init (c : RenameCase)
    (hc : RenameKeeps c.before c.entry c.replaced c.new)
    (hup : ∀ u ∈ c.before.uploads, u.inode = c.inode →
      u.pc.Carries (fun cp => c.entry.cachePath = some cp) c.content)
    (hedit : c.entry.status.isUnsynced = true → c.Uploads) :
    Renaming c ((c.before, .parent c.entry), none) := by
  have hsource := (Db.getByParentName_spec c.source).1
  refine ⟨⟨rfl, ⟨c.entry, hsource, .refl _⟩, fun _ _ => rfl⟩, rfl,
    ⟨c.plan, ?_, (fun h => by cases h), fun _ => ⟨rfl, rfl⟩⟩, (fun _ h => by cases h),
    ⟨_, ⟨fun cp data hcp hdata => ?_, hup, fun r cp hr hcp => ?_⟩, fun _ h => h⟩, fun hu => ?_⟩
  · rw [RenameCase.plan]
    cases hm : needsRemoteRename c.entry.status with
    | true =>
      cases hd : c.replaced with
      | none => exact ⟨rfl, rfl, fun _ _ => rfl⟩
      | some d => exact ⟨rfl, hc.dest d hd, rfl⟩
    | false =>
      cases hd : c.replaced with
      | none => exact remoteAt_unmoved hc hm (fun _ _ => rfl) (.inr rfl)
      | some d => exact ⟨(hc.dest d hd).imp id And.right, rfl, rfl, hm⟩
  · rw [RenameCase.content, World.cached, hcp]
    exact hdata
  · obtain rfl := Option.some.inj (hsource.symm.trans hr)
    exact hcp
  · obtain ⟨hkind, hsome, hpledged⟩ := hedit hu
    refine ⟨hsome, ⟨c.entry, hsource, hkind, fun hs => ?_, ?_⟩, hpledged⟩
    · rw [hs] at hu
      cases hu
    · by_contra hnone
      rw [Bool.not_eq_true, Option.isSome_eq_false_iff, Option.isNone_iff_eq_none] at hnone
      rw [RenameCase.content, World.cached, hnone] at hsome
      cases hsome

/-- The condition on the steps of a rename. -/
def RenameCase.Keeps (c : RenameCase) (x : (World × RenamePc) × Option RemoteObject)
    (ev : HandlerMove) : Prop :=
  c.Moves x.1 ev ∧ c.InPlace x.1 ev ∧ (c.entry.status.isUnsynced = true → c.Completes x.1 ev)

instance RenameCase.decidableKeeps (c : RenameCase) (x : (World × RenamePc) × Option RemoteObject)
    (ev : HandlerMove) : Decidable (c.Keeps x ev) :=
  inferInstanceAs (Decidable (_ ∧ _ ∧ (_ → _)))

/-- The rename has failed. -/
def Failed (x : (World × RenamePc) × Option RemoteObject) : Prop := ∃ e, x.1.2 = .done (.error e)

theorem renaming_of_step {c : RenameCase} {x y : (World × RenamePc) × Option RemoteObject}
    {ev : HandlerMove} (hc : RenameKeeps c.before c.entry c.replaced c.new)
    (hx : Failed x ∨ Renaming c x) (hg : c.Keeps x ev) (h : latestStep c x ev = some y) :
    Failed y ∨ Renaming c y := by
  obtain ⟨⟨w, pc⟩, latest⟩ := x
  obtain ⟨⟨w', pc'⟩, latest'⟩ := y
  obtain ⟨hstep, hlatest⟩ := withHistory_eq_some.1 h
  dsimp only at hstep hlatest
  cases ev with
  | call fault =>
    rw [renameStep] at hstep
    have hlatest : latest' = latest := hlatest
    subst hlatest
    cases hpc : pc.returned with
    | some result =>
      rw [hpc, Option.isSome_some, if_pos rfl] at hstep
      cases hstep
    | none =>
      rw [hpc, Option.isSome_none, if_neg Bool.false_ne_true] at hstep
      have htick := Option.some.inj hstep
      rcases hx with ⟨e, he⟩ | hx
      · have he : pc = .done (.error e) := he
        rw [he] at hpc
        cases hpc
      · rcases @Renaming.call c w pc fault latest' hx hpc with ⟨e, he⟩ | hnext
        · exact .inl ⟨e, by rw [← he, htick]⟩
        · exact .inr (htick ▸ hnext)
  | daemon ev =>
    obtain ⟨w₁, hw, he⟩ := Option.map_eq_some_iff.1 hstep
    obtain ⟨rfl, rfl⟩ := Prod.mk.inj he
    rcases hx with hfailed | hx
    · exact .inl hfailed
    · exact .inr (hx.daemon hc hg.1 hg.2.1 hg.2.2 hw hlatest)

/-- **A rename reaches the remote**, call by call with an upload of the row and before its remote
operation, when the handler's guess of where the object is holds, every upload that is accepted
goes to the path the object is at, and no upload of a local edit ends on the way. -/
theorem renameReaches_of_run (c : RenameCase) (w' : World) (latest : Option RemoteObject)
    (evs : List HandlerMove) (hc : RenameKeeps c.before c.entry c.replaced c.new)
    (hup : ∀ u ∈ c.before.uploads, u.inode = c.inode →
      u.pc.Carries (fun cp => c.entry.cachePath = some cp) c.content)
    (hedit : c.entry.status.isUnsynced = true → c.Uploads)
    (hg : Guarded (latestStep c) c.Keeps ((c.before, .parent c.entry), none) evs)
    (hrun : run (latestStep c) ((c.before, .parent c.entry), none) evs =
      some ((w', .done (.ok ())), latest))
    (hdone : w'.background[c.position]? = none)
    (hidle : c.inode ∉ w'.pending ∧ ∀ u ∈ w'.uploads, u.inode ≠ c.inode) :
    c.Reaches latest w' := by
  have hrun' := inv_of_run (I := fun x => Failed x ∨ Renaming c x)
    (fun _ _ _ hi hg h => renaming_of_step hc hi hg h)
    (.inr (c.renaming_init hc hup hedit)) hg hrun
  obtain ⟨e, he⟩ | ⟨-, -, ⟨op, hat, hret, -⟩, hcontent, -, hpledged⟩ := hrun'
  · cases he
  have hop : op = none := by
    rw [← hdone, hret rfl, RenameCase.position]
    cases op <;> simp
  subst hop
  have hdelivered : c.entry.status.isUnsynced = true → c.Delivered latest := by
    intro hu
    obtain ⟨-, -, hd | hp | ⟨u, hmem, hi, -⟩⟩ := hpledged hu
    · exact hd
    · exact absurd hp hidle.1
    · exact absurd hi (hidle.2 u hmem)
  refine ⟨hcontent, funext fun path => ?_, hdelivered⟩
  by_cases hpath : path = c.new
  · rcases hat.2 with hnew | ⟨rfl, hnone, hu⟩
    · rw [hpath]
      refine hnew.trans ?_
      simp [Remote.renamed, RenameCase.old]
    · obtain ⟨o, ho, -⟩ := hdelivered hu
      simp [Remote.withLatest, Remote.object, RenameCase.old, hnone] at ho
  · exact hat.1 path hpath

/-- The state the events lead to from an empty index. -/
def worldAfter (evs : List Event) : World :=
  (run (step sampleMount) (World.init sampleMount 0) evs).getD (World.init sampleMount 0)

/-- A new file is written and closed, and its upload has marked it. -/
def uploadMarked : List Event :=
  [.request (.create fuseRootInode ['a']), .request (.write 1 0 [7]), .fuse .fine,
    .request (.release 1), .launch 2, .upload 0 .fine, .upload 0 .fine, .upload 0 .fine]

/-- The file is renamed. -/
def renamedWhileUploaded : RenameCase where
  mount := sampleMount
  request := ⟨fuseRootInode, ['a'], fuseRootInode, ['b']⟩
  before := worldAfter uploadMarked
  entry := ((worldAfter uploadMarked).db.getByInode 2).getD (rootEntry 1)
  newDir := rootEntry 1
  source := rfl
  parent := rfl
  distinct := by decide

/-- The upload reads the cache file before the rename moves it, and the backend takes the content
before the remote operation starts. -/
def readBeforeMoved : List HandlerMove :=
  [.call false, .daemon (.upload 0 .fine), .call false, .call false,
    .daemon (.upload 0 (.accepted ['v'])), .call false, .call false, .call false,
    .daemon (.upload 0 .fine), .daemon (.upload 0 .fine), .daemon (.upload 0 .fine),
    .daemon (.background 0 .fine), .daemon (.background 0 .fine)]

theorem renameReaches_readBeforeMoved :
    ∃ w' latest, run (latestStep renamedWhileUploaded)
        ((renamedWhileUploaded.before, .parent renamedWhileUploaded.entry), none)
          readBeforeMoved = some ((w', .done (.ok ())), latest) ∧
      renamedWhileUploaded.Reaches latest w' := by
  refine ⟨_, _, rfl, renameReaches_of_run renamedWhileUploaded _ _ readBeforeMoved ?keeps ?up ?edit
    ?guard rfl rfl ?idle⟩
  case keeps =>
    exact ⟨by decide, by decide, (fun d hd => by cases hd), (fun q _ _ hsome => by cases hsome),
      (fun h => by cases h)⟩
  case up =>
    intro u hu _
    rw [List.mem_singleton.1 hu]
    rfl
  case edit => exact fun _ => ⟨rfl, rfl, .inr (.inr ⟨_, List.mem_singleton.2 rfl, rfl, rfl⟩)⟩
  case guard => decide
  case idle => exact ⟨List.not_mem_nil, fun u hu => by cases hu⟩

/-- Another client's file is renamed to the name of a second one. -/
def reportTwo : List Event :=
  [foreignVersion ['a'] [1] ['v'], foreignVersion ['b'] [2] ['w'],
    .poll (reportedFile ['a'] 1 ['v']), .poll (reportedFile ['b'] 1 ['w'])]

def remoteRenamed : RenameCase where
  mount := sampleMount
  request := ⟨fuseRootInode, ['a'], fuseRootInode, ['b']⟩
  before := worldAfter reportTwo
  entry := ((worldAfter reportTwo).db.getByInode 2).getD (rootEntry 1)
  newDir := rootEntry 1
  source := rfl
  parent := rfl
  distinct := by decide

theorem not_renameReaches_renameRemote :
    ¬∀ (c : RenameCase) (w' : World) (latest : Option RemoteObject) (before : List Event)
      (evs : List HandlerMove), run (step c.mount) (World.init c.mount 0) before = some c.before →
      c.new ≠ c.old →
      Guarded (latestStep c) (fun x => c.Moves x.1) ((c.before, .parent c.entry), none) evs →
      run (latestStep c) ((c.before, .parent c.entry), none) evs =
        some ((w', .done (.ok ())), latest) →
      w'.background = [] → w'.uploads = [] → w'.pending = [] → c.Reaches latest w' := by
  intro h
  have hreaches := h remoteRenamed _ none reportTwo
    (List.replicate 7 (.call false) ++ [.daemon (.background 0 .fine)]) rfl (by decide) (by decide)
    rfl rfl rfl rfl
  have hold := congrFun hreaches.tree ['a']
  cases hold

end Stratosync

import Stratosync.Daemon.Rows
import Stratosync.Sync.LocalEdits

/-!
# Uploads and the version they are based on

An upload passes the etag recorded in the row as the version it may replace. The history variable
`Bases` records, for each inode, the versions its local bytes descend from; each version the
backend accepts from here is added to it. The recorded etag of a row with content on disk names
one of them (`BaseInv`) as long as nothing else writes the etag of such a row, and then an upload
replaces no other version (`replacesBase_of_run`).

What breaks it: an upsert that refreshes the etag of a row that is dirty or uploading, a write to
a row whose etag is already that of a newer version, a `stat` after the upload that finds another
client's version, and an upload without an etag to compare.
-/

namespace Stratosync

open Foundations.Runs Foundations.Pool

/-- For each inode, the versions its local bytes descend from. -/
abbrev Bases := Inode → List Str

/-- A version accepted from here is one the local bytes descend from. -/
def recordBase (w : World) (ev : Event) (_ : World) (g : Bases) : Bases :=
  match acceptedUpload w ev with
  | some a => Function.update g a.inode (a.etag.toList ++ g a.inode)
  | none => g

/-- The system with the history of base versions. -/
abbrev baseStep (m : Mount) : World × Bases → Event → Option (World × Bases) :=
  withHistory (step m) recordBase

/-- The etag, if there is one, names a version the bytes of `i` descend from. -/
def Based (g : Bases) (i : Inode) (etag : Option Str) : Prop := ∀ v ∈ etag, v ∈ g i

/-- An upload of a row that was dirty or uploading replaces a version its bytes descend from. -/
def ReplacesBase (x : World × Bases) (ev : Event) : Prop :=
  ∀ a ∈ acceptedUpload x.1 ev, a.entry.status.isUnsynced = true →
    ∀ o ∈ x.1.remote.object a.entry.remotePath, ∃ v ∈ o.etag, v ∈ x.2 a.inode

/-- The etags on record name base versions: those of the rows with content on disk, those the
uploads loaded and those they are about to record. -/
structure BaseInv (x : World × Bases) : Prop where
  rows : ∀ i r, x.1.db.getByInode i = some r → r.status.claimsCacheFile = true →
    Based x.2 i r.etag
  uploads : ∀ u ∈ x.1.uploads, ∀ e ∈ u.pc.entry, e.status.isUnsynced = true →
    Based x.2 u.inode e.etag
  records : ∀ u ∈ x.1.uploads, ∀ md, u.pc = .record md → Based x.2 u.inode md.etag

/-- A row about to be marked as dirty, uploading or cached has content on disk, or else its etag
names a base version. -/
def MarksBased (x : World × Bases) (i : Inode) : Prop :=
  ∀ r ∈ x.1.db.getByInode i, r.status.claimsCacheFile = false → Based x.2 i r.etag

/-- What an upload may not run into: marking a row whose etag is that of a newer version, an
object it has no etag to compare with, and another client's version in the `stat` after it. -/
def UploadNamesBase (x : World × Bases) (i : Inode) : UploadPc → Prop
  | .reset _ | .mark .. | .finish (.error _) => MarksBased x i
  | .put e _ => e.status.isUnsynced = true → ∀ o ∈ x.1.remote.object e.remotePath,
      ∃ v ∈ o.etag, e.etag = none → v ∈ x.2 i
  | .stat e => ∀ o ∈ x.1.remote.object e.remotePath, Based x.2 i o.etag
  | _ => True

/-- A step of writes, remote edits, index refreshes and uploads that keeps the etags on record. An
upsert that matches a row which is dirty or uploading brings no etag but that of a base version. -/
def NamesBase (x : World × Bases) : Event → Prop
  | .hydration .. => False
  | .fuse _ => ∀ c ∈ x.1.fuse, MarksBased x c.inode
  | .upload k _ => ∀ u ∈ x.1.uploads[k]?, UploadNamesBase x u.inode u.pc
  | .poll op => ∀ u ∈ op.upserts, ∀ r ∈ x.1.db.fileIndex.rows,
      r.status.isUnsynced = true → Matches u r → Based x.2 r.inode u.2.1.etag
  | _ => True

section Decidable

instance (g : Bases) (i : Inode) (etag : Option Str) : Decidable (Based g i etag) :=
  inferInstanceAs (Decidable (∀ v ∈ etag, v ∈ g i))

instance (x : World × Bases) (i : Inode) : Decidable (MarksBased x i) :=
  inferInstanceAs (Decidable (∀ r ∈ x.1.db.getByInode i, _ → Based x.2 i r.etag))

instance (x : World × Bases) (i : Inode) : (pc : UploadPc) → Decidable (UploadNamesBase x i pc)
  | .reset _ | .mark .. | .finish (.error _) => inferInstanceAs (Decidable (MarksBased x i))
  | .put e _ => inferInstanceAs (Decidable (_ → ∀ o ∈ x.1.remote.object e.remotePath, _))
  | .stat e => inferInstanceAs (Decidable
      (∀ o ∈ x.1.remote.object e.remotePath, Based x.2 i o.etag))
  | .load | .check .. | .revert _ | .read .. | .record _ | .finish (.ok _) => .isTrue trivial

instance (x : World × Bases) : (ev : Event) → Decidable (NamesBase x ev)
  | .hydration .. => .isFalse id
  | .fuse _ => inferInstanceAs (Decidable (∀ c ∈ x.1.fuse, MarksBased x c.inode))
  | .upload k _ =>
    inferInstanceAs (Decidable (∀ u ∈ x.1.uploads[k]?, UploadNamesBase x u.inode u.pc))
  | .poll op => inferInstanceAs (Decidable (∀ u ∈ op.upserts, ∀ r ∈ x.1.db.fileIndex.rows, _))
  | .request _ | .launch _ | .read .. | .startEviction | .eviction _ | .background ..
  | .prefetch _ | .foreign _ | .clock _ => .isTrue trivial

end Decidable

/-! ## The etags on record name base versions -/

variable {m : Mount} {w w' : World} {g : Bases} {ev : Event} {i : Inode}

theorem mem_recordBase {v : Str} (h : v ∈ g i) : v ∈ recordBase w ev w' g i := by
  rw [recordBase]
  cases acceptedUpload w ev with
  | none => exact h
  | some a =>
    dsimp only
    rw [Function.update_apply]
    split
    · rename_i hi
      exact List.mem_append_right _ (hi ▸ h)
    · exact h

theorem Based.mono {etag : Option Str} (h : Based g i etag) :
    Based (recordBase w ev w' g) i etag :=
  fun v hv => mem_recordBase (h v hv)

theorem claimsCacheFile_of_isUnsynced {s : SyncStatus} (h : s.isUnsynced = true) :
    s.claimsCacheFile = true := by
  cases s <;> first | rfl | cases h

theorem isUnsynced_of_claims_refreshed {s : SyncStatus} (h : s.refreshed.claimsCacheFile = true) :
    s.isUnsynced = true := by
  cases s <;> first | rfl | cases h

/-- An upload about to record metadata has just fetched them. -/
theorem stat_of_tick_record {env : Env} {pc : UploadPc} {md : RemoteMetadata}
    (h : (Upload.tick w i env pc).2 = some (.record md)) :
    ∃ e, pc = .stat e ∧ w.remote.stat e.remotePath = some md := by
  unfold Upload.tick at h
  split at h
  case h_8 e =>
    split at h <;> cases h
    exact ⟨e, rfl, ‹_›⟩
  all_goals
    repeat' split at h
    all_goals cases h

/-- The etag in the metadata of a path is that of the object there. -/
theorem etag_of_stat {r : Remote} {path : Str} {md : RemoteMetadata} (h : r.stat path = some md)
    {v : Str} (hv : v ∈ md.etag) : ∃ o ∈ r.object path, v ∈ o.etag := by
  rw [Remote.stat] at h
  split at h
  · rename_i o ho
    obtain rfl := Option.some.inj h
    exact ⟨o, by simp [Remote.object, ho], hv⟩
  · obtain rfl := Option.some.inj h
    cases hv
  · cases h

theorem rows_of_step (hi : BaseInv (w, g)) (hg : NamesBase (w, g) ev)
    (h : step m w ev = some w') {r' : FileEntry} (hr' : w'.db.getByInode i = some r')
    (hs : r'.status.claimsCacheFile = true) : Based (recordBase w ev w' g) i r'.etag := by
  have hmark : ∀ r, w.db.getByInode i = some r → MarksBased (w, g) i → Based g i r.etag := by
    intro r hr hm
    cases hc : r.status.claimsCacheFile with
    | true => exact hi.rows i r hr hc
    | false => exact hm r hr hc
  rcases row_inv_of_step h hr' with ⟨r, hr, hstep⟩ | ⟨hnew, -⟩
  · cases hstep with
    | same => exact (hi.rows i r' hr hs).mono
    | dirtied hc => exact (hmark r hr (hg _ hc)).mono
    | renamed _ _ => exact (hi.rows i r hr hs).mono
    | reset hu => exact (hmark r hr (hg _ hu)).mono
    | marked hu => exact (hmark r hr (hg _ hu)).mono
    | failed hu => exact (hmark r hr (hg _ hu)).mono
    | uploaded hu => exact (hi.records _ (mem_of_getElem? hu) _ rfl).mono
    | refreshed href =>
      rcases href with rfl | ⟨u, hu, hm, id, rfl⟩
      · exact (hi.rows i r' hr hs).mono
      · have hsync := isUnsynced_of_claims_refreshed hs
        have := hg u hu r (Db.mem_rows_of_getByInode hr) hsync hm
        rw [Db.inode_of_getByInode hr] at this
        exact Based.mono this
    | dropped ho =>
      rw [(ho r' rfl).2.1] at hs
      cases hs
    | opened | reverted | evicted | claimedByRead => cases hs
    | claimed | timedOut | rolledBack | hydrated | backfilled => exact hg.elim
  · cases hnew with
    | created _ _ _ _ _ _ he => exact fun v hv => by simp [he] at hv
    | made _ _ he => exact fun v hv => by simp [he] at hv
    | listed _ hn =>
      rw [hn] at hs
      cases hs

theorem BaseInv.step (hi : BaseInv (w, g)) (hg : NamesBase (w, g) ev)
    (h : Stratosync.step m w ev = some w') : BaseInv (w', recordBase w ev w' g) := by
  refine ⟨fun i r hr hs => rows_of_step hi hg h hr hs, ?_, ?_⟩
  · rcases uploads_of_step h with hw | ⟨j, -, hw⟩ | ⟨k, env, u, rfl, hu, hw⟩ <;>
      dsimp only <;> rw [hw]
    · exact fun u hu e he hs => (hi.uploads u hu e he hs).mono
    · refine forall_append (fun u hu e he hs => (hi.uploads u hu e he hs).mono) fun u hu e he => ?_
      rw [List.mem_singleton.1 hu] at he
      cases he
    · refine forall_advance (fun u hu e he hs => (hi.uploads u hu e he hs).mono)
        fun u' hu' e he hs => ?_
      obtain ⟨pc, hpc, rfl⟩ := Option.map_eq_some_iff.1 hu'
      rcases entry_of_tick hpc he with he | ⟨-, hr, -⟩
      · exact (hi.uploads u (mem_of_getElem? hu) e he hs).mono
      · exact (hi.rows u.inode e hr (claimsCacheFile_of_isUnsynced hs)).mono
  · rcases uploads_of_step h with hw | ⟨j, -, hw⟩ | ⟨k, env, u, rfl, hu, hw⟩ <;>
      dsimp only <;> rw [hw]
    · exact fun u hu md hpc => (hi.records u hu md hpc).mono
    · refine forall_append (fun u hu md hpc => (hi.records u hu md hpc).mono) fun u hu md hpc => ?_
      rw [List.mem_singleton.1 hu] at hpc
      cases hpc
    · refine forall_advance (fun u hu md hpc => (hi.records u hu md hpc).mono)
        fun u' hu' md hpc => ?_
      obtain ⟨pc, htick, rfl⟩ := Option.map_eq_some_iff.1 hu'
      obtain rfl : pc = .record md := hpc
      obtain ⟨e, he, hstat⟩ := stat_of_tick_record htick
      have hnames : UploadNamesBase (w, g) u.inode u.pc := hg u hu
      rw [he] at hnames
      intro v hv
      obtain ⟨o, ho, hv⟩ := etag_of_stat hstat hv
      exact mem_recordBase (hnames o ho v hv)

/-- An accepted upload replaces a base version: the object has an etag, and it is the one the
upload passed. -/
theorem replacesBase_of_step (hi : BaseInv (w, g)) (hg : NamesBase (w, g) ev) :
    ReplacesBase (w, g) ev := by
  intro a ha hs o ho
  obtain ⟨k, env, r, rfl, hu, -, -, hr⟩ := acceptedUpload_eq_some ha
  obtain ⟨v, hv, hnone⟩ := hg _ hu hs o ho
  refine ⟨v, hv, ?_⟩
  cases he : a.entry.etag with
  | none => exact hnone he
  | some v' =>
    obtain rfl := (Remote.upload_ok hr).2 o ho v hv v' he
    exact hi.uploads _ (mem_of_getElem? hu) a.entry rfl hs v he

/-- **No lost remote update.** In every run of writes, edits of the remote, index refreshes and
uploads that keeps the etags on record, each accepted upload of a dirty or uploading row replaces
a version its bytes descend from, and in the state reached the etag of every such row names one. -/
theorem replacesBase_of_run {x : World × Bases} {evs : List Event} (h₀ : BaseInv x)
    (hg : Guarded (baseStep m) NamesBase x evs) :
    Along (baseStep m) (fun y ev _ => ReplacesBase y ev) x evs ∧
      ∀ y, run (baseStep m) x evs = some y → ∀ i r, y.1.db.getByInode i = some r →
        r.status.isUnsynced = true → Based y.2 i r.etag := by
  have hstep : ∀ x ev y, BaseInv x → NamesBase x ev → baseStep m x ev = some y → BaseInv y := by
    rintro ⟨w, g⟩ ev ⟨w', g'⟩ hi hg h
    obtain ⟨hw, hg'⟩ := withHistory_eq_some.1 h
    dsimp only at hw hg'
    subst hg'
    exact hi.step hg hw
  refine ⟨along_of_guarded hstep (fun x ev _ hi hg _ => replacesBase_of_step hi hg) h₀ hg, ?_⟩
  intro y hr i r hrow hs
  exact (inv_of_run hstep h₀ hg hr).rows i r hrow (claimsCacheFile_of_isUnsynced hs)

/-- The file is written and uploaded again. -/
def uploadAgain : List Event :=
  [.request (.write 1 0 [8]), .fuse .fine, .launch 2, .upload 0 .fine, .upload 0 .fine,
    .upload 0 .fine, .upload 0 .fine, .upload 0 (.accepted ['w'])]

theorem replacesBase_uploadAgain :
    Along (baseStep sampleMount) (fun y ev _ => ReplacesBase y ev)
      (World.init sampleMount 0, fun _ => []) (uploadFirst ++ uploadAgain) :=
  have hinit : BaseInv (World.init sampleMount 0, fun _ => []) := by
    refine ⟨fun i r hr _ => ?_, fun _ hu => (nomatch hu), fun _ hu => (nomatch hu)⟩
    obtain rfl : r = rootEntry 1 := List.mem_singleton.1 (Db.mem_rows_of_getByInode hr)
    exact fun v hv => nomatch hv
  have hguard : Guarded (baseStep sampleMount) NamesBase (World.init sampleMount 0, fun _ => [])
      (uploadFirst ++ uploadAgain) := by decide
  (replacesBase_of_run hinit hguard).1

/-- The file is written again while another client replaces it, and the poller reports that version
before the upload starts. -/
def uploadOverForeign : List Event :=
  [foreignVersion ['a'] [9] ['x'], .request (.write 1 0 [8]), .fuse .fine,
    .poll (reportedFile ['a'] 1 ['x']), .launch 2, .upload 0 .fine, .upload 0 .fine,
    .upload 0 .fine, .upload 0 .fine]

theorem not_replacesBase_uploadOverForeign :
    ¬∀ (m : Mount) (y : World × Bases) (evs : List Event),
      run (baseStep m) (World.init m 0, fun _ => []) evs = some y →
        ∀ ev, ReplacesBase y ev := by
  intro h
  have huploaded : ∀ y, run (baseStep sampleMount) (World.init sampleMount 0, fun _ => [])
      (uploadFirst ++ uploadOverForeign) = some y → ¬ReplacesBase y (.upload 0 .fine) := by
    rintro y hy hreplaces
    obtain rfl := Option.some.inj hy
    obtain ⟨v, hv, hmem⟩ := hreplaces _ rfl rfl _ rfl
    obtain rfl := Option.some.inj hv
    exact absurd hmem (by decide)
  exact huploaded _ rfl (h sampleMount _ (uploadFirst ++ uploadOverForeign) rfl _)

end Stratosync

import Stratosync.Backend.IfMatch

/-!
# Conditional uploads

The two backends that a mount may have, `RcloneBackend` and, when the sidecar is enabled,
`WebDavBackend`, over one remote. An upload with an etag is to replace the object that has this
etag and no other. The rclone backend lists the object first and then runs
`rclone copyto --checksum`; the WebDAV backend sends a `PUT`. Every call is answered.

`meets_iff` says when an upload keeps to that.
-/

namespace Stratosync

/-- An object of the remote: its content, what `lsjson` prints for it, and the etag that the
WebDAV sidecar serves. -/
structure RemoteFile where
  data : Bytes
  listed : RcloneLsJsonEntry
  davEtag : Option Str
  deriving DecidableEq, Repr

/-- What rclone adds to the content: how it describes an object that was uploaded, and which
object `copyto --checksum` takes for a copy of the local bytes. -/
structure RcloneRemote where
  decode : Base64Engine → Str → Option Bytes
  listed : Str → Bytes → RcloneLsJsonEntry
  davEtag : Str → Bytes → Option Str
  sameChecksum : Bytes → RemoteFile → Bool

/-- How an upload ends. -/
inductive UploadReply
  | done (metadata : RemoteMetadata)
  | conflict (loc : Str) (remote : Option Str)
  | failed (error : SyncError)
  deriving DecidableEq, Repr

/-- The backend of a mount. -/
inductive BackendKind
  | rclone
  | webDav
  deriving DecidableEq, Repr

/-- The choice that `main` makes. -/
def backendKind (webdavSidecar : Bool) : BackendKind :=
  if webdavSidecar then .webDav else .rclone

/-- An upload of `data` to `path`, made on the remote `files` at the time `now`. -/
structure ConditionalUpload where
  rclone : RcloneRemote
  files : Str → Option RemoteFile
  data : Bytes
  path : Str
  ifMatch : Str
  now : ℕ

namespace ConditionalUpload

variable (c : ConditionalUpload)

/-- The remote with the local bytes at the path. -/
def stored : Str → Option RemoteFile :=
  Function.update c.files c.path
    (some ⟨c.data, c.rclone.listed c.path c.data, c.rclone.davEtag c.path c.data⟩)

/-- `rclone lsjson` of the path. -/
def lsjson (files : Str → Option RemoteFile) : Except SyncError (List RcloneLsJsonEntry) :=
  match files c.path with
  | none => .error .notFound
  | some f => .ok [f.listed]

/-- `rclone copyto --checksum`. -/
def copyto : Str → Option RemoteFile :=
  if (c.files c.path).any (c.rclone.sameChecksum c.data) then c.files else c.stored

/-- `RcloneBackend::upload`. -/
def rcloneUpload : UploadReply × (Str → Option RemoteFile) :=
  match checkIfMatch c.rclone.decode (c.lsjson c.files) c.ifMatch with
  | .conflict loc remote => (.conflict loc remote, c.files)
  | .failed e => (.failed e, c.files)
  | .ok =>
    match c.lsjson c.copyto with
    | .error e => (.failed e, c.copyto)
    | .ok [] => (.failed .notFound, c.copyto)
    | .ok (entry :: _) => (.done entry.toMetadata, c.copyto)

/-- `WebDavBackend::upload`, which does not read the etag. -/
def webDavUpload : UploadReply × (Str → Option RemoteFile) :=
  (.done
    { path := c.path, name := fileName c.path, size := c.data.length, mtime := c.now
      isDir := false, etag := c.rclone.davEtag c.path c.data, itemId := none }, c.stored)

def upload : BackendKind → UploadReply × (Str → Option RemoteFile)
  | .rclone => c.rcloneUpload
  | .webDav => c.webDavUpload

/-! ## The contract -/

/-- The etag that the backend's `stat` reports. -/
def etagOf (f : RemoteFile) : BackendKind → Option Str
  | .rclone => f.listed.toMetadata.etag
  | .webDav => f.davEtag

/-- The expected etag spells a hash of the object. -/
def SpellsHash (f : RemoteFile) : Prop :=
  ∃ h ∈ f.listed.hashes.getD [], Spells c.rclone.decode c.ifMatch h.2

instance instDecidableSpellsHash (f : RemoteFile) : Decidable (c.SpellsHash f) :=
  inferInstanceAs (Decidable (∃ h ∈ f.listed.hashes.getD [], Spells _ _ _))

/-- The expected etag is that of the object: the one reported, or for rclone one of its hashes. -/
def Names (f : RemoteFile) : BackendKind → Prop
  | .rclone => f.listed.toMetadata.etag = some c.ifMatch ∨ c.SpellsHash f
  | .webDav => f.davEtag = some c.ifMatch

/-- **An object with another etag makes the upload a conflict and stays as it is; one with the
expected etag gets the local bytes.** -/
def Meets (kind : BackendKind) : Prop :=
  ∀ f ∈ c.files c.path,
    ((etagOf f kind).isSome = true → ¬c.Names f kind →
        (∃ loc remote, (c.upload kind).1 = .conflict loc remote) ∧ (c.upload kind).2 = c.files) ∧
      (c.Names f kind → ((c.upload kind).2 c.path).map RemoteFile.data = some c.data)

/-- With the sidecar, the object has the expected etag or none. Without it, an object that has the
expected etag lists no hashes or one that the etag spells, and is not taken for a copy of the local
bytes, unless it is one. -/
def Suits : BackendKind → Prop
  | .rclone => ∀ f ∈ c.files c.path, c.Names f .rclone → f.data ≠ c.data →
      (f.listed.hashes.getD [] = [] ∨ c.SpellsHash f) ∧ c.rclone.sameChecksum c.data f = false
  | .webDav => ∀ f ∈ c.files c.path, ∀ v ∈ f.davEtag, v = c.ifMatch

variable {c} {f : RemoteFile}

/-- What the listing of an object lets through. -/
theorem checkIfMatch_of_file (hf : c.files c.path = some f) :
    checkIfMatch c.rclone.decode (c.lsjson c.files) c.ifMatch =
      checkIfMatch c.rclone.decode (.ok [f.listed]) c.ifMatch := by
  rw [lsjson, hf]

/-- An object with another etag is a conflict. -/
theorem conflict_of_not_names (hf : c.files c.path = some f)
    (hsome : f.listed.toMetadata.etag.isSome = true) (hnames : ¬c.Names f .rclone) :
    c.rcloneUpload = (.conflict c.ifMatch f.listed.toMetadata.etag, c.files) := by
  have hcheck : checkIfMatch c.rclone.decode (.ok [f.listed]) c.ifMatch =
      .conflict c.ifMatch f.listed.toMetadata.etag := by
    by_cases he : f.listed.hashes.getD [] = []
    · obtain ⟨v, hv⟩ := Option.isSome_iff_exists.1 hsome
      rw [checkIfMatch_of_no_hashes he, if_neg]
      intro h
      exact hnames (.inl (by rw [hv, h v hv]))
    · have hspells : ¬c.SpellsHash f := fun h => hnames (.inr h)
      rw [checkIfMatch_of_hashes he]
      exact if_neg hspells
  rw [rcloneUpload, checkIfMatch_of_file hf, hcheck]

/-- An object with the expected etag passes exactly when it lists no hashes or one that the etag
spells. -/
theorem passes_of_names (hnames : c.Names f .rclone) :
    checkIfMatch c.rclone.decode (.ok [f.listed]) c.ifMatch =
      if f.listed.hashes.getD [] = [] ∨ c.SpellsHash f then .ok
      else .conflict c.ifMatch f.listed.toMetadata.etag := by
  by_cases he : f.listed.hashes.getD [] = []
  · have hetag : ∀ v ∈ f.listed.toMetadata.etag, v = c.ifMatch := by
      intro v hv
      rcases hnames with h | ⟨_, hmem, -⟩
      · exact Option.some.inj (hv.symm.trans h)
      · rw [he] at hmem
        cases hmem
    rw [checkIfMatch_of_no_hashes he, if_pos hetag, if_pos (.inl he)]
  · rw [checkIfMatch_of_hashes he]
    exact if_congr ⟨.inr, fun h => h.resolve_left he⟩ rfl rfl

/-- An upload that passes leaves what `copyto` leaves. -/
theorem files_of_passes (hf : c.files c.path = some f)
    (hok : checkIfMatch c.rclone.decode (.ok [f.listed]) c.ifMatch = .ok) :
    c.rcloneUpload.2 = c.copyto := by
  rw [rcloneUpload, checkIfMatch_of_file hf, hok]
  dsimp only
  split <;> rfl

theorem data_of_copyto (hf : c.files c.path = some f) :
    (c.copyto c.path).map RemoteFile.data =
      some (if c.rclone.sameChecksum c.data f then f.data else c.data) := by
  rw [copyto, hf, Option.any_some]
  split
  · rw [hf, Option.map_some]
  · rw [stored, Function.update_self, Option.map_some]

/-- What an upload with the expected etag leaves. -/
theorem data_of_names (hf : c.files c.path = some f) (hnames : c.Names f .rclone) :
    (c.rcloneUpload.2 c.path).map RemoteFile.data = some c.data ↔
      (f.data ≠ c.data →
        (f.listed.hashes.getD [] = [] ∨ c.SpellsHash f) ∧
          c.rclone.sameChecksum c.data f = false) := by
  by_cases hpass : f.listed.hashes.getD [] = [] ∨ c.SpellsHash f
  · have hok := (passes_of_names hnames).trans (if_pos hpass)
    rw [files_of_passes hf hok, data_of_copyto hf, Option.some_inj]
    cases hsame : c.rclone.sameChecksum c.data f with
    | false => simp [hpass]
    | true => simp
  · have hconflict := (passes_of_names hnames).trans (if_neg hpass)
    rw [rcloneUpload, checkIfMatch_of_file hf, hconflict]
    simp [hf, hpass]

/-- **An upload keeps to the contract exactly when the object suits the backend.** -/
theorem meets_iff (webdavSidecar : Bool) :
    c.Meets (backendKind webdavSidecar) ↔ c.Suits (backendKind webdavSidecar) := by
  cases backendKind webdavSidecar with
  | rclone =>
    refine forall_congr' fun f => forall_congr' fun hf => ?_
    constructor
    · intro h hnames
      exact (data_of_names hf hnames).1 (h.2 hnames)
    · intro h
      refine ⟨fun hsome hnames => ?_, fun hnames => (data_of_names hf hnames).2 (h hnames)⟩
      rw [upload, conflict_of_not_names hf hsome hnames]
      exact ⟨⟨_, _, rfl⟩, rfl⟩
  | webDav =>
    refine forall_congr' fun f => forall_congr' fun hf => ?_
    constructor
    · intro h v hv
      by_contra hne
      have hnames : ¬c.Names f .webDav := fun hn => hne (Option.some.inj (hv.symm.trans hn))
      obtain ⟨⟨_, _, hreply⟩, -⟩ := h.1 (Option.isSome_of_mem hv) hnames
      cases hreply
    · intro h
      refine ⟨fun hsome hnames => ?_, fun _ => ?_⟩
      · obtain ⟨v, hv⟩ := Option.isSome_iff_exists.1 hsome
        exact absurd (hv.trans (congrArg some (h v hv))) hnames
      · change (c.stored c.path).map RemoteFile.data = some c.data
        rw [stored, Function.update_self, Option.map_some]

/-- A file that was edited on the remote, uploaded from the version before. -/
def editedRemotely : ConditionalUpload where
  rclone :=
    { decode := fun _ _ => none
      listed := fun path _ => ⟨path, path, 1, none, false, none, none⟩
      davEtag := fun _ _ => some "v3".toList
      sameChecksum := fun _ _ => false }
  files := fun path => if path = ['a'] then
    some ⟨[2], ⟨['a'], ['a'], 1, none, false, none, none⟩, some "v2".toList⟩ else none
  data := [1]
  path := ['a']
  ifMatch := "v1".toList
  now := 0

/-- Through the sidecar the upload replaces the edit. -/
theorem not_meets_editedRemotely : ¬editedRemotely.Meets (backendKind true) := by
  intro h
  have hnames : ¬some "v2".toList = some editedRemotely.ifMatch := by decide
  obtain ⟨⟨_, _, hreply⟩, -⟩ := (h _ rfl).1 rfl hnames
  cases hreply

end ConditionalUpload

end Stratosync

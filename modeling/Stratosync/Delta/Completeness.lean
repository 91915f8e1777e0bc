import Stratosync.Delta.GoogleDrive
import Stratosync.Delta.OneDrive

/-!
# The delta feeds and the mount root

`init_delta` of `backend/mod.rs` picks the provider of a mount from its rclone configuration and
gives it the root of the mount: for OneDrive the path of the configured remote, for Google Drive the
`root_folder_id` of the configuration, whatever that path is.

**Main result** `deltaFeeds_complete_iff`: for both providers, a call that brings a new token
reflects every change record of its pages exactly when every one of them is covered.
-/

namespace Stratosync

inductive ProviderType
  | googleDrive
  | oneDrive
  deriving DecidableEq, Repr

/-- The delta provider of a mount. -/
inductive DeltaProvider
  | googleDrive (d : GoogleDriveDelta)
  | oneDrive (d : OneDriveDelta)
  deriving DecidableEq, Repr

def detectProvider (rcloneType : Str) : Option ProviderType :=
  if rcloneType = "drive".toList then some .googleDrive
  else if rcloneType = "onedrive".toList then some .oneDrive
  else none

/-- The path of a configured remote: what follows the first colon, or the root. -/
def remotePath (remoteRoot : Str) : Str :=
  match remoteRoot.dropWhile (· ≠ ':') with
  | [] => ['/']
  | _ :: path => path

/-- `init_delta`, for what `rclone config show` prints, if it runs, and the token texts that
`parse_oauth_token` accepts. -/
def initDelta (parseOauthToken : Str → Bool) (config : Option (Str → Option Str))
    (remoteRoot : Str) : Option DeltaProvider :=
  config.bind fun config => (config "type".toList).bind fun rcloneType =>
    (detectProvider rcloneType).bind fun providerType => (config "token".toList).bind fun token =>
      if parseOauthToken token then
        match providerType with
        | .googleDrive => some (.googleDrive ⟨(config "root_folder_id".toList).getD "root".toList⟩)
        | .oneDrive => some (.oneDrive ⟨remotePath remoteRoot⟩)
      else none

/-- What a provider is rooted at. -/
theorem of_initDelta {parseOauthToken : Str → Bool} {config : Option (Str → Option Str)}
    {remoteRoot : Str} {provider : DeltaProvider}
    (h : initDelta parseOauthToken config remoteRoot = some provider) :
    (∃ c, config = some c ∧
        provider = .googleDrive ⟨(c "root_folder_id".toList).getD "root".toList⟩) ∨
      provider = .oneDrive ⟨remotePath remoteRoot⟩ := by
  simp only [initDelta, Option.bind_eq_some_iff] at h
  obtain ⟨c, rfl, rcloneType, -, providerType, -, token, -, h⟩ := h
  split at h
  · cases providerType with
    | googleDrive => exact .inl ⟨c, rfl, (Option.some.inj h).symm⟩
    | oneDrive => exact .inr (Option.some.inj h).symm
  · cases h

variable (decode : Base64Engine → Str → Option Bytes) (parseTime : Str → Option ℕ)

/-- **Completeness of the delta feeds.** A call that brings a new token reflects every change record
of its pages exactly when they are all covered: for Google Drive when what the call knows of the
folders decides about every record as the whole tree does, for OneDrive when the text of every path
does. -/
theorem deltaFeeds_complete_iff :
    (∀ (d : GoogleDriveDelta) (api : DriveApi) (mount : Str)
      (session : FeedSession GDriveChangesResponse) (changes : List RemoteChange) (token : Str),
      d.changesSince api parseTime session = some (.ok (changes, token)) →
        (d.Complete api parseTime mount (GoogleDriveDelta.records session) changes ↔
          ∀ c ∈ GoogleDriveDelta.records session,
            d.Covered api (GoogleDriveDelta.records session) mount c)) ∧
    ∀ (d : OneDriveDelta) (places : Str → Option (List Str))
      (session : FeedSession OneDriveDeltaResponse) (changes : List RemoteChange) (token : Str),
      d.changesSince decode parseTime session = some (.ok (changes, token)) →
        (d.Complete places decode parseTime (OneDriveDelta.items session) changes ↔
          ∀ item ∈ OneDriveDelta.items session, d.Covered places item) :=
  ⟨fun _ _ _ _ _ _ h => GoogleDriveDelta.complete_iff h,
    fun _ _ _ _ _ h => OneDriveDelta.complete_iff h⟩

/-- The path of the remote makes no difference to Google Drive: a mount of another folder than the
configured one is not told of its live items. -/
theorem not_complete_of_initDelta {parseOauthToken : Str → Bool} {config : Str → Option Str}
    {remoteRoot mount path token : Str} {d : GoogleDriveDelta} {api : DriveApi}
    {session : FeedSession GDriveChangesResponse} {changes : List RemoteChange} {c : GDriveChange}
    (hd : initDelta parseOauthToken (some config) remoteRoot = some (.googleDrive d))
    (hmount : mount ≠ (config "root_folder_id".toList).getD "root".toList)
    (h : d.changesSince api parseTime session = some (.ok (changes, token)))
    (hc : c ∈ GoogleDriveDelta.records session) (hlive : c.deletes = false)
    (hpath : c.HasPath (api.place (GoogleDriveDelta.records session)) mount path) :
    ¬d.Complete api parseTime mount (GoogleDriveDelta.records session) changes := by
  intro hcomplete
  have hroot := (((GoogleDriveDelta.complete_iff h).1 hcomplete c hc).live hlive path hpath).1
  rcases of_initDelta hd with ⟨_, ⟨⟩, hprovider⟩ | hprovider
  · obtain rfl := DeltaProvider.googleDrive.inj hprovider
    exact hmount hroot.symm
  · cases hprovider

/-! ## Fixed sessions -/

/-- A drive whose root folder has a folder `Docs`. Lookups are answered with the two fields they
ask for. -/
def docsDrive : DriveApi where
  folders pid := if pid = "docs".toList then some ("Docs".toList, ["root".toList]) else none
  lookup _ pid :=
    if pid = "docs".toList then .file none (some "Docs".toList) (some ["root".toList])
    else .status 404 []
  served n pid id name parents h := by
    split at h
    · cases h
      rw [if_pos ‹_›]
      rfl
    · cases h

/-- A file in the folder with the id `parent`. -/
def fileIn (parent : Str) : GDriveChange where
  fileId := "f1".toList
  file := some { id := "f1".toList, name := "a.txt".toList, parents := some [parent] }

/-- A call that is sent one page. -/
def onePage {π : Type*} (page : π) : FeedSession π := ⟨true, true, [.page page]⟩

def drivePage (parent : Str) : FeedSession GDriveChangesResponse :=
  onePage { changes := [fileIn parent], newStartPageToken := some "t2".toList }

/-- An item in the folder with the path `parent`. -/
def itemIn (parent : Str) : OneDriveItem where
  id := "i1".toList
  name := some "a.jpg".toList
  parentReference := some ⟨some ("/drive/root:/".toList ++ parent)⟩

def onedrivePage (parent : Str) : FeedSession OneDriveDeltaResponse :=
  onePage { value := [itemIn parent], deltaLink := some "t2".toList }

def rootedDrive : GoogleDriveDelta := ⟨"root".toList⟩

def documents : OneDriveDelta := ⟨"/Documents".toList⟩

/-- A page about the folder `docs`, a new file in it and one that went to the trash. -/
def docsPage : FeedSession GDriveChangesResponse :=
  onePage
    { changes :=
        [{ fileId := "docs".toList
           file := some { id := "docs".toList, name := "Docs".toList, mimeType := folderMimeType
                          parents := some ["root".toList] } },
          fileIn "docs".toList,
          { fileId := "f2".toList
            file := some { id := "f2".toList, name := "b.txt".toList, trashed := true
                           parents := some ["docs".toList] } }]
      newStartPageToken := some "t2".toList }

/-- A page about a folder, a new file in it and one that was deleted. -/
def picsPage : FeedSession OneDriveDeltaResponse :=
  onePage
    { value :=
        [{ id := "i0".toList, name := some "Pics".toList, folder := true
           parentReference := some ⟨some "/drive/root:/Documents".toList⟩ },
          itemIn "Documents/Pics".toList,
          { id := "i2".toList, name := some "b.jpg".toList, deleted := true
            parentReference := some ⟨some "/drive/root:/Documents/Pics".toList⟩ }]
      deltaLink := some "t2".toList }

/-- A folder, a file in it and a deletion there are reported by both providers. -/
theorem deltaFeeds_complete_of_pages :
    (∃ x y : RemoteMetadata, x.path = "Docs".toList ∧ y.path = "Docs/a.txt".toList ∧
      rootedDrive.Complete docsDrive (fun _ => none) "root".toList
        (GoogleDriveDelta.records docsPage)
        [.added x, .added y, .deleted "Docs/b.txt".toList (some "f2".toList)]) ∧
    ∃ x y : RemoteMetadata, x.path = "Pics".toList ∧ y.path = "Pics/a.jpg".toList ∧
      documents.Complete (fun _ => none) (fun _ _ => none) (fun _ => none)
        (OneDriveDelta.items picsPage)
        [.added x, .added y, .deleted "Pics/b.jpg".toList (some "i2".toList)] := by
  constructor
  · refine ⟨_, _, rfl, rfl, ((deltaFeeds_complete_iff (fun _ _ => none) fun _ => none).1 _ _ _ _ _
      "t2".toList rfl).2 ?_⟩
    -- the folder is described on the page
    have hknown : rootedDrive.Known docsDrive (GoogleDriveDelta.records docsPage) "docs".toList :=
      .inl rfl
    have hup : Foundations.Ancestors.Climbs
        (docsDrive.place (GoogleDriveDelta.records docsPage)) "root".toList "docs".toList
          [("docs".toList, "Docs".toList)] := .up (by decide) rfl .arrived
    have hall : ∀ s ∈ [("docs".toList, "Docs".toList)],
        rootedDrive.Known docsDrive (GoogleDriveDelta.records docsPage) s.1 := by
      intro s hs
      rw [List.mem_singleton.1 hs]
      exact hknown
    intro c hc
    rcases List.mem_cons.1 hc with rfl | hc
    · exact
        { deleted := fun h => by cases h
          live := fun _ _ _ =>
            ⟨rfl, "Docs".toList, [], rfl, ⟨_, _, rfl, .arrived⟩, by decide, fun _ h => by cases h⟩
          outside := fun hout name above hfound => hout ⟨name, above, hfound.2.1⟩ }
    rcases List.mem_cons.1 hc with rfl | hc
    · exact
        { deleted := fun h => by cases h
          live := fun _ _ _ => ⟨rfl, "a.txt".toList, _, rfl, ⟨_, _, rfl, hup⟩, by decide, hall⟩
          outside := fun hout name above hfound => hout ⟨name, above, hfound.2.1⟩ }
    · obtain rfl := List.mem_singleton.1 hc
      exact
        { deleted := fun _ _ => ⟨"b.txt".toList, _, rfl, ⟨_, _, rfl, hup⟩, by decide, hall⟩
          live := fun h => by cases h
          outside := fun hout name above hfound => hout ⟨name, above, hfound.2.1⟩ }
  · refine ⟨_, _, rfl, rfl, ((deltaFeeds_complete_iff (fun _ _ => none) fun _ => none).2 _ _ _ _
      "t2".toList rfl).2 ?_⟩
    intro item hitem
    rcases List.mem_cons.1 hitem with rfl | hitem
    · exact (OneDriveDelta.covered_of_stated
        (show OneDriveItem.fullPath _ = some "Documents/Pics".toList from rfl)).2
        ⟨⟨fun _ => .inr (.inr ⟨"/Pics".toList, rfl, 'P', by decide, by decide⟩),
          fun _ => ⟨["Pics".toList], by decide, by decide⟩⟩, fun _ _ => by decide⟩
    rcases List.mem_cons.1 hitem with rfl | hitem
    · exact (OneDriveDelta.covered_of_stated
        (show OneDriveItem.fullPath _ = some "Documents/Pics/a.jpg".toList from rfl)).2
        ⟨⟨fun _ => .inr (.inr ⟨"/Pics/a.jpg".toList, rfl, 'a', by decide, by decide⟩),
          fun _ => ⟨["Pics".toList, "a.jpg".toList], by decide, by decide⟩⟩, fun _ _ => by decide⟩
    · obtain rfl := List.mem_singleton.1 hitem
      exact (OneDriveDelta.covered_of_stated
        (show OneDriveItem.fullPath _ = some "Documents/Pics/b.jpg".toList from rfl)).2
        ⟨⟨fun _ => .inr (.inr ⟨"/Pics/b.jpg".toList, rfl, 'b', by decide, by decide⟩),
          fun _ => ⟨["Pics".toList, "b.jpg".toList], by decide, by decide⟩⟩, fun h => by cases h⟩

/-- Neither provider is complete. The lookup of a folder the page does not mention is answered
without an id, which `get_file_metadata` takes for an error, and the file below it is dropped. A
file in `Documents2` is reported as one in the mount of `Documents`. -/
theorem not_deltaFeeds_complete :
    (rootedDrive.changesSince docsDrive (fun _ => none) (drivePage "docs".toList) =
        some (.ok ([], "t2".toList)) ∧
      ¬rootedDrive.Complete docsDrive (fun _ => none) "root".toList
        (GoogleDriveDelta.records (drivePage "docs".toList)) []) ∧
    ∃ x : RemoteMetadata, x.path = "2/a.jpg".toList ∧
      documents.changesSince (fun _ _ => none) (fun _ => none)
        (onedrivePage "Documents2".toList) = some (.ok ([.added x], "t2".toList)) ∧
      ¬documents.Complete (fun _ => none) (fun _ _ => none) (fun _ => none)
        (OneDriveDelta.items (onedrivePage "Documents2".toList)) [.added x] := by
  refine ⟨⟨rfl, fun h => ?_⟩, _, rfl, rfl, fun h => ?_⟩
  · have hpath : (fileIn "docs".toList).HasPath
        (docsDrive.place (GoogleDriveDelta.records (drivePage "docs".toList))) "root".toList
        "Docs/a.txt".toList :=
      ⟨"a.txt".toList, [("docs".toList, "Docs".toList)],
        ⟨"docs".toList, [], rfl, .up (by decide) rfl .arrived⟩, by decide, rfl⟩
    obtain ⟨x, hx, -⟩ := (h.2 _ (List.mem_singleton.2 rfl)).live rfl _ hpath
    cases hx
  · have hunder : ¬documents.Under (fun _ => none) (itemIn "Documents2".toList) := by
      rintro ⟨rest, -, hlocated⟩
      cases hlocated
    cases (h.2 _ (List.mem_singleton.2 rfl)).outside hunder

end Stratosync

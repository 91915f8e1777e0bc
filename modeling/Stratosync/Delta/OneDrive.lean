import Stratosync.Delta.Feed
import Stratosync.Foundations.Fields
import Stratosync.Hashes

/-!
# The change feed of OneDrive

`OneDriveDelta`. An item of the feed has the text of its parent's path, so no other item is needed
to find its own: `resolveItemPath` takes the drive's root off the text, then the mount's.

`complete_iff`: the result reflects every item of the pages exactly when every item is `Covered`:
the text of its path begins with that of the mount root if and only if the item is below the mount
root, and an item without a path of a known form is not below it.
-/

namespace Stratosync

open Foundations.Fields

/-! ## The messages of the API -/

structure OneDriveHashes where
  sha1Hash : Option Str := none
  quickXorHash : Option Str := none
  deriving DecidableEq, Repr

structure OneDriveFileInfo where
  hashes : Option OneDriveHashes := none
  deriving DecidableEq, Repr

structure OneDriveParentRef where
  path : Option Str := none
  deriving DecidableEq, Repr

/-- An item of the feed. Of `folder` and `deleted` only the presence counts. -/
structure OneDriveItem where
  id : Str
  name : Option Str := none
  size : Option ℤ := none
  lastModifiedDateTime : Option Str := none
  parentReference : Option OneDriveParentRef := none
  folder : Bool := false
  file : Option OneDriveFileInfo := none
  deleted : Bool := false
  deriving DecidableEq, Repr

structure OneDriveDeltaResponse where
  value : List OneDriveItem := []
  nextLink : Option Str := none
  deltaLink : Option Str := none
  deriving DecidableEq, Repr

structure OneDriveDelta where
  rootPath : Str
  deriving DecidableEq, Repr

/-- The path text below the drive's root, for the two forms the API documents. -/
def stripOneDriveRootPrefix (raw : Str) : Option Str :=
  match "/drive/root:".toList.isPrefixOf? raw with
  | some rest => some rest
  | none =>
    if raw = "/drive/root".toList then some []
    else
      ("/drives/".toList.isPrefixOf? raw).bind fun afterDrives =>
        let afterId := afterDrives.dropWhile (· ≠ '/')
        match "/root:".toList.isPrefixOf? afterId with
        | some rest => some rest
        | none => if afterId = "/root".toList then some [] else none

/-- The path text of an item below the drive's root: the first half of `resolve_item_path`. -/
def OneDriveItem.fullPath (item : OneDriveItem) : Option Str :=
  item.name.bind fun name => item.parentReference.bind fun parent =>
    (stripOneDriveRootPrefix (parent.path.getD [])).map fun parentPath =>
      if parentPath = [] then name else trimStartSlash parentPath ++ '/' :: name

/-- The content etag of an item, as rclone spells it. -/
def onedriveContentEtag (decode : Base64Engine → Str → Option Bytes) (h : OneDriveHashes) :
    Option Str :=
  (h.quickXorHash.or h.sha1Hash).bind (hashToHex decode)

namespace OneDriveDelta

def mapHttpError (code : ℕ) (body : Str) : FeedError :=
  if code = 404 ∧ containsText body "resyncRequired".toList then .tokenExpired else mapStatus code

def format : FeedFormat OneDriveDeltaResponse where
  mapHttpError := mapHttpError
  unreadable := .network
  endToken := OneDriveDeltaResponse.deltaLink
  nextLink := OneDriveDeltaResponse.nextLink

variable (d : OneDriveDelta)

/-- The path text below the mount root: the second half of `resolve_item_path`. -/
def belowRoot (fullPath : Str) : Option Str :=
  if d.rootPath = [] ∨ d.rootPath = ['/'] then some fullPath
  else
    ((trimStartSlash d.rootPath).isPrefixOf? fullPath).bind fun rest =>
      let rest := trimStartSlash rest
      if rest = [] then none else some rest

def resolveItemPath (item : OneDriveItem) : Option Str := item.fullPath.bind d.belowRoot

variable (decode : Base64Engine → Str → Option Bytes) (parseTime : Str → Option ℕ)

/-- The metadata of a live item. -/
def metadata (item : OneDriveItem) (path name : Str) : RemoteMetadata where
  path := path
  name := name
  size := asU64 (item.size.getD 0)
  mtime := (item.lastModifiedDateTime.bind parseTime).getD 0
  isDir := item.folder
  etag := (item.file.bind OneDriveFileInfo.hashes).bind (onedriveContentEtag decode)
  itemId := some item.id

/-- What becomes of one item. -/
def toChange (item : OneDriveItem) : Option RemoteChange :=
  if item.deleted then
    (d.resolveItemPath item).map fun path => .deleted path (some item.id)
  else if item.parentReference.isNone then none
  else
    (d.resolveItemPath item).bind fun path =>
      item.name.map fun name => .added (metadata decode parseTime item path name)

/-- The changes of the pages. -/
def convert (pages : List OneDriveDeltaResponse) : List RemoteChange :=
  (pages.flatMap OneDriveDeltaResponse.value).filterMap (d.toChange decode parseTime)

def changesSince (session : FeedSession OneDriveDeltaResponse) :
    Option (Except FeedError (List RemoteChange × Str)) :=
  format.changesSince session (d.convert decode parseTime)

end OneDriveDelta

/-! ## Where an item is -/

/-- The components of the path of an item below the drive's root: those of the path it states, or
those of its place in the drive if it states none. -/
def OneDriveItem.located (places : Str → Option (List Str)) (item : OneDriveItem) :
    Option (List Str) :=
  match item.fullPath with
  | some text => some (fields '/' text)
  | none => places item.id

namespace OneDriveDelta

variable (d : OneDriveDelta) (places : Str → Option (List Str)) (item : OneDriveItem)

/-- The item is below the mount root, by the components `rest`. -/
def Below (rest : List Str) : Prop :=
  rest ≠ [] ∧ item.located places = some (fields '/' d.rootPath ++ rest)

/-- The item is below the mount root. -/
def Under : Prop := ∃ rest, d.Below places item rest

/-- The path of the item below the mount root. -/
def HasPath (path : Str) : Prop := ∃ rest, d.Below places item rest ∧ path = joinPath rest

/-- The text begins with that of the mount root, and not only slashes follow. -/
def InText (text : Str) : Prop :=
  d.rootPath = [] ∨ d.rootPath = ['/'] ∨
    ∃ rest, text = trimStartSlash d.rootPath ++ rest ∧ ∃ c ∈ rest, c ≠ '/'

/-- The text after that of the mount root and the slashes that follow it. -/
def restOf (text : Str) : Str :=
  if d.rootPath = [] ∨ d.rootPath = ['/'] then text
  else trimStartSlash (text.drop (trimStartSlash d.rootPath).length)

/-- The text of the item's path decides about it as its components do. An item that states no path
is not below the mount root; another one is below it exactly when its text begins with that of the
mount root, and if it is live the rest of the text has no empty component. -/
structure Covered : Prop where
  unstated : item.fullPath = none → ¬d.Under places item
  stated : ∀ text, item.fullPath = some text → (d.Under places item ↔ d.InText text)
  tidy : item.deleted = false → d.Under places item → ∀ text, item.fullPath = some text →
    joinPath (fields '/' (d.restOf text)) = d.restOf text

/-- What the items of the pages owe the caller. -/
def Complete (decode : Base64Engine → Str → Option Bytes) (parseTime : Str → Option ℕ)
    (items : List OneDriveItem) (changes : List RemoteChange) : Prop :=
  let out := d.toChange decode parseTime
  changes = items.filterMap out ∧ ∀ item ∈ items,
    Reflected item.deleted item.id (d.Under places item) (d.HasPath places item) (out item)

/-- The items a session brings. -/
def items (session : FeedSession OneDriveDeltaResponse) : List OneDriveItem :=
  (format.pages session.replies).flatMap OneDriveDeltaResponse.value

/-! ## What the text says -/

variable {d places item} {text path : Str} {decode : Base64Engine → Str → Option Bytes}
  {parseTime : Str → Option ℕ}

theorem trimStartSlash_eq_nil_iff {s : Str} : trimStartSlash s = [] ↔ ∀ c ∈ s, c = '/' := by
  simp [trimStartSlash, List.dropWhile_eq_nil_iff]

theorem belowRoot_eq_some_iff :
    d.belowRoot text = some path ↔ d.InText text ∧ path = d.restOf text := by
  rw [belowRoot, InText, restOf]
  by_cases hroot : d.rootPath = [] ∨ d.rootPath = ['/']
  · rw [if_pos hroot, if_pos hroot, ← or_assoc]
    simp [hroot, eq_comm]
  · rw [if_neg hroot, if_neg hroot, ← or_assoc]
    simp only [hroot, false_or, Option.bind_eq_some_iff, List.isPrefixOf?_eq_some_iff_append_eq]
    constructor
    · rintro ⟨rest, rfl, hpath⟩
      split at hpath
      · cases hpath
      · rename_i hrest
        obtain rfl := Option.some.inj hpath
        rw [trimStartSlash_eq_nil_iff] at hrest
        refine ⟨⟨rest, rfl, by simpa using hrest⟩, ?_⟩
        rw [List.drop_left]
    · rintro ⟨⟨rest, rfl, hc⟩, rfl⟩
      refine ⟨rest, rfl, ?_⟩
      rw [List.drop_left, if_neg]
      rw [trimStartSlash_eq_nil_iff]
      simpa using hc

/-- Below the mount root the components after it are those of the text after its text. -/
theorem fields_restOf (h : d.InText text) {rest : List Str}
    (hrest : fields '/' text = fields '/' d.rootPath ++ rest) :
    fields '/' (d.restOf text) = rest := by
  rw [restOf]
  split
  · rename_i hroot
    have hnil : fields '/' d.rootPath = [] := by
      rcases hroot with hroot | hroot <;> simp [hroot]
    rw [hrest, hnil, List.nil_append]
  · rename_i hroot
    obtain ⟨after, rfl, -⟩ := ((or_assoc.2 h).resolve_left hroot)
    -- the root's text ends a component of the longer text, so its fields are the first there
    have hprefix : fields '/' (trimStartSlash d.rootPath) <+:
        fields '/' (trimStartSlash d.rootPath ++ after) := by
      rw [hrest, trimStartSlash, fields_dropWhile]
      exact List.prefix_append _ _
    rw [fields_append_of_begins hprefix, trimStartSlash, fields_dropWhile] at hrest
    rw [List.drop_left, trimStartSlash, fields_dropWhile]
    exact List.append_cancel_left hrest

/-! ## What becomes of an item -/

theorem toChange_of_deletes (h : item.deleted = true) :
    d.toChange decode parseTime item =
      (d.resolveItemPath item).map fun path => .deleted path (some item.id) := by
  rw [toChange, if_pos h]

variable (d decode parseTime) in
theorem toChange_of_live (h : item.deleted = false) :
    ∃ f : Str → RemoteMetadata, (∀ path, (f path).path = path ∧ (f path).itemId = some item.id) ∧
      d.toChange decode parseTime item =
        (d.resolveItemPath item).map fun path => .added (f path) := by
  refine ⟨fun path => metadata decode parseTime item path (item.name.getD []),
    fun _ => ⟨rfl, rfl⟩, ?_⟩
  obtain ⟨id, name, size, lastModified, parent, folder, file, deleted⟩ := item
  obtain rfl : deleted = false := h
  cases parent with
  | none => cases name <;> rfl
  | some parent =>
    cases name with
    | none => rfl
    | some name =>
      rw [toChange, if_neg Bool.false_ne_true, if_neg (by simp)]
      simp [Option.map_eq_bind]

theorem under_iff_hasPath : d.Under places item ↔ ∃ path, d.HasPath places item path := by
  simp [Under, HasPath]

/-- A live item that is below the mount root by its text has the rest of the text for its path if
that is tidy, and only then. -/
theorem restOf_eq_iff (htext : item.fullPath = some text) (hin : d.InText text)
    (hpath : d.HasPath places item path) :
    d.restOf text = path ↔ joinPath (fields '/' (d.restOf text)) = d.restOf text := by
  obtain ⟨rest, ⟨-, hlocated⟩, rfl⟩ := hpath
  rw [OneDriveItem.located, htext] at hlocated
  rw [fields_restOf hin (Option.some.inj hlocated), eq_comm]

theorem covered_of_unstated (htext : item.fullPath = none) :
    d.Covered places item ↔ ¬d.Under places item :=
  ⟨fun h => h.unstated htext, fun h =>
    { unstated := fun _ => h
      stated := fun _ ht => nomatch htext.symm.trans ht
      tidy := fun _ hunder => absurd hunder h }⟩

theorem covered_of_stated (htext : item.fullPath = some text) :
    d.Covered places item ↔ (d.Under places item ↔ d.InText text) ∧
      (item.deleted = false → d.Under places item →
        joinPath (fields '/' (d.restOf text)) = d.restOf text) := by
  constructor
  · exact fun h => ⟨h.stated text htext, fun hlive hunder => h.tidy hlive hunder text htext⟩
  · rintro ⟨hstated, htidy⟩
    refine ⟨fun h => (nomatch h.symm.trans htext), fun t ht => ?_, fun hlive hunder t ht => ?_⟩
    · obtain rfl := Option.some.inj (ht.symm.trans htext)
      exact hstated
    · obtain rfl := Option.some.inj (ht.symm.trans htext)
      exact htidy hlive hunder

/-- **An item is reflected exactly when it is covered.** -/
theorem reflected_iff :
    Reflected item.deleted item.id (d.Under places item) (d.HasPath places item)
      (d.toChange decode parseTime item) ↔ d.Covered places item := by
  cases htext : item.fullPath with
  | none =>
    have hnone : d.resolveItemPath item = none := by rw [resolveItemPath, htext, Option.bind_none]
    rw [covered_of_unstated htext]
    cases hd : item.deleted with
    | true =>
      rw [toChange_of_deletes hd, reflected_deleted_iff, hnone]
      simp
    | false =>
      obtain ⟨f, hf, hchange⟩ := toChange_of_live d decode parseTime hd
      rw [hchange, reflected_live_iff hf, hnone, under_iff_hasPath]
      simp
  | some text =>
    have hsome : ∀ path, d.resolveItemPath item = some path ↔
        d.InText text ∧ path = d.restOf text := by
      intro path
      rw [resolveItemPath, htext, Option.bind_some, belowRoot_eq_some_iff]
    have hnone : d.resolveItemPath item = none ↔ ¬d.InText text := by
      simp [Option.eq_none_iff_forall_ne_some, hsome]
    rw [covered_of_stated htext]
    cases hd : item.deleted with
    | true =>
      rw [toChange_of_deletes hd, reflected_deleted_iff, hnone, not_imp_not]
      simp only [hsome, exists_and_left, exists_eq, and_true]
      exact ⟨fun h => ⟨⟨h.1, h.2⟩, nofun⟩, fun h => ⟨h.1.1, h.1.2⟩⟩
    | false =>
      obtain ⟨f, hf, hchange⟩ := toChange_of_live d decode parseTime hd
      rw [hchange, reflected_live_iff hf, hnone, not_imp_not]
      simp only [hsome]
      constructor
      · rintro ⟨hlive, hback⟩
        have hin : d.Under places item → d.InText text := fun hunder =>
          let ⟨path, hpath⟩ := under_iff_hasPath.1 hunder
          (hlive path hpath).1
        refine ⟨⟨hin, hback⟩, fun _ hunder => ?_⟩
        obtain ⟨path, hpath⟩ := under_iff_hasPath.1 hunder
        exact (restOf_eq_iff htext (hin hunder) hpath).1 (hlive path hpath).2.symm
      · rintro ⟨hiff, htidy⟩
        refine ⟨fun path hpath => ?_, hiff.2⟩
        have hunder := under_iff_hasPath.2 ⟨path, hpath⟩
        have hin := hiff.1 hunder
        exact ⟨hin, ((restOf_eq_iff htext hin hpath).2 (htidy trivial hunder)).symm⟩

/-- **The result of a call that went through is complete exactly when every item of its pages is
covered.** -/
theorem complete_iff {session : FeedSession OneDriveDeltaResponse} {token : Str}
    {changes : List RemoteChange}
    (h : d.changesSince decode parseTime session = some (.ok (changes, token))) :
    d.Complete places decode parseTime (items session) changes ↔
      ∀ item ∈ items session, d.Covered places item := by
  have hchanges : changes = (items session).filterMap (d.toChange decode parseTime) :=
    FeedFormat.changesSince_ok h
  simp only [Complete, ← hchanges, true_and, reflected_iff]

end OneDriveDelta

end Stratosync

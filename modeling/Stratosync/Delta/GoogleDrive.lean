import Stratosync.Delta.Feed
import Stratosync.Foundations.Ancestors
import Mathlib.Data.List.Destutter
import Mathlib.Logic.Function.Basic

/-!
# The change feed of Google Drive

`GoogleDriveDelta`. A change of the feed has the item's name and the ids of its parents, not its
path. `changesSince` collects what the pages say of every item, asks the API for parents they do not
mention, and follows first parents up to the configured root folder.

`complete_iff`: the result reflects every change record exactly when every record is `Covered`,
that is, when the chain of folders that decides about it can be followed with what the call knows.
-/

namespace Stratosync

open Foundations.Ancestors

/-! ## The messages of the API -/

structure GDriveFileMetadata where
  id : Str
  name : Str
  mimeType : Option Str := none
  size : Option ℤ := none
  modifiedTime : Option Str := none
  md5Checksum : Option Str := none
  trashed : Bool := false
  parents : Option (List Str) := none
  deriving DecidableEq, Repr

structure GDriveChange where
  removed : Bool := false
  fileId : Str
  file : Option GDriveFileMetadata := none
  deriving DecidableEq, Repr

structure GDriveChangesResponse where
  changes : List GDriveChange := []
  nextPageToken : Option Str := none
  newStartPageToken : Option Str := none
  deriving DecidableEq, Repr

/-- Names and parents of items by id. -/
abbrev Folders := Str → Option (Str × List Str)

/-- How a request for the fields `name` and `parents` of one file ends. -/
inductive FileReply
  | noAnswer
  | status (code : ℕ) (body : Str)
  | unparsable
  | file (id name : Option Str) (parents : Option (List Str))
  deriving DecidableEq, Repr

/-- The folder tree the API serves, where a removed item has the place it had, and the replies to
the lookups of one call, which agree with the tree. -/
structure DriveApi where
  folders : Folders
  lookup : ℕ → Str → FileReply
  served : ∀ n pid id name parents, lookup n pid = .file id (some name) parents →
    folders pid = some (name, parents.getD [])

structure GoogleDriveDelta where
  rootFolderId : Str
  deriving DecidableEq, Repr

/-- `mime_type` of a folder. -/
def folderMimeType : Str := "application/vnd.google-apps.folder".toList

/-- `max_parent_lookups`. -/
def maxParentLookups : ℕ := 50

namespace GoogleDriveDelta

def mapHttpError (code : ℕ) (body : Str) : FeedError :=
  if containsText body "rateLimitExceeded".toList
      || containsText body "RATE_LIMIT_EXCEEDED".toList
      || containsText body "userRateLimitExceeded".toList then .transient
  else mapStatus code

def format : FeedFormat GDriveChangesResponse where
  mapHttpError := mapHttpError
  unreadable := .fatal
  endToken := GDriveChangesResponse.newStartPageToken
  nextLink := GDriveChangesResponse.nextPageToken

/-- `get_file_metadata`. The reply is read as a `GDriveFileMetadata`, whose `id` and `name` have no
default. -/
def getFileMetadata : FileReply → Except FeedError (Option (Str × List Str))
  | .noAnswer => .error .network
  | .status code body => if code = 404 then .ok none else .error (mapHttpError code body)
  | .unparsable => .error .fatal
  | .file (some _) (some name) parents => .ok (some (name, parents.getD []))
  | .file _ _ _ => .error .fatal

/-- `id_map` after the pages: the last file with an id counts. -/
def idMapOf (raw : List GDriveChange) : Folders :=
  (raw.filterMap GDriveChange.file).foldl
    (fun idMap file => Function.update idMap file.id (some (file.name, file.parents.getD [])))
    fun _ => none

variable (d : GoogleDriveDelta) (api : DriveApi)

/-- `missing_parents`. -/
def missingParents (raw : List GDriveChange) : List Str :=
  ((raw.filterMap GDriveChange.file).flatMap fun file =>
    (file.parents.getD []).filter fun pid =>
      pid ≠ d.rootFolderId ∧ (idMapOf raw pid).isNone).destutter (· ≠ ·)

/-- Enter the reply to one lookup; an error is ignored. -/
def enterParent (idMap : Folders) (lookup : Str × ℕ) : Folders :=
  match getFileMetadata (api.lookup lookup.2 lookup.1) with
  | .ok (some v) => Function.update idMap lookup.1 (some v)
  | _ => idMap

/-- `id_map` after the missing parents were looked up. -/
def fetchParents (raw : List GDriveChange) : Folders :=
  ((d.missingParents raw).take maxParentLookups).zipIdx.foldl (enterParent api) (idMapOf raw)

/-- The loop of `resolve_path`, with the number of its iterations that are left. -/
def walk (idMap : Folders) : ℕ → Str → List Str → Option Str
  | 0, _, _ => none
  | n + 1, currentParent, components =>
    if currentParent = d.rootFolderId then some (joinPath components.reverse)
    else
      match idMap currentParent with
      | some (_, []) => none
      | some (name, grandparent :: _) => walk idMap n grandparent (components ++ [name])
      | none => none

def resolvePath (fileName : Str) (parents : List Str) (idMap : Folders) : Option Str :=
  match parents with
  | [] => none
  | parentId :: _ => d.walk idMap 100 parentId [fileName]

section

variable (parseTime : Str → Option ℕ)

/-- The metadata of a live file. -/
def metadata (file : GDriveFileMetadata) (path : Str) : RemoteMetadata where
  path := path
  name := file.name
  size := asU64 (file.size.getD 0)
  mtime := (file.modifiedTime.bind parseTime).getD 0
  isDir := file.mimeType = some folderMimeType
  etag := file.md5Checksum
  itemId := some file.id

/-- What becomes of one change. -/
def toChange (idMap : Folders) (change : GDriveChange) : Option RemoteChange :=
  if change.removed then
    (idMap change.fileId).bind fun x =>
      (d.resolvePath x.1 x.2 idMap).map fun path => .deleted path (some change.fileId)
  else
    change.file.bind fun file =>
      (d.resolvePath file.name (file.parents.getD []) idMap).map fun path =>
        if file.trashed then .deleted path (some file.id)
        else .added (metadata parseTime file path)

/-- The changes of the pages. -/
def convert (pages : List GDriveChangesResponse) : List RemoteChange :=
  let raw := pages.flatMap GDriveChangesResponse.changes
  raw.filterMap (d.toChange parseTime (d.fetchParents api raw))

def changesSince (session : FeedSession GDriveChangesResponse) :
    Option (Except FeedError (List RemoteChange × Str)) :=
  format.changesSince session (d.convert api parseTime)

end

end GoogleDriveDelta

/-! ## Where an item is -/

/-- Where the items are: what the feed says last of an item, else the tree. -/
def DriveApi.place (api : DriveApi) (raw : List GDriveChange) : Folders := fun id =>
  (GoogleDriveDelta.idMapOf raw id).or (api.folders id)

/-- The reply has what `get_file_metadata` needs. -/
def FileReply.complete : FileReply → Bool
  | .file (some _) (some _) _ => true
  | _ => false

/-- The path of an item below these folders, which are listed from below. -/
def pathBelow (name : Str) (above : List (Str × Str)) : Str :=
  joinPath (name :: above.map Prod.snd).reverse

namespace GDriveChange

variable (c : GDriveChange) (place : Folders)

/-- The item was removed or is in the trash. -/
def deletes : Bool := c.removed || c.file.any GDriveFileMetadata.trashed

/-- The item the record is about. -/
def itemId : Str := if c.removed then c.fileId else (c.file.map GDriveFileMetadata.id).getD c.fileId

/-- Its name and parents: those of the record, or where it is if the record does not say. -/
def located : Option (Str × List Str) :=
  if c.removed then place c.fileId
  else (c.file.map fun file => (file.name, file.parents.getD [])).or (place c.fileId)

/-- The item is called `name`, and its first parents lead through the folders `above` to `root`. -/
def Chain (root name : Str) (above : List (Str × Str)) : Prop :=
  ∃ p ps, c.located place = some (name, p :: ps) ∧ Climbs place root p above

/-- The item is below the folder `mount`. -/
def Under (mount : Str) : Prop := ∃ name above, c.Chain place mount name above

/-- The path of the item below `mount`, which is less than 100 folders away. -/
def HasPath (mount path : Str) : Prop :=
  ∃ name above, c.Chain place mount name above ∧ above.length < 100 ∧ path = pathBelow name above

end GDriveChange

namespace GoogleDriveDelta

variable (d : GoogleDriveDelta) (api : DriveApi) (raw : List GDriveChange)

/-- A record of the feed describes the item, or its lookup is one of the first 50 and brings its
id and name. -/
def Known (id : Str) : Prop :=
  (idMapOf raw id).isSome ∨
    ∃ n < maxParentLookups, (d.missingParents raw)[n]? = some id ∧ (api.lookup n id).complete

/-- The item of the record is described, and its first parents lead to the configured root folder
through fewer than 100 folders, all of them known. -/
def Found (c : GDriveChange) (name : Str) (above : List (Str × Str)) : Prop :=
  (if c.removed then d.Known api raw c.fileId else c.file.isSome) ∧
    c.Chain (api.place raw) d.rootFolderId name above ∧ above.length < 100 ∧
    ∀ s ∈ above, d.Known api raw s.1

/-! ## What a call knows -/

variable {d api raw}

theorem completeReply_iff {reply : FileReply} : reply.complete = true ↔
    ∃ id name parents, reply = .file (some id) (some name) parents := by
  constructor
  · intro h
    cases reply with
    | file id name parents =>
      cases id with
      | none => cases h
      | some id =>
        cases name with
        | none => cases h
        | some name => exact ⟨id, name, parents, rfl⟩
    | _ => cases h
  · rintro ⟨id, name, parents, rfl⟩
    rfl

theorem getFileMetadata_of_complete {reply : FileReply} (h : reply.complete = true) :
    ∃ id name parents, reply = .file id (some name) parents ∧
      getFileMetadata reply = .ok (some (name, parents.getD [])) := by
  obtain ⟨id, name, parents, rfl⟩ := completeReply_iff.1 h
  exact ⟨some id, name, parents, rfl, rfl⟩

theorem complete_of_getFileMetadata {reply : FileReply} {v : Str × List Str}
    (h : getFileMetadata reply = .ok (some v)) : reply.complete = true := by
  rw [completeReply_iff]
  unfold getFileMetadata at h
  split at h
  · cases h
  · split at h <;> cases h
  · cases h
  · exact ⟨_, _, _, rfl⟩
  · cases h

theorem enterParent_apply (idMap : Folders) (pid : Str) (n : ℕ) (id : Str) :
    enterParent api idMap (pid, n) id =
      if pid = id ∧ (api.lookup n pid).complete then api.folders id else idMap id := by
  by_cases hc : (api.lookup n pid).complete = true
  · obtain ⟨fid, name, parents, hreply, hget⟩ := getFileMetadata_of_complete hc
    simp only [enterParent, hget, hc, and_true]
    by_cases hid : pid = id
    · subst hid
      rw [if_pos rfl, Function.update_self, api.served _ _ _ _ _ hreply]
    · rw [if_neg hid, Function.update_of_ne (Ne.symm hid)]
  · have henter : enterParent api idMap (pid, n) = idMap := by
      rw [enterParent]
      split
      · exact absurd (complete_of_getFileMetadata ‹_›) hc
      · rfl
    rw [if_neg fun h => hc h.2, henter]

theorem foldl_enterParent (lookups : List (Str × ℕ)) (idMap : Folders) (id : Str) :
    lookups.foldl (enterParent api) idMap id =
      if ∃ x ∈ lookups, x.1 = id ∧ (api.lookup x.2 x.1).complete then api.folders id
      else idMap id := by
  induction lookups generalizing idMap with
  | nil => simp
  | cons x lookups ih =>
    rw [List.foldl_cons, ih, enterParent_apply]
    simp only [List.exists_mem_cons_iff]
    by_cases hx : x.1 = id ∧ (api.lookup x.2 x.1).complete = true
    · rw [if_pos hx, ite_self, if_pos (.inl hx)]
    · simp only [hx, if_false, false_or]

theorem idMapOf_eq_none {id : Str} (h : id ∈ d.missingParents raw) : idMapOf raw id = none := by
  have := (List.destutter_sublist _ _).subset h
  obtain ⟨file, -, hid⟩ := List.mem_flatMap.1 this
  simpa using (of_decide_eq_true (List.mem_filter.1 hid).2).2

/-- **What is known is known truly.** -/
theorem fetchParents_eq_some_iff {id : Str} {v : Str × List Str} :
    d.fetchParents api raw id = some v ↔ d.Known api raw id ∧ api.place raw id = some v := by
  have hlookups : (∃ x ∈ ((d.missingParents raw).take maxParentLookups).zipIdx,
      x.1 = id ∧ (api.lookup x.2 x.1).complete) ↔
      ∃ n < maxParentLookups, (d.missingParents raw)[n]? = some id ∧
        (api.lookup n id).complete := by
    simp only [Prod.exists, List.mk_mem_zipIdx_iff_getElem?, List.getElem?_take]
    constructor
    · rintro ⟨pid, n, hpid, rfl, hc⟩
      split at hpid
      · exact ⟨n, ‹_›, hpid, hc⟩
      · cases hpid
    · rintro ⟨n, hn, hpid, hc⟩
      exact ⟨id, n, by rw [if_pos hn, hpid], rfl, hc⟩
  rw [fetchParents, foldl_enterParent, Known, DriveApi.place]
  by_cases hl : ∃ n < maxParentLookups, (d.missingParents raw)[n]? = some id ∧
      (api.lookup n id).complete
  · rw [if_pos (hlookups.2 hl)]
    have hnone : idMapOf raw id = none := by
      obtain ⟨n, -, hid, -⟩ := hl
      exact idMapOf_eq_none (List.mem_of_getElem? hid)
    simp [hnone, hl]
  · rw [if_neg (mt hlookups.1 hl)]
    simp only [hl, or_false]
    cases idMapOf raw id with
    | none => simp
    | some => simp

/-! ## What the walk finds -/

theorem walk_eq (idMap : Folders) (n : ℕ) (p : Str) (components : List Str) :
    d.walk idMap n p components =
      (climb idMap d.rootFolderId n p).map fun above =>
        joinPath (components ++ above.map Prod.snd).reverse := by
  induction n generalizing p components with
  | zero => rfl
  | succ n ih =>
    rw [walk, climb]
    by_cases hp : p = d.rootFolderId
    · simp [hp]
    · rw [if_neg hp, if_neg hp]
      rcases idMap p with _ | ⟨name, _ | ⟨q, qs⟩⟩
      · rfl
      · rfl
      · simp [ih, Function.comp_def]

/-- **The walk of `resolve_path` is exact.** It finds the chain of first parents to the root when
there is one with fewer than 100 folders, and nothing otherwise. -/
theorem resolvePath_eq_some_iff {name path : Str} {parents : List Str} {idMap : Folders} :
    d.resolvePath name parents idMap = some path ↔
      ∃ p ps above, parents = p :: ps ∧ Climbs idMap d.rootFolderId p above ∧
        above.length < 100 ∧ path = pathBelow name above := by
  cases parents with
  | nil => simp [resolvePath]
  | cons p ps =>
    rw [resolvePath, walk_eq, Option.map_eq_some_iff]
    constructor
    · rintro ⟨above, habove, rfl⟩
      obtain ⟨hclimbs, hlt⟩ := climb_eq_some_iff.1 habove
      exact ⟨p, ps, above, rfl, hclimbs, hlt, rfl⟩
    · rintro ⟨_, _, above, hp, hclimbs, hlt, rfl⟩
      cases hp
      exact ⟨above, climb_eq_some_iff.2 ⟨hclimbs, hlt⟩, rfl⟩

/-- **The walk follows the chain of first parents.** Whatever the map, there is a path exactly when
the root is among the first 100 nodes of the chain that begins with the item's first parent. The
path is then made of the names of the nodes before the root, the last of them first, and the item's
own. -/
theorem resolvePath_along_chain (d : GoogleDriveDelta) (name : Str) (parents : List Str)
    (idMap : Folders) :
    ((d.resolvePath name parents idMap).isSome = true ↔
      ∃ p ∈ parents.head?, ∃ n < 100, chain idMap p n = some d.rootFolderId) ∧
    ∀ path, d.resolvePath name parents idMap = some path →
      ∃ p ∈ parents.head?, ∃ names : List Str,
        chain idMap p names.length = some d.rootFolderId ∧
        (∀ k < names.length, chain idMap p k ≠ some d.rootFolderId ∧
          names[k]? = (chain idMap p k).bind fun q => (idMap q).map Prod.fst) ∧
        path = joinPath (names.reverse ++ [name]) := by
  constructor
  · rw [Option.isSome_iff_exists]
    constructor
    · rintro ⟨path, h⟩
      obtain ⟨p, ps, above, rfl, hclimbs, hlt, -⟩ := resolvePath_eq_some_iff.1 h
      exact ⟨p, rfl, exists_climbs_iff.1 ⟨above, hclimbs, hlt⟩⟩
    · rintro ⟨p, hp, hchain⟩
      obtain ⟨ps, rfl⟩ := List.head?_eq_some_iff.1 hp
      obtain ⟨above, hclimbs, hlt⟩ := exists_climbs_iff.2 hchain
      exact ⟨_, resolvePath_eq_some_iff.2 ⟨p, ps, above, rfl, hclimbs, hlt, rfl⟩⟩
  · intro path h
    obtain ⟨p, ps, above, rfl, hclimbs, -, rfl⟩ := resolvePath_eq_some_iff.1 h
    obtain ⟨hroot, hbefore⟩ := hclimbs.chain_length
    refine ⟨p, rfl, above.map Prod.snd, by rwa [List.length_map], fun k hk => ?_, ?_⟩
    · rw [List.length_map] at hk
      refine ⟨hbefore k hk, ?_⟩
      rw [List.getElem?_map, hclimbs.get?_steps hk]
      cases chain idMap p k with
      | none => rfl
      | some q =>
        rw [Option.bind_some, Option.bind_some, Option.map_map]
        rfl
    · rw [pathBelow, List.reverse_cons]

/-- With what a call knows the walk finds the chains through known folders. -/
theorem resolvePath_fetchParents {name path : Str} {parents : List Str} :
    d.resolvePath name parents (d.fetchParents api raw) = some path ↔
      ∃ p ps above, parents = p :: ps ∧ Climbs (api.place raw) d.rootFolderId p above ∧
        above.length < 100 ∧ (∀ s ∈ above, d.Known api raw s.1) ∧ path = pathBelow name above := by
  rw [resolvePath_eq_some_iff]
  simp only [climbs_filter_iff fun _ _ => fetchParents_eq_some_iff]
  grind

/-! ## What becomes of a record -/

variable (d) in
/-- The path the walk finds for the item of a record. -/
def resolved (idMap : Folders) (c : GDriveChange) : Option Str :=
  (if c.removed then idMap c.fileId
    else c.file.map fun file => (file.name, file.parents.getD [])).bind fun x =>
      d.resolvePath x.1 x.2 idMap

theorem resolved_eq_some_iff {c : GDriveChange} {path : Str} :
    d.resolved (d.fetchParents api raw) c = some path ↔
      ∃ name above, d.Found api raw c name above ∧ path = pathBelow name above := by
  have hstated : ∀ x, (if c.removed then d.fetchParents api raw c.fileId
      else c.file.map fun file => (file.name, file.parents.getD [])) = some x ↔
      (if c.removed then d.Known api raw c.fileId else c.file.isSome) ∧
        c.located (api.place raw) = some x := by
    intro x
    rw [GDriveChange.located]
    by_cases hr : c.removed = true
    · simp only [hr, if_true, fetchParents_eq_some_iff]
    · cases hf : c.file with
      | none => simp [hr]
      | some file => simp [hr]
  simp only [resolved, Option.bind_eq_some_iff, hstated, resolvePath_fetchParents, Found,
    GDriveChange.Chain]
  constructor
  · rintro ⟨⟨name, _⟩, ⟨hknown, hloc⟩, p, ps, above, rfl, hclimbs, hlt, hall, rfl⟩
    exact ⟨name, above, ⟨hknown, ⟨p, ps, hloc, hclimbs⟩, hlt, hall⟩, rfl⟩
  · rintro ⟨name, above, ⟨hknown, ⟨p, ps, hloc, hclimbs⟩, hlt, hall⟩, rfl⟩
    exact ⟨(name, p :: ps), ⟨hknown, hloc⟩, p, ps, above, rfl, hclimbs, hlt, hall, rfl⟩

variable {parseTime : Str → Option ℕ} {idMap : Folders} {c : GDriveChange}

theorem toChange_of_deletes (h : c.deletes = true) :
    d.toChange parseTime idMap c =
      (d.resolved idMap c).map fun path => .deleted path (some c.itemId) := by
  obtain ⟨removed, fileId, file⟩ := c
  cases removed with
  | true => simp [toChange, resolved, GDriveChange.itemId, Option.map_bind]
  | false =>
    cases file with
    | none => cases h
    | some file =>
      have htrashed : file.trashed = true := by simpa [GDriveChange.deletes] using h
      simp [toChange, resolved, GDriveChange.itemId, htrashed]

variable (d parseTime idMap) in
theorem toChange_of_live (h : c.deletes = false) :
    ∃ f : Str → RemoteMetadata, (∀ path, (f path).path = path ∧ (f path).itemId = some c.itemId) ∧
      d.toChange parseTime idMap c = (d.resolved idMap c).map fun path => .added (f path) := by
  obtain ⟨removed, fileId, file⟩ := c
  cases removed with
  | true => cases h
  | false =>
    cases file with
    | none =>
      -- nothing is reported, whatever the metadata
      exact ⟨fun path => ⟨path, [], 0, 0, false, none, some fileId⟩, fun _ => ⟨rfl, rfl⟩, rfl⟩
    | some file =>
      have htrashed : file.trashed = false := by simpa [GDriveChange.deletes] using h
      refine ⟨metadata parseTime file, fun _ => ⟨rfl, rfl⟩, ?_⟩
      simp [toChange, resolved, htrashed]

theorem pathBelow_append_ne {name : Str} {above rest : List (Str × Str)} (h : rest ≠ []) :
    pathBelow name (above ++ rest) ≠ pathBelow name above := by
  have hrest : (rest.map Prod.snd).reverse ≠ [] := by simpa using h
  have happend : pathBelow name (above ++ rest) =
      joinPath (rest.map Prod.snd).reverse ++ '/' :: pathBelow name above := by
    simp only [pathBelow, List.map_append, ← List.cons_append, List.reverse_append]
    exact joinPath_append hrest (by simp)
  intro heq
  have hlen := congrArg List.length (happend.symm.trans heq)
  simp only [List.length_append, List.length_cons] at hlen
  omega

/-- The path of an item says below which folder it is. -/
theorem root_eq_of_pathBelow {place : Folders} {root root' p name : Str}
    {above above' : List (Str × Str)} (h : Climbs place root p above)
    (h' : Climbs place root' p above') (hpath : pathBelow name above = pathBelow name above') :
    root = root' := by
  rcases h.eq_append h' with ⟨rest, rfl, hroot⟩ | ⟨rest, rfl, hroot⟩
  · by_contra hne
    exact pathBelow_append_ne (fun hrest => hne (hroot hrest)) hpath.symm
  · by_contra hne
    exact pathBelow_append_ne (fun hrest => hne (hroot hrest)) hpath

/-! ## Completeness -/

/-- What the call knows decides about the record as the whole tree does: a deleted item below
`mount` is found, a live one with a path there is found from `mount` as the configured root, and
no other item is found. -/
structure Covered (d : GoogleDriveDelta) (api : DriveApi) (raw : List GDriveChange) (mount : Str)
    (c : GDriveChange) : Prop where
  deleted : c.deletes = true → c.Under (api.place raw) mount →
    ∃ name above, d.Found api raw c name above
  live : c.deletes = false → ∀ path, c.HasPath (api.place raw) mount path →
    d.rootFolderId = mount ∧ ∃ name above, d.Found api raw c name above
  outside : ¬c.Under (api.place raw) mount → ∀ name above, ¬d.Found api raw c name above

/-- What the records of the pages owe the caller who mounts the folder `mount`. -/
def Complete (d : GoogleDriveDelta) (api : DriveApi) (parseTime : Str → Option ℕ) (mount : Str)
    (raw : List GDriveChange) (changes : List RemoteChange) : Prop :=
  let out := d.toChange parseTime (d.fetchParents api raw)
  changes = raw.filterMap out ∧ ∀ c ∈ raw,
    Reflected c.deletes c.itemId (c.Under (api.place raw) mount) (c.HasPath (api.place raw) mount)
      (out c)

/-- The records a session brings. -/
def records (session : FeedSession GDriveChangesResponse) : List GDriveChange :=
  (format.pages session.replies).flatMap GDriveChangesResponse.changes

/-- The path that is found is the one below `mount` only if that is the configured root. -/
theorem resolved_of_hasPath {mount path : Str} (h : c.HasPath (api.place raw) mount path) :
    d.resolved (d.fetchParents api raw) c = some path ↔
      d.rootFolderId = mount ∧ ∃ name above, d.Found api raw c name above := by
  obtain ⟨name, above, ⟨p, ps, hloc, hclimbs⟩, -, rfl⟩ := h
  rw [resolved_eq_some_iff]
  constructor
  · rintro ⟨name', above', hfound, hpath⟩
    obtain ⟨-, ⟨p', ps', hloc', hclimbs'⟩, -⟩ := id hfound
    cases hloc.symm.trans hloc'
    exact ⟨root_eq_of_pathBelow hclimbs' hclimbs hpath.symm, name, above', hfound⟩
  · rintro ⟨rfl, name', above', hfound⟩
    obtain ⟨-, ⟨p', ps', hloc', hclimbs'⟩, -⟩ := id hfound
    cases hloc.symm.trans hloc'
    obtain rfl := hclimbs.unique hclimbs'
    exact ⟨name, above, hfound, rfl⟩

/-- **A record is reflected exactly when it is covered.** -/
theorem reflected_iff {mount : Str} :
    Reflected c.deletes c.itemId (c.Under (api.place raw) mount) (c.HasPath (api.place raw) mount)
      (d.toChange parseTime (d.fetchParents api raw) c) ↔ d.Covered api raw mount c := by
  have hfound : (∃ path, d.resolved (d.fetchParents api raw) c = some path) ↔
      ∃ name above, d.Found api raw c name above := by
    simp only [resolved_eq_some_iff]
    exact ⟨fun ⟨_, name, above, h, _⟩ => ⟨name, above, h⟩,
      fun ⟨name, above, h⟩ => ⟨_, name, above, h, rfl⟩⟩
  have hnone : d.resolved (d.fetchParents api raw) c = none ↔
      ∀ name above, ¬d.Found api raw c name above := by
    simpa [Option.eq_none_iff_forall_ne_some] using not_congr hfound
  cases hd : c.deletes with
  | true =>
    rw [toChange_of_deletes hd, reflected_deleted_iff, hfound, hnone]
    exact ⟨fun h => ⟨fun _ => h.1, fun h => absurd (hd.symm.trans h) (by decide), h.2⟩,
      fun h => ⟨h.deleted hd, h.outside⟩⟩
  | false =>
    obtain ⟨f, hf, hchange⟩ := toChange_of_live d parseTime (d.fetchParents api raw) hd
    rw [hchange, reflected_live_iff hf, hnone]
    constructor
    · rintro ⟨hlive, houtside⟩
      exact ⟨fun h => absurd (hd.symm.trans h) (by decide),
        fun _ path hpath => (resolved_of_hasPath hpath).1 (hlive path hpath), houtside⟩
    · intro h
      exact ⟨fun path hpath => (resolved_of_hasPath hpath).2 (h.live hd path hpath), h.outside⟩

/-- **The result of a call that went through is complete exactly when every record of its pages is
covered.** -/
theorem complete_iff {session : FeedSession GDriveChangesResponse} {mount token : Str}
    {changes : List RemoteChange}
    (h : d.changesSince api parseTime session = some (.ok (changes, token))) :
    d.Complete api parseTime mount (records session) changes ↔
      ∀ c ∈ records session, d.Covered api (records session) mount c := by
  have hchanges : changes = (records session).filterMap
      (d.toChange parseTime (d.fetchParents api (records session))) :=
    FeedFormat.changesSince_ok h
  simp only [Complete, ← hchanges, true_and, reflected_iff]

end GoogleDriveDelta

end Stratosync

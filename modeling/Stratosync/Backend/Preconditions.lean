import Stratosync.Backend.HashSpellings

/-!
# When the precondition of an upload is honoured

The etag of a row comes from a listing, or from a change feed, which spells the hashes of a file in
another way. `honoured_iff` says for every object and both descriptions of it when it passes
`check_if_match` while it is unchanged and does not when it has other content: a hash of the kind
of the etag must be listed, and none of another kind that happens to be the same.
-/

namespace Stratosync

/-! ## Objects and their hashes -/

/-- The content hashes, by the names they have in listings. -/
inductive HashKind
  | sha1
  | md5
  | quickXor
  | other (name : Str)
  deriving DecidableEq, Repr

def HashKind.ofName (name : Str) : HashKind :=
  if name = "sha1".toList ∨ name = "SHA-1".toList then .sha1
  else if name = "md5".toList ∨ name = "MD5".toList then .md5
  else if name = "quickxor".toList then .quickXor
  else .other name

/-- An object of a remote: its id, and the hashes of its content. -/
structure HashedObject where
  id : Option Str
  digest : HashKind → Bytes

/-- What put an etag into the index: a listing or a `stat` of rclone, or a change feed. -/
inductive EtagOrigin
  | listed
  | drive (file : GDriveFileMetadata)
  | oneDrive (item : OneDriveItem)

namespace EtagOrigin

/-- The hashes of an item of the OneDrive feed. -/
def hashes : EtagOrigin → Option OneDriveHashes
  | oneDrive item => item.file.bind OneDriveFileInfo.hashes
  | _ => none

/-- The kind of hash that a feed gives. -/
def kind : EtagOrigin → Option HashKind
  | listed => none
  | drive _ => some .md5
  | oneDrive item => some <|
    if ((oneDrive item).hashes.bind OneDriveHashes.quickXorHash).isSome then .quickXor else .sha1

/-- The etag of an object that rclone describes by `entry`. -/
def etag (decode : Base64Engine → Str → Option Bytes) (entry : RcloneLsJsonEntry) :
    EtagOrigin → Option Str
  | .listed => entry.toMetadata.etag
  | .drive file => (GoogleDriveDelta.metadata (fun _ => none) file entry.path).etag
  | .oneDrive item =>
    (OneDriveDelta.metadata decode (fun _ => none) item entry.path entry.name).etag

end EtagOrigin

/-- The text stands for a hash. -/
def IsHash (text : Str) : Prop := ∃ bytes, Denotes text bytes

/-- If the text stands for a hash, it is this one. -/
def HashesTo (text : Str) (bytes : Bytes) : Prop := ∀ b, Denotes text b → b = bytes

namespace HashedObject

variable (o : HashedObject)

/-- rclone describes the object by the entry. -/
structure ListedAs (entry : RcloneLsJsonEntry) : Prop where
  id : entry.id = o.id
  hashes : ∀ h ∈ entry.hashes.getD [], HashesTo h.2 (o.digest (.ofName h.1))

/-- The feed describes the same object. -/
structure FedAs (origin : EtagOrigin) : Prop where
  drive : ∀ file, origin = .drive file → o.id = some file.id ∧
    ∀ v ∈ file.md5Checksum, HashesTo v (o.digest .md5)
  oneDrive : ∀ item, origin = .oneDrive item → o.id = some item.id ∧
    ∀ hashes ∈ origin.hashes, (∀ v ∈ hashes.quickXorHash, HashesTo v (o.digest .quickXor)) ∧
      ∀ v ∈ hashes.sha1Hash, HashesTo v (o.digest .sha1)

end HashedObject

/-- An etag that was recorded, and the object at the time and now. -/
structure IfMatchCase (decode : Base64Engine → Str → Option Bytes) where
  before : HashedObject
  recorded : RcloneLsJsonEntry
  wasListed : before.ListedAs recorded
  origin : EtagOrigin
  wasFed : before.FedAs origin
  etag : Str
  hasEtag : origin.etag decode recorded = some etag
  after : HashedObject
  now : RcloneLsJsonEntry
  isListed : after.ListedAs now

namespace IfMatchCase

variable {decode : Base64Engine → Str → Option Bytes} (c : IfMatchCase decode)

/-- The etag is the hash of some kind, under which the object is listed now with other content. -/
structure ChangedUnder (kind : HashKind) : Prop where
  etag : Denotes c.etag (c.before.digest kind)
  listed : ∃ h ∈ c.now.hashes.getD [], HashKind.ofName h.1 = kind
  changed : c.after.digest kind ≠ c.before.digest kind

/-- **An unchanged object passes and a changed one is a conflict.** -/
def Honoured : Prop :=
  (c.now = c.recorded → checkIfMatch decode (.ok [c.now]) c.etag = .ok) ∧
    ∀ kind, c.ChangedUnder kind →
      checkIfMatch decode (.ok [c.now]) c.etag = .conflict c.etag c.now.toMetadata.etag

/-- An object without hashes is known by its id. One with hashes, when it was listed, by the SHA-1,
MD5 or quickXor there is, or by an id that stands for one of the hashes; when it came from a feed,
by a hash that is listed, of the kind of the feed or with the same bytes. -/
def Known : Prop :=
  if c.recorded.hashes.getD [] = [] then
    c.origin = .listed ∨ ∀ id ∈ c.before.id, id = c.etag
  else
    match c.origin.kind, c.recorded.contentHash with
    | none, some v => IsHash v
    | none, none => ∃ h ∈ c.recorded.hashes.getD [], IsHash h.2 ∧
      Denotes c.etag (c.before.digest (.ofName h.1))
    | some kind, _ => IsHash c.etag ∧ ∃ h ∈ c.recorded.hashes.getD [], IsHash h.2 ∧
      c.before.digest (.ofName h.1) = c.before.digest kind

/-- The object is known by its etag as long as it is unchanged. When it has changed under a kind of
hash, no listed hash of another kind is what that one was. -/
def Recognized : Prop :=
  (c.now = c.recorded → c.Known) ∧
    ∀ kind, c.ChangedUnder kind → ∀ h ∈ c.now.hashes.getD [], HashKind.ofName h.1 ≠ kind →
      IsHash h.2 → c.after.digest (.ofName h.1) ≠ c.before.digest kind

end IfMatchCase

/-! ## Texts that stand for the same hash -/

variable {decode : Base64Engine → Str → Option Bytes} {s t : Str} {b b' : Bytes}

theorem Denotes.unique (h : Denotes s b) (h' : Denotes s b') : b = b' := by
  obtain ⟨-, h⟩ := h
  obtain ⟨-, h'⟩ := h'
  split at h
  · rename_i hlooks
    rw [if_pos hlooks] at h'
    exact hex_injective (h.symm.trans h')
  · rename_i hlooks
    rw [if_neg hlooks] at h'
    obtain ⟨engine, h⟩ := h
    obtain ⟨engine', h'⟩ := h'
    exact Foundations.Base64.encode_inj engine.reads engine'.reads (h.symm.trans h')

theorem spells_iff (hdecode : DecodesBase64 decode) :
    Spells decode s t ↔ ∃ bytes, Denotes s bytes ∧ Denotes t bytes := by
  refine ⟨exists_denotes_of_spells hdecode, fun ⟨bytes, hs, ht⟩ => ?_⟩
  have hs := (hashToHex_eq_some_iff hdecode).2 ⟨bytes, hs, rfl⟩
  have ht := (hashToHex_eq_some_iff hdecode).2 ⟨bytes, ht, rfl⟩
  exact ⟨by rw [hs, Option.isSome_some], hs.trans ht.symm⟩

/-- A hash that can only be these bytes is these. -/
theorem HashesTo.denotes (h : HashesTo t b) (ht : IsHash t) : Denotes t b := by
  obtain ⟨bytes, hbytes⟩ := ht
  exact h bytes hbytes ▸ hbytes

/-! ## What passes -/

namespace IfMatchCase

variable (c : IfMatchCase decode)

/-- The etag of a listing is the content hash, or the id where there is none. -/
theorem etag_of_listed (ho : c.origin.kind = none) :
    c.recorded.contentHash = some c.etag ∨
      c.recorded.contentHash = none ∧ c.recorded.id = some c.etag := by
  have h := c.hasEtag
  cases horigin : c.origin with
  | listed =>
    rw [horigin] at h
    change (c.recorded.contentHash <|> c.recorded.id) = some c.etag at h
    cases hv : c.recorded.contentHash with
    | none => exact .inr ⟨rfl, by simpa [hv] using h⟩
    | some v => exact .inl (by simpa [hv] using h)
  | drive file =>
    rw [horigin] at ho
    cases ho
  | oneDrive item =>
    rw [horigin] at ho
    cases ho

/-- The etag of a feed is the hash of its kind, if it is a hash. -/
theorem etag_of_fed (hdecode : DecodesBase64 decode) {kind : HashKind}
    (ho : c.origin.kind = some kind) : HashesTo c.etag (c.before.digest kind) := by
  have h := c.hasEtag
  have hfed := c.wasFed
  cases horigin : c.origin with
  | listed =>
    rw [horigin] at ho
    cases ho
  | drive file =>
    rw [horigin] at h ho hfed
    obtain rfl := Option.some.inj ho
    exact (hfed.drive file rfl).2 c.etag h
  | oneDrive item =>
    rw [horigin] at h ho hfed
    obtain ⟨hashes, hhashes, h⟩ := Option.bind_eq_some_iff.1
      (show (EtagOrigin.oneDrive item).hashes.bind (onedriveContentEtag decode) = some c.etag
        from h)
    obtain ⟨v, hv, hhex⟩ := Option.bind_eq_some_iff.1 h
    obtain ⟨bytes, hbytes, hetag⟩ := (hashToHex_eq_some_iff hdecode).1 hhex
    have hsame : bytes = c.before.digest kind := by
      obtain ⟨hquick, hsha⟩ := (hfed.oneDrive item rfl).2 hashes hhashes
      rw [← Option.some.inj ho, hhashes, Option.bind_some]
      cases hq : hashes.quickXorHash with
      | none =>
        rw [hq, Option.none_or] at hv
        exact hsha v hv bytes hbytes
      | some q =>
        rw [hq, Option.some_or] at hv
        obtain rfl := Option.some.inj hv
        exact hquick q hq bytes hbytes
    intro b hb
    rw [hetag] at hb
    have hself := denotes_of_hex hbytes.1 (map_toLower_hex bytes)
    exact (hb.unique hself).trans hsame

/-- With hashes, the object passes when the etag and one of them stand for the same bytes. -/
theorem ok_iff_of_hashes (hdecode : DecodesBase64 decode) {entry : RcloneLsJsonEntry}
    (hne : entry.hashes.getD [] ≠ []) : checkIfMatch decode (.ok [entry]) c.etag = .ok ↔
      ∃ h ∈ entry.hashes.getD [], ∃ bytes, Denotes c.etag bytes ∧ Denotes h.2 bytes := by
  rw [checkIfMatch_of_hashes hne, ite_eq_left_iff]
  simp only [reduceCtorEq, imp_false, not_not, spells_iff hdecode]

/-- An object passes while it is unchanged exactly when it is known by its etag. -/
theorem passes_iff (hdecode : DecodesBase64 decode) :
    checkIfMatch decode (.ok [c.recorded]) c.etag = .ok ↔ c.Known := by
  rw [Known]
  split
  · rename_i he
    rw [checkIfMatch_of_no_hashes he, RcloneLsJsonEntry.etag_of_no_hashes he, ite_eq_left_iff,
      c.wasListed.id]
    simp only [reduceCtorEq, imp_false, not_not]
    refine ⟨.inr, fun h => h.elim (fun ho => ?_) id⟩
    intro v hv
    rcases c.etag_of_listed (ho ▸ rfl) with h | ⟨-, h⟩
    · obtain ⟨_, hmem, -⟩ := RcloneLsJsonEntry.contentHash_mem h
      rw [he] at hmem
      cases hmem
    · exact (Option.some.inj ((h.symm.trans c.wasListed.id).trans hv)).symm
  · rename_i hne
    rw [c.ok_iff_of_hashes hdecode hne]
    split
    · rename_i v ho hv
      obtain ⟨w, hw, rfl⟩ := RcloneLsJsonEntry.contentHash_mem hv
      have hetag : c.etag = w.2 := by
        rcases c.etag_of_listed ho with h | ⟨h, -⟩
        · exact Option.some.inj (h.symm.trans hv)
        · rw [hv] at h
          cases h
      rw [hetag]
      exact ⟨fun ⟨_, _, bytes, hs, _⟩ => ⟨bytes, hs⟩, fun ⟨bytes, hs⟩ => ⟨w, hw, bytes, hs, hs⟩⟩
    · refine exists_congr fun h => and_congr_right fun hh => ?_
      have hlisted := c.wasListed.hashes h hh
      constructor
      · rintro ⟨bytes, hetag, hh⟩
        exact ⟨⟨bytes, hh⟩, hlisted bytes hh ▸ hetag⟩
      · rintro ⟨hhash, hetag⟩
        exact ⟨_, hetag, hlisted.denotes hhash⟩
    · rename_i kind ho
      have hfed := c.etag_of_fed hdecode ho
      constructor
      · rintro ⟨h, hh, bytes, hetag, hhash⟩
        refine ⟨⟨bytes, hetag⟩, h, hh, ⟨bytes, hhash⟩, ?_⟩
        rw [← c.wasListed.hashes h hh bytes hhash, ← hfed bytes hetag]
      · rintro ⟨hetag, h, hh, hhash, hsame⟩
        exact ⟨h, hh, _, hfed.denotes hetag, hsame ▸ (c.wasListed.hashes h hh).denotes hhash⟩

/-- A changed object is a conflict exactly when no other hash of it is what the changed one was. -/
theorem conflicts_iff (hdecode : DecodesBase64 decode) {kind : HashKind}
    (hc : c.ChangedUnder kind) :
    checkIfMatch decode (.ok [c.now]) c.etag = .conflict c.etag c.now.toMetadata.etag ↔
      ∀ h ∈ c.now.hashes.getD [], HashKind.ofName h.1 ≠ kind → IsHash h.2 →
        c.after.digest (.ofName h.1) ≠ c.before.digest kind := by
  obtain ⟨hetag, ⟨w, hw, -⟩, hchanged⟩ := hc
  have hne : c.now.hashes.getD [] ≠ [] := fun he => by
    rw [he] at hw
    cases hw
  rw [checkIfMatch_of_hashes hne, ite_eq_right_iff]
  simp only [reduceCtorEq, imp_false, not_exists, not_and, spells_iff hdecode]
  refine forall₂_congr fun h hh => ?_
  have hlisted := c.isListed.hashes h hh
  constructor
  · intro hnone _ hhash hsame
    exact hnone _ hetag (hsame ▸ hlisted.denotes hhash)
  · intro hother bytes hbytes hhash
    have hold : bytes = c.before.digest kind := hbytes.unique hetag
    have hnew := hlisted bytes hhash
    by_cases hkind : HashKind.ofName h.1 = kind
    · exact hchanged (by rw [← hkind, ← hnew, hold, hkind])
    · exact hother hkind ⟨bytes, hhash⟩ (hnew.symm.trans hold)

/-- **The precondition is honoured exactly when the object is recognized by its etag.** -/
theorem honoured_iff (hdecode : DecodesBase64 decode) : c.Honoured ↔ c.Recognized := by
  refine and_congr ?_ (forall₂_congr fun kind hc => c.conflicts_iff hdecode hc)
  refine forall_congr' fun h => ?_
  rw [h]
  exact c.passes_iff hdecode

end IfMatchCase

/-! ## Files of two remotes -/

/-- A file of OneDrive whose quickXor is one byte. -/
def quickXorObject (byte : UInt8) : HashedObject where
  id := some ['x']
  digest
    | .quickXor => [byte]
    | .sha1 => [1]
    | _ => [2]

def quickXorEntry (byte : UInt8) : RcloneLsJsonEntry where
  path := ['a']
  name := ['a']
  size := 1
  modTime := none
  isDir := false
  hashes := some [("quickxor".toList, hex [byte])]
  id := some ['x']

theorem quickXorObject_listedAs (byte : UInt8) :
    (quickXorObject byte).ListedAs (quickXorEntry byte) := by
  refine ⟨rfl, fun h hh => ?_⟩
  obtain rfl := List.mem_singleton.1 hh
  intro bytes hbytes
  have hself : Denotes (hex [byte]) [byte] :=
    denotes_of_hex (List.cons_ne_nil _ _) (map_toLower_hex [byte])
  exact hbytes.unique hself

/-- The item of the feed, with its hashes in the spelling of Graph. -/
def quickXorItem (byte : UInt8) : OneDriveItem where
  id := ['x']
  file := some ⟨some {
    quickXorHash := some (Base64Engine.standard.encode [byte])
    sha1Hash := some ['0', '1'] }⟩

/-- The etag of the byte 255, recorded from the feed, and the file with some byte now. -/
def quickXorCase (byte : UInt8) : IfMatchCase Base64Engine.decode where
  before := quickXorObject 255
  recorded := quickXorEntry 255
  wasListed := quickXorObject_listedAs 255
  origin := .oneDrive (quickXorItem 255)
  wasFed := by
    refine ⟨(fun _ h => by cases h), fun item h => ?_⟩
    cases h
    refine ⟨rfl, fun hashes hhashes => ?_⟩
    obtain rfl := Option.some.inj hhashes
    refine ⟨fun v hv bytes hbytes => ?_, fun v hv bytes hbytes => ?_⟩
    · obtain rfl := Option.some.inj hv
      have hself : Denotes (Base64Engine.standard.encode [255]) [255] :=
        ⟨by simp, .standard, by decide⟩
      exact hbytes.unique hself
    · obtain rfl := Option.some.inj hv
      have hself : Denotes ['0', '1'] [1] := denotes_of_hex (by simp) (by decide)
      exact hbytes.unique hself
  etag := ['f', 'f']
  hasEtag := by decide
  after := quickXorObject byte
  now := quickXorEntry byte
  isListed := quickXorObject_listedAs byte

theorem recognized_quickXorCase (byte : UInt8) : (quickXorCase byte).Recognized := by
  have hff : IsHash ['f', 'f'] := ⟨[255], denotes_of_hex (by simp) (by decide)⟩
  refine ⟨fun _ => ?_, ?_⟩
  · exact ⟨hff, ("quickxor".toList, ['f', 'f']), List.mem_singleton_self _, hff, rfl⟩
  · rintro kind ⟨-, ⟨w, hw, rfl⟩, -⟩ h hh hne
    obtain rfl := List.mem_singleton.1 hw
    obtain rfl := List.mem_singleton.1 hh
    exact absurd rfl hne

/-- The unchanged file passes, and the file with another byte does not. -/
theorem honoured_quickXorCase : (quickXorCase 255).Honoured ∧ (quickXorCase 254).Honoured :=
  ⟨((quickXorCase 255).honoured_iff decodesBase64_decode).2 (recognized_quickXorCase 255),
    ((quickXorCase 254).honoured_iff decodesBase64_decode).2 (recognized_quickXorCase 254)⟩

/-- A file of a remote that knows its own hash only. -/
def dropboxFile : RcloneLsJsonEntry where
  path := "a".toList
  name := "a".toList
  size := 1
  modTime := none
  isDir := false
  hashes := some [("dropbox".toList, "3cb5f1f6".toList)]
  id := some "id:x".toList

def dropboxObject : HashedObject where
  id := some "id:x".toList
  digest := fun _ => [0x3c, 0xb5, 0xf1, 0xf6]

theorem dropboxObject_listedAs : dropboxObject.ListedAs dropboxFile := by
  refine ⟨rfl, fun h hh => ?_⟩
  obtain rfl := List.mem_singleton.1 hh
  intro bytes hbytes
  have hself : Denotes "3cb5f1f6".toList [0x3c, 0xb5, 0xf1, 0xf6] :=
    denotes_of_hex (by simp) (by decide)
  exact hbytes.unique hself

/-- The file is listed and does not change. -/
def dropboxCase : IfMatchCase Base64Engine.decode where
  before := dropboxObject
  recorded := dropboxFile
  wasListed := dropboxObject_listedAs
  origin := .listed
  wasFed := ⟨(fun _ h => by cases h), (fun _ h => by cases h)⟩
  etag := "id:x".toList
  hasEtag := rfl
  after := dropboxObject
  now := dropboxFile
  isListed := dropboxObject_listedAs

/-- The etag of the file is its id, which no hash matches: every upload is a conflict. -/
theorem not_honoured_dropboxCase : ¬dropboxCase.Honoured := by
  intro h
  have hok := h.1 rfl
  rw [checkIfMatch_of_hashes (by decide)] at hok
  have hnone : ¬∃ h ∈ dropboxCase.now.hashes.getD [],
      Spells Base64Engine.decode dropboxCase.etag h.2 := by
    decide
  rw [if_neg hnone] at hok
  cases hok

end Stratosync

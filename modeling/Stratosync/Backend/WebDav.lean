import Stratosync.Delta.Feed
import Stratosync.Foundations.Markup
import Stratosync.Hashes
import Stratosync.Sync.Poller

/-!
# Listing over WebDAV

`webdav.rs`. A collection is listed by one `PROPFIND` of depth 1, whose reply is cut into the
responses at their tags; a response is read by looking for the text of a few more tags. What
`chrono` reads of a date is a parameter.
-/

namespace Stratosync

open Foundations.Search Foundations.Markup

/-! ## Percent-encoding -/

/-- The value of a hexadecimal digit. -/
def hexValue (b : UInt8) : Option UInt8 :=
  if 0x30 ≤ b ∧ b ≤ 0x39 then some (b - 0x30)
  else if 0x41 ≤ b ∧ b ≤ 0x46 then some (b - 0x37)
  else if 0x61 ≤ b ∧ b ≤ 0x66 then some (b - 0x57)
  else none

/-- The bytes that a percent-encoded text stands for. A `%` that begins no code stays. -/
def percentDecode : Bytes → Bytes
  | b :: h :: l :: rest =>
    if b = 0x25 then
      match hexValue h, hexValue l with
      | some x, some y => (16 * x + y) :: percentDecode rest
      | _, _ => b :: percentDecode (h :: l :: rest)
    else b :: percentDecode (h :: l :: rest)
  | bytes => bytes

def utf8Bytes (s : Str) : Bytes := s.flatMap String.utf8EncodeChar

/-- `urlencoding::decode`. -/
def urlDecode (s : Str) : Option Str :=
  (percentDecode (utf8Bytes s)).toByteArray.utf8Decode?.map Array.toList

/-! ## Reading a multistatus document -/

/-- `</` in the place of `<`. -/
def endTag (tag : Str) : Str := tag.flatMap fun c => if c = '<' then ['<', '/'] else [c]

/-- The text of an element that `extract_xml_value` finds under a prefix. -/
def valueUnder (xml tag pfx : Str) : Option Str :=
  let opening := '<' :: (pfx ++ tag ++ ['>'])
  let closing := '<' :: '/' :: (pfx ++ tag ++ ['>'])
  (before opening xml).bind fun a =>
    (before closing (xml.drop (a.length + opening.length))).bind fun value =>
      let value := trim value
      if value = [] then none else some value

def extractXmlValue (xml tag : Str) : Option Str :=
  valueUnder xml tag "D:".toList <|> valueUnder xml tag "d:".toList <|> valueUnder xml tag []

/-- The last component of a path, as `href_decoded` is read. -/
def lastSegment (s : Str) : Str := (s.rdropWhile (· = '/')).rtakeWhile (· ≠ '/')

/-- `Path::new(path).file_name()`. -/
def pathFileName (path : Str) : Option Str :=
  (components path).getLast?.filter (· ≠ ['.', '.'])

/-- The tag at which the responses are cut. -/
def responseTag (xml : Str) : Option Str :=
  if containsText xml "<D:response>".toList then some "<D:response>".toList
  else if containsText xml "<d:response>".toList then some "<d:response>".toList
  else none

def isCollection (chunk : Str) : Bool :=
  containsText chunk "<D:collection".toList || containsText chunk "<d:collection".toList ||
    containsText chunk "DAV:collection".toList

section

variable (parseHttpDate : Str → Option ℕ)

/-- The entry of a response, unless it is taken for the requested collection. -/
def propfindEntry (parentPath chunk : Str) : Option RemoteMetadata :=
  let href := (extractXmlValue chunk "href".toList).getD []
  let name := lastSegment ((urlDecode href).getD [])
  if name = [] then none
  else if name = (pathFileName parentPath).getD [] ∧ parentPath ≠ ['/'] then none
  else some
    { path := if parentPath.getLast? = some '/' then parentPath ++ name
        else parentPath ++ '/' :: name
      name := name
      size := ((extractXmlValue chunk "getcontentlength".toList).bind parseU64).getD 0
      mtime := ((extractXmlValue chunk "getlastmodified".toList).bind parseHttpDate).getD 0
      isDir := isCollection chunk
      etag := extractXmlValue chunk "getetag".toList
      itemId := none }

def parsePropfindList (parentPath xml : Str) : List RemoteMetadata :=
  match responseTag xml with
  | none => []
  | some tag =>
    ((pieces tag xml).drop 1).filterMap fun chunk =>
      propfindEntry parseHttpDate parentPath ((pieces (endTag tag) chunk).headD chunk)

/-- `WebDavBackend::list`, given what the server replies to the requests of depth 1. -/
def webDavList (reply : Str → Except SyncError Str) (path : Str) :
    Except SyncError (List RemoteMetadata) :=
  (reply path).map (parsePropfindList parseHttpDate path)

/-- `WebDavBackend::list_recursive`. -/
def webDavListRecursive (reply : Str → Except SyncError Str) (path : Str) :
    Except SyncError (List RemoteMetadata) :=
  webDavList parseHttpDate reply path

end

/-! ## What is decoded -/

theorem containsText_iff {text needle : Str} :
    containsText text needle = true ↔ needle <:+: text := by
  rw [containsText, List.any_eq_true, List.infix_iff_prefix_suffix]
  refine exists_congr fun t => ?_
  rw [List.mem_tails, List.isPrefixOf_iff_prefix, and_comm]

theorem percentDecode_cons {b : UInt8} (hb : b ≠ 0x25) (rest : Bytes) :
    percentDecode (b :: rest) = b :: percentDecode rest := by
  match rest with
  | [] | [_] => rfl
  | _ :: _ :: _ => rw [percentDecode, if_neg hb]

/-- Text without a `%` stays. -/
theorem percentDecode_append {a : Bytes} (ha : (0x25 : UInt8) ∉ a) (rest : Bytes) :
    percentDecode (a ++ rest) = a ++ percentDecode rest := by
  induction a with
  | nil => rfl
  | cons b a ih =>
    obtain ⟨hb, ha⟩ := not_or.1 (mt List.mem_cons.2 ha)
    rw [List.cons_append, percentDecode_cons (Ne.symm hb), ih ha, List.cons_append]

/-- No other character has the code of `%` among its bytes. -/
theorem percent_notMem_utf8EncodeChar {c : Char} (hc : c ≠ '%') :
    (0x25 : UInt8) ∉ String.utf8EncodeChar c := by
  have hval : c.val.toNat ≠ 0x25 := fun h => hc (Char.ext (UInt32.toNat_inj.1 h))
  have hbyte : ∀ n < 256, (0x25 : UInt8) = UInt8.ofNat n → n = 0x25 := by
    intro n hn h
    have := congrArg UInt8.toNat h
    rw [UInt8.toNat_ofNat_of_lt' hn] at this
    exact this.symm
  intro hmem
  simp only [String.utf8EncodeChar] at hmem
  split at hmem
  · have := hbyte _ (by omega) (List.mem_singleton.1 hmem)
    omega
  split at hmem
  · simp only [List.mem_cons, List.not_mem_nil, or_false] at hmem
    rcases hmem with h | h <;> have := hbyte _ (by omega) h <;> omega
  split at hmem
  · simp only [List.mem_cons, List.not_mem_nil, or_false] at hmem
    rcases hmem with h | h | h <;> have := hbyte _ (by omega) h <;> omega
  · simp only [List.mem_cons, List.not_mem_nil, or_false] at hmem
    rcases hmem with h | h | h | h <;> have := hbyte _ (by omega) h <;> omega

theorem utf8Bytes_append (s t : Str) : utf8Bytes (s ++ t) = utf8Bytes s ++ utf8Bytes t :=
  List.flatMap_append

theorem percent_notMem_utf8Bytes {s : Str} (hs : '%' ∉ s) : (0x25 : UInt8) ∉ utf8Bytes s := by
  intro h
  obtain ⟨c, hc, hmem⟩ := List.mem_flatMap.1 h
  exact percent_notMem_utf8EncodeChar (fun he => hs (he ▸ hc)) hmem

/-- The bytes of a text are decoded to the text. -/
theorem utf8Decode_utf8Bytes (s : Str) :
    (utf8Bytes s).toByteArray.utf8Decode?.map Array.toList = some s := by
  have h : (utf8Bytes s).toByteArray = s.utf8Encode := rfl
  rw [h, List.utf8Decode?_utf8Encode, Option.map_some]

end Stratosync

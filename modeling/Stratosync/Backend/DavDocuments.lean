import Stratosync.Backend.WebDav

/-!
# Multistatus documents

What a server replies to a `PROPFIND` of depth 1: one response for the collection and one for each
of its members, in any order. The server chooses the prefix of the tags and how it writes the
characters of an href: as they are, percent-encoded, or as entities of XML. Whatever else is in a
response or around the responses is any text that has no tags of responses.

`parsePropfindList_eq`: of a document with one of the two tags the code looks for, the parser takes
what it sees of each response, which is not what the server means where it wrote an entity; of
every other document it takes nothing.
-/

namespace Stratosync

open Foundations.Search Foundations.Markup

/-! ## Hrefs -/

/-- An href may have the character as it is. -/
def isPlain (c : Char) : Bool :=
  !(c = '&' || c = '<' || c = '>' || c = '%' || isWhitespace c)

/-- A character of an href. -/
inductive HrefChar
  | raw (c : Char) (plain : isPlain c = true)
  | encoded (c : Char) (upper : Bool)
  | entity (c : Char) (name : Str) (plain : ∀ x ∈ name, isPlain x = true ∧ x ≠ '/')

/-- The code of a byte. -/
def hexCode (upper : Bool) (b : UInt8) : Str :=
  '%' :: if upper then (hexByte b).map Char.toUpper else hexByte b

namespace HrefChar

/-- The character that is meant. -/
def char : HrefChar → Char
  | raw c _ | encoded c _ | entity c _ _ => c

/-- How it is written. -/
def text : HrefChar → Str
  | raw c _ => [c]
  | encoded c upper => (String.utf8EncodeChar c).flatMap (hexCode upper)
  | entity _ name _ => '&' :: (name ++ [';'])

/-- What the parser makes of it. -/
def seen : HrefChar → Str
  | raw c _ | encoded c _ => [c]
  | entity _ name _ => '&' :: (name ++ [';'])

/-- It is not written as an entity. -/
def Direct : HrefChar → Prop
  | raw _ _ | encoded _ _ => True
  | entity _ _ _ => False

end HrefChar

/-- The characters of a text that is written with `text` and read as `seen`. -/
abbrev HrefText := List HrefChar

namespace HrefText

variable (hs : HrefText)

def chars : Str := hs.map HrefChar.char

def text : Str := hs.flatMap HrefChar.text

def seen : Str := hs.flatMap HrefChar.seen

/-- No character is written as an entity. -/
def Direct : Prop := ∀ h ∈ hs, h.Direct

end HrefText

/-! ### What is read of an href -/

/-- The digit of a code. -/
def hexDigit (upper : Bool) (n : ℕ) : Char :=
  if upper then n.digitChar.toUpper else n.digitChar

theorem hexCode_eq (upper : Bool) (b : UInt8) :
    hexCode upper b = ['%', hexDigit upper (b.toNat / 16), hexDigit upper (b.toNat % 16)] := by
  cases upper <;> rfl

theorem hexValue_hexDigit (upper : Bool) (n : Fin 16) :
    String.utf8EncodeChar (hexDigit upper n) = [UInt8.ofNat (hexDigit upper n).toNat] ∧
      hexValue (UInt8.ofNat (hexDigit upper n).toNat) = some (UInt8.ofNat n) := by
  revert upper n
  decide

/-- A code stands for its byte. -/
theorem percentDecode_hexCode (upper : Bool) (b : UInt8) (rest : Bytes) :
    percentDecode (utf8Bytes (hexCode upper b) ++ rest) = b :: percentDecode rest := by
  have hb := b.toNat_lt
  obtain ⟨hhi, hx⟩ := hexValue_hexDigit upper ⟨b.toNat / 16, by omega⟩
  obtain ⟨hlo, hy⟩ := hexValue_hexDigit upper ⟨b.toNat % 16, by omega⟩
  have hpercent : String.utf8EncodeChar '%' = [0x25] := by decide
  have hbyte : 16 * UInt8.ofNat (b.toNat / 16) + UInt8.ofNat (b.toNat % 16) = b := by
    rw [← UInt8.toNat_inj]
    simp only [UInt8.toNat_add, UInt8.toNat_mul, UInt8.toNat_ofNat']
    change (16 * (b.toNat / 16 % 2 ^ 8) % 2 ^ 8 + b.toNat % 16 % 2 ^ 8) % 2 ^ 8 = b.toNat
    omega
  rw [hexCode_eq, utf8Bytes, List.flatMap_cons, List.flatMap_cons, List.flatMap_cons,
    List.flatMap_nil, hpercent, hhi, hlo]
  simp only [List.cons_append, List.nil_append]
  rw [percentDecode, if_pos rfl, hx, hy]
  dsimp only
  rw [hbyte]

theorem percentDecode_hexCodes (upper : Bool) (bs rest : Bytes) :
    percentDecode (utf8Bytes (bs.flatMap (hexCode upper)) ++ rest) = bs ++ percentDecode rest := by
  induction bs with
  | nil => rfl
  | cons b bs ih =>
    rw [List.flatMap_cons, utf8Bytes_append, List.append_assoc, percentDecode_hexCode, ih,
      List.cons_append]

theorem isPlain_iff {c : Char} :
    isPlain c = true ↔ c ≠ '&' ∧ c ≠ '<' ∧ c ≠ '>' ∧ c ≠ '%' ∧ isWhitespace c = false := by
  simp [isPlain, and_assoc]

theorem HrefChar.percentDecode_text (h : HrefChar) (rest : Bytes) :
    percentDecode (utf8Bytes h.text ++ rest) = utf8Bytes h.seen ++ percentDecode rest := by
  cases h with
  | raw c plain =>
    refine percentDecode_append (percent_notMem_utf8Bytes ?_) rest
    intro hmem
    exact (isPlain_iff.1 plain).2.2.2.1 (List.mem_singleton.1 hmem).symm
  | encoded c upper =>
    rw [HrefChar.text, percentDecode_hexCodes]
    simp [HrefChar.seen, utf8Bytes]
  | entity c name plain =>
    refine percentDecode_append (percent_notMem_utf8Bytes ?_) rest
    intro hmem
    have hname : '%' ∈ name := by simpa [HrefChar.text] using hmem
    exact (isPlain_iff.1 (plain _ hname).1).2.2.2.1 rfl

/-- **An href is read as its characters, but for the entities.** -/
theorem HrefText.urlDecode_text (hs : HrefText) : urlDecode hs.text = some hs.seen := by
  have hdecode : percentDecode (utf8Bytes hs.text) = utf8Bytes hs.seen := by
    induction hs with
    | nil => rfl
    | cons h hs ih =>
      rw [HrefText.text, List.flatMap_cons, utf8Bytes_append, h.percentDecode_text]
      rw [HrefText.text] at ih
      rw [ih, ← utf8Bytes_append]
      rfl
  rw [urlDecode, hdecode, utf8Decode_utf8Bytes]

/-- The text of an href is in one line and has no tags. -/
theorem HrefText.plain_text {hs : HrefText} {c : Char} (hc : c ∈ hs.text) :
    c ≠ '<' ∧ isWhitespace c = false := by
  obtain ⟨h, -, hc⟩ := List.mem_flatMap.1 hc
  cases h with
  | raw c' plain =>
    obtain rfl := List.mem_singleton.1 hc
    exact ⟨(isPlain_iff.1 plain).2.1, (isPlain_iff.1 plain).2.2.2.2⟩
  | encoded c' upper =>
    obtain ⟨b, -, hc⟩ := List.mem_flatMap.1 hc
    have hdigit : ∀ (upper : Bool) (n : Fin 16),
        hexDigit upper n ≠ '<' ∧ isWhitespace (hexDigit upper n) = false := by decide
    have hb := b.toNat_lt
    rw [hexCode_eq] at hc
    simp only [List.mem_cons, List.not_mem_nil, or_false] at hc
    rcases hc with rfl | rfl | rfl
    · decide
    · exact hdigit upper ⟨b.toNat / 16, by omega⟩
    · exact hdigit upper ⟨b.toNat % 16, by omega⟩
  | entity c' name plain =>
    simp only [HrefChar.text, List.mem_cons, List.mem_append, List.not_mem_nil, or_false] at hc
    rcases hc with rfl | hc | rfl
    · decide
    · exact ⟨(isPlain_iff.1 (plain c hc).1).2.1, (isPlain_iff.1 (plain c hc).1).2.2.2.2⟩
    · decide

/-! ### What is seen of a name -/

/-- What is seen is the name, or more than the name. -/
theorem HrefChar.length_seen (h : HrefChar) : 1 ≤ h.seen.length := by
  cases h <;> simp [HrefChar.seen]

theorem HrefText.seen_of_direct {hs : HrefText} (hd : hs.Direct) : hs.seen = hs.chars := by
  induction hs with
  | nil => rfl
  | cons h hs ih =>
    have hs' := ih fun x hx => hd x (List.mem_cons_of_mem h hx)
    have hh := hd h List.mem_cons_self
    rw [HrefText.seen, List.flatMap_cons]
    rw [HrefText.seen] at hs'
    rw [hs', HrefText.chars, HrefText.chars, List.map_cons]
    cases h with
    | raw | encoded => rfl
    | entity => exact hh.elim

theorem HrefText.length_chars (hs : HrefText) : hs.chars.length = hs.length := List.length_map _

/-- Each entity makes the name longer. -/
theorem HrefText.length_seen_le (hs : HrefText) : hs.chars.length ≤ hs.seen.length := by
  induction hs with
  | nil => exact le_rfl
  | cons h hs ih =>
    have hh := h.length_seen
    rw [HrefText.length_chars] at ih ⊢
    rw [HrefText.seen, List.flatMap_cons, List.length_append, List.length_cons]
    rw [HrefText.seen] at ih
    omega

theorem HrefText.length_seen_lt {hs : HrefText} (hd : ¬hs.Direct) :
    hs.chars.length < hs.seen.length := by
  induction hs with
  | nil => exact absurd (fun h hh => absurd hh List.not_mem_nil) hd
  | cons h hs ih =>
    rw [HrefText.length_chars] at ih ⊢
    rw [HrefText.seen, List.flatMap_cons, List.length_append, List.length_cons]
    rw [HrefText.seen] at ih
    have hle := HrefText.length_seen_le hs
    rw [HrefText.length_chars, HrefText.seen] at hle
    have hh := h.length_seen
    by_cases hhd : h.Direct
    · have hrest : ¬HrefText.Direct hs := by
        intro hall
        refine hd fun x hx => ?_
        rcases List.mem_cons.1 hx with rfl | hx
        · exact hhd
        · exact hall x hx
      have := ih hrest
      omega
    · have hlong : 2 ≤ h.seen.length := by
        cases h with
        | raw | encoded => exact absurd trivial hhd
        | entity c name plain => simp [HrefChar.seen]
      omega

theorem HrefText.seen_eq_chars_iff {hs : HrefText} : hs.seen = hs.chars ↔ hs.Direct := by
  refine ⟨fun h => ?_, HrefText.seen_of_direct⟩
  by_contra hd
  have := HrefText.length_seen_lt hd
  rw [h] at this
  exact lt_irrefl _ this

/-! ## Responses -/

/-- A tag. -/
def tagOf (name : Str) : Str := '<' :: (name ++ ['>'])

theorem mark_tagOf {name : Str} (h : '<' ∉ name) : Mark '<' (tagOf name) :=
  ⟨name ++ ['>'], rfl, by simp [h]⟩

/-- The prefix of the elements of a document and the attributes of its responses. -/
structure DavStyle where
  pfx : Str
  attrs : Str
  pfx_plain : ∀ c ∈ pfx, c ≠ '<' ∧ c ≠ '>' ∧ c ≠ '/'
  attrs_plain : '<' ∉ attrs
  attrs_blank : ∀ c ∈ attrs.head?, isWhitespace c = true

/-- The tags of responses are those the parser looks for. -/
def DavStyle.Readable (st : DavStyle) : Prop :=
  (st.pfx = "D:".toList ∨ st.pfx = "d:".toList) ∧ st.attrs = []

instance instDecidableReadable (st : DavStyle) : Decidable st.Readable :=
  inferInstanceAs (Decidable (_ ∧ _))

/-- The text has no tag of a response that the parser would look for. -/
def NoResponse (s : Str) : Prop :=
  ∀ pfx ∈ ["D:".toList, "d:".toList], ¬tagOf (pfx ++ "response".toList) <:+: s ∧
    ¬tagOf ('/' :: (pfx ++ "response".toList)) <:+: s

instance instDecidableNoResponse (s : Str) : Decidable (NoResponse s) :=
  inferInstanceAs (Decidable (∀ pfx ∈ _, ¬_ ∧ ¬_))

/-- A response: the href of its resource, which ends with the name, and other properties. -/
structure DavResponse (st : DavStyle) where
  lead : Str
  above : HrefText
  name : HrefText
  slash : Bool
  rest : Str
  trail : Str
  isDir : Bool
  lead_plain : '<' ∉ lead
  trail_plain : '<' ∉ trail
  name_plain : '/' ∉ name.chars
  rest_closed : NoResponse rest
  onePrefix : st.pfx ≠ "D:".toList → ¬tagOf ("D:".toList ++ "href".toList) <:+: rest
  collection : isDir = true → '<' :: (st.pfx ++ "collection".toList) <:+: rest

namespace DavResponse

variable {st : DavStyle} (r : DavResponse st)

/-- The whole href. -/
def href : HrefText :=
  r.above ++ .raw '/' rfl :: r.name ++ if r.slash then [.raw '/' rfl] else []

/-- What is between the tags of the response. -/
def content : Str :=
  r.lead ++ (tagOf (st.pfx ++ "href".toList) ++ (r.href.text ++
    (tagOf ('/' :: (st.pfx ++ "href".toList)) ++ r.rest)))

def text : Str :=
  '<' :: (st.pfx ++ "response".toList ++ (st.attrs ++ ['>'])) ++ (r.content ++
    (tagOf ('/' :: (st.pfx ++ "response".toList)) ++ r.trail))

end DavResponse

/-- A document: the responses of the members around that of the collection itself. -/
structure Multistatus where
  style : DavStyle
  preamble : Str
  front : List (DavResponse style)
  self : DavResponse style
  back : List (DavResponse style)
  tail : Str
  preamble_closed : NoResponse preamble
  tail_closed : NoResponse tail
  tail_tag : tail.head? = some '<'

namespace Multistatus

variable (doc : Multistatus)

def responses : List (DavResponse doc.style) := doc.front ++ doc.self :: doc.back

def members : List (DavResponse doc.style) := doc.front ++ doc.back

def text : Str := doc.preamble ++ (doc.responses.flatMap DavResponse.text ++ doc.tail)

end Multistatus

/-! ### The tags of a response -/

section

variable {st : DavStyle} {r : DavResponse st} {name s : Str}

theorem DavStyle.lt_notMem_pfx (st : DavStyle) : '<' ∉ st.pfx := fun h => (st.pfx_plain _ h).1 rfl

theorem DavStyle.gt_notMem_pfx (st : DavStyle) : '>' ∉ st.pfx := fun h => (st.pfx_plain _ h).2.1 rfl

/-- Another tag does not begin where a tag does. -/
theorem not_tagOf_begins {name' : Str} (hgt : '>' ∉ name) (hgt' : '>' ∉ name')
    (hne : name ≠ name') : ¬tagOf name <+: tagOf name' ++ s := by
  have htag : tagOf name' ++ s = '<' :: (name' ++ '>' :: s) := by simp [tagOf]
  rw [htag, tagOf, List.cons_prefix_cons]
  exact fun h => hne ((concat_prefix_append_iff hgt hgt').1 h.2)

/-- A tag other than those of the href is in a response only if it is in its other properties. -/
theorem DavResponse.infix_content (hlt : '<' ∉ name) (hgt : '>' ∉ name)
    (hopen : name ≠ st.pfx ++ "href".toList) (hclose : name ≠ '/' :: (st.pfx ++ "href".toList)) :
    tagOf name <:+: r.content ↔ tagOf name <:+: r.rest := by
  have hmark := mark_tagOf hlt
  have hpfx := st.lt_notMem_pfx
  have hpfx' := st.gt_notMem_pfx
  have hhref : '<' ∉ r.href.text := fun h => (HrefText.plain_text h).1 rfl
  have hgt₁ : '>' ∉ st.pfx ++ "href".toList := by simp [hpfx']
  have hgt₂ : '>' ∉ '/' :: (st.pfx ++ "href".toList) := by simp [hpfx']
  rw [DavResponse.content, infix_append_of_notMem hmark r.lead_plain]
  have hone : ∀ {name' t : Str}, '<' ∉ name' → '>' ∉ name' → name ≠ name' →
      (tagOf name <:+: tagOf name' ++ t ↔ tagOf name <:+: t) := by
    intro name' t hlt' hgt' hne
    have htail : '<' ∉ name' ++ ['>'] := by simp [hlt']
    rw [tagOf.eq_1 name', infix_cons_append_iff hmark htail]
    exact or_iff_right (not_tagOf_begins hgt hgt' hne)
  rw [hone (by simp [hpfx]) hgt₁ hopen, infix_append_of_notMem hmark hhref,
    hone (by simp [hpfx]) hgt₂ hclose]

/-- Names with another last letter are other names. -/
theorem append_ne_append {a b u v : Str} (h : u.getLast? ≠ v.getLast?) (hu : u ≠ []) (hv : v ≠ []) :
    a ++ u ≠ b ++ v := by
  intro he
  have hlast := congrArg List.getLast? he
  rw [List.getLast?_append_of_ne_nil _ hu, List.getLast?_append_of_ne_nil _ hv] at hlast
  exact h hlast

/-- The prefixes the parser looks for. -/
theorem plain_of_pfx {pfx : Str} (h : pfx ∈ ["D:".toList, "d:".toList]) :
    '<' ∉ pfx ∧ '>' ∉ pfx ∧ '/' ∉ pfx := by
  simp only [List.mem_cons, List.not_mem_nil, or_false] at h
  rcases h with rfl | rfl <;> decide

/-- No tag of a response is inside a response. -/
theorem DavResponse.noResponse_content (r : DavResponse st) : NoResponse r.content := by
  intro pfx hpfx
  obtain ⟨hlt, hgt, -⟩ := plain_of_pfx hpfx
  have hne : ∀ a : Str, a ++ (pfx ++ "response".toList) ≠ st.pfx ++ "href".toList ∧
      a ++ (pfx ++ "response".toList) ≠ '/' :: (st.pfx ++ "href".toList) := by
    intro a
    rw [← List.append_assoc]
    exact ⟨append_ne_append (by decide) (by decide) (by decide),
      append_ne_append (b := '/' :: st.pfx) (by decide) (by decide) (by decide)⟩
  obtain ⟨hopen, hclose⟩ := r.rest_closed pfx hpfx
  exact ⟨fun h => hopen ((infix_content (by simp [hlt]) (by simp [hgt]) (hne []).1
      (hne []).2).1 h),
    fun h => hclose ((infix_content (by simp [hlt]) (by simp [hgt]) (hne ['/']).1
      (hne ['/']).2).1 h)⟩

/-! ### The text of an element -/

/-- The href is found, under the prefix of the document. -/
theorem DavResponse.valueUnder_href (r : DavResponse st) :
    valueUnder r.content "href".toList st.pfx = some r.href.text := by
  have hopen : Mark '<' (tagOf (st.pfx ++ "href".toList)) :=
    mark_tagOf (by simp [st.lt_notMem_pfx])
  have hclose : Mark '<' (tagOf ('/' :: (st.pfx ++ "href".toList))) :=
    mark_tagOf (by simp [st.lt_notMem_pfx])
  have hlead := not_infix_of_notMem hopen r.lead_plain
  have htext : ¬tagOf ('/' :: (st.pfx ++ "href".toList)) <:+: r.href.text :=
    not_infix_of_notMem hclose fun h => (HrefText.plain_text h).1 rfl
  have htrim : trim r.href.text = r.href.text := by
    have hblank : ∀ s : Str, (∀ c ∈ s, isWhitespace c = false) → s.dropWhile isWhitespace = s := by
      intro s hs
      cases s with
      | nil => rfl
      | cons c s => rw [List.dropWhile_cons_of_neg (by simp [hs c List.mem_cons_self])]
    rw [trim, hblank _ fun c hc => (HrefText.plain_text hc).2,
      hblank _ fun c hc => (HrefText.plain_text (List.mem_reverse.1 hc)).2, List.reverse_reverse]
  have hne : r.href.text ≠ [] := by simp [HrefText.text, href, HrefChar.text]
  rw [valueUnder]
  change ((before (tagOf (st.pfx ++ "href".toList)) r.content).bind fun a =>
    (before (tagOf ('/' :: (st.pfx ++ "href".toList)))
      (r.content.drop (a.length + (tagOf (st.pfx ++ "href".toList)).length))).bind _) = _
  rw [content, before_mark hopen hlead, Option.bind_some, ← List.length_append,
    ← List.append_assoc, List.drop_left, before_mark hclose htext, Option.bind_some]
  simp only [htrim, if_neg hne]

/-- **The href of a response is found.** -/
theorem DavResponse.extract_href (hst : st.Readable) (r : DavResponse st) :
    extractXmlValue r.content "href".toList = some r.href.text := by
  have h := r.valueUnder_href
  rcases hst with ⟨hpfx | hpfx, -⟩
  · rw [hpfx] at h
    rw [extractXmlValue, h]
    rfl
  · have hnone : ¬tagOf ("D:".toList ++ "href".toList) <:+: r.content := by
      rw [infix_content (by decide) (by decide) (by rw [hpfx]; decide) (by rw [hpfx]; decide)]
      exact r.onePrefix (by rw [hpfx]; decide)
    have hD : valueUnder r.content "href".toList "D:".toList = none := by
      rw [valueUnder]
      change (before (tagOf ("D:".toList ++ "href".toList)) r.content).bind _ = none
      rw [before_eq_none.2 hnone, Option.bind_none]
    rw [hpfx] at h
    rw [extractXmlValue, hD, h]
    rfl

/-! ### Cutting the document -/

/-- Of the tags of responses a document has its own. -/
theorem DavResponse.infix_text (r : DavResponse st) {pfx : Str}
    (hpfx : pfx ∈ ["D:".toList, "d:".toList]) (hst : ¬(st.pfx = pfx ∧ st.attrs = [])) :
    tagOf (pfx ++ "response".toList) <:+: r.text ++ s ↔
      tagOf (pfx ++ "response".toList) <:+: s := by
  obtain ⟨hlt, hgt, hslash⟩ := plain_of_pfx hpfx
  have hmark : Mark '<' (tagOf (pfx ++ "response".toList)) := mark_tagOf (by simp [hlt])
  have hgt₁ : '>' ∉ pfx ++ "response".toList := by simp [hgt]
  have hgt₂ : '>' ∉ st.pfx ++ "response".toList := by simp [st.gt_notMem_pfx]
  have hopen : ∀ t, ¬tagOf (pfx ++ "response".toList) <+:
      '<' :: (st.pfx ++ "response".toList ++ (st.attrs ++ ['>'])) ++ t := by
    intro t
    cases ha : st.attrs with
    | nil =>
      refine not_tagOf_begins hgt₁ hgt₂ fun he => hst ⟨?_, ha⟩
      exact (List.append_cancel_right he).symm
    | cons w u =>
      have hw : isWhitespace w = true := st.attrs_blank w (by simp [ha])
      have hwn : w ∉ pfx ++ "response".toList := by
        have hblank : ["D:".toList, "d:".toList].all (fun pfx =>
            (pfx ++ "response".toList).all fun c => !isWhitespace c) = true := by decide
        intro hmem
        have hnot := List.all_eq_true.1 (List.all_eq_true.1 hblank pfx hpfx) w hmem
        rw [hw] at hnot
        cases hnot
      have hne : '>' ≠ w := by
        rintro rfl
        exact absurd hw (by decide)
      have htag : '<' :: (st.pfx ++ "response".toList ++ (w :: u ++ ['>'])) ++ t =
          '<' :: (st.pfx ++ "response".toList ++ w :: (u ++ ('>' :: t))) := by simp
      rw [htag, tagOf, List.cons_prefix_cons]
      exact fun h => not_concat_prefix_append hwn hgt₂ hne h.2
  have hclose : ∀ t, ¬tagOf (pfx ++ "response".toList) <+:
      '<' :: ('/' :: (st.pfx ++ "response".toList) ++ ['>']) ++ t := by
    intro t
    refine not_tagOf_begins hgt₁ (by simp [st.gt_notMem_pfx]) fun he => ?_
    simp only [List.mem_cons, List.not_mem_nil, or_false] at hpfx
    rcases hpfx with rfl | rfl <;> cases he
  have ha : '<' ∉ st.pfx ++ "response".toList ++ (st.attrs ++ ['>']) := by
    simp [st.lt_notMem_pfx, st.attrs_plain]
  have hb : '<' ∉ '/' :: (st.pfx ++ "response".toList) ++ ['>'] := by simp [st.lt_notMem_pfx]
  have htext : r.text ++ s = '<' :: (st.pfx ++ "response".toList ++ (st.attrs ++ ['>'])) ++
      (r.content ++ (tagOf ('/' :: (st.pfx ++ "response".toList)) ++ (r.trail ++ s))) := by
    simp [text]
  have hstart : ∃ u, tagOf ('/' :: (st.pfx ++ "response".toList)) ++ (r.trail ++ s) = '<' :: u :=
    ⟨_, rfl⟩
  rw [htext, infix_cons_append_iff hmark ha, or_iff_right (hopen _),
    infix_append_iff hmark (.inr hstart), or_iff_right (r.noResponse_content pfx hpfx).1,
    tagOf.eq_1 ('/' :: _), infix_cons_append_iff hmark hb, or_iff_right (hclose _),
    infix_append_of_notMem hmark r.trail_plain]

theorem not_infix_responses {pfx : Str} (hpfx : pfx ∈ ["D:".toList, "d:".toList])
    (hst : ¬(st.pfx = pfx ∧ st.attrs = [])) (hs : NoResponse s) (rs : List (DavResponse st)) :
    ¬tagOf (pfx ++ "response".toList) <:+: rs.flatMap DavResponse.text ++ s := by
  induction rs with
  | nil => exact (hs pfx hpfx).1
  | cons r rs ih =>
    rw [List.flatMap_cons, List.append_assoc, r.infix_text hpfx hst]
    exact ih

theorem endTag_tagOf {pfx : Str} (hpfx : pfx ∈ ["D:".toList, "d:".toList]) :
    endTag (tagOf (pfx ++ "response".toList)) = tagOf ('/' :: (pfx ++ "response".toList)) := by
  simp only [List.mem_cons, List.not_mem_nil, or_false] at hpfx
  rcases hpfx with rfl | rfl <;> decide

/-- A document is cut into its responses. -/
theorem pieces_responses (hpfx : st.pfx ∈ ["D:".toList, "d:".toList]) (hattrs : st.attrs = [])
    (hs : NoResponse s) (htail : s.head? = some '<') (rs : List (DavResponse st)) {a : Str}
    (ha : ¬tagOf (st.pfx ++ "response".toList) <:+: a) :
    ∃ junk chunks, pieces (tagOf (st.pfx ++ "response".toList))
        (a ++ (rs.flatMap DavResponse.text ++ s)) = (a ++ junk) :: chunks ∧
      chunks.map (fun c => (pieces (tagOf ('/' :: (st.pfx ++ "response".toList))) c).headD c) =
        rs.map DavResponse.content := by
  have hopen : Mark '<' (tagOf (st.pfx ++ "response".toList)) :=
    mark_tagOf (by simp [st.lt_notMem_pfx])
  have hclose : Mark '<' (tagOf ('/' :: (st.pfx ++ "response".toList))) :=
    mark_tagOf (by simp [st.lt_notMem_pfx])
  induction rs generalizing a with
  | nil =>
    have hstart : ∃ u, s = '<' :: u := List.head?_eq_some_iff.1 htail
    refine ⟨s, [], pieces_of_not_infix ?_, rfl⟩
    rw [List.flatMap_nil, List.nil_append, infix_append_iff hopen (.inr hstart)]
    exact fun h => h.elim ha (hs st.pfx hpfx).1
  | cons r rs ih =>
    have htext : a ++ ((r :: rs).flatMap DavResponse.text ++ s) =
        a ++ (tagOf (st.pfx ++ "response".toList) ++
          ((r.content ++ (tagOf ('/' :: (st.pfx ++ "response".toList)) ++ r.trail)) ++
            (rs.flatMap DavResponse.text ++ s))) := by
      simp [DavResponse.text, hattrs, tagOf]
    have hbody : ¬tagOf (st.pfx ++ "response".toList) <:+:
        r.content ++ (tagOf ('/' :: (st.pfx ++ "response".toList)) ++ r.trail) := by
      obtain ⟨-, hgt, hslash⟩ := plain_of_pfx hpfx
      have hne : st.pfx ++ "response".toList ≠ '/' :: (st.pfx ++ "response".toList) := by
        intro he
        have := congrArg List.length he
        simp at this
      have hb : '<' ∉ '/' :: (st.pfx ++ "response".toList) ++ ['>'] := by
        simp [st.lt_notMem_pfx]
      have hstart : ∃ u, tagOf ('/' :: (st.pfx ++ "response".toList)) ++ r.trail = '<' :: u :=
        ⟨_, rfl⟩
      rw [infix_append_iff hopen (.inr hstart), or_iff_right (r.noResponse_content _ hpfx).1,
        tagOf.eq_1 ('/' :: _), infix_cons_append_iff hopen hb]
      refine fun h => h.elim (not_tagOf_begins ?_ ?_ hne) (not_infix_of_notMem hopen r.trail_plain)
      · simp [hgt]
      · simp [hgt]
    obtain ⟨junk, chunks, hpieces, hchunks⟩ := ih hbody
    refine ⟨[], (r.content ++ (tagOf ('/' :: (st.pfx ++ "response".toList)) ++ r.trail) ++
      junk) :: chunks, ?_, ?_⟩
    · rw [htext, pieces_mark hopen ha, hpieces, List.append_nil]
    · rw [List.map_cons, List.map_cons, hchunks, List.append_assoc, List.append_assoc,
        pieces_mark hclose (r.noResponse_content _ hpfx).2, List.headD_cons]

end

/-- The responses begin with a tag. -/
theorem Multistatus.responses_text (doc : Multistatus) :
    ∃ u, doc.responses.flatMap DavResponse.text ++ doc.tail = '<' :: u := by
  cases h : doc.responses with
  | nil => simp [responses] at h
  | cons r rs => exact ⟨_, rfl⟩

theorem Multistatus.not_infix_text (doc : Multistatus) {pfx : Str}
    (hpfx : pfx ∈ ["D:".toList, "d:".toList])
    (hst : ¬(doc.style.pfx = pfx ∧ doc.style.attrs = [])) :
    ¬tagOf (pfx ++ "response".toList) <:+: doc.text := by
  have hmark : Mark '<' (tagOf (pfx ++ "response".toList)) :=
    mark_tagOf (by simp [(plain_of_pfx hpfx).1])
  rw [text, infix_append_iff hmark (.inr doc.responses_text)]
  exact fun h => h.elim (doc.preamble_closed pfx hpfx).1
    (not_infix_responses hpfx hst doc.tail_closed doc.responses)

/-- A document whose tags are not those the parser looks for is taken for an empty one. -/
theorem Multistatus.responseTag_eq_none (doc : Multistatus) (hst : ¬doc.style.Readable) :
    responseTag doc.text = none := by
  have hnone : ∀ pfx ∈ ["D:".toList, "d:".toList],
      containsText doc.text (tagOf (pfx ++ "response".toList)) = false := by
    intro pfx hpfx
    rw [Bool.eq_false_iff, Ne, containsText_iff]
    refine doc.not_infix_text hpfx ?_
    rintro ⟨rfl, ha⟩
    exact hst ⟨by simpa using hpfx, ha⟩
  have hD := hnone "D:".toList (by decide)
  have hd := hnone "d:".toList (by decide)
  change (if containsText doc.text (tagOf ("D:".toList ++ "response".toList)) = true then _
    else if containsText doc.text (tagOf ("d:".toList ++ "response".toList)) = true then _
    else none) = none
  rw [hD, hd]
  rfl

/-- In the others its own tag is found. -/
theorem Multistatus.responseTag_eq_some (doc : Multistatus) (hst : doc.style.Readable) :
    responseTag doc.text = some (tagOf (doc.style.pfx ++ "response".toList)) := by
  obtain ⟨hpfx, hattrs⟩ := hst
  have hmem : tagOf (doc.style.pfx ++ "response".toList) <:+: doc.text := by
    have hself : doc.self.text <:+: doc.responses.flatMap DavResponse.text := by
      rw [responses, List.flatMap_append, List.flatMap_cons]
      exact List.infix_append' _ _ _
    have htag : tagOf (doc.style.pfx ++ "response".toList) <:+: doc.self.text := by
      rw [DavResponse.text, hattrs]
      exact (List.prefix_append _ _).isInfix
    exact (htag.trans hself).trans (List.infix_append' _ _ _)
  have hfound := containsText_iff.2 hmem
  change (if containsText doc.text (tagOf ("D:".toList ++ "response".toList)) = true then
      some (tagOf ("D:".toList ++ "response".toList))
    else if containsText doc.text (tagOf ("d:".toList ++ "response".toList)) = true then
      some (tagOf ("d:".toList ++ "response".toList))
    else none) = _
  rcases hpfx with hpfx | hpfx
  · rw [hpfx] at hfound ⊢
    rw [if_pos hfound]
  · have hD : ¬containsText doc.text (tagOf ("D:".toList ++ "response".toList)) = true := by
      rw [containsText_iff]
      exact doc.not_infix_text (by decide) fun h => by simp [hpfx] at h
    rw [hpfx] at hfound ⊢
    rw [if_neg hD, if_pos hfound]

theorem filterMap_of_map_eq {α β γ δ : Type*} (f : γ → Option δ) {g : α → γ} {h : β → γ}
    {l : List α} {l' : List β} (he : l.map g = l'.map h) :
    l.filterMap (fun x => f (g x)) = l'.filterMap fun x => f (h x) := by
  have := congrArg (List.filterMap f) he
  rwa [List.filterMap_map, List.filterMap_map] at this

/-- **The entries of a document are those of its responses**, if the parser finds them. -/
theorem parsePropfindList_eq (parseHttpDate : Str → Option ℕ) (parentPath : Str)
    (doc : Multistatus) :
    parsePropfindList parseHttpDate parentPath doc.text =
      if doc.style.Readable then
        doc.responses.filterMap fun r => propfindEntry parseHttpDate parentPath r.content
      else [] := by
  rw [parsePropfindList]
  by_cases hst : doc.style.Readable
  · have hpfx : doc.style.pfx ∈ ["D:".toList, "d:".toList] := by simpa using hst.1
    obtain ⟨junk, chunks, hpieces, hchunks⟩ := pieces_responses hpfx hst.2 doc.tail_closed
      doc.tail_tag doc.responses (doc.preamble_closed _ hpfx).1
    rw [doc.responseTag_eq_some hst, if_pos hst]
    dsimp only
    rw [Multistatus.text, hpieces, List.drop_one, List.tail_cons, endTag_tagOf hpfx]
    exact filterMap_of_map_eq (propfindEntry parseHttpDate parentPath) hchunks
  · rw [doc.responseTag_eq_none hst, if_neg hst]

end Stratosync

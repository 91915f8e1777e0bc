import Stratosync.Backend.IfMatch
import Stratosync.Foundations.Base64

/-!
# The spellings of a hash

`hash_to_hex` takes hex in any case and base64 in four spellings, and tells them apart by their
characters: an even number of hex digits is hex. `hashToHex_eq_some_iff` says of every text which
bytes it is read as. `normalisesSoundly`: a hash is read as its bytes in all spellings but one,
base64 that consists of an even number of hex digits.
-/

namespace Stratosync

open Foundations

/-! ## Base64 -/

namespace Base64Engine

def alphabet : Base64Engine → List Char
  | .standard | .standardNoPad =>
    "ABCDEFGHIJKLMNOPQRSTUVWXYZabcdefghijklmnopqrstuvwxyz0123456789+/".toList
  | .urlSafe | .urlSafeNoPad =>
    "ABCDEFGHIJKLMNOPQRSTUVWXYZabcdefghijklmnopqrstuvwxyz0123456789-_".toList

def symbol (engine : Base64Engine) (n : ℕ) : Char := engine.alphabet.getD n '='

def padding : Base64Engine → ℕ → Str
  | .standard, n | .urlSafe, n => if n % 4 = 2 then ['=', '='] else if n % 4 = 3 then ['='] else []
  | .standardNoPad, _ | .urlSafeNoPad, _ => []

def encode (engine : Base64Engine) (bytes : Bytes) : Str :=
  Base64.encode engine.symbol engine.padding bytes

/-- The sextet of a symbol of either alphabet. -/
def value (c : Char) : Option ℕ :=
  if c = '=' then none
  else (standard.alphabet.idxOf? c).or (urlSafe.alphabet.idxOf? c)

/-- A decoder for the engines: padding as it has to be, and no bits left over. -/
def decode (engine : Base64Engine) (s : Str) : Option Bytes :=
  Base64.decode value engine.symbol engine.padding s

theorem eq_of_mem_padding {engine : Base64Engine} {n : ℕ} {c : Char}
    (h : c ∈ engine.padding n) : c = '=' := by
  cases engine <;> simp only [padding] at h <;> grind

/-- The engines have two alphabets. -/
theorem symbol_eq (engine : Base64Engine) :
    engine.symbol = standard.symbol ∨ engine.symbol = urlSafe.symbol := by
  cases engine with
  | standard | standardNoPad => exact .inl rfl
  | urlSafe | urlSafeNoPad => exact .inr rfl

/-- What holds of the symbols of both alphabets holds of all. -/
theorem forall_symbol {P : ℕ → Char → Prop} (hstandard : ∀ n < 64, P n (standard.symbol n))
    (hurlSafe : ∀ n < 64, P n (urlSafe.symbol n)) (engine : Base64Engine) :
    ∀ n < 64, P n (engine.symbol n) := by
  obtain h | h := engine.symbol_eq
  · rw [h]
    exact hstandard
  · rw [h]
    exact hurlSafe

theorem reads (engine : Base64Engine) : Base64.Reads value engine.symbol engine.padding where
  symbols :=
    forall_symbol (P := fun n c => value c = some n) (by decide +kernel) (by decide +kernel) engine
  paddings n c hc := by
    rw [eq_of_mem_padding hc]
    rfl

end Base64Engine

/-- What the engines of the `base64` crate do: they decode what they encode, and of a list of bytes
no other text, since they insist on canonical padding and on trailing bits that are zero. -/
structure DecodesBase64 (decode : Base64Engine → Str → Option Bytes) : Prop where
  decode_encode : ∀ engine bytes, decode engine (engine.encode bytes) = some bytes
  canonical : ∀ engine s bytes, decode engine s = some bytes → s = engine.encode bytes

theorem decodesBase64_decode : DecodesBase64 Base64Engine.decode where
  decode_encode engine _ := (Base64.decode_eq_some_iff engine.reads).2 rfl
  canonical engine _ _ h := ((Base64.decode_eq_some_iff engine.reads).1 h).symm

/-! ## What a text is read as -/

/-- The lowercase hex of bytes. -/
def hex (bytes : Bytes) : Str := bytes.flatMap hexByte

/-- An even number of hex digits. -/
def LooksHex (s : Str) : Prop := s.length % 2 = 0 ∧ s.all isHexDigit = true

instance instDecidableLooksHex (s : Str) : Decidable (LooksHex s) :=
  inferInstanceAs (Decidable (_ ∧ _))

/-- The bytes a text stands for, where what looks like hex is hex. -/
def Denotes (s : Str) (bytes : Bytes) : Prop :=
  bytes ≠ [] ∧
    if LooksHex (trim s) then (trim s).map Char.toLower = hex bytes
    else ∃ engine : Base64Engine, trim s = engine.encode bytes

/-- **Hashes are normalised soundly.** Base64 that looks like hex is read as hex. -/
structure NormalisesSoundly (decode : Base64Engine → Str → Option Bytes) : Prop where
  ofHex : ∀ bytes ≠ [], ∀ s : Str, s.map Char.toLower = hex bytes →
    hashToHex decode s = some (hex bytes)
  ofBase64 : ∀ bytes ≠ [], ∀ engine : Base64Engine,
    hashToHex decode (engine.encode bytes) =
      some (if LooksHex (engine.encode bytes) then (engine.encode bytes).map Char.toLower
        else hex bytes)
  idempotent : ∀ s t, hashToHex decode s = some t → hashToHex decode t = some t
  sameBytes : ∀ stored hashes, etagMatchesHashes decode stored hashes = true →
    ∃ h ∈ hashes, ∃ bytes, Denotes stored bytes ∧ Denotes h.2 bytes

/-! ## Hex -/

theorem trim_eq_self {s : Str} (h : ∀ c ∈ s, isWhitespace c = false) : trim s = s := by
  have hdrop : ∀ t : Str, (∀ c ∈ t, isWhitespace c = false) → t.dropWhile isWhitespace = t := by
    intro t ht
    cases t with
    | nil => rfl
    | cons c t => rw [List.dropWhile_cons_of_neg (by simp [ht c List.mem_cons_self])]
  rw [trim, hdrop s h, hdrop _ fun c hc => h c (List.mem_reverse.1 hc), List.reverse_reverse]

theorem toNat_lt_of_isHexDigit {c : Char} (h : isHexDigit c = true) : c.toNat < 128 := by
  simp only [isHexDigit, Char.isDigit, Bool.or_eq_true, Bool.and_eq_true, decide_eq_true_eq,
    Char.le_def, UInt32.le_iff_toNat_le, ge_iff_le] at h
  have hc : c.toNat = c.val.toNat := rfl
  simp only [UInt32.reduceToNat, Char.reduceVal] at h
  omega

/-- What holds of the hex digits of ASCII holds of all hex digits. -/
theorem forall_isHexDigit {P : Char → Prop}
    (h : ∀ k < 128, isHexDigit (Char.ofNat k) = true → P (Char.ofNat k)) {c : Char}
    (hc : isHexDigit c = true) : P c := by
  have hk := h c.toNat (toNat_lt_of_isHexDigit hc)
  rw [Char.ofNat_toNat] at hk
  exact hk hc

/-- A hex digit, in lowercase, is the digit of a number. -/
theorem exists_digitChar {c : Char} (h : isHexDigit c = true) :
    ∃ n < 16, c.toLower = n.digitChar :=
  forall_isHexDigit (P := fun c => ∃ n < 16, c.toLower = n.digitChar) (by decide) h

theorem isWhitespace_of_isHexDigit {c : Char} (h : isHexDigit c = true) :
    isWhitespace c = false :=
  forall_isHexDigit (P := fun c => isWhitespace c = false) (by decide) h

theorem isHexDigit_toLower {c : Char} : isHexDigit c.toLower = isHexDigit c := by
  by_cases hup : c.isUpper = true
  · have hall : ∀ k < 91, (Char.ofNat k).isUpper = true →
        isHexDigit (Char.ofNat k).toLower = isHexDigit (Char.ofNat k) := by
      decide
    have hlt : c.toNat < 91 := by
      unfold Char.isUpper at hup
      rw [decide_eq_true_eq] at hup
      have hle := UInt32.le_iff_toNat_le.1 hup.2
      have hc : c.toNat = c.val.toNat := rfl
      have hz : 'Z'.val.toNat = 90 := rfl
      omega
    have hc := hall c.toNat hlt
    rw [Char.ofNat_toNat] at hc
    exact hc hup
  · unfold Char.isUpper at hup
    rw [decide_eq_true_eq] at hup
    unfold Char.toLower
    rw [dif_neg hup]

theorem digitChar_spec : ∀ n < 16, isHexDigit n.digitChar = true ∧
    n.digitChar.toLower = n.digitChar ∧ ∀ k < 16, n.digitChar = k.digitChar → n = k := by
  decide

theorem hex_cons (b : UInt8) (bytes : Bytes) :
    hex (b :: bytes) = (b.toNat / 16).digitChar :: (b.toNat % 16).digitChar :: hex bytes := rfl

theorem div_sixteen_lt (b : UInt8) : b.toNat / 16 < 16 := by
  have h := b.toNat_lt
  omega

theorem mod_sixteen_lt (b : UInt8) : b.toNat % 16 < 16 := by
  omega

theorem looksHex_hex (bytes : Bytes) : LooksHex (hex bytes) := by
  induction bytes with
  | nil => decide
  | cons b bytes ih =>
    obtain ⟨hlen, hall⟩ := ih
    refine ⟨?_, ?_⟩
    · rw [hex_cons, List.length_cons, List.length_cons]
      omega
    · rw [hex_cons, List.all_cons, List.all_cons, (digitChar_spec _ (div_sixteen_lt b)).1,
        (digitChar_spec _ (mod_sixteen_lt b)).1, hall]
      rfl

theorem map_toLower_hex (bytes : Bytes) : (hex bytes).map Char.toLower = hex bytes := by
  induction bytes with
  | nil => rfl
  | cons b bytes ih =>
    rw [hex_cons, List.map_cons, List.map_cons, (digitChar_spec _ (div_sixteen_lt b)).2.1,
      (digitChar_spec _ (mod_sixteen_lt b)).2.1, ih]

theorem hex_injective : Function.Injective hex := by
  intro bytes
  induction bytes with
  | nil =>
    rintro (_ | ⟨b', bytes'⟩) h
    · rfl
    · cases h
  | cons b bytes ih =>
    rintro (_ | ⟨b', bytes'⟩) h
    · cases h
    · rw [hex_cons, hex_cons, List.cons.injEq, List.cons.injEq] at h
      obtain ⟨hhigh, hlow, htail⟩ := h
      have hdiv := (digitChar_spec _ (div_sixteen_lt b)).2.2 _ (div_sixteen_lt b') hhigh
      have hmod := (digitChar_spec _ (mod_sixteen_lt b)).2.2 _ (mod_sixteen_lt b') hlow
      have hb : b = b' := UInt8.toNat_inj.1 (by omega)
      rw [hb, ih htail]

@[simp] theorem hex_eq_nil_iff {bytes : Bytes} : hex bytes = [] ↔ bytes = [] := by
  cases bytes with
  | nil => simp [hex]
  | cons b bytes => simp [hex_cons]

/-- The letters of hex may be in any case. -/
theorem looksHex_of_map_toLower {s : Str} {bytes : Bytes} (h : s.map Char.toLower = hex bytes) :
    LooksHex s := by
  obtain ⟨hlen, hall⟩ := h.symm ▸ looksHex_hex bytes
  refine ⟨by simpa using hlen, ?_⟩
  rw [List.all_map] at hall
  rw [List.all_eq_true] at hall ⊢
  exact fun c hc => isHexDigit_toLower.symm.trans (hall c hc)

/-- What looks like hex is the hex of some bytes. -/
theorem exists_bytes : ∀ {s : Str}, LooksHex s → ∃ bytes, s.map Char.toLower = hex bytes
  | [], _ => ⟨[], rfl⟩
  | [_], h => absurd h.1 (by simp)
  | c :: d :: s, ⟨hlen, hall⟩ => by
    simp only [List.all_cons, Bool.and_eq_true] at hall
    obtain ⟨hc, hd, hall⟩ := hall
    have hlen' : s.length % 2 = 0 := by
      rw [List.length_cons, List.length_cons] at hlen
      omega
    obtain ⟨bytes, hbytes⟩ := exists_bytes ⟨hlen', hall⟩
    obtain ⟨n, hn, hcn⟩ := exists_digitChar hc
    obtain ⟨k, hk, hdk⟩ := exists_digitChar hd
    have hval : (UInt8.ofNat (n * 16 + k)).toNat = n * 16 + k := by
      rw [UInt8.toNat_ofNat']
      omega
    refine ⟨.ofNat (n * 16 + k) :: bytes, ?_⟩
    rw [hex_cons, hval, List.map_cons, List.map_cons, hbytes, hcn, hdk,
      show (n * 16 + k) / 16 = n by omega, show (n * 16 + k) % 16 = k by omega]

theorem trim_of_looksHex {s : Str} (h : LooksHex s) : trim s = s :=
  trim_eq_self fun c hc => isWhitespace_of_isHexDigit (List.all_eq_true.1 h.2 c hc)

/-! ## Base64 spellings -/

theorem trim_encode (engine : Base64Engine) (bytes : Bytes) :
    trim (engine.encode bytes) = engine.encode bytes := by
  have hsymbols := Base64Engine.forall_symbol (P := fun _ c => isWhitespace c = false)
    (by decide +kernel) (by decide +kernel) engine
  refine trim_eq_self fun c hc => ?_
  obtain ⟨n, hn, rfl⟩ | ⟨n, hn⟩ := Base64.mem_encode hc
  · exact hsymbols n hn
  · rw [Base64Engine.eq_of_mem_padding hn]
    rfl

variable {decode : Base64Engine → Str → Option Bytes} {s t : Str} {bytes : Bytes}

/-- **What a text is read as**: the bytes it denotes. -/
theorem hashToHex_eq_some_iff (h : DecodesBase64 decode) :
    hashToHex decode s = some t ↔ ∃ bytes, Denotes s bytes ∧ t = hex bytes := by
  simp only [hashToHex]
  by_cases hnil : trim s = []
  · refine iff_of_false (by simp [hnil]) ?_
    rintro ⟨bytes, ⟨hne, hden⟩, -⟩
    have hlooks : LooksHex (trim s) := hnil ▸ (by decide)
    rw [if_pos hlooks, hnil, List.map_nil, eq_comm, hex_eq_nil_iff] at hden
    exact hne hden
  rw [if_neg hnil]
  by_cases hlooks : LooksHex (trim s)
  · have hif : (trim s).length % 2 = 0 ∧ (trim s).all isHexDigit = true := hlooks
    simp only [if_pos hif, Option.some.injEq, Denotes, if_pos hlooks]
    constructor
    · rintro rfl
      obtain ⟨bytes, hbytes⟩ := exists_bytes hlooks
      refine ⟨bytes, ⟨?_, hbytes⟩, hbytes⟩
      rintro rfl
      exact hnil (List.map_eq_nil_iff.1 hbytes)
    · rintro ⟨bytes, ⟨-, hbytes⟩, rfl⟩
      exact hbytes
  · have hif : ¬((trim s).length % 2 = 0 ∧ (trim s).all isHexDigit = true) := hlooks
    simp only [if_neg hif, Denotes, if_neg hlooks, Option.map_eq_some_iff]
    constructor
    · rintro ⟨bytes, hdec, rfl⟩
      obtain ⟨engine, -, hdec⟩ := List.exists_of_findSome?_eq_some hdec
      have henc := h.canonical engine _ bytes hdec
      refine ⟨bytes, ⟨?_, engine, henc⟩, rfl⟩
      rintro rfl
      exact hnil (henc.trans (by cases engine <;> rfl))
    · rintro ⟨bytes, ⟨-, engine, henc⟩, rfl⟩
      obtain ⟨bytes', hdec⟩ : ∃ bytes', [.standard, .urlSafe, .standardNoPad,
          .urlSafeNoPad].findSome? (fun engine => decode engine (trim s)) = some bytes' := by
        rw [← Option.isSome_iff_exists, List.findSome?_isSome_iff]
        refine ⟨engine, by cases engine <;> decide, ?_⟩
        rw [henc, h.decode_encode]
        rfl
      obtain ⟨engine', -, hdec'⟩ := List.exists_of_findSome?_eq_some hdec
      have hsame : bytes' = bytes := by
        refine Base64.encode_inj engine'.reads engine.reads ?_
        exact (h.canonical engine' _ bytes' hdec').symm.trans henc
      exact ⟨bytes, hsame ▸ hdec, rfl⟩

theorem denotes_of_hex (hne : bytes ≠ []) (hs : s.map Char.toLower = hex bytes) :
    Denotes s bytes := by
  have hlooks := looksHex_of_map_toLower hs
  refine ⟨hne, ?_⟩
  rw [trim_of_looksHex hlooks, if_pos hlooks]
  exact hs

/-- Two texts that are normalised to the same hex denote the same bytes. -/
theorem exists_denotes_of_spells (h : DecodesBase64 decode) (hs : Spells decode s t) :
    ∃ bytes, Denotes s bytes ∧ Denotes t bytes := by
  obtain ⟨hsome, heq⟩ := hs
  obtain ⟨x, hx⟩ := Option.isSome_iff_exists.1 hsome
  obtain ⟨bytes, hbytes, rfl⟩ := (hashToHex_eq_some_iff h).1 hx
  obtain ⟨bytes', hbytes', hhex⟩ := (hashToHex_eq_some_iff h).1 (heq.symm.trans hx)
  rw [← hex_injective hhex] at hbytes'
  exact ⟨bytes, hbytes, hbytes'⟩

theorem normalisesSoundly (decode : Base64Engine → Str → Option Bytes)
    (h : DecodesBase64 decode) : NormalisesSoundly decode where
  ofHex bytes hne s hs := (hashToHex_eq_some_iff h).2 ⟨bytes, denotes_of_hex hne hs, rfl⟩
  ofBase64 bytes hne engine := by
    split
    · rename_i hlooks
      obtain ⟨bytes', hbytes'⟩ := exists_bytes hlooks
      have hne' : bytes' ≠ [] := by
        rintro rfl
        exact Base64.encode_ne_nil hne (List.map_eq_nil_iff.1 hbytes')
      exact (hashToHex_eq_some_iff h).2 ⟨bytes', denotes_of_hex hne' hbytes', hbytes'⟩
    · rename_i hlooks
      refine (hashToHex_eq_some_iff h).2 ⟨bytes, ⟨hne, ?_⟩, rfl⟩
      rw [trim_encode, if_neg hlooks]
      exact ⟨engine, rfl⟩
  idempotent s t hs := by
    obtain ⟨bytes, ⟨hne, -⟩, rfl⟩ := (hashToHex_eq_some_iff h).1 hs
    exact (hashToHex_eq_some_iff h).2
      ⟨bytes, denotes_of_hex hne (map_toLower_hex bytes), rfl⟩
  sameBytes stored hashes hm := by
    obtain ⟨r, hr, hs⟩ := etagMatchesHashes_iff.1 hm
    exact ⟨r, hr, exists_denotes_of_spells h hs⟩

theorem normalisesSoundly_decode : NormalisesSoundly Base64Engine.decode :=
  normalisesSoundly _ decodesBase64_decode

/-- Three bytes whose base64 is `abcd`, which is hex of two others. -/
theorem not_hashToHex_abcd : ¬∀ (bytes : Bytes) (s : Str),
    (s.map Char.toLower = hex bytes ∨ ∃ engine : Base64Engine, s = engine.encode bytes) →
      hashToHex Base64Engine.decode s = some (hex bytes) := by
  intro h
  have habcd := h [0x69, 0xb7, 0x1d] "abcd".toList (.inr ⟨.standard, by decide⟩)
  revert habcd
  decide

end Stratosync

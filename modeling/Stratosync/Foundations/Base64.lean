import Mathlib.Data.List.Basic
import Mathlib.Data.UInt

/-!
# Base64

Bytes as sextets, four for every three bytes, and the sextets as symbols of an alphabet with a
padding behind them. A reader has to know neither the alphabet nor the padding if it gives every
symbol its sextet and skips the padding: `read_encode`. So one text is the encoding of one list of
bytes, in whatever alphabets with that reader (`encode_inj`).
-/

namespace Foundations.Base64

/-! ## Sextets -/

/-- Four sextets for three bytes; one or two bytes at the end take two or three. -/
def sextets : List UInt8 → List ℕ
  | [] => []
  | [a] => [a.toNat / 4, a.toNat % 4 * 16]
  | [a, b] => [a.toNat / 4, a.toNat % 4 * 16 + b.toNat / 16, b.toNat % 16 * 4]
  | a :: b :: c :: bytes =>
    a.toNat / 4 :: (a.toNat % 4 * 16 + b.toNat / 16) :: (b.toNat % 16 * 4 + c.toNat / 64) ::
      c.toNat % 64 :: sextets bytes

/-- The bytes of sextets. -/
def join : List ℕ → List UInt8
  | p :: q :: r :: s :: rest =>
    .ofNat (p * 4 + q / 16) :: .ofNat (q % 16 * 16 + r / 4) :: .ofNat (r % 4 * 64 + s) :: join rest
  | [p, q, r] => [.ofNat (p * 4 + q / 16), .ofNat (q % 16 * 16 + r / 4)]
  | [p, q] => [.ofNat (p * 4 + q / 16)]
  | _ => []

theorem ofNat_eq {n : ℕ} {a : UInt8} (h : n = a.toNat) : UInt8.ofNat n = a := by
  rw [h, UInt8.ofNat_toNat]

theorem join_sextets (bytes : List UInt8) : join (sextets bytes) = bytes := by
  induction bytes using sextets.induct with
  | case1 => rfl
  | case2 a =>
    rw [sextets, join, ofNat_eq]
    omega
  | case3 a b =>
    have hb := b.toNat_lt
    rw [sextets, join, ofNat_eq (a := a), ofNat_eq (a := b)] <;> omega
  | case4 a b c bytes ih =>
    have hb := b.toNat_lt
    have hc := c.toNat_lt
    rw [sextets, join, ih, ofNat_eq (a := a), ofNat_eq (a := b), ofNat_eq (a := c)] <;> omega

theorem lt_of_mem_sextets {bytes : List UInt8} {n : ℕ} (h : n ∈ sextets bytes) : n < 64 := by
  induction bytes using sextets.induct with
  | case1 => cases h
  | case2 a =>
    have ha := a.toNat_lt
    simp only [sextets, List.mem_cons, List.not_mem_nil, or_false] at h
    omega
  | case3 a b =>
    have ha := a.toNat_lt
    have hb := b.toNat_lt
    simp only [sextets, List.mem_cons, List.not_mem_nil, or_false] at h
    omega
  | case4 a b c bytes ih =>
    have ha := a.toNat_lt
    have hb := b.toNat_lt
    have hc := c.toNat_lt
    simp only [sextets, List.mem_cons] at h
    obtain h | h | h | h | h := h
    · omega
    · omega
    · omega
    · omega
    · exact ih h

@[simp] theorem sextets_eq_nil_iff {bytes : List UInt8} : sextets bytes = [] ↔ bytes = [] := by
  fun_cases sextets bytes <;> simp

/-! ## Symbols -/

section

variable {σ : Type*}

/-- The symbols of the sextets, and behind them the padding that their number calls for. -/
def encode (symbol : ℕ → σ) (padding : ℕ → List σ) (bytes : List UInt8) : List σ :=
  (sextets bytes).map symbol ++ padding (sextets bytes).length

/-- The bytes of a text; `value` has no sextet for the padding. -/
def read (value : σ → Option ℕ) (text : List σ) : List UInt8 := join (text.filterMap value)

variable {value : σ → Option ℕ} {symbol symbol' : ℕ → σ} {padding padding' : ℕ → List σ}

/-- The reader gives every symbol its sextet and skips the padding. -/
structure Reads (value : σ → Option ℕ) (symbol : ℕ → σ) (padding : ℕ → List σ) : Prop where
  symbols : ∀ n < 64, value (symbol n) = some n
  paddings : ∀ n, ∀ c ∈ padding n, value c = none

/-- **What is encoded reads back.** -/
theorem read_encode (h : Reads value symbol padding) (bytes : List UInt8) :
    read value (encode symbol padding bytes) = bytes := by
  have hsymbols : ((sextets bytes).map symbol).filterMap value = sextets bytes := by
    rw [List.filterMap_map]
    conv_rhs => rw [← List.filterMap_some (l := sextets bytes)]
    exact List.filterMap_congr fun n hn => h.symbols n (lt_of_mem_sextets hn)
  have hpadding : (padding (sextets bytes).length).filterMap value = [] :=
    List.filterMap_eq_nil_iff.2 (h.paddings _)
  rw [read, encode, List.filterMap_append, hsymbols, hpadding, List.append_nil, join_sextets]

/-- A text is the encoding of one list of bytes at most, over all alphabets of a reader. -/
theorem encode_inj (h : Reads value symbol padding) (h' : Reads value symbol' padding')
    {bytes bytes' : List UInt8}
    (he : encode symbol padding bytes = encode symbol' padding' bytes') : bytes = bytes' := by
  rw [← read_encode h bytes, he, read_encode h' bytes']

theorem encode_ne_nil {bytes : List UInt8} (h : bytes ≠ []) :
    encode symbol padding bytes ≠ [] := by
  simp [encode, h]

/-- The strict decoder: it takes the text that encodes what it reads, and no other. -/
def decode [DecidableEq σ] (value : σ → Option ℕ) (symbol : ℕ → σ) (padding : ℕ → List σ)
    (text : List σ) : Option (List UInt8) :=
  if encode symbol padding (read value text) = text then some (read value text) else none

theorem decode_eq_some_iff [DecidableEq σ] (h : Reads value symbol padding) {text : List σ}
    {bytes : List UInt8} :
    decode value symbol padding text = some bytes ↔ encode symbol padding bytes = text := by
  rw [decode, Option.ite_none_right_eq_some, Option.some.injEq]
  constructor
  · rintro ⟨he, rfl⟩
    exact he
  · rintro rfl
    rw [read_encode h]
    exact ⟨rfl, rfl⟩

/-- The symbols of a text are those of the alphabet and those of the padding. -/
theorem mem_encode {bytes : List UInt8} {c : σ} (h : c ∈ encode symbol padding bytes) :
    (∃ n < 64, symbol n = c) ∨ ∃ n, c ∈ padding n := by
  obtain h | h := List.mem_append.1 h
  · obtain ⟨n, hn, rfl⟩ := List.mem_map.1 h
    exact .inl ⟨n, lt_of_mem_sextets hn, rfl⟩
  · exact .inr ⟨_, h⟩

end

end Foundations.Base64

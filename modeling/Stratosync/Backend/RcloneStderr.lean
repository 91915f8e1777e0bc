import Stratosync.Backend.IfMatch
import Stratosync.Sync.Changes

/-!
# What rclone writes to stderr

`parse_rclone_error` takes the cause of a failure from the last line of JSON that has a message and
no `stats`. Where there is none it takes the first line that is not blank, whatever it is, and cuts
it after 200 bytes. `reportsCause_iff` says for which texts that ends well: the cut must not fall
into a character, and the first line must not be one of statistics if there is another.

What `serde_json` reads of a line is a parameter.
-/

namespace Stratosync.Rclone

/-! ## Lines -/

/-- `serde_json::Value`, a number by what `as_u64` reads of it. -/
inductive JsonValue
  | null
  | bool (b : Bool)
  | number (asU64 : Option ℕ)
  | string (s : Str)
  | array (items : List JsonValue)
  | object (members : List (Str × JsonValue))

namespace JsonValue

def get : JsonValue → String → Option JsonValue
  | object members, key => members.lookup key.toList
  | _, _ => none

def asStr : JsonValue → Option Str
  | string s => some s
  | _ => none

def asU64 : JsonValue → Option ℕ
  | number n => n
  | _ => none

end JsonValue

def stripCarriageReturn (l : Str) : Str := if l.getLast? = some '\r' then l.dropLast else l

/-- `s.lines()`: what follows the last line feed is a line if there is something. -/
def lines (s : Str) : List Str :=
  (s.splitOn '\n').dropLast.map stripCarriageReturn ++
    ((s.splitOn '\n').getLast?.filter (· ≠ [])).toList

/-- `&s[..n]`; it panics when `n` is not at the boundary of a character. -/
def sliceTo : ℕ → Str → Option Str
  | 0, _ => some []
  | _ + 1, [] => none
  | n + 1, c :: s => if c.utf8Size ≤ n + 1 then (sliceTo (n + 1 - c.utf8Size) s).map (c :: ·)
    else none

section

variable (fromStr : Str → Option JsonValue)

/-- What a line that begins with a brace is read as. -/
def parsedLine (line : Str) : Option JsonValue :=
  if (trim line).head? = some '{' then fromStr (trim line) else none

/-- The cause a line states: the `msg` of a log entry that has no `stats`. -/
def lineCause (line : Str) : Option Str :=
  (parsedLine fromStr line).bind fun parsed =>
    if (parsed.get "stats").isSome then none else (parsed.get "msg").bind JsonValue.asStr

/-- The first line that is not blank. -/
def firstLine (stderr : Str) : Str := ((lines stderr).find? fun l => trim l ≠ []).getD stderr

def truncated (first : Str) : Option Str :=
  if 200 < utf8Length first then (sliceTo 200 first).map (· ++ "...".toList) else some first

/-- `parse_rclone_error`; a panic is `none`. -/
def parseRcloneError (stderr : Str) : Option Str :=
  match (lines stderr).reverse.findSome? (lineCause fromStr) with
  | some msg => some msg
  | none => truncated (firstLine stderr)

/-! ## What holds, and when -/

/-- A line of progress statistics. -/
def IsStatsLine (line : Str) : Prop :=
  ∃ parsed, parsedLine fromStr line = some parsed ∧ (parsed.get "stats").isSome = true

/-- The line that the reported message comes from. -/
def reportedLine (stderr : Str) : Str :=
  ((lines stderr).reverse.find? fun l => (lineCause fromStr l).isSome).getD (firstLine stderr)

/-- **A cause is reported, and it is not progress**: there is a message, and it comes from a line of
statistics only when all lines that are not blank are such. -/
structure ReportsCause (stderr : Str) : Prop where
  returns : (parseRcloneError fromStr stderr).isSome = true
  cause : (∃ l ∈ lines stderr, trim l ≠ [] ∧ ¬IsStatsLine fromStr l) →
    ¬IsStatsLine fromStr (reportedLine fromStr stderr)

/-- Some log entry without statistics has a message. Otherwise the first line that is not blank
has at most 200 bytes or the end of a character there, and it is not a line of statistics unless
all are. -/
def StatesCause (stderr : Str) : Prop :=
  (∃ l ∈ lines stderr, (lineCause fromStr l).isSome = true) ∨
    (utf8Length (firstLine stderr) ≤ 200 ∨
        ∃ a b, firstLine stderr = a ++ b ∧ utf8Length a = 200) ∧
      (IsStatsLine fromStr (firstLine stderr) →
        ∀ l ∈ lines stderr, trim l ≠ [] → IsStatsLine fromStr l)

end

/-! ## Cutting -/

theorem utf8Length_cons (c : Char) (s : Str) :
    utf8Length (c :: s) = c.utf8Size + utf8Length s := by
  rw [utf8Length, List.map_cons, List.sum_cons, utf8Length]

theorem utf8Length_nil : utf8Length [] = 0 := rfl

theorem sliceTo_eq_some_iff {n : ℕ} {s a : Str} :
    sliceTo n s = some a ↔ a <+: s ∧ utf8Length a = n := by
  fun_induction sliceTo n s generalizing a with
  | case1 s =>
    rw [Option.some.injEq]
    constructor
    · rintro rfl
      exact ⟨List.nil_prefix, rfl⟩
    · rintro ⟨-, hlen⟩
      cases a with
      | nil => rfl
      | cons c a =>
        rw [utf8Length_cons] at hlen
        have hpos := c.utf8Size_pos
        omega
  | case2 n =>
    refine iff_of_false (by simp) ?_
    rintro ⟨hpre, hlen⟩
    rw [List.prefix_nil.1 hpre, utf8Length_nil] at hlen
    omega
  | case3 n c s hle ih =>
    simp only [Option.map_eq_some_iff, ih]
    constructor
    · rintro ⟨a, ⟨hpre, hlen⟩, rfl⟩
      refine ⟨List.cons_prefix_cons.2 ⟨rfl, hpre⟩, ?_⟩
      rw [utf8Length_cons]
      omega
    · rintro ⟨hpre, hlen⟩
      cases a with
      | nil =>
        rw [utf8Length_nil] at hlen
        omega
      | cons d a =>
        obtain ⟨rfl, htail⟩ := List.cons_prefix_cons.1 hpre
        rw [utf8Length_cons] at hlen
        exact ⟨a, ⟨htail, by omega⟩, rfl⟩
  | case4 n c s hle =>
    refine iff_of_false (by simp) ?_
    rintro ⟨hpre, hlen⟩
    cases a with
    | nil =>
      rw [utf8Length_nil] at hlen
      omega
    | cons d a =>
      obtain ⟨rfl, -⟩ := List.cons_prefix_cons.1 hpre
      rw [utf8Length_cons] at hlen
      omega

/-- A line is cut when it is short or a character ends at the cut. -/
theorem isSome_truncated_iff {first : Str} : (truncated first).isSome = true ↔
    utf8Length first ≤ 200 ∨ ∃ a b, first = a ++ b ∧ utf8Length a = 200 := by
  rw [truncated]
  split
  · rename_i hlong
    rw [Option.isSome_map, or_iff_right (by omega), Option.isSome_iff_exists]
    refine exists_congr fun a => ?_
    rw [sliceTo_eq_some_iff]
    constructor
    · rintro ⟨⟨b, rfl⟩, hlen⟩
      exact ⟨b, rfl, hlen⟩
    · rintro ⟨b, rfl, hlen⟩
      exact ⟨List.prefix_append a b, hlen⟩
  · rename_i hshort
    exact iff_of_true rfl (.inl (by omega))

/-! ## Which line is reported -/

variable {fromStr : Str → Option JsonValue} {stderr line : Str}

theorem not_isStatsLine_of_lineCause (h : (lineCause fromStr line).isSome = true) :
    ¬IsStatsLine fromStr line := by
  rintro ⟨parsed, hparsed, hstats⟩
  rw [lineCause, hparsed, Option.bind_some, if_pos hstats] at h
  cases h

/-- A search for a result finds the first element that has one. -/
theorem findSome?_eq_bind_find? {α β : Type*} (f : α → Option β) (l : List α) :
    l.findSome? f = (l.find? fun a => (f a).isSome).bind f := by
  induction l with
  | nil => rfl
  | cons a l ih =>
    cases h : f a with
    | none =>
      rw [List.findSome?_cons_of_isNone (by simp [h]), List.find?_cons_of_neg (by simp [h]), ih]
    | some b =>
      rw [List.findSome?_cons_of_isSome (by simp [h]), List.find?_cons_of_pos (by simp [h])]
      rfl

/-- The line that is reported states a cause, if one does. -/
theorem reportedLine_of_cause (h : ∃ l ∈ lines stderr, (lineCause fromStr l).isSome = true) :
    (lineCause fromStr (reportedLine fromStr stderr)).isSome = true ∧
      parseRcloneError fromStr stderr = lineCause fromStr (reportedLine fromStr stderr) := by
  obtain ⟨l, hl, hcause⟩ := h
  obtain ⟨r, hr⟩ : ∃ r, (lines stderr).reverse.find? (fun l => (lineCause fromStr l).isSome) =
      some r := by
    rw [← Option.isSome_iff_exists, List.find?_isSome]
    exact ⟨l, List.mem_reverse.2 hl, hcause⟩
  have hsome := List.find?_some (p := fun l => (lineCause fromStr l).isSome) hr
  obtain ⟨msg, hmsg⟩ := Option.isSome_iff_exists.1 hsome
  rw [reportedLine, hr, Option.getD_some, parseRcloneError, findSome?_eq_bind_find?, hr,
    Option.bind_some, hmsg]
  exact ⟨rfl, rfl⟩

/-- Otherwise it is the first that is not blank, and it is cut. -/
theorem reportedLine_of_no_cause
    (h : ¬∃ l ∈ lines stderr, (lineCause fromStr l).isSome = true) :
    reportedLine fromStr stderr = firstLine stderr ∧
      parseRcloneError fromStr stderr = truncated (firstLine stderr) := by
  have hnone : (lines stderr).reverse.find? (fun l => (lineCause fromStr l).isSome) = none := by
    rw [List.find?_eq_none]
    exact fun l hl hcause => h ⟨l, List.mem_reverse.1 hl, hcause⟩
  rw [reportedLine, hnone, parseRcloneError, findSome?_eq_bind_find?, hnone]
  exact ⟨rfl, rfl⟩

theorem reportsCause_iff (fromStr : Str → Option JsonValue) (stderr : Str) :
    ReportsCause fromStr stderr ↔ StatesCause fromStr stderr := by
  by_cases h : ∃ l ∈ lines stderr, (lineCause fromStr l).isSome = true
  · obtain ⟨hcause, hparse⟩ := reportedLine_of_cause h
    refine iff_of_true ⟨?_, fun _ => not_isStatsLine_of_lineCause hcause⟩ (.inl h)
    rw [hparse]
    exact hcause
  · obtain ⟨hline, hparse⟩ := reportedLine_of_no_cause h
    rw [StatesCause, or_iff_right h, ← isSome_truncated_iff]
    constructor
    · rintro ⟨hreturns, hcause⟩
      refine ⟨hparse ▸ hreturns, fun hstats l hl hblank => ?_⟩
      by_contra hno
      exact hcause ⟨l, hl, hblank, hno⟩ (hline ▸ hstats)
    · rintro ⟨hreturns, hall⟩
      refine ⟨hparse ▸ hreturns, ?_⟩
      rintro ⟨l, hl, hblank, hno⟩ hstats
      exact hno (hall (hline ▸ hstats) l hl hblank)

/-- A line of statistics, in short. -/
def statsLine : Str := "\x7b\"stats\":\x7b\"bytes\":0\x7d\x7d".toList

/-- What that line is read as; the other lines below are no JSON. -/
def readsStatsLine (text : Str) : Option JsonValue :=
  if text = statsLine then
    some (.object [("stats".toList, .object [("bytes".toList, .number (some 0))])])
  else none

/-- A line in which byte 200 is in the middle of a character. -/
def longLine : Str := 'x' :: List.replicate 100 'ä'

/-- The cut panics on the one, and of the other progress is reported instead of the failure. -/
theorem not_reportsCause : ¬ReportsCause readsStatsLine longLine ∧
    ¬ReportsCause readsStatsLine (statsLine ++ "\nfailed".toList) := by
  constructor
  · intro h
    have hreturns := h.returns
    revert hreturns
    decide +kernel
  · intro h
    have hfailed : ¬IsStatsLine readsStatsLine "failed".toList := by
      rintro ⟨parsed, hparsed, -⟩
      cases hparsed
    refine h.cause ⟨"failed".toList, by decide +kernel, by decide, hfailed⟩ ⟨_, rfl, rfl⟩

end Stratosync.Rclone

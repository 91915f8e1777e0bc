import Mathlib.Data.List.Basic
import Mathlib.Data.List.Nodup

/-!
# A text format for metrics

Families of metrics as text, a line for each fact: the help of a family, its type, and its samples,
each with labels and a value. Help and label values may be any text; what would end them is escaped.
`render` writes the text and `parse` reads it, `parse_render`: it reads what was written. `Valid`
says that no family and no series of a family is there twice.
-/

namespace Foundations.Exposition

abbrev Text := List Char

/-- One value, and the labels that tell it from the others of its family. -/
structure Sample where
  labels : List (Text × Text)
  value : Text
  deriving DecidableEq, Repr

structure Family where
  name : Text
  help : Text
  type : Text
  samples : List Sample
  deriving DecidableEq, Repr

inductive Line
  | help (name text : Text)
  | type (name type : Text)
  | sample (name : Text) (sample : Sample)
  deriving DecidableEq, Repr

/-! ## Writing -/

def escapeChar (quotes : Bool) (c : Char) : Text :=
  if c = '\\' then ['\\', '\\']
  else if c = '\n' then ['\\', 'n']
  else if quotes && c = '"' then ['\\', '"']
  else [c]

/-- The text with a backslash before what is not to be taken for the end of it. -/
def escape (quotes : Bool) (s : Text) : Text := s.flatMap (escapeChar quotes)

def renderLabel (l : Text × Text) : Text := l.1 ++ '=' :: '"' :: (escape true l.2 ++ ['"'])

/-- The labels after an opening brace. -/
def renderLabels : List (Text × Text) → Text
  | [] => ['}']
  | [l] => renderLabel l ++ ['}']
  | l :: ls => renderLabel l ++ ',' :: renderLabels ls

/-- What the line of a help begins with. -/
def helpMark : Text := ['#', ' ', 'H', 'E', 'L', 'P', ' ']

/-- What the line of a type begins with. -/
def typeMark : Text := ['#', ' ', 'T', 'Y', 'P', 'E', ' ']

def Line.render : Line → Text
  | .help name text => helpMark ++ (name ++ ' ' :: escape false text)
  | .type name kind => typeMark ++ (name ++ ' ' :: kind)
  | .sample name s =>
    name ++ (if s.labels = [] then [] else '{' :: renderLabels s.labels) ++ ' ' :: s.value

def Family.lines (f : Family) : List Line :=
  .help f.name f.help :: .type f.name f.type :: f.samples.map (.sample f.name)

/-- Each line with a line feed after it. -/
def renderLines (ls : List Line) : Text := ls.flatMap fun l => l.render ++ ['\n']

def render (fs : List Family) : Text := renderLines (fs.flatMap Family.lines)

theorem renderLines_append (ls ls' : List Line) :
    renderLines (ls ++ ls') = renderLines ls ++ renderLines ls' :=
  List.flatMap_append

def Family.text (f : Family) : Text := renderLines f.lines

theorem Family.text_eq (f : Family) : f.text =
    renderLines [.help f.name f.help, .type f.name f.type] ++
      f.samples.flatMap fun s => renderLines [.sample f.name s] := by
  have hsamples : renderLines (f.samples.map (.sample f.name)) =
      f.samples.flatMap fun s => renderLines [.sample f.name s] := by
    simp only [renderLines, List.flatMap_map, List.flatMap_cons, List.flatMap_nil,
      List.append_nil]
  rw [← hsamples, ← renderLines_append]
  rfl

/-- The families one after the other. -/
theorem render_eq (fs : List Family) : render fs = fs.flatMap Family.text :=
  List.flatMap_assoc

/-! ## Reading -/

/-- The text without its escapes. -/
def unescape : Text → Option Text
  | [] => some []
  | '\\' :: '\\' :: s => (unescape s).map ('\\' :: ·)
  | '\\' :: 'n' :: s => (unescape s).map ('\n' :: ·)
  | '\\' :: _ => none
  | c :: s => (unescape s).map (c :: ·)

/-- The text up to a closing quote, without its escapes, and what follows. -/
def readValue : Text → Option (Text × Text)
  | [] => none
  | '"' :: rest => some ([], rest)
  | '\\' :: '\\' :: s => (readValue s).map fun x => ('\\' :: x.1, x.2)
  | '\\' :: 'n' :: s => (readValue s).map fun x => ('\n' :: x.1, x.2)
  | '\\' :: '"' :: s => (readValue s).map fun x => ('"' :: x.1, x.2)
  | '\\' :: _ => none
  | c :: s => (readValue s).map fun x => (c :: x.1, x.2)

/-- The text before the first character that ends it, and that with what follows. -/
def readName (ends : Char → Bool) (s : Text) : Text × Text :=
  (s.takeWhile fun c => !ends c, s.dropWhile fun c => !ends c)

/-- At most `n` labels up to the closing brace, and what follows. -/
def readLabels : ℕ → Text → Option (List (Text × Text) × Text)
  | 0, _ => none
  | n + 1, s =>
    match readName (· = '=') s with
    | (name, '=' :: '"' :: s) =>
      (readValue s).bind fun x =>
        match x.2 with
        | '}' :: rest => some ([(name, x.1)], rest)
        | ',' :: s => (readLabels n s).map fun y => ((name, x.1) :: y.1, y.2)
        | _ => none
    | _ => none

/-- A name, and what follows a blank after it. -/
def readWord (s : Text) : Option (Text × Text) :=
  match readName (· = ' ') s with
  | (name, ' ' :: rest) => some (name, rest)
  | _ => none

def parseLine (l : Text) : Option Line :=
  if helpMark.isPrefixOf l then
    (readWord (l.drop helpMark.length)).bind fun x => (unescape x.2).map (.help x.1)
  else if typeMark.isPrefixOf l then
    (readWord (l.drop typeMark.length)).map fun x => .type x.1 x.2
  else
    match readName (fun c => c = ' ' || c = '{') l with
    | (name, ' ' :: value) => some (.sample name ⟨[], value⟩)
    | (name, '{' :: rest) =>
      (readLabels rest.length rest).bind fun x =>
        match x.2 with
        | ' ' :: value => some (.sample name ⟨x.1, value⟩)
        | _ => none
    | _ => none

/-- What has been read of a family whose first lines are still to come: its type, if that has been
read, and its samples. -/
structure Rest where
  type : Option (Text × Text)
  samples : List (Text × Sample)

/-- A line before the rest of its family and the other families. -/
def absorb : Line → Rest × List Family → Option (Rest × List Family)
  | .sample name s, (⟨none, samples⟩, fs) => some (⟨none, (name, s) :: samples⟩, fs)
  | .type name type, (⟨none, samples⟩, fs) =>
    if ∀ x ∈ samples, x.1 = name then some (⟨some (name, type), samples⟩, fs) else none
  | .help name text, (⟨some (name', type), samples⟩, fs) =>
    if name' = name then some (⟨none, []⟩, ⟨name, text, type, samples.map Prod.snd⟩ :: fs)
    else none
  | _, _ => none

/-- The lines of families, one family after the other. -/
def group : List Line → Option (Rest × List Family)
  | [] => some (⟨none, []⟩, [])
  | l :: ls => (group ls).bind (absorb l)

/-- The lines of a text, each of which ends with a line feed. -/
def textLines (s : Text) : Option (List Text) :=
  if (s.splitOn '\n').getLast? = some [] then some (s.splitOn '\n').dropLast else none

def parse (s : Text) : Option (List Family) :=
  ((textLines s).bind fun ls => ls.mapM parseLine).bind fun ls =>
    (group ls).bind fun x =>
      if x.1.type = none ∧ x.1.samples = [] then some x.2 else none

/-- No family is there twice, and no series of a family. -/
def Valid (fs : List Family) : Prop :=
  (fs.map Family.name).Nodup ∧ ∀ f ∈ fs, (f.samples.map Sample.labels).Nodup

/-- The value of a series. -/
def value (fs : List Family) (name : Text) (labels : List (Text × Text)) : Option Text :=
  (fs.find? fun f => f.name = name).bind fun f =>
    (f.samples.find? fun s => s.labels = labels).map Sample.value

/-! ## Escapes -/

variable {s t : Text} {c : Char}

theorem unescape_escape (s : Text) : unescape (escape false s) = some s := by
  induction s with
  | nil => rfl
  | cons c s ih =>
    have hs : escape false (c :: s) = escapeChar false c ++ escape false s := rfl
    rw [hs, escapeChar]
    by_cases hb : c = '\\'
    · rw [if_pos hb, hb]
      exact congrArg (Option.map _) ih
    rw [if_neg hb]
    by_cases hn : c = '\n'
    · rw [if_pos hn, hn]
      exact congrArg (Option.map _) ih
    rw [if_neg hn, Bool.false_and, if_neg Bool.false_ne_true, List.singleton_append]
    simp [unescape, hb, ih]

theorem readValue_escape (s t : Text) :
    readValue (escape true s ++ '"' :: t) = some (s, t) := by
  induction s with
  | nil => rfl
  | cons c s ih =>
    have hs : escape true (c :: s) = escapeChar true c ++ escape true s := rfl
    rw [hs, escapeChar, List.append_assoc]
    by_cases hb : c = '\\'
    · rw [if_pos hb, hb]
      exact congrArg (Option.map _) ih
    rw [if_neg hb]
    by_cases hn : c = '\n'
    · rw [if_pos hn, hn]
      exact congrArg (Option.map _) ih
    rw [if_neg hn]
    by_cases hq : c = '"'
    · rw [hq]
      exact congrArg (Option.map _) ih
    rw [if_neg (by simp [hq]), List.singleton_append]
    simp [readValue, hb, ih]

/-- No line feed is left. -/
theorem not_mem_escape (quotes : Bool) (s : Text) : '\n' ∉ escape quotes s := by
  rw [escape, List.mem_flatMap]
  rintro ⟨c, -, hc⟩
  rw [escapeChar] at hc
  split_ifs at hc with hb hn hq
  · simp at hc
  · simp at hc
  · simp at hc
  · exact hn (List.mem_singleton.1 hc).symm

/-! ## Lines -/

theorem readName_append {ends : Char → Bool} {name rest : Text} {d : Char}
    (hname : ∀ c ∈ name, ends c = false) (hd : ends d = true) :
    readName ends (name ++ d :: rest) = (name, d :: rest) := by
  have htake : ∀ c ∈ name, (!ends c) = true := fun c hc => by rw [hname c hc, Bool.not_false]
  rw [readName, List.takeWhile_append_of_pos htake, List.dropWhile_append_of_pos htake,
    List.takeWhile_cons_of_neg (by simp [hd]), List.dropWhile_cons_of_neg (by simp [hd]),
    List.append_nil]

/-- The labels are told apart by what stands between them. -/
theorem readLabels_renderLabels {ls : List (Text × Text)} (hls : ls ≠ [])
    (hnames : ∀ l ∈ ls, '=' ∉ l.1) {n : ℕ} (hn : ls.length ≤ n) (t : Text) :
    readLabels n (renderLabels ls ++ t) = some (ls, t) := by
  have hname : ∀ l ∈ ls, ∀ c ∈ l.1, decide (c = '=') = false := by
    intro l hl c hc
    exact decide_eq_false fun h => hnames l hl (h ▸ hc)
  induction ls generalizing n with
  | nil => exact absurd rfl hls
  | cons l ls ih =>
    obtain ⟨n, rfl⟩ := Nat.exists_eq_add_of_le' hn
    have hread : ∀ rest, readName (fun c => decide (c = '=')) (l.1 ++ '=' :: rest) =
        (l.1, '=' :: rest) := fun rest => readName_append (hname l List.mem_cons_self) rfl
    rw [List.length_cons, ← Nat.add_assoc, readLabels]
    cases ls with
    | nil =>
      have htext : renderLabels [l] ++ t =
          l.1 ++ '=' :: '"' :: (escape true l.2 ++ '"' :: '}' :: t) := by
        simp [renderLabels, renderLabel]
      rw [htext, hread]
      change Option.bind (readValue _) _ = _
      rw [readValue_escape]
      rfl
    | cons l' ls =>
      have htext : renderLabels (l :: l' :: ls) ++ t = l.1 ++ '=' :: '"' ::
          (escape true l.2 ++ '"' :: ',' :: (renderLabels (l' :: ls) ++ t)) := by
        simp [renderLabels, renderLabel]
      rw [htext, hread]
      change Option.bind (readValue _) _ = _
      rw [readValue_escape]
      change Option.map _ _ = _
      rw [ih (by simp) (fun x hx => hnames x (List.mem_cons_of_mem l hx)) (by simp)
        fun x hx => hname x (List.mem_cons_of_mem l hx)]
      rfl

theorem length_le_renderLabels (ls : List (Text × Text)) :
    ls.length ≤ (renderLabels ls).length := by
  induction ls with
  | nil => exact Nat.zero_le _
  | cons l ls ih =>
    cases ls with
    | nil =>
      rw [renderLabels, List.length_append]
      exact Nat.le_add_left 1 _
    | cons l' ls =>
      rw [renderLabels, List.length_append, List.length_cons, List.length_cons (a := ',')]
      · omega
      · simp

/-- A name that nothing in a line is taken for the end of. -/
def Plain (name : Text) : Prop := ∀ c ∈ name, c ≠ ' ' ∧ c ≠ '{' ∧ c ≠ '#' ∧ c ≠ '\n'

instance : DecidablePred Plain := fun name =>
  List.decidableBAll (fun c => c ≠ ' ' ∧ c ≠ '{' ∧ c ≠ '#' ∧ c ≠ '\n') name

/-- The line can be told from the others, and its parts from one another. -/
def Line.Writable : Line → Prop
  | .help name _ => Plain name
  | .type name kind => Plain name ∧ '\n' ∉ kind
  | .sample name s =>
    Plain name ∧ (∀ l ∈ s.labels, '=' ∉ l.1 ∧ '\n' ∉ l.1) ∧ '\n' ∉ s.value

theorem readWord_append {name rest : Text} (h : Plain name) :
    readWord (name ++ ' ' :: rest) = some (name, rest) := by
  rw [readWord, readName_append (fun c hc => decide_eq_false (h c hc).1) rfl]
  rfl

/-- A line of a sample is no comment. -/
theorem not_isPrefixOf_sample {name rest w : Text} (h : Plain name) {d : Char} (hd : d ≠ '#') :
    ¬('#' :: w).isPrefixOf (name ++ d :: rest) = true := by
  rw [List.isPrefixOf_iff_prefix]
  cases name with
  | nil => exact fun hpre => hd (List.cons_prefix_cons.1 hpre).1.symm
  | cons c name =>
    exact fun hpre => (h c List.mem_cons_self).2.2.1 (List.cons_prefix_cons.1 hpre).1.symm

theorem isPrefixOf_append (w rest : Text) : w.isPrefixOf (w ++ rest) = true :=
  List.isPrefixOf_iff_prefix.2 (List.prefix_append w rest)

theorem parseLine_render {l : Line} (h : l.Writable) : parseLine l.render = some l := by
  cases l with
  | help name text =>
    rw [Line.render, parseLine, if_pos (isPrefixOf_append _ _), List.drop_left, readWord_append h,
      Option.bind_some, unescape_escape]
    rfl
  | type name kind =>
    have hhelp : ¬helpMark.isPrefixOf (typeMark ++ (name ++ ' ' :: kind)) = true := by
      simp [helpMark, typeMark, List.isPrefixOf]
    rw [Line.render, parseLine, if_neg hhelp, if_pos (isPrefixOf_append _ _), List.drop_left,
      readWord_append h.1]
    rfl
  | sample name s =>
    obtain ⟨labels, value⟩ := s
    obtain ⟨hname, hlabels, -⟩ := h
    have hends : ∀ c ∈ name, (decide (c = ' ') || decide (c = '{')) = false := by
      intro c hc
      rw [decide_eq_false (hname c hc).1, decide_eq_false (hname c hc).2.1, Bool.or_false]
    by_cases hnone : labels = []
    · have htext : (Line.sample name ⟨labels, value⟩).render = name ++ ' ' :: value := by
        simp [Line.render, hnone]
      rw [htext, parseLine, helpMark, typeMark, if_neg (not_isPrefixOf_sample hname (by decide)),
        if_neg (not_isPrefixOf_sample hname (by decide)), readName_append hends rfl, hnone]
      rfl
    · have htext : (Line.sample name ⟨labels, value⟩).render =
          name ++ '{' :: (renderLabels labels ++ ' ' :: value) := by
        simp [Line.render, hnone]
      have hlen : labels.length ≤ (renderLabels labels ++ ' ' :: value).length :=
        Nat.le_trans (length_le_renderLabels labels) (by simp)
      rw [htext, parseLine, helpMark, typeMark, if_neg (not_isPrefixOf_sample hname (by decide)),
        if_neg (not_isPrefixOf_sample hname (by decide)), readName_append hends rfl]
      change Option.bind (readLabels _ _) _ = _
      rw [readLabels_renderLabels hnone (fun l hl => (hlabels l hl).1) hlen]
      rfl

theorem not_mem_renderLabels {ls : List (Text × Text)} (h : ∀ l ∈ ls, '\n' ∉ l.1) :
    '\n' ∉ renderLabels ls := by
  have hone : ∀ l ∈ ls, '\n' ∉ renderLabel l := by
    intro l hl
    simp [renderLabel, h l hl, not_mem_escape]
  induction ls with
  | nil => simp [renderLabels]
  | cons l ls ih =>
    have hl := hone l List.mem_cons_self
    have hls := ih (fun x hx => h x (List.mem_cons_of_mem l hx))
      fun x hx => hone x (List.mem_cons_of_mem l hx)
    cases ls with
    | nil => simp [renderLabels, hl]
    | cons l' ls => simp [renderLabels, hl, hls]

theorem Plain.not_mem {name : Text} (h : Plain name) : '\n' ∉ name :=
  fun hmem => (h _ hmem).2.2.2 rfl

/-- A line is a line. -/
theorem Line.Writable.not_mem {l : Line} (h : l.Writable) : '\n' ∉ l.render := by
  cases l with
  | help name text => simp [Line.render, helpMark, Plain.not_mem h, not_mem_escape]
  | type name kind => simp [Line.render, typeMark, Plain.not_mem h.1, h.2]
  | sample name s =>
    have hlabels := not_mem_renderLabels fun l hl => (h.2.1 l hl).2
    rw [Line.render]
    split <;> simp [Plain.not_mem h.1, h.2.2, hlabels]

theorem textLines_renderLines {ls : List Line} (h : ∀ l ∈ ls, l.Writable) :
    textLines (renderLines ls) = some (ls.map Line.render) := by
  have hsplit : (renderLines ls).splitOn '\n' = ls.map Line.render ++ [[]] := by
    induction ls with
    | nil => rfl
    | cons l ls ih =>
      have hcons : renderLines (l :: ls) = l.render ++ '\n' :: renderLines ls := by
        simp [renderLines]
      rw [hcons, List.splitOn_append_cons_self,
        List.splitOn_eq_singleton (h l List.mem_cons_self).not_mem,
        ih fun x hx => h x (List.mem_cons_of_mem l hx)]
      rfl
  rw [textLines, hsplit, List.getLast?_concat, if_pos rfl, List.dropLast_concat]

theorem mapM_parseLine {ls : List Line} (h : ∀ l ∈ ls, l.Writable) :
    (ls.map Line.render).mapM parseLine = some ls := by
  induction ls with
  | nil => rfl
  | cons l ls ih =>
    rw [List.map_cons, List.mapM_cons, parseLine_render (h l List.mem_cons_self),
      ih fun x hx => h x (List.mem_cons_of_mem l hx)]
    rfl

/-! ## Families -/

/-- The lines of a family can be written. -/
def Family.Writable (f : Family) : Prop := ∀ l ∈ f.lines, l.Writable

theorem Family.writable {f : Family} (hname : Plain f.name) (hkind : '\n' ∉ f.type)
    (hsamples : ∀ s ∈ f.samples, (∀ l ∈ s.labels, '=' ∉ l.1 ∧ '\n' ∉ l.1) ∧ '\n' ∉ s.value) :
    f.Writable := by
  intro l hl
  rcases List.mem_cons.1 hl with rfl | hl
  · exact hname
  rcases List.mem_cons.1 hl with rfl | hl
  · exact ⟨hname, hkind⟩
  · obtain ⟨s, hs, rfl⟩ := List.mem_map.1 hl
    exact ⟨hname, hsamples s hs⟩

theorem group_samples (name : Text) (samples : List Sample) {rest : List Line} {fs : List Family}
    (h : group rest = some (⟨none, []⟩, fs)) :
    group (samples.map (.sample name) ++ rest) = some (⟨none, samples.map (name, ·)⟩, fs) := by
  induction samples with
  | nil => exact h
  | cons s samples ih => rw [List.map_cons, List.cons_append, group, ih]; rfl

theorem group_lines (fs : List Family) :
    group (fs.flatMap Family.lines) = some (⟨none, []⟩, fs) := by
  induction fs with
  | nil => rfl
  | cons f fs ih =>
    have hsame : ∀ x ∈ f.samples.map (f.name, ·), x.1 = f.name := by
      rintro _ hx
      obtain ⟨s, -, rfl⟩ := List.mem_map.1 hx
      rfl
    have hsamples : (f.samples.map (f.name, ·)).map Prod.snd = f.samples := by
      rw [List.map_map]
      exact List.map_id _
    rw [List.flatMap_cons, Family.lines, List.cons_append, List.cons_append, group, group,
      group_samples f.name f.samples ih, Option.bind_some, absorb, if_pos hsame, Option.bind_some,
      absorb, if_pos rfl, hsamples]

/-- **What is written is read.** -/
theorem parse_render {fs : List Family} (h : ∀ f ∈ fs, f.Writable) :
    parse (render fs) = some fs := by
  have hlines : ∀ l ∈ fs.flatMap Family.lines, l.Writable := by
    intro l hl
    obtain ⟨f, hf, hl⟩ := List.mem_flatMap.1 hl
    exact h f hf l hl
  rw [parse, render, textLines_renderLines hlines, Option.bind_some, mapM_parseLine hlines,
    Option.bind_some, group_lines, Option.bind_some, if_pos ⟨rfl, rfl⟩]

/-- **What can be looked up** is what is in the families. -/
theorem value_eq_some {fs : List Family} (h : Valid fs) {name : Text}
    {labels : List (Text × Text)} {v : Text} : value fs name labels = some v ↔
      ∃ f ∈ fs, f.name = name ∧ (⟨labels, v⟩ : Sample) ∈ f.samples := by
  have hfamily : ∀ f ∈ fs, fs.find? (fun g => decide (g.name = f.name)) = some f := by
    intro f hf
    obtain ⟨g, hg⟩ := Option.isSome_iff_exists.1
      (List.find?_isSome.2 ⟨f, hf, decide_eq_true rfl⟩ :
        (fs.find? fun g => decide (g.name = f.name)).isSome = true)
    have hname : g.name = f.name := by simpa using List.find?_some hg
    rw [hg, List.inj_on_of_nodup_map h.1 (List.mem_of_find?_eq_some hg) hf hname]
  have hsample : ∀ f ∈ fs, ∀ s ∈ f.samples,
      f.samples.find? (fun t => decide (t.labels = s.labels)) = some s := by
    intro f hf s hs
    obtain ⟨t, ht⟩ := Option.isSome_iff_exists.1
      (List.find?_isSome.2 ⟨s, hs, decide_eq_true rfl⟩ :
        (f.samples.find? fun t => decide (t.labels = s.labels)).isSome = true)
    have hlabels : t.labels = s.labels := by simpa using List.find?_some ht
    rw [ht, List.inj_on_of_nodup_map (h.2 f hf) (List.mem_of_find?_eq_some ht) hs hlabels]
  constructor
  · intro hv
    obtain ⟨f, hf, hv⟩ := Option.bind_eq_some_iff.1 hv
    obtain ⟨s, hs, rfl⟩ := Option.map_eq_some_iff.1 hv
    have hname : f.name = name := by simpa using List.find?_some hf
    have hlabels : s.labels = labels := by simpa using List.find?_some hs
    refine ⟨f, List.mem_of_find?_eq_some hf, hname, ?_⟩
    rw [← hlabels]
    exact List.mem_of_find?_eq_some hs
  · rintro ⟨f, hf, rfl, hs⟩
    have hfound := hsample f hf _ hs
    rw [value, hfamily f hf, Option.bind_some, hfound, Option.map_some]

end Foundations.Exposition

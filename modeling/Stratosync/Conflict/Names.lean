import Stratosync.Foundations.Search
import Stratosync.State.Db
import Stratosync.Sync.Changes
import Mathlib.Data.Finset.Max

/-!
# Names of conflict files

The resolver names the conflict file of `report.pdf` `report.conflict.{ts}.{hash}.pdf` and enters
a row for it in the same directory. The command line program reads such names back: from a
conflict file to the file it is of, cutting the name at the first `.conflict.`, and from a file to
its newest conflict file, through a `LIKE` pattern.

`pairsBack_iff` says for which names the two lookups are inverse to the naming: there has to be an
extension, `.conflict.` must not begin inside the stem, and no newer name in the directory may
match the pattern by accident.
-/

namespace Stratosync

open Foundations.Search

/-! ## Parts of a name -/

/-- `Path::file_name`: the last component, unless it is `..`. -/
def lastComponent (name : Str) : Option Str :=
  (components name).getLast?.filter (· ≠ ['.', '.'])

/-- `Path::file_stem`. A dot at the front of a name begins no extension. -/
def fileStem (name : Str) : Option Str :=
  (lastComponent name).map fun f =>
    match splitLast '.' f with
    | some (stem, _) => if stem = [] then f else stem
    | none => f

/-- `Path::extension`. -/
def extension (name : Str) : Option Str :=
  (lastComponent name).bind fun f =>
    match splitLast '.' f with
    | some (stem, ext) => if stem = [] then none else some ext
    | none => none

/-- What stands between the stem of a name and the rest of its conflict file's name. -/
def conflictMarker : Str := ".conflict.".toList

/-! ## Naming -/

/-- The 64-bit FNV-1a hash. -/
def fnv1a (buf : Bytes) : UInt64 :=
  buf.foldl (fun hash byte => (hash ^^^ byte.toUInt64) * 0x100000001b3) 0xcbf29ce484222325

/-- `format!("{:08x}", n)` for a number of at most 32 bits. -/
def hex8 (n : ℕ) : Str := (List.range 8).reverse.map fun i => (n / 16 ^ i % 16).digitChar

/-- The hash of a file's first 64 KiB; `none` is a file that cannot be read. -/
def fileHashPrefix : Option Bytes → Str
  | some content => hex8 ((fnv1a (content.take 65536)).toNat % 2 ^ 32)
  | none => List.replicate 8 '0'

/-- A time, formatted by `%Y%m%dT%H%M%SZ`. -/
abbrev Timestamp := {ts : Str // ∀ c ∈ ts, c.isDigit = true ∨ c = 'T' ∨ c = 'Z'}

/-- The timestamp and the hash in the name of a conflict file. -/
structure ConflictSuffix where
  ts : Timestamp
  hash : Str
  hash_digits : hash.length = 8 ∧ ∀ c ∈ hash, ∃ n < 16, c = n.digitChar

theorem fileHashPrefix_digits (content : Option Bytes) :
    (fileHashPrefix content).length = 8 ∧
      ∀ c ∈ fileHashPrefix content, ∃ n < 16, c = n.digitChar := by
  cases content with
  | none =>
    refine ⟨rfl, fun c hc => ⟨0, by omega, ?_⟩⟩
    exact List.eq_of_mem_replicate hc
  | some content =>
    refine ⟨by simp [fileHashPrefix, hex8], fun c hc => ?_⟩
    obtain ⟨i, -, rfl⟩ := List.mem_map.1 hc
    exact ⟨_, Nat.mod_lt _ (by omega), rfl⟩

/-- The suffix of a conflict file with this content, made at the time `ts`. -/
def ConflictSuffix.ofContent (ts : Timestamp) (content : Option Bytes) : ConflictSuffix :=
  ⟨ts, fileHashPrefix content, fileHashPrefix_digits content⟩

def makeConflictName (originalName : Str) (suffix : ConflictSuffix) : Str :=
  let stem := (fileStem originalName).getD originalName
  let named := stem ++ (conflictMarker ++ (suffix.ts.1 ++ '.' :: suffix.hash))
  match extension originalName with
  | some ext => named ++ '.' :: ext
  | none => named

/-- The remote path of a conflict file: the directory of the original, below the namespace. -/
def conflictRemotePath (remotePath conflictName : Str) : Str :=
  let parent := (parentPath remotePath).getD []
  if parent = [] then conflictPrefix ++ conflictName
  else conflictPrefix ++ (parent ++ '/' :: conflictName)

/-! ## Reading a name back -/

/-- The name of the file a conflict file is of; `none` when the name has no `.conflict.`. -/
def canonicalName (name : Str) : Option Str :=
  (before conflictMarker name).map fun stem =>
    let ext := name.rtakeWhile (· ≠ '.')
    if ext = [] ∨ ('.' :: ext) <:+ stem then stem else stem ++ '.' :: ext

/-- SQLite's `text LIKE pattern`: `%` is any text, `_` any character, and letters of either case
are one. -/
def like : Str → Str → Bool
  | [], text => text = []
  | '%' :: pattern, text => text.tails.any (like pattern)
  | '_' :: _, [] => false
  | '_' :: pattern, _ :: text => like pattern text
  | _ :: _, [] => false
  | p :: pattern, c :: text => p.toLower = c.toLower && like pattern text

/-- `{stem}.conflict.%`. -/
def siblingPattern (name : Str) : Str :=
  (fileStem name).getD name ++ (conflictMarker ++ ['%'])

/-- The rows of the directory an entry is in. -/
def directoryRows (db : Db) (mountId : ℕ) (entry : FileEntry) : List FileEntry :=
  db.fileIndex.rows.filter fun r =>
    r.mountId = mountId ∧ r.parent.isSome ∧ r.parent = entry.parent

/-- The rows `ORDER BY mtime DESC LIMIT 1` may return. -/
def newest (rows : List FileEntry) : List FileEntry :=
  rows.filter fun r => rows.all fun q => q.mtime ≤ r.mtime

/-- The rows `find_conflict_sibling` may return: of a conflict file the one with its canonical
name, of any other file the newest match of its pattern. -/
def findConflictSibling (db : Db) (mountId : ℕ) (entry : FileEntry) : List FileEntry :=
  match canonicalName entry.name with
  | some name => (directoryRows db mountId entry).filter fun r => r.name = name
  | none =>
    newest ((directoryRows db mountId entry).filter fun r =>
      like (siblingPattern entry.name) r.name)

/-- The rows the lookup finds are rows of the mount. -/
theorem mem_of_findConflictSibling {db : Db} {mountId : ℕ} {entry q : FileEntry}
    (h : q ∈ findConflictSibling db mountId entry) :
    q ∈ db.fileIndex.rows ∧ q.mountId = mountId := by
  have hq : q ∈ directoryRows db mountId entry := by
    rw [findConflictSibling] at h
    split at h
    · exact (List.mem_filter.1 h).1
    · exact (List.mem_filter.1 (List.mem_filter.1 h).1).1
  obtain ⟨hmem, hrow⟩ := List.mem_filter.1 hq
  simp only [decide_eq_true_eq] at hrow
  exact ⟨hmem, hrow.1⟩

/-! ## What holds, and when -/

/-- A row of the entry's directory named after it, as the resolver names conflict files. -/
def GeneratedFrom (db : Db) (mountId : ℕ) (entry q : FileEntry) : Prop :=
  q ∈ directoryRows db mountId entry ∧ ∃ suffix, q.name = makeConflictName entry.name suffix

/-- **The lookups invert the naming**: from the conflict file `sibling` to the row it is of and to
no other, and from that row only to a conflict file of its own. -/
structure PairsBack (db : Db) (mountId : ℕ) (entry sibling : FileEntry) : Prop where
  canonical : ∀ q, q ∈ findConflictSibling db mountId sibling ↔ q = entry
  sibling : ∀ q ∈ findConflictSibling db mountId entry, GeneratedFrom db mountId entry q

/-- The name has an extension that its stem does not end in, and `.conflict.` does not begin in
the stem; or it is a dot and the hash. -/
def ReadsBack (name : Str) (suffix : ConflictSuffix) : Prop :=
  match extension name with
  | some ext => ext ≠ [] ∧ ¬('.' :: ext) <:+ (fileStem name).getD name ∧
      ¬conflictMarker <:+: (fileStem name).getD name ++ conflictMarker.dropLast
  | none => name = '.' :: suffix.hash

/-- No row is taken for a conflict file of the entry: a name with `.conflict.` in it reads back as
no row of the directory; of any other name, each match of the pattern that is not a conflict file
of the entry is older than one that is. -/
def SiblingsOwn (db : Db) (mountId : ℕ) (entry : FileEntry) : Prop :=
  match canonicalName entry.name with
  | some name => ∀ q ∈ directoryRows db mountId entry, q.name ≠ name
  | none => ∀ q ∈ directoryRows db mountId entry, like (siblingPattern entry.name) q.name = true →
      GeneratedFrom db mountId entry q ∨
        ∃ g, GeneratedFrom db mountId entry g ∧ q.mtime < g.mtime

/-! ## Reading a generated name back -/

section Reading

variable {name : Str} {suffix : ConflictSuffix}

/-- A file name has a stem and an extension, or it has none and at most a dot at the front. -/
theorem name_cases (hname : '/' ∉ name) :
    (∃ stem ext, name = stem ++ '.' :: ext ∧ '.' ∉ ext ∧ (fileStem name).getD name = stem ∧
      extension name = some ext) ∨
    ((fileStem name).getD name = name ∧ extension name = none ∧
      ∀ stem ext, name = stem ++ '.' :: ext → '.' ∉ ext → stem = [] ∨ ext = []) := by
  by_cases hplain : name = [] ∨ name = ['.'] ∨ name = ['.', '.']
  · refine .inr ?_
    have hlast : lastComponent name = none := by
      rcases hplain with rfl | rfl | rfl <;> decide
    refine ⟨by rw [fileStem, hlast]; rfl, by rw [extension, hlast]; rfl, fun stem ext h hext => ?_⟩
    have hsplit := splitLast_eq_some.2 ⟨h, hext⟩
    rcases hplain with rfl | rfl | rfl
    · cases hsplit
    · obtain ⟨rfl, -⟩ := Prod.mk.inj (Option.some.inj hsplit)
      exact .inl rfl
    · obtain ⟨-, rfl⟩ := Prod.mk.inj (Option.some.inj hsplit)
      exact .inr rfl
  · rw [not_or, not_or] at hplain
    obtain ⟨hnil, hdot, hdots⟩ := hplain
    have hlast : lastComponent name = some name := by
      rw [lastComponent, components, List.splitOn_eq_singleton hname,
        List.filter_cons_of_pos (by simp [hnil, hdot])]
      simp [hdots]
    rw [fileStem, extension, hlast]
    cases hsplit : splitLast '.' name with
    | none =>
      refine .inr ⟨by simp [hsplit], by simp [hsplit], fun stem ext h _ => ?_⟩
      exact absurd (by simp [h]) (splitLast_eq_none.1 hsplit)
    | some p =>
      obtain ⟨stem, ext⟩ := p
      obtain ⟨hsplit', hext⟩ := splitLast_eq_some.1 hsplit
      by_cases hstem : stem = []
      · refine .inr ⟨by simp [hsplit, hstem], by simp [hsplit, hstem], fun stem' ext' h hext' => ?_⟩
        rw [splitLast_eq_some.2 ⟨h, hext'⟩] at hsplit
        obtain ⟨rfl, -⟩ := Prod.mk.inj (Option.some.inj hsplit)
        exact .inl hstem
      · exact .inl ⟨stem, ext, hsplit', hext, by simp [hsplit, hstem], by simp [hsplit, hstem]⟩

theorem not_mem_hash (suffix : ConflictSuffix) {c : Char} (hc : ∀ n < 16, c ≠ n.digitChar) :
    c ∉ suffix.hash := by
  intro h
  obtain ⟨n, hn, he⟩ := suffix.hash_digits.2 c h
  exact hc n hn he

theorem dot_not_mem_hash (suffix : ConflictSuffix) : '.' ∉ suffix.hash :=
  not_mem_hash suffix (by decide)

/-- The letters of the marker are no digits of a hash. -/
theorem marker_not_infix_hash (suffix : ConflictSuffix) :
    ¬conflictMarker <:+: ('.' :: suffix.hash) ++ conflictMarker.dropLast := by
  rintro ⟨x, y, hxy⟩
  have hleft : x ++ conflictMarker ++ y = (x ++ ".conflict".toList) ++ '.' :: y := by
    rw [show conflictMarker = ".conflict".toList ++ ['.'] from rfl]
    simp
  have hright : ('.' :: suffix.hash) ++ conflictMarker.dropLast =
      ('.' :: suffix.hash) ++ '.' :: "conflict".toList := rfl
  rw [hleft, hright] at hxy
  have hcut : splitLast '.' ((x ++ ".conflict".toList) ++ '.' :: y) =
      some ('.' :: suffix.hash, "conflict".toList) := by
    rw [hxy]
    exact splitLast_append_cons (by decide)
  have hpre := (prefix_of_splitLast hcut).1
  have ho : 'o' ∈ '.' :: suffix.hash := hpre.subset (List.mem_append_right _ (by decide))
  rcases List.mem_cons.1 ho with ho | ho
  · cases ho
  · exact not_mem_hash suffix (by decide) ho

/-- **A generated name reads back** exactly when its parts can be told apart. -/
theorem canonicalName_makeConflictName_iff (hname : '/' ∉ name) (suffix : ConflictSuffix) :
    canonicalName (makeConflictName name suffix) = some name ↔ ReadsBack name suffix := by
  have hmarker : conflictMarker ≠ [] := by decide
  rcases name_cases hname with ⟨stem, ext, hsplit, hext, hstem, hextension⟩ |
    ⟨hstem, hextension, honly⟩
  · have hmade : makeConflictName name suffix =
        stem ++ (conflictMarker ++ (suffix.ts.1 ++ '.' :: suffix.hash ++ '.' :: ext)) := by
      rw [makeConflictName, hstem, hextension]
      simp
    have hlast : (makeConflictName name suffix).rtakeWhile (· ≠ '.') = ext := by
      rw [hmade, ← List.append_assoc, ← List.append_assoc]
      exact rtakeWhile_append_cons hext
    rw [ReadsBack, hextension, hstem, canonicalName, hlast, hmade, Option.map_eq_some_iff]
    dsimp only
    constructor
    · rintro ⟨a, ha, hcanon⟩
      have hpre := prefix_of_before ha
      split at hcanon
      · have := hpre.length_le
        rw [hcanon, hsplit, List.length_append, List.length_cons] at this
        omega
      · rename_i hno
        rw [hsplit] at hcanon
        obtain rfl := List.append_cancel_right hcanon
        rw [not_or] at hno
        exact ⟨hno.1, hno.2, (before_append_iff hmarker).1 ha⟩
    · rintro ⟨hne, hend, hin⟩
      refine ⟨stem, (before_append_iff hmarker).2 hin, ?_⟩
      rw [if_neg (by simp [hne, hend]), hsplit]
  · have hmade : makeConflictName name suffix =
        name ++ (conflictMarker ++ (suffix.ts.1 ++ '.' :: suffix.hash)) := by
      rw [makeConflictName, hstem, hextension]
    have hhash := dot_not_mem_hash suffix
    have hlast : (makeConflictName name suffix).rtakeWhile (· ≠ '.') = suffix.hash := by
      rw [hmade, ← List.append_assoc, ← List.append_assoc]
      exact rtakeWhile_append_cons hhash
    have hne : suffix.hash ≠ [] := by
      intro h
      have := suffix.hash_digits.1
      rw [h] at this
      cases this
    rw [ReadsBack, hextension, canonicalName, hlast, hmade, Option.map_eq_some_iff]
    dsimp only
    constructor
    · rintro ⟨a, ha, hcanon⟩
      split at hcanon
      · rename_i hend
        obtain ⟨t, ht⟩ := hend.resolve_left hne
        rcases honly t suffix.hash (hcanon.symm.trans ht.symm) hhash with rfl | h
        · exact hcanon.symm.trans ht.symm
        · exact absurd h hne
      · rcases honly a suffix.hash hcanon.symm hhash with rfl | h
        · exact hcanon.symm
        · exact absurd h hne
    · intro h
      refine ⟨name, (before_append_iff hmarker).2 ?_, if_pos (.inr ?_)⟩
      · rw [h]
        exact marker_not_infix_hash suffix
      · exact h ▸ List.suffix_rfl

end Reading

/-! ## The lookups -/

section Lookups

variable {db : Db} {mountId : ℕ} {e s q : FileEntry}

theorem mem_directoryRows : q ∈ directoryRows db mountId e ↔
    q ∈ db.fileIndex.rows ∧ q.mountId = mountId ∧ q.parent.isSome = true ∧
      q.parent = e.parent := by
  simp [directoryRows]

theorem mem_newest {l : List FileEntry} :
    q ∈ newest l ↔ q ∈ l ∧ ∀ r ∈ l, r.mtime ≤ q.mtime := by
  simp [newest]

theorem exists_newest {l : List FileEntry} (h : l ≠ []) : ∃ r, r ∈ newest l := by
  obtain ⟨r, hr, hmax⟩ := l.toFinset.exists_max_image FileEntry.mtime
    ((List.toFinset_nonempty_iff l).2 h)
  exact ⟨r, mem_newest.2 ⟨List.mem_toFinset.1 hr, fun q hq => hmax q (List.mem_toFinset.2 hq)⟩⟩

/-- Text matches itself, whatever wildcards are in it. -/
theorem like_append_self (t pattern text : Str) (h : like pattern text = true) :
    like (t ++ pattern) (t ++ text) = true := by
  induction t with
  | nil => exact h
  | cons c t ih =>
    rw [List.cons_append, List.cons_append]
    by_cases hpercent : c = '%'
    · subst hpercent
      rw [like, List.any_eq_true]
      exact ⟨t ++ text, (List.mem_tails _ _).2 (List.suffix_cons _ _), ih⟩
    by_cases hunder : c = '_'
    · subst hunder
      rw [like, ih]
    · rw [like]
      · simp [ih]
      · exact hpercent
      · exact hunder

/-- A conflict file's name matches the pattern of the file it is of. -/
theorem like_makeConflictName (name : Str) (suffix : ConflictSuffix) :
    like (siblingPattern name) (makeConflictName name suffix) = true := by
  have hany : ∀ text : Str, like ['%'] text = true := by
    intro text
    rw [like, List.any_eq_true]
    exact ⟨[], (List.mem_tails _ _).2 List.nil_suffix, rfl⟩
  have hmade : ∃ rest, makeConflictName name suffix =
      (fileStem name).getD name ++ (conflictMarker ++ rest) := by
    rw [makeConflictName]
    cases extension name with
    | none => exact ⟨_, rfl⟩
    | some ext => exact ⟨suffix.ts.1 ++ '.' :: suffix.hash ++ '.' :: ext, by simp⟩
  obtain ⟨rest, hmade⟩ := hmade
  rw [siblingPattern, hmade, ← List.append_assoc, ← List.append_assoc]
  exact like_append_self _ _ _ (hany rest)

/-- A name reads back as a shorter one, and a conflict file's name is longer. -/
theorem canonicalName_ne_makeConflictName {name c : Str} (hname : '/' ∉ name)
    (h : canonicalName name = some c) (suffix : ConflictSuffix) :
    c ≠ makeConflictName name suffix := by
  have hshort : c.length ≤ name.length := by
    obtain ⟨stem, hstem, hc⟩ := Option.map_eq_some_iff.1 h
    obtain ⟨rest, hrest⟩ := before_spec hstem
    have hdot : name = (stem ++ ".conflict".toList) ++ '.' :: rest := by
      rw [← hrest, show conflictMarker = ".conflict".toList ++ ['.'] from rfl]
      simp
    have hlen : name.length = stem.length + 10 + rest.length := by
      rw [hdot, List.length_append, List.length_append, List.length_cons]
      change stem.length + 9 + (rest.length + 1) = _
      omega
    have hext : (name.rtakeWhile (· ≠ '.')).length ≤ rest.length := by
      have hmem : '.' ∈ name := by rw [hdot]; simp
      have hcut : splitLast '.' name = some ((name.rdropWhile (· ≠ '.')).dropLast,
          name.rtakeWhile (· ≠ '.')) := if_pos hmem
      rw [hdot] at hcut ⊢
      exact (prefix_of_splitLast hcut).2
    dsimp only at hc
    split at hc
    · rw [← hc]
      omega
    · rw [← hc, List.length_append, List.length_cons]
      omega
  have hlong : name.length < (makeConflictName name suffix).length := by
    rcases name_cases hname with ⟨stem, ext, hsplit, -, hstem, hextension⟩ | ⟨hstem, hextension, -⟩
    · rw [makeConflictName, hstem, hextension, hsplit]
      simp only [List.length_append, List.length_cons]
      omega
    · rw [makeConflictName, hstem, hextension]
      simp only [List.length_append, List.length_cons]
      omega
  intro he
  rw [he] at hshort
  omega

/-- From a conflict file: the row with its canonical name. -/
theorem mem_findConflictSibling_of_some {c : Str} (h : canonicalName e.name = some c) :
    q ∈ findConflictSibling db mountId e ↔ q ∈ directoryRows db mountId e ∧ q.name = c := by
  simp [findConflictSibling, h]

/-- From any other file: the newest match of its pattern. -/
theorem mem_findConflictSibling_of_none (h : canonicalName e.name = none) :
    q ∈ findConflictSibling db mountId e ↔
      (q ∈ directoryRows db mountId e ∧ like (siblingPattern e.name) q.name = true) ∧
      ∀ r ∈ directoryRows db mountId e, like (siblingPattern e.name) r.name = true →
        r.mtime ≤ q.mtime := by
  simp [findConflictSibling, h, mem_newest]

/-- A lookup finds conflict files of the entry only, exactly when no other row is taken for one. -/
theorem findsOwn_iff (hname : '/' ∉ e.name) :
    (∀ q ∈ findConflictSibling db mountId e, GeneratedFrom db mountId e q) ↔
      SiblingsOwn db mountId e := by
  cases hc : canonicalName e.name with
  | some c =>
    simp only [SiblingsOwn, hc, mem_findConflictSibling_of_some hc]
    constructor
    · intro h q hq hqc
      obtain ⟨-, suffix, hmade⟩ := h q ⟨hq, hqc⟩
      exact canonicalName_ne_makeConflictName hname hc suffix (hqc.symm.trans hmade)
    · exact fun h q hq => absurd hq.2 (h q hq.1)
  | none =>
    simp only [SiblingsOwn, hc]
    constructor
    · intro h q hq hlike
      by_contra hn
      rw [not_or, not_exists] at hn
      obtain ⟨hown, hnewer⟩ := hn
      have hmatch : q ∈ (directoryRows db mountId e).filter fun r =>
          like (siblingPattern e.name) r.name := List.mem_filter.2 ⟨hq, hlike⟩
      obtain ⟨g, hg⟩ := exists_newest (List.ne_nil_of_mem hmatch)
      have hfound : g ∈ findConflictSibling db mountId e := by
        rw [findConflictSibling, hc]
        exact hg
      have hle := (mem_newest.1 hg).2 q hmatch
      by_cases heq : q.mtime = g.mtime
      · -- as new as the newest, it may be returned itself
        refine hown (h q ((mem_findConflictSibling_of_none hc).2 ⟨⟨hq, hlike⟩, fun r hr hl => ?_⟩))
        rw [heq]
        exact (mem_newest.1 hg).2 r (List.mem_filter.2 ⟨hr, hl⟩)
      · exact hnewer g ⟨h g hfound, by omega⟩
    · intro h q hq
      obtain ⟨⟨hdir, hlike⟩, hmax⟩ := (mem_findConflictSibling_of_none hc).1 hq
      rcases h q hdir hlike with hown | ⟨g, ⟨hg, suffix, hmade⟩, hnewer⟩
      · exact hown
      · have := hmax g hg (hmade ▸ like_makeConflictName _ _)
        omega

/-- The lookup from a conflict file finds the row it is of exactly when its name reads back. -/
theorem findsCanonical_iff {suffix : ConflictSuffix} (he : e ∈ db.fileIndex.rows)
    (hm : e.mountId = mountId) (hp : e.parent.isSome = true) (hname : '/' ∉ e.name)
    (hs : GeneratedFrom db mountId e s) (hmade : s.name = makeConflictName e.name suffix) :
    (∀ q, q ∈ findConflictSibling db mountId s ↔ q = e) ↔ ReadsBack e.name suffix := by
  obtain ⟨-, -, -, hparent⟩ := mem_directoryRows.1 hs.1
  have hdir : e ∈ directoryRows db mountId s := mem_directoryRows.2 ⟨he, hm, hp, hparent.symm⟩
  rw [← canonicalName_makeConflictName_iff hname, ← hmade]
  constructor
  · intro h
    have hfound := (h e).2 rfl
    cases hc : canonicalName s.name with
    | none =>
      -- the name of a conflict file has the marker in it
      have hin : conflictMarker <:+: s.name := by
        have hlike : ∃ a b, s.name = a ++ (conflictMarker ++ b) := by
          rw [hmade, makeConflictName]
          cases extension e.name with
          | none => exact ⟨_, _, rfl⟩
          | some ext => exact ⟨_, suffix.ts.1 ++ '.' :: suffix.hash ++ '.' :: ext, by simp; rfl⟩
        obtain ⟨a, b, hab⟩ := hlike
        exact ⟨a, b, by rw [hab, List.append_assoc]⟩
      exact absurd hin (before_eq_none.1 (Option.map_eq_none_iff.1 hc))
    | some c =>
      rw [((mem_findConflictSibling_of_some hc).1 hfound).2]
  · intro hc q
    rw [mem_findConflictSibling_of_some hc]
    constructor
    · rintro ⟨hq, hn⟩
      obtain ⟨hrow, hqm, hqp, hqparent⟩ := mem_directoryRows.1 hq
      exact Foundations.Table.eq_of_unique
        (fun h => ⟨h.1.symm, h.2.2.1 ▸ h.2.1, h.2.2.1.symm, h.2.2.2.symm⟩)
        db.fileIndex.ok.nameUnique hrow he
        ⟨hqm.trans hm.symm, hqp, hqparent.trans hparent, hn⟩
    · rintro rfl
      exact ⟨hdir, rfl⟩

end Lookups

/-- **When naming and pairing are inverse**: the conflict file's name has to read back, and no
other row may be taken for a conflict file. -/
theorem pairsBack_iff (db : Db) (mountId : ℕ) (entry sibling : FileEntry) (suffix : ConflictSuffix)
    (he : entry ∈ db.fileIndex.rows) (hm : entry.mountId = mountId)
    (hp : entry.parent.isSome = true) (hname : '/' ∉ entry.name)
    (hs : GeneratedFrom db mountId entry sibling)
    (hmade : sibling.name = makeConflictName entry.name suffix) :
    PairsBack db mountId entry sibling ↔
      ReadsBack entry.name suffix ∧ SiblingsOwn db mountId entry := by
  rw [← findsCanonical_iff he hm hp hname hs hmade, ← findsOwn_iff hname]
  exact ⟨fun h => ⟨h.canonical, h.sibling⟩, fun h => ⟨h.1, h.2⟩⟩

/-- An index with a file of each of these names in the root. -/
def indexOf (names : List Str) : Db :=
  names.foldl (fun db name =>
    ((db.insertFile
      { mountId := 1, parent := fuseRootInode, name, remotePath := name, kind := .file, size := 1
        mtime := 0, etag := none, status := .remote, cachePath := none
        cacheSize := none }).map Prod.snd).getD db) (Db.empty 1 0)

/-- The suffix of the resolver's own example. -/
def exampleSuffix : ConflictSuffix where
  ts := ⟨"20250315T142301Z".toList, by simp⟩
  hash := "a3f2e1b9".toList
  hash_digits := by simp

/-- The row of a name in such an index. -/
def rowOf (names : List Str) (name : Str) : FileEntry :=
  ((indexOf names).getByRemotePath 1 name).getD (rootEntry 1)

/-- A file and the conflict file the resolver makes of it. -/
def withConflict (name : Str) : List Str := [name, makeConflictName name exampleSuffix]

/-- A file with an extension and its conflict file. -/
theorem pairsBack_report :
    PairsBack (indexOf (withConflict "r.pdf".toList)) 1
      (rowOf (withConflict "r.pdf".toList) "r.pdf".toList)
      (rowOf (withConflict "r.pdf".toList) (makeConflictName "r.pdf".toList exampleSuffix)) := by
  have hread : ReadsBack "r.pdf".toList exampleSuffix := by
    change "pdf".toList ≠ [] ∧ ¬".pdf".toList <:+ ['r'] ∧
      ¬conflictMarker <:+: ['r'] ++ conflictMarker.dropLast
    decide
  refine (pairsBack_iff _ 1 _ _ exampleSuffix ?_ rfl rfl (by decide) ?_ rfl).2 ⟨hread, ?_⟩
  · decide
  · exact ⟨by decide, exampleSuffix, rfl⟩
  · intro q hq hlike
    refine .inl ⟨hq, exampleSuffix, ?_⟩
    revert hlike
    revert q
    decide

/-- A name without an extension reads back with the hash for one. -/
theorem not_pairsBack_noExtension :
    ¬∀ (db : Db) (mountId : ℕ) (entry sibling : FileEntry) (suffix : ConflictSuffix),
      entry ∈ db.fileIndex.rows → entry.mountId = mountId → entry.parent.isSome = true →
        '/' ∉ entry.name → GeneratedFrom db mountId entry sibling →
          sibling.name = makeConflictName entry.name suffix →
            PairsBack db mountId entry sibling := by
  intro h
  have hpairs := h (indexOf (withConflict "Makefile".toList)) 1
    (rowOf (withConflict "Makefile".toList) "Makefile".toList)
    (rowOf (withConflict "Makefile".toList) (makeConflictName "Makefile".toList exampleSuffix))
    exampleSuffix (by decide) rfl rfl (by decide) ⟨by decide, exampleSuffix, rfl⟩ rfl
  have hfound := (hpairs.canonical _).2 rfl
  revert hfound
  decide

end Stratosync

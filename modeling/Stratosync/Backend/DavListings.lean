import Stratosync.Backend.DavDocuments

/-!
# What a listing over WebDAV finds

A tree that a server serves, a document for each of its collections, and the two promises of a
listing: `list_recursive` returns each file and directory of the tree under its path from the root,
and the parser takes from a document the members of its collection.

`lists_iff_and_reads_iff` says when each of them is kept. A listing is one request of depth 1, and
its paths begin with a slash: only the empty tree is listed as promised.
-/

namespace Stratosync

open Foundations.Search Foundations.Markup

/-! ## Trees and what is served of them -/

/-- A remote tree: the paths of its files and directories. -/
structure DavTree where
  nodes : List (List Str × Bool)
  nodup : (nodes.map Prod.fst).Nodup
  named : ∀ n ∈ nodes, n.1 ≠ [] ∧ ∀ c ∈ n.1, validateFilename c = true
  closed : ∀ n ∈ nodes, n.1.dropLast = [] ∨ (n.1.dropLast, true) ∈ nodes

namespace DavTree

variable (t : DavTree)

/-- The root or a directory. -/
def IsCollection (dir : List Str) : Prop := dir = [] ∨ (dir, true) ∈ t.nodes

instance instDecidableIsCollection (dir : List Str) : Decidable (t.IsCollection dir) :=
  inferInstanceAs (Decidable (_ ∨ _))

abbrev Collection := {dir : List Str // t.IsCollection dir}

def root : t.Collection := ⟨[], .inl rfl⟩

def children (dir : List Str) : List (List Str × Bool) :=
  t.nodes.filter fun n => n.1.dropLast = dir

end DavTree

/-- The last component of a path. -/
def lastName (path : List Str) : Str := path.getLast?.getD []

/-- The text of a remote path. -/
def pathText (path : List Str) : Str := if path = [] then ['/'] else joinPath path

/-- The document has a response for the collection and one for each member. -/
structure Multistatus.Describes (doc : Multistatus) (t : DavTree) (dir : List Str) : Prop where
  self_name : dir ≠ [] → doc.self.name.chars = lastName dir
  members : (doc.members.map fun r => (r.name.chars, r.isDir)).Perm
    ((t.children dir).map fun n => (lastName n.1, n.2))

/-- A server: its tree and its replies. -/
structure DavServer where
  tree : DavTree
  doc : tree.Collection → Multistatus
  describes : ∀ dir, (doc dir).Describes tree dir.1

namespace DavServer

variable (s : DavServer)

/-- The reply to a `PROPFIND` of depth 1. -/
def reply (path : Str) : Except SyncError Str :=
  if h : s.tree.IsCollection (components path) then .ok (s.doc ⟨components path, h⟩).text
  else .error .notFound

section

variable (parseHttpDate : Str → Option ℕ)

/-- **`list_recursive` returns one entry for each file and directory**, under its path. -/
def ListsAll : Prop :=
  ∃ l, webDavListRecursive parseHttpDate s.reply ['/'] = .ok l ∧
    (l.map fun e => (e.path, e.isDir)).Perm (s.tree.nodes.map fun n => (joinPath n.1, n.2))

/-- **The parser takes the members of the collection from its document.** -/
def Reads (dir : s.tree.Collection) : Prop :=
  ((parsePropfindList parseHttpDate (pathText dir.1) (s.doc dir).text).map
    fun e => (e.name, e.isDir)).Perm ((s.tree.children dir.1).map fun n => (lastName n.1, n.2))

end

/-- The href of the root is nothing but slashes. -/
def RootSkipped (dir : s.tree.Collection) : Prop := ∀ c ∈ (s.doc dir).self.href.seen, c = '/'

/-- Nothing is in the tree, and nothing is taken from the document of the root. -/
def Vacant : Prop :=
  s.tree.nodes = [] ∧
    ((s.doc s.tree.root).style.Readable → s.RootSkipped s.tree.root)

/-- The document has tags the parser looks for; the href of the collection is seen as its path; and
the name of no member is written with entities, is that of the collection, or makes a file look
like a directory. A document with other tags has no member. -/
def Plain (dir : s.tree.Collection) : Prop :=
  if (s.doc dir).style.Readable then
    (if dir.1 = [] then s.RootSkipped dir else (s.doc dir).self.name.Direct) ∧
      ∀ r ∈ (s.doc dir).members, r.name.Direct ∧ (dir.1 ≠ [] → r.name.chars ≠ lastName dir.1) ∧
        (r.isDir = false → isCollection r.content = false)
  else s.tree.children dir.1 = []

end DavServer

/-! ## Names of a document -/

/-- The name of a response as the parser sees it. -/
def DavResponse.seenName {st : DavStyle} (r : DavResponse st) : Str := lastSegment r.href.seen

/-- An entry has the name that is seen, unless it is that of the collection. -/
theorem key_of_propfindEntry {parseHttpDate : Str → Option ℕ} {parentPath : Str} {st : DavStyle}
    (hst : st.Readable) (r : DavResponse st) :
    (propfindEntry parseHttpDate parentPath r.content).map (fun e => (e.name, e.isDir)) =
      if r.seenName = [] ∨ r.seenName = (pathFileName parentPath).getD [] ∧ parentPath ≠ ['/'] then
        none
      else some (r.seenName, isCollection r.content) := by
  rw [propfindEntry, r.extract_href hst, Option.getD_some, HrefText.urlDecode_text,
    Option.getD_some]
  rw [DavResponse.seenName]
  by_cases hnil : lastSegment r.href.seen = []
  · simp only [hnil, if_true, true_or, Option.map_none]
  · by_cases hself : lastSegment r.href.seen = (pathFileName parentPath).getD [] ∧
      parentPath ≠ ['/']
    · simp only [if_neg hnil, if_pos hself, if_pos (Or.inr hself), Option.map_none]
    · have hnone : ¬(lastSegment r.href.seen = [] ∨
          lastSegment r.href.seen = (pathFileName parentPath).getD [] ∧ parentPath ≠ ['/']) :=
        fun h => h.elim hnil hself
      simp only [if_neg hnil, if_neg hself, if_neg hnone, Option.map_some]

theorem lastSegment_eq_nil {s : Str} : lastSegment s = [] ↔ ∀ c ∈ s, c = '/' := by
  have hiff : lastSegment s = [] ↔ s.rdropWhile (· = '/') = [] := by
    rw [lastSegment, List.rtakeWhile_eq_nil_iff]
    constructor
    · intro h
      by_contra hne
      have hlast := List.rdropWhile_last_not (fun c => decide (c = '/')) s hne
      exact h hne (by simpa using hlast)
    · intro h hne
      exact absurd h hne
  rw [hiff, List.rdropWhile_eq_nil_iff]
  simp

/-- The last component of a text is what follows its last slash, but for a slash at the end. -/
theorem lastSegment_append {a b : Str} (hne : b ≠ []) (hb : '/' ∉ b) (slash : Bool) :
    lastSegment (a ++ '/' :: b ++ if slash then ['/'] else []) = b := by
  have hdrop : (a ++ '/' :: b).rdropWhile (· = '/') = a ++ '/' :: b := by
    rw [List.rdropWhile_eq_self_iff]
    intro hl h
    have hlast : (a ++ '/' :: b).getLast hl = b.getLast hne := by
      rw [List.getLast_append_of_ne_nil _ (List.cons_ne_nil _ _), List.getLast_cons hne]
    rw [hlast, decide_eq_true_eq] at h
    exact hb (h ▸ List.getLast_mem hne)
  have htake : (a ++ '/' :: b).rtakeWhile (· ≠ '/') = b := rtakeWhile_append_cons hb
  cases slash with
  | false => simpa [lastSegment, hdrop] using htake
  | true =>
    rw [if_pos rfl, lastSegment, List.rdropWhile_concat_pos _ _ _ (by simp), hdrop]
    exact htake

/-- A name without a slash is seen as such. -/
theorem DavResponse.seenName_eq {st : DavStyle} (r : DavResponse st) (hne : r.name.chars ≠ []) :
    r.seenName = r.name.seen := by
  have hslash : '/' ∉ r.name.seen := by
    intro h
    obtain ⟨x, hx, hc⟩ := List.mem_flatMap.1 h
    have hx' : x.char ≠ '/' := fun he => r.name_plain (he ▸ List.mem_map_of_mem hx)
    cases x with
    | raw c | encoded c => exact hx' (List.mem_singleton.1 hc).symm
    | entity c name plain =>
      simp only [HrefChar.seen, List.mem_cons, List.mem_append, List.not_mem_nil, or_false] at hc
      rcases hc with h | h | h
      · cases h
      · exact (plain _ h).2 rfl
      · cases h
  have hseen : r.name.seen ≠ [] := by
    intro h
    have hle := r.name.length_seen_le
    rw [h] at hle
    exact hne (List.length_eq_zero_iff.1 (Nat.le_zero.1 hle))
  have htext : r.href.seen = r.above.seen ++ '/' :: r.name.seen ++
      (if r.slash then ['/'] else []) := by
    cases hs : r.slash <;> simp [href, HrefText.seen, HrefChar.seen, hs]
  rw [seenName, htext, lastSegment_append hseen hslash]

/-! ## Which responses are taken for the collection -/

/-- The lists of names have the same sum of lengths and the same length only if no name was seen
longer than it is and nothing but the collection was left out. -/
theorem seen_of_perm {ρ : Type*} {l : List ρ} {self : ρ} {name seen : ρ → Str} {p : Str}
    (hself : p.length ≤ (seen self).length) (hle : ∀ r ∈ l, (name r).length ≤ (seen r).length)
    (hperm : (((self :: l).map seen).filter (· ≠ p)).Perm (l.map name)) :
    (seen self).length = p.length ∧ (∀ r ∈ l, (seen r).length = (name r).length) ∧
      (seen self = p → ∀ r ∈ l, seen r ≠ p) := by
  have hcount : ∀ m : List Str, (m.filter (· ≠ p)).length + m.count p = m.length ∧
      ((m.filter (· ≠ p)).map List.length).sum + m.count p * p.length =
        (m.map List.length).sum := by
    intro m
    induction m with
    | nil => simp
    | cons x m ih =>
      by_cases hx : x = p
      · subst hx
        rw [List.filter_cons_of_neg (by simp), List.count_cons_self]
        simp only [List.length_cons, List.map_cons, List.sum_cons, Nat.add_mul, Nat.one_mul]
        omega
      · rw [List.filter_cons_of_pos (by simp [hx]), List.count_cons_of_ne hx]
        simp only [List.length_cons, List.map_cons, List.sum_cons]
        omega
  obtain ⟨hlength, hsum⟩ := hcount ((self :: l).map seen)
  have hlength' := hperm.length_eq
  have hsum' := (hperm.map List.length).sum_nat
  rw [hsum'] at hsum
  rw [hlength', List.length_map, List.length_map, List.length_cons] at hlength
  have hone : ((self :: l).map seen).count p = 1 := by omega
  rw [hone, Nat.one_mul, List.map_map, List.map_map, List.map_cons, List.sum_cons] at hsum
  have hsums : ∀ k : List ρ, (∀ r ∈ k, (name r).length ≤ (seen r).length) →
      (k.map (List.length ∘ name)).sum ≤ (k.map (List.length ∘ seen)).sum ∧
        ((k.map (List.length ∘ name)).sum = (k.map (List.length ∘ seen)).sum →
          ∀ r ∈ k, (seen r).length = (name r).length) := by
    intro k hk
    induction k with
    | nil => simp
    | cons r k ih =>
      obtain ⟨hle', heq'⟩ := ih fun x hx => hk x (List.mem_cons_of_mem r hx)
      have hr := hk r List.mem_cons_self
      simp only [List.map_cons, List.sum_cons, Function.comp_apply]
      refine ⟨by omega, fun h x hx => ?_⟩
      rcases List.mem_cons.1 hx with rfl | hx
      · omega
      · exact heq' (by omega) x hx
  obtain ⟨hle', heq'⟩ := hsums l hle
  simp only [Function.comp_apply] at hsum
  refine ⟨by omega, heq' (by omega), fun hp r hr he => ?_⟩
  rw [List.map_cons, hp, List.count_cons_self] at hone
  have hzero : (l.map seen).count p = 0 := by omega
  exact List.count_eq_zero.1 hzero (he ▸ List.mem_map_of_mem hr)

/-! ## Names and paths of a tree -/

theorem validateFilename_iff {c : Str} :
    validateFilename c = true ↔ c ≠ [] ∧ c ≠ ['.'] ∧ c ≠ ['.', '.'] ∧ '/' ∉ c ∧ '\x00' ∉ c := by
  simp [validateFilename, and_assoc]

theorem components_pathText {dir : List Str} (h : ∀ c ∈ dir, validateFilename c = true) :
    components (pathText dir) = dir := by
  rw [pathText]
  split
  · rename_i hdir
    rw [hdir]
    decide
  · rename_i hdir
    have hsplit : (joinPath dir).splitOn '/' = dir :=
      List.splitOn_intercalate '/' (fun c hc => (validateFilename_iff.1 (h c hc)).2.2.2.1) hdir
    rw [components, hsplit, List.filter_eq_self]
    intro c hc
    have hc := validateFilename_iff.1 (h c hc)
    simp [hc.1, hc.2.1]

/-- The name with which the parser compares those of the responses. -/
theorem pathFileName_pathText {dir : List Str} (h : ∀ c ∈ dir, validateFilename c = true) :
    (pathFileName (pathText dir)).getD [] = lastName dir := by
  rw [pathFileName, components_pathText h, lastName]
  cases hl : dir.getLast? with
  | none => rfl
  | some c =>
    have hc := (validateFilename_iff.1 (h c (List.mem_of_getLast? hl))).2.2.1
    rw [Option.filter_some, if_pos (by simp [hc])]

theorem lastName_ne_nil {dir : List Str} (h : ∀ c ∈ dir, validateFilename c = true)
    (hne : dir ≠ []) : lastName dir ≠ [] := by
  rw [lastName, List.getLast?_eq_some_getLast hne, Option.getD_some]
  exact (validateFilename_iff.1 (h _ (List.getLast_mem hne))).1

namespace DavTree

variable {t : DavTree}

theorem named_collection (dir : t.Collection) : ∀ c ∈ dir.1, validateFilename c = true := by
  rcases dir.2 with h | h
  · simp [h]
  · exact (t.named _ h).2

/-- The children of a collection have different names. -/
theorem nodup_children (dir : List Str) :
    ((t.children dir).map fun n => lastName n.1).Nodup := by
  have hpaths : ((t.children dir).map Prod.fst).Nodup :=
    t.nodup.sublist ((List.filter_sublist (l := t.nodes)).map Prod.fst)
  have hmap : (t.children dir).map Prod.fst =
      ((t.children dir).map fun n => lastName n.1).map fun c => dir ++ [c] := by
    rw [List.map_map]
    refine List.map_congr_left fun n hn => ?_
    obtain ⟨hn, hdir⟩ := List.mem_filter.1 hn
    have hne := (t.named n hn).1
    have hdir : n.1.dropLast = dir := by simpa using hdir
    rw [Function.comp_apply, lastName, List.getLast?_eq_some_getLast hne, Option.getD_some, ← hdir,
      List.dropLast_append_getLast]
  rw [hmap] at hpaths
  exact hpaths.of_map _

end DavTree

/-! ## The entries of a document -/

section

variable {s : DavServer} {dir : s.tree.Collection} {parseHttpDate : Str → Option ℕ}

/-- The names of the members are those of the children. -/
theorem DavServer.name_mem {r : DavResponse (s.doc dir).style} (hr : r ∈ (s.doc dir).members) :
    ∃ n ∈ s.tree.children dir.1, lastName n.1 = r.name.chars := by
  have hmem := (s.describes dir).members.mem_iff.1 (List.mem_map_of_mem hr)
  obtain ⟨n, hn, he⟩ := List.mem_map.1 hmem
  exact ⟨n, hn, (Prod.mk.inj he).1⟩

theorem DavServer.name_ne_nil {r : DavResponse (s.doc dir).style}
    (hr : r ∈ (s.doc dir).members) : r.name.chars ≠ [] := by
  obtain ⟨n, hn, he⟩ := s.name_mem hr
  have hnode := s.tree.named n (List.mem_filter.1 hn).1
  exact he ▸ lastName_ne_nil hnode.2 hnode.1

/-- No two members have the same name. -/
theorem DavServer.nodup_members :
    ((s.doc dir).members.map fun r => r.name.chars).Nodup := by
  have hperm := (s.describes dir).members.map Prod.fst
  rw [List.map_map, List.map_map] at hperm
  exact hperm.nodup_iff.2 (DavTree.nodup_children dir.1)

/-- What is seen of the collection is not shorter than the name with which it is compared. -/
theorem DavServer.length_self (s : DavServer) (dir : s.tree.Collection) :
    (lastName dir.1).length ≤ (s.doc dir).self.seenName.length := by
  by_cases hdir : dir.1 = []
  · rw [hdir]
    exact Nat.zero_le _
  · have hname := (s.describes dir).self_name hdir
    have hne : (s.doc dir).self.name.chars ≠ [] :=
      hname ▸ lastName_ne_nil (DavTree.named_collection dir) hdir
    rw [(s.doc dir).self.seenName_eq hne, ← hname]
    exact (s.doc dir).self.name.length_seen_le

/-- A response of a readable document gives an entry unless its name is seen as the collection's. -/
theorem DavServer.key_of_response (hst : (s.doc dir).style.Readable)
    {r : DavResponse (s.doc dir).style} (hr : r ∈ (s.doc dir).self :: (s.doc dir).members) :
    (propfindEntry parseHttpDate (pathText dir.1) r.content).map (fun e => (e.name, e.isDir)) =
      if r.seenName = lastName dir.1 then none else some (r.seenName, isCollection r.content) := by
  rw [key_of_propfindEntry hst, pathFileName_pathText (DavTree.named_collection dir)]
  refine if_congr ?_ rfl rfl
  by_cases hdir : dir.1 = []
  · simp [hdir, lastName, pathText]
  · have hlast := lastName_ne_nil (DavTree.named_collection dir) hdir
    have hseen : r.seenName ≠ [] := by
      intro h
      rcases List.mem_cons.1 hr with rfl | hr
      · have hle := s.length_self dir
        rw [h] at hle
        exact hlast (List.length_eq_zero_iff.1 (Nat.le_zero.1 hle))
      · have hle := r.name.length_seen_le
        rw [← r.seenName_eq (s.name_ne_nil hr), h] at hle
        exact s.name_ne_nil hr (List.length_eq_zero_iff.1 (Nat.le_zero.1 hle))
    have hroot : pathText dir.1 ≠ ['/'] := by
      intro h
      have hc := components_pathText (DavTree.named_collection dir)
      rw [h] at hc
      exact hdir (hc.symm.trans (by decide))
    simp [hseen, hroot]

/-- The entries that are taken from a readable document. -/
theorem DavServer.keys_perm (parseHttpDate : Str → Option ℕ)
    (hst : (s.doc dir).style.Readable) :
    ((parsePropfindList parseHttpDate (pathText dir.1) (s.doc dir).text).map
        fun e => (e.name, e.isDir)).Perm
      (((s.doc dir).self :: (s.doc dir).members).filterMap fun r =>
        if r.seenName = lastName dir.1 then none
        else some (r.seenName, isCollection r.content)) := by
  have hresp : (s.doc dir).responses.Perm ((s.doc dir).self :: (s.doc dir).members) :=
    List.perm_middle
  rw [parsePropfindList_eq, if_pos hst, List.map_filterMap]
  refine (hresp.filterMap _).trans (.of_eq (List.filterMap_congr fun r hr => ?_))
  exact s.key_of_response hst hr

/-- A directory looks like one. -/
theorem isCollection_of_isDir {st : DavStyle} (hst : st.Readable) (r : DavResponse st)
    (hdir : r.isDir = true) : isCollection r.content = true := by
  have hrest : r.rest <:+: r.content := by
    have hassoc : r.content = (r.lead ++ (tagOf (st.pfx ++ "href".toList) ++ (r.href.text ++
        tagOf ('/' :: (st.pfx ++ "href".toList))))) ++ r.rest := by
      simp [DavResponse.content]
    rw [hassoc]
    exact (List.suffix_append _ _).isInfix
  have hin := containsText_iff.2 ((r.collection hdir).trans hrest)
  rcases hst.1 with h | h <;> rw [h] at hin
  · change containsText r.content "<D:collection".toList = true at hin
    rw [isCollection, hin, Bool.true_or, Bool.true_or]
  · change containsText r.content "<d:collection".toList = true at hin
    rw [isCollection, hin, Bool.or_true, Bool.true_or]

theorem filterMap_keys_fst {ρ κ : Type*} (seen : ρ → Str) (kind : ρ → κ) (p : Str) (l : List ρ) :
    (l.filterMap fun r => if seen r = p then none else some (seen r, kind r)).map Prod.fst =
      (l.map seen).filter (· ≠ p) := by
  induction l with
  | nil => rfl
  | cons r l ih =>
    by_cases h : seen r = p
    · simp [h, ih]
    · simp [h, ih]

/-- If only the collection is taken for itself, the entries are what is seen of the members. -/
theorem filterMap_keys {ρ κ : Type*} {seen : ρ → Str} {kind : ρ → κ} {p : Str} {self : ρ}
    {l : List ρ} (hself : seen self = p) (hl : ∀ r ∈ l, seen r ≠ p) :
    ((self :: l).filterMap fun r => if seen r = p then none else some (seen r, kind r)) =
      l.map fun r => (seen r, kind r) := by
  have hrest : ∀ r ∈ l, (if seen r = p then none else some (seen r, kind r)) =
      some (seen r, kind r) := fun r hr => if_neg (hl r hr)
  simp only [List.filterMap_cons, if_pos hself, List.filterMap_congr hrest]
  exact congrFun List.filterMap_eq_map l

/-- What is seen of the collection is the name with which it is compared. -/
theorem DavServer.self_iff (s : DavServer) (dir : s.tree.Collection) :
    (s.doc dir).self.seenName = lastName dir.1 ↔
      if dir.1 = [] then s.RootSkipped dir else (s.doc dir).self.name.Direct := by
  by_cases hdir : dir.1 = []
  · rw [if_pos hdir, hdir]
    exact lastSegment_eq_nil
  · have hname := (s.describes dir).self_name hdir
    have hne : (s.doc dir).self.name.chars ≠ [] :=
      hname ▸ lastName_ne_nil (DavTree.named_collection dir) hdir
    rw [if_neg hdir, (s.doc dir).self.seenName_eq hne, ← hname]
    exact HrefText.seen_eq_chars_iff

/-- **The parser takes the members from a document exactly when it is plain.** -/
theorem DavServer.reads_iff (s : DavServer) (dir : s.tree.Collection) :
    s.Reads parseHttpDate dir ↔ s.Plain dir := by
  rw [Plain]
  by_cases hst : (s.doc dir).style.Readable
  swap
  · rw [if_neg hst, Reads, parsePropfindList_eq, if_neg hst, List.map_nil, List.nil_perm,
      List.map_eq_nil_iff]
  have hkeys := DavServer.keys_perm parseHttpDate hst
  have hmembers := (s.describes dir).members
  have hseen : ∀ r ∈ (s.doc dir).members, r.seenName = r.name.seen := fun r hr =>
    r.seenName_eq (s.name_ne_nil hr)
  rw [if_pos hst, ← s.self_iff dir]
  constructor
  · intro h
    have hall := (hkeys.symm.trans h).trans hmembers.symm
    have hnames := hall.map Prod.fst
    rw [filterMap_keys_fst, List.map_map] at hnames
    obtain ⟨hself, hlength, hothers⟩ := seen_of_perm (s.length_self dir)
      (fun r hr => by rw [hseen r hr]; exact r.name.length_seen_le) hnames
    have hdirect : ∀ r ∈ (s.doc dir).members, r.name.Direct := by
      intro r hr
      by_contra hd
      have hlt := HrefText.length_seen_lt hd
      have hle := hlength r hr
      rw [hseen r hr] at hle
      exact absurd hle (Nat.ne_of_gt hlt)
    have hskipped : (s.doc dir).self.seenName = lastName dir.1 := by
      refine (s.self_iff dir).2 ?_
      split
      · rename_i hdir
        rw [hdir] at hself
        exact lastSegment_eq_nil.1 (List.length_eq_zero_iff.1 hself)
      · rename_i hdir
        have hname := (s.describes dir).self_name hdir
        by_contra hd
        have hlt := HrefText.length_seen_lt hd
        have hne : (s.doc dir).self.name.chars ≠ [] :=
          hname ▸ lastName_ne_nil (DavTree.named_collection dir) hdir
        rw [(s.doc dir).self.seenName_eq hne, ← hname] at hself
        exact absurd hself (Nat.ne_of_gt hlt)
    refine ⟨hskipped, fun r hr => ⟨hdirect r hr, fun _ => ?_, fun hfile => ?_⟩⟩
    · rw [← HrefText.seen_of_direct (hdirect r hr), ← hseen r hr]
      exact hothers hskipped r hr
    · rw [filterMap_keys hskipped (hothers hskipped)] at hall
      obtain ⟨r', hr', he⟩ := List.mem_map.1 (hall.mem_iff.1 (List.mem_map_of_mem hr))
      obtain ⟨hchars, hkind⟩ := Prod.mk.inj he
      rw [hseen r hr, HrefText.seen_of_direct (hdirect r hr)] at hchars
      obtain rfl := List.inj_on_of_nodup_map s.nodup_members hr' hr hchars
      exact hkind.symm.trans hfile
  · rintro ⟨hskipped, hplain⟩
    have hchars : ∀ r ∈ (s.doc dir).members, r.seenName = r.name.chars := fun r hr =>
      (hseen r hr).trans (HrefText.seen_of_direct (hplain r hr).1)
    have hothers : ∀ r ∈ (s.doc dir).members, r.seenName ≠ lastName dir.1 := by
      intro r hr
      rw [hchars r hr]
      by_cases hdir : dir.1 = []
      · rw [hdir]
        exact s.name_ne_nil hr
      · exact (hplain r hr).2.1 hdir
    rw [filterMap_keys hskipped hothers] at hkeys
    refine (hkeys.trans (.of_eq (List.map_congr_left fun r hr => ?_))).trans hmembers
    rw [hchars r hr, Prod.mk.injEq]
    refine ⟨rfl, ?_⟩
    cases hkind : r.isDir with
    | true => exact isCollection_of_isDir hst r hkind
    | false => exact (hplain r hr).2.2 hkind

end

/-! ## The listing of the whole tree -/

section

variable (s : DavServer) (parseHttpDate : Str → Option ℕ)

theorem DavServer.listRecursive_eq :
    webDavListRecursive parseHttpDate s.reply ['/'] =
      .ok (parsePropfindList parseHttpDate ['/'] (s.doc s.tree.root).text) := by
  have hroot : components ['/'] = [] := by decide
  have hcoll : s.tree.IsCollection (components ['/']) := .inl hroot
  have hdir : (⟨components ['/'], hcoll⟩ : s.tree.Collection) = s.tree.root := Subtype.ext hroot
  rw [webDavListRecursive, webDavList, reply, dif_pos hcoll, hdir]
  rfl

/-- The paths of the entries of the root begin with a slash. -/
theorem path_of_parsePropfindList {xml : Str} {e : RemoteMetadata}
    (he : e ∈ parsePropfindList parseHttpDate ['/'] xml) : ∃ name, e.path = '/' :: name := by
  rw [parsePropfindList] at he
  split at he
  · cases he
  · obtain ⟨chunk, -, he⟩ := List.mem_filterMap.1 he
    rw [propfindEntry] at he
    split at he
    · cases he
    split at he
    · cases he
    · obtain rfl := Option.some.inj he
      exact ⟨_, rfl⟩

/-- Those of the tree do not. -/
theorem joinPath_ne_cons_slash {path : List Str} {name : Str} (hne : path ≠ [])
    (h : ∀ c ∈ path, validateFilename c = true) : joinPath path ≠ '/' :: name := by
  cases path with
  | nil => exact absurd rfl hne
  | cons c path =>
    obtain ⟨hc, -, -, hslash, -⟩ := validateFilename_iff.1 (h c List.mem_cons_self)
    cases c with
    | nil => exact absurd rfl hc
    | cons x c =>
      intro he
      have hhead := congrArg List.head? he
      have hx : (joinPath ((x :: c) :: path)).head? = some x := by
        cases path <;> rfl
      rw [hx] at hhead
      exact hslash (by rw [Option.some.inj hhead]; exact List.mem_cons_self)

/-- **Only the empty tree is listed as promised.** -/
theorem DavServer.listsAll_iff : s.ListsAll parseHttpDate ↔ s.Vacant := by
  have hempty : s.tree.nodes = [] →
      (s.Plain s.tree.root ↔ ((s.doc s.tree.root).style.Readable → s.RootSkipped s.tree.root)) := by
    intro hnodes
    have hchildren : ∀ dir, s.tree.children dir = [] := fun dir => by
      rw [DavTree.children, hnodes, List.filter_nil]
    have hmembers : (s.doc s.tree.root).members = [] := by
      have := (s.describes s.tree.root).members
      rw [hchildren, List.map_nil, List.perm_nil, List.map_eq_nil_iff] at this
      exact this
    rw [Plain]
    split
    · rename_i hst
      rw [hmembers]
      change (if s.tree.root.1 = [] then _ else _) ∧ _ ↔ _
      rw [if_pos (show s.tree.root.1 = [] from rfl)]
      simp [hst]
    · rename_i hst
      simp [hst, hchildren]
  have hreads : s.tree.nodes = [] → (s.ListsAll parseHttpDate ↔
      s.Reads parseHttpDate s.tree.root) := by
    intro hnodes
    have hchildren : s.tree.children s.tree.root.1 = [] := by
      rw [DavTree.children, hnodes, List.filter_nil]
    rw [ListsAll, Reads, listRecursive_eq, hnodes, hchildren, List.map_nil, List.map_nil]
    constructor
    · rintro ⟨l, hl, h⟩
      obtain rfl := Except.ok.inj hl
      rw [List.perm_nil, List.map_eq_nil_iff] at h ⊢
      exact h
    · intro h
      refine ⟨_, rfl, ?_⟩
      rw [List.perm_nil, List.map_eq_nil_iff] at h ⊢
      exact h
  constructor
  · intro h
    have hnodes : s.tree.nodes = [] := by
      obtain ⟨l, hl, hperm⟩ := h
      rw [listRecursive_eq] at hl
      obtain rfl := Except.ok.inj hl
      refine List.eq_nil_iff_forall_not_mem.2 fun n hn => ?_
      obtain ⟨e, he, hkey⟩ := List.mem_map.1 (hperm.mem_iff.2 (List.mem_map_of_mem hn))
      obtain ⟨name, hpath⟩ := path_of_parsePropfindList parseHttpDate he
      have hnamed := s.tree.named n hn
      exact joinPath_ne_cons_slash hnamed.1 hnamed.2 ((Prod.mk.inj hkey).1.symm.trans hpath)
    exact ⟨hnodes, (hempty hnodes).1 ((s.reads_iff _).1 ((hreads hnodes).1 h))⟩
  · rintro ⟨hnodes, hroot⟩
    exact (hreads hnodes).2 ((s.reads_iff _).2 ((hempty hnodes).2 hroot))

/-- **A listing keeps its first promise for the empty tree only, and the second for the
collections whose documents are plain.** -/
theorem DavServer.lists_iff_and_reads_iff :
    (s.ListsAll parseHttpDate ↔ s.Vacant) ∧
      ∀ dir, s.Reads parseHttpDate dir ↔ s.Plain dir :=
  ⟨s.listsAll_iff parseHttpDate, s.reads_iff⟩

end

/-! ## A directory with a file of its name -/

def dStyle : DavStyle where
  pfx := "D:".toList
  attrs := []
  pfx_plain := by simp
  attrs_plain := by decide
  attrs_blank := by simp

/-- What is said of a directory. -/
def dirProps : Str := "<D:resourcetype><D:collection/></D:resourcetype>".toList

def rootResponse : DavResponse dStyle where
  lead := []
  above := []
  name := []
  slash := false
  rest := dirProps
  trail := []
  isDir := true
  lead_plain := by decide
  trail_plain := by decide
  name_plain := by decide
  rest_closed := by decide
  onePrefix := by decide
  collection := by decide

/-- `/d/`. -/
def dirResponse : DavResponse dStyle :=
  { rootResponse with name := [.raw 'd' rfl], slash := true, name_plain := by decide }

/-- `/d/d`. -/
def innerResponse : DavResponse dStyle :=
  { dirResponse with
    above := rootResponse.href ++ dirResponse.name, slash := false, rest := [], isDir := false
    rest_closed := by decide, onePrefix := by decide, collection := by decide }

/-- A document with one member. -/
def oneMember (self member : DavResponse dStyle) : Multistatus where
  style := dStyle
  preamble := "<D:multistatus xmlns:D='DAV:'>".toList
  front := []
  self := self
  back := [member]
  tail := "</D:multistatus>".toList
  preamble_closed := by decide
  tail_closed := by decide
  tail_tag := by decide

/-- The directory `d` with the file `d/d`. -/
def nestedTree : DavTree where
  nodes := [([['d']], true), ([['d'], ['d']], false)]
  nodup := by decide
  named := by decide
  closed := by decide

def nestedServer : DavServer where
  tree := nestedTree
  doc := fun dir =>
    if dir.1 = [] then oneMember rootResponse dirResponse else oneMember dirResponse innerResponse
  describes := by
    rintro ⟨dir, rfl | h⟩
    · exact ⟨fun h => absurd rfl h, .of_eq rfl⟩
    · simp only [nestedTree, List.mem_cons, Prod.mk.injEq, and_true, List.not_mem_nil, or_false,
        reduceCtorEq, and_false] at h
      subst h
      exact ⟨fun _ => rfl, .of_eq rfl⟩

/-- Neither the directory nor the file is listed under its path. -/
theorem not_lists_nestedServer :
    ¬(nestedServer.ListsAll (fun _ => none) ∧
      ∀ dir, nestedServer.Reads (fun _ => none) dir) := by
  rintro ⟨h, -⟩
  obtain ⟨hnodes, -⟩ := (nestedServer.listsAll_iff fun _ => none).1 h
  cases hnodes

end Stratosync

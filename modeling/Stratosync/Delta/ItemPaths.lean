import Stratosync.Delta.OneDrive

/-!
# Item paths and the mount root

`resolve_item_path` compares the text of an item's path with that of the mount root, not their
components. `resolvesExactly_iff` says for which items this comes to the same: those where no name
goes on behind the text of the root, as in a sibling folder whose name begins with the root's last
name, where the root and the item's folders are spelled alike, and where what follows has no empty
component.
-/

namespace Stratosync

open Foundations.Fields

/-- The forms of the parent path that are known, with the path text below the drive's root. -/
inductive ParentForm : Str → Str → Prop
  | defaultDrive (path : Str) : ParentForm ("/drive/root:".toList ++ path) path
  | defaultRoot : ParentForm "/drive/root".toList []
  | drive {id : Str} (path : Str) (hid : '/' ∉ id) :
      ParentForm ("/drives/".toList ++ (id ++ ("/root:".toList ++ path))) path
  | driveRoot {id : Str} (hid : '/' ∉ id) :
      ParentForm ("/drives/".toList ++ (id ++ "/root".toList)) []

/-- The path text of an item below the drive's root. -/
def itemText (parentPath name : Str) : Str :=
  if parentPath = [] then name else trimStartSlash parentPath ++ '/' :: name

namespace OneDriveDelta

/-- **The path of an item is resolved exactly**: it is below the mount root when the components of
its path are those of the root and more, and its path there is those joined by `/`. -/
def ResolvesExactly (d : OneDriveDelta) (item : OneDriveItem) (path : List Str) : Prop :=
  ∀ rel, d.resolveItemPath item = some rel ↔
    ∃ rest, rest ≠ [] ∧ path = fields '/' d.rootPath ++ rest ∧ rel = joinPath rest

/-- The text of an item's path decides like its components. -/
structure RootText (d : OneDriveDelta) (text : Str) : Prop where
  /-- No name goes on behind the text of the root. -/
  boundary : ∀ rest, text = trimStartSlash d.rootPath ++ rest → (∃ c ∈ rest, c ≠ '/') →
    Cut '/' (trimStartSlash d.rootPath) rest
  /-- Below the root the text begins with that of the root. -/
  spelled : fields '/' d.rootPath <+: fields '/' text → fields '/' d.rootPath ≠ fields '/' text →
    trimStartSlash d.rootPath <+: text
  /-- What follows has no empty component, the slashes at its beginning aside. -/
  tidy : ∀ rest, text = trimStartSlash d.rootPath ++ rest → (∃ c ∈ rest, c ≠ '/') →
    [] ∉ (trimStartSlash rest).splitOn '/'
  /-- Under the drive's root it has none at all. -/
  tidyTop : d.rootPath = [] ∨ d.rootPath = ['/'] → [] ∉ text.splitOn '/'

end OneDriveDelta

/-! ## The forms of the parent path -/

variable {raw path name : Str}

theorem isPrefixOf?_append (pre s : Str) : pre.isPrefixOf? (pre ++ s) = some s :=
  List.isPrefixOf?_eq_some_iff_append_eq.2 rfl

theorem dropWhile_append_cons {id s : Str} (hid : '/' ∉ id) :
    (id ++ '/' :: s).dropWhile (· ≠ '/') = '/' :: s := by
  rw [List.dropWhile_append_of_pos]
  · simp
  · intro c hc
    simp only [decide_eq_true_eq]
    rintro rfl
    exact hid hc

/-- **The known forms** are those the prefix is stripped from. -/
theorem strip_eq_some_iff : stripOneDriveRootPrefix raw = some path ↔ ParentForm raw path := by
  constructor
  · intro h
    rw [stripOneDriveRootPrefix] at h
    split at h
    · rename_i rest hrest
      obtain rfl := Option.some.inj h
      rw [← List.isPrefixOf?_eq_some_iff_append_eq.1 hrest]
      exact .defaultDrive _
    · split at h
      · rename_i hroot
        obtain rfl := Option.some.inj h
        exact hroot ▸ .defaultRoot
      · obtain ⟨after, hafter, h⟩ := Option.bind_eq_some_iff.1 h
        rw [← List.isPrefixOf?_eq_some_iff_append_eq.1 hafter]
        rw [← List.takeWhile_append_dropWhile (p := (· ≠ '/')) (l := after)]
        have hid : '/' ∉ after.takeWhile (· ≠ '/') := fun hmem => by
          simpa using List.mem_takeWhile_imp hmem
        dsimp only at h
        split at h
        · rename_i rest hrest
          obtain rfl := Option.some.inj h
          rw [← List.isPrefixOf?_eq_some_iff_append_eq.1 hrest]
          exact .drive _ hid
        · split at h
          · rename_i hroot
            obtain rfl := Option.some.inj h
            rw [hroot]
            exact .driveRoot hid
          · cases h
  · have hform : ∀ s, stripOneDriveRootPrefix ("/drives/".toList ++ s) =
        ("/root:".toList.isPrefixOf? (s.dropWhile (· ≠ '/'))).or
          (if s.dropWhile (· ≠ '/') = "/root".toList then some [] else none) := by
      intro s
      have hdefault : "/drive/root:".toList.isPrefixOf? ("/drives/".toList ++ s) = none := rfl
      have hroot : "/drives/".toList ++ s ≠ "/drive/root".toList := by
        intro h
        cases h
      rw [stripOneDriveRootPrefix, hdefault]
      dsimp only
      rw [if_neg hroot, isPrefixOf?_append, Option.bind_some]
      cases "/root:".toList.isPrefixOf? (s.dropWhile (· ≠ '/')) <;> rfl
    rintro (path | _ | @⟨id, path, hid⟩ | @⟨id, hid⟩)
    · simp only [stripOneDriveRootPrefix, isPrefixOf?_append]
    · rfl
    · have hdrop : (id ++ ("/root:".toList ++ path)).dropWhile (· ≠ '/') =
          "/root:".toList ++ path := dropWhile_append_cons hid
      rw [hform, hdrop, isPrefixOf?_append, Option.some_or]
    · have hdrop : (id ++ "/root".toList).dropWhile (· ≠ '/') = "/root".toList :=
        dropWhile_append_cons hid
      rw [hform, hdrop]
      rfl

/-! ## Components and text -/

theorem fields_itemText (parentPath name : Str) :
    fields '/' (itemText parentPath name) = fields '/' parentPath ++ fields '/' name := by
  rw [itemText]
  split
  · rename_i h
    rw [h, fields_nil, List.nil_append]
  · rw [fields_append_cons, trimStartSlash, fields_dropWhile]

/-- A text is its fields joined, if it has no empty component. -/
theorem joinPath_fields_iff {s : Str} (h : fields '/' s ≠ []) :
    joinPath (fields '/' s) = s ↔ [] ∉ s.splitOn '/' := by
  constructor
  · intro hs hmem
    have hsplit : s.splitOn '/' = fields '/' s := by
      conv_lhs => rw [← hs]
      exact List.splitOn_intercalate '/' (fun f hf => not_mem_of_mem_fields hf) h
    rw [hsplit] at hmem
    simp [fields] at hmem
  · intro hs
    rw [fields_eq_splitOn hs, joinPath, List.intercalate_splitOn]

namespace OneDriveDelta

variable {d : OneDriveDelta} {item : OneDriveItem} {text rest : Str}

theorem fields_trimStart_root :
    fields '/' (trimStartSlash d.rootPath) = fields '/' d.rootPath := by
  rw [trimStartSlash, fields_dropWhile]

theorem fields_root_of_top (hroot : d.rootPath = [] ∨ d.rootPath = ['/']) :
    fields '/' d.rootPath = [] := by
  obtain h | h := hroot <;> rw [h] <;> decide

theorem exists_ne_slash_iff {s : Str} : (∃ c ∈ s, c ≠ '/') ↔ fields '/' s ≠ [] := by
  rw [Ne, fields_eq_nil_iff]
  push Not
  rfl

/-- Behind the text of the root, below the drive's root. -/
theorem restOf_append (hroot : ¬(d.rootPath = [] ∨ d.rootPath = ['/'])) :
    d.restOf (trimStartSlash d.rootPath ++ rest) = trimStartSlash rest := by
  rw [restOf, if_neg hroot, List.drop_left]

/-- Under the drive's root every text is resolved to itself. -/
theorem resolvesExactly_top_iff (htext : item.fullPath = some text)
    (hroot : d.rootPath = [] ∨ d.rootPath = ['/']) :
    d.ResolvesExactly item (fields '/' text) ↔ [] ∉ text.splitOn '/' := by
  have hresolve : ∀ rel, d.resolveItemPath item = some rel ↔ rel = text := by
    intro rel
    rw [resolveItemPath, htext, Option.bind_some, belowRoot, if_pos hroot, Option.some.injEq,
      eq_comm]
  unfold ResolvesExactly
  simp only [hresolve, fields_root_of_top hroot, List.nil_append]
  constructor
  · intro h
    obtain ⟨rest, hrest, hfields, htext⟩ := (h text).1 rfl
    exact (joinPath_fields_iff (hfields ▸ hrest)).1 (hfields ▸ htext.symm)
  · intro h rel
    have hne : fields '/' text ≠ [] := by
      rw [fields_eq_splitOn h]
      exact List.splitOn_ne_nil '/' text
    have hjoin := (joinPath_fields_iff hne).2 h
    constructor
    · rintro rfl
      exact ⟨_, hne, rfl, hjoin.symm⟩
    · rintro ⟨rest, -, rfl, rfl⟩
      exact hjoin

/-- Below another root the text is to begin as the root's does, in whole components. -/
theorem resolvesExactly_below_iff (htext : item.fullPath = some text)
    (hroot : ¬(d.rootPath = [] ∨ d.rootPath = ['/'])) :
    d.ResolvesExactly item (fields '/' text) ↔ d.RootText text := by
  have hresolve : ∀ rel, d.resolveItemPath item = some rel ↔
      d.InText text ∧ rel = d.restOf text := by
    intro rel
    rw [resolveItemPath, htext, Option.bind_some, belowRoot_eq_some_iff]
  have hin : d.InText text ↔
      ∃ rest, text = trimStartSlash d.rootPath ++ rest ∧ ∃ c ∈ rest, c ≠ '/' := by
    rw [InText, ← or_assoc, or_iff_right hroot]
  unfold ResolvesExactly
  simp only [hresolve]
  constructor
  · intro h
    -- what the code finds in the text is there by its components
    have hfound : ∀ rest, text = trimStartSlash d.rootPath ++ rest → (∃ c ∈ rest, c ≠ '/') →
        fields '/' text = fields '/' d.rootPath ++ fields '/' rest ∧
          trimStartSlash rest = joinPath (fields '/' rest) := by
      intro rest heq hrest
      obtain ⟨comps, -, hcomps, hjoin⟩ := (h (d.restOf text)).1 ⟨hin.2 ⟨rest, heq, hrest⟩, rfl⟩
      have hbegins : fields '/' (trimStartSlash d.rootPath) <+:
          fields '/' (trimStartSlash d.rootPath ++ rest) := by
        rw [← heq, hcomps, fields_trimStart_root]
        exact List.prefix_append _ _
      have hsplit := fields_append_of_begins hbegins
      rw [← heq, fields_trimStart_root] at hsplit
      obtain rfl := List.append_cancel_left (hsplit.symm.trans hcomps)
      rw [heq, restOf_append hroot] at hjoin
      exact ⟨hsplit, hjoin⟩
    constructor
    · intro rest heq hrest
      have hsplit := (hfound rest heq hrest).1
      rw [heq, ← fields_trimStart_root (d := d)] at hsplit
      exact fields_append_iff.1 hsplit
    · rintro ⟨rest, heq⟩ hne
      have hrest : rest ≠ [] := by
        rintro rfl
        exact hne (by rw [← heq, List.append_nil])
      obtain ⟨hintext, -⟩ := (h (joinPath rest)).2 ⟨rest, hrest, heq.symm, rfl⟩
      obtain ⟨rest, rfl, -⟩ := hin.1 hintext
      exact List.prefix_append _ _
    · intro rest heq hrest
      have hjoin := (hfound rest heq hrest).2
      have hne := exists_ne_slash_iff.1 hrest
      rw [← fields_dropWhile] at hjoin hne
      exact (joinPath_fields_iff hne).1 hjoin.symm
    · exact fun htop => absurd htop hroot
  · intro h rel
    constructor
    · rintro ⟨hintext, rfl⟩
      obtain ⟨rest, rfl, hrest⟩ := hin.1 hintext
      have hne := exists_ne_slash_iff.1 hrest
      refine ⟨fields '/' rest, hne, ?_, ?_⟩
      · rw [fields_append_iff.2 (h.boundary rest rfl hrest), fields_trimStart_root]
      · rw [restOf_append hroot, ← fields_dropWhile]
        rw [← fields_dropWhile] at hne
        exact ((joinPath_fields_iff hne).2 (h.tidy rest rfl hrest)).symm
    · rintro ⟨comps, hcomps, heq, rfl⟩
      have hbegins : fields '/' d.rootPath <+: fields '/' text := heq ▸ List.prefix_append _ _
      have hne : fields '/' d.rootPath ≠ fields '/' text := by
        intro he
        rw [← he] at heq
        exact hcomps (List.self_eq_append_right.1 heq)
      obtain ⟨rest, rfl⟩ := h.spelled hbegins hne
      rw [← fields_trimStart_root (d := d)] at hbegins heq
      rw [fields_append_of_begins hbegins] at heq
      obtain rfl := List.append_cancel_left heq
      have hrest := exists_ne_slash_iff.2 hcomps
      refine ⟨hin.2 ⟨rest, rfl, hrest⟩, ?_⟩
      rw [restOf_append hroot, ← fields_dropWhile]
      rw [← fields_dropWhile] at hcomps
      exact (joinPath_fields_iff hcomps).2 (h.tidy rest rfl hrest)

/-- Under the drive's root only the text itself counts. -/
theorem rootText_top_iff (hroot : d.rootPath = [] ∨ d.rootPath = ['/']) :
    d.RootText text ↔ [] ∉ text.splitOn '/' := by
  have htrim : trimStartSlash d.rootPath = [] := by
    obtain h | h := hroot <;> rw [h] <;> decide
  refine ⟨fun h => h.tidyTop hroot, fun h => ⟨fun rest _ _ => .inl htrim, fun _ _ => ?_, ?_,
    fun _ => h⟩⟩
  · rw [htrim]
    exact List.nil_prefix
  · rintro rest rfl -
    rw [htrim, List.nil_append] at h
    have hself : trimStartSlash rest = rest := by
      cases rest with
      | nil => rfl
      | cons c rest =>
        refine List.dropWhile_cons_of_neg ?_
        simp only [decide_eq_true_eq]
        rintro rfl
        rw [List.splitOn_cons_eq_if_modifyHead] at h
        simp at h
    rwa [hself]

end OneDriveDelta

/-- **Item paths are resolved exactly** when the text of the path decides like its components. -/
theorem resolvesExactly_iff (d : OneDriveDelta) (item : OneDriveItem) (name raw path : Str)
    (hname : item.name = some name) (hparent : item.parentReference = some ⟨some raw⟩)
    (hform : ParentForm raw path) :
    d.ResolvesExactly item (fields '/' path ++ fields '/' name) ↔
      d.RootText (itemText path name) := by
  have htext : item.fullPath = some (itemText path name) := by
    rw [OneDriveItem.fullPath, hname, hparent, Option.bind_some, Option.bind_some]
    dsimp only
    rw [Option.getD_some, strip_eq_some_iff.2 hform]
    rfl
  rw [← fields_itemText]
  by_cases hroot : d.rootPath = [] ∨ d.rootPath = ['/']
  · rw [OneDriveDelta.resolvesExactly_top_iff htext hroot, OneDriveDelta.rootText_top_iff hroot]
  · exact OneDriveDelta.resolvesExactly_below_iff htext hroot

/-- A file whose parent has the path `raw`. -/
def fileWithParent (raw : Str) : OneDriveItem where
  id := "i1".toList
  name := some "a.jpg".toList
  parentReference := some ⟨some raw⟩

theorem resolvesExactly_iff_inDrive :
    let raw := "/drives/".toList ++ ("b1".toList ++ ("/root:".toList ++ "/Docs/Work".toList))
    (fileWithParent raw).name = some "a.jpg".toList ∧
      (fileWithParent raw).parentReference = some ⟨some raw⟩ ∧
      ParentForm raw "/Docs/Work".toList ∧
      ((OneDriveDelta.mk "/Docs".toList).ResolvesExactly (fileWithParent raw)
          (fields '/' "/Docs/Work".toList ++ fields '/' "a.jpg".toList) ↔
        (OneDriveDelta.mk "/Docs".toList).RootText (itemText "/Docs/Work".toList "a.jpg".toList)) :=
  have hform := ParentForm.drive "/Docs/Work".toList (by decide : '/' ∉ "b1".toList)
  ⟨rfl, rfl, hform, resolvesExactly_iff ⟨"/Docs".toList⟩ _ "a.jpg".toList _ "/Docs/Work".toList rfl
    rfl hform⟩

/-- An item of the folder `Documents2` is resolved to a path below the mount root `Documents`. -/
theorem not_resolvesExactly_sibling :
    ¬∀ (d : OneDriveDelta) (item : OneDriveItem) (name raw path : Str), item.name = some name →
      item.parentReference = some ⟨some raw⟩ → ParentForm raw path →
        d.ResolvesExactly item (fields '/' path ++ fields '/' name) := by
  intro h
  have hexact := h ⟨"Documents".toList⟩ (fileWithParent "/drive/root:/Documents2".toList)
    "a.jpg".toList _ "/Documents2".toList rfl rfl (.defaultDrive _)
  obtain ⟨rest, -, heq, -⟩ := (hexact "2/a.jpg".toList).1 rfl
  have hbegins : fields '/' "Documents".toList <+:
      fields '/' "/Documents2".toList ++ fields '/' "a.jpg".toList := ⟨rest, heq.symm⟩
  exact absurd hbegins (by decide)

end Stratosync

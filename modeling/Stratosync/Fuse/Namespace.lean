import Stratosync.Daemon.Roots
import Stratosync.Daemon.Trees

/-!
# The names, as the calls of a file system

The index is to the kernel a tree of names. A request that changes the names does to it what the
call of a file system does (`Does`) when it is answered without an error. A request that fails
changes no name, except for a rename, which has by then dropped what was at its destination; and
`unlink` and `rmdir` fail only where the call is impossible. Evictions, reads, spawned operations
and uploads, which end where a conflict is handed to its resolver, leave the names alone; a
hydration may take away a name that has gone from the remote. A start leaves the names, or gives an
index without rows its root.

The kernel does not send a rename of a file onto itself or of a directory into itself, and the
poller is to change the rows of its own mount and to put none below itself: `KernelKeeps`. The root
is then never anything but the root of the mount (`Db.RootIntact`).
-/

namespace Stratosync

open Foundations.Runs Foundations.Forests Db

/-- The error of a result. -/
def errorOf {α : Type} : Except Errno α → Option Errno
  | .error e => some e
  | .ok _ => none

/-- The call on the names that a request is. -/
def Request.call : Request → Option (NameCall Inode Str FileKind)
  | .create p n => some (.add p n .file)
  | .mkdir p n => some (.add p n .directory)
  | .unlink p n => some (.remove p n none)
  | .rmdir p n => some (.remove p n (some .directory))
  | .rename p n p' n' => some (.move p n p' n')
  | _ => none

/-- The error a request on the names is answered with. -/
def Request.error (m : Mount) (w : World) : Request → Option Errno
  | .create p n => errorOf (handleCreate m w p n).1
  | .mkdir p n => errorOf (handleMkdir m w p n).1
  | .unlink p n => errorOf (handleUnlink m w p n).1
  | .rmdir p n => errorOf (handleRmdir m w p n).1
  | .rename p n p' n' => errorOf (handleRename m w p n p' n').1
  | _ => none

/-- A rename has dropped what was at its destination, which nothing was in. -/
def LosesDestination (f : Forest Inode Str FileKind) (r : Request)
    (f' : Forest Inode Str FileKind) : Prop :=
  ∃ p n p' n', r = .rename p n p' n' ∧ (∀ j, f.Child p' n' j → f.Childless j) ∧
    f' = f.clear p' n'

/-- The request only takes a name away. -/
def Request.removes : Request → Bool
  | .unlink .. | .rmdir .. => true
  | _ => false

/-- **What a request does to the names.** -/
def ServesNames (m : Mount) (w : World) (r : Request) (w' : World) : Prop :=
  match r.call with
  | none => w'.db.forest = w.db.forest
  | some c =>
    match r.error m w with
    | none => Does w.db.forest c w'.db.forest
    | some _ =>
      (w'.db.forest = w.db.forest ∨ LosesDestination w.db.forest r w'.db.forest) ∧
        (r.removes = true → ∀ f', ¬Does w.db.forest c f')

/-- An index without rows is given its root, as the first start does. -/
def BringsRoot (m : Mount) (f f' : Forest Inode Str FileKind) : Prop :=
  (∀ i, f i = none) ∧ f' = (World.init m 0).db.forest

/-- **What a step does to the names.** -/
def NamesStep (m : Mount) (w : World) (e : LifeEvent) (w' : World) : Prop :=
  match e with
  | .daemon (.request r) => ServesNames m w r w'
  | .daemon (.poll _) => True
  | .daemon (.hydration ..) =>
    w'.db.forest = w.db.forest ∨
      ∃ i, w.db.forest.Childless i ∧ w'.db.forest = Function.update w.db.forest i none
  | .daemon _ => w'.db.forest = w.db.forest
  | .restart (.rename p n p' n' _) _ =>
    w'.db.forest = w.db.forest ∨ BringsRoot m w.db.forest w'.db.forest ∨
      LosesDestination w.db.forest (.rename p n p' n') w'.db.forest
  | .restart .. => w'.db.forest = w.db.forest ∨ BringsRoot m w.db.forest w'.db.forest

/-- What the kernel keeps to in its renames, and the poller in its changes. -/
def KernelKeeps (m : Mount) (w : World) : LifeEvent → Prop
  | .daemon (.request (.rename p n p' n')) =>
    (p, n) ≠ (p', n') ∧
      ∀ r, w.db.getByParentName m.mountId p n = some r → ¬w.db.forest.Above r.inode p'
  | .daemon (.poll op) =>
    op.mountId = m.mountId ∧ NoneBelowItself w (.daemon (.poll op)) (w.poll op)
  | _ => True

variable {m : Mount} {db db' : Db} {i p : Inode} {r : FileEntry} {n : Str}

/-! ## Statements -/

theorem forest_of_sameRows (h : SameRows db db') : db'.forest = db.forest :=
  (sameTree_of_sameRows h).forest

theorem forest_of_getByInode (h : db.getByInode i = some r) : db.forest i = some r.node := by
  rw [forest, h, Option.map_some]

/-- A row can be deleted exactly if nothing is in it. -/
theorem deleteEntry_isSome_iff_childless :
    (db.deleteEntry i).isSome = true ↔ db.forest.Childless i := by
  rw [deleteEntry_isSome_iff]
  constructor
  · intro h j hj hin
    obtain ⟨c, hc, hp⟩ := isIn_iff.1 hin
    exact h c (mem_rows_of_getByInode hc) (inode_of_getByInode hc ▸ hj) hp
  · intro h c hc hne hp
    exact h c.inode hne (isIn_iff.2 ⟨c, getByInode_of_mem hc, hp⟩)

theorem forest_deleteEntry (h : db.deleteEntry i = some db') :
    db'.forest = Function.update db.forest i none := by
  funext j
  rw [forest, getByInode_deleteEntry h, Function.update_apply]
  split
  · rfl
  · rfl

/-- An inserted row is a new node, in a place that was free. -/
theorem does_of_insertFile {e : NewFileEntry} (hr : Rooted m db) (he : e.mountId = m.mountId)
    (hp : (db.getByInode e.parent).isSome = true) (h : db.insertFile e = some (i, db')) :
    Does db.forest (.add e.parent e.name e.kind) db'.forest := by
  obtain ⟨db₁, h₁, hi⟩ := Option.map_eq_some_iff.1 h
  obtain ⟨rfl, rfl⟩ := Prod.mk.inj hi
  have hnew := getByInode_of_insertRow h₁
  have hrows := getByInode_insertRow h₁
  have hforest : db₁.forest = Function.update db.forest db.nextInode
      (some ⟨some e.parent, e.name, e.kind⟩) := by
    funext j
    rw [forest, hrows j, Function.update_apply]
    split
    · rfl
    · rfl
  have hparent : (db.forest e.parent).isSome = true := by rwa [forest, Option.isSome_map]
  have hfree : db.forest db.nextInode = none := by
    rw [forest, hnew]
    rfl
  rw [hforest]
  refine .add hparent (fun j hj => ?_) hfree
  -- two rows with the name would be in the directory
  obtain ⟨c, hc, hcp, hcn⟩ := child_iff.1 hj
  have hne : j ≠ db.nextInode := by
    rintro rfl
    rw [hnew] at hc
    cases hc
  have hc₁ : db₁.getByInode j = some c := by rw [hrows j, if_neg hne, hc]
  have hself := hrows db.nextInode
  rw [if_pos rfl] at hself
  have hfound := getByParentName_self hc₁ hcp
  have hfound' := getByParentName_self hself rfl
  rw [hr.mount j c hc, hcn] at hfound
  rw [he, hfound] at hfound'
  have hinode := congrArg FileEntry.inode (Option.some.inj hfound')
  exact hne ((inode_of_getByInode hc).symm.trans hinode)

/-- The destination of a rename is dropped exactly if nothing is in it. -/
theorem forest_dropDestination (hr : Rooted m db) (p : Inode) (n : Str) :
    ((∀ j, db.forest.Child p n j → db.forest.Childless j) ∧
        (dropDestination db m.mountId p n).1.forest = db.forest.clear p n) ∨
      ∃ d, db.getByParentName m.mountId p n = some d ∧
        (dropDestination db m.mountId p n).1 = db := by
  rw [dropDestination]
  cases hd : db.getByParentName m.mountId p n with
  | none =>
    have hnone : ∀ j, ¬db.forest.Child p n j := by
      intro j hj
      obtain ⟨c, hc, -⟩ := child_iff.1 hj
      obtain rfl := inode_of_getByInode hc
      rw [(getByParentName_iff hr).2 ⟨hc, hj⟩] at hd
      cases hd
    refine .inl ⟨fun j hj => absurd hj (hnone j), ?_⟩
    funext j
    rw [Forest.clear, if_neg (hnone j)]
  | some d =>
    obtain ⟨hdi, hdc⟩ := (getByParentName_iff hr).1 hd
    -- the destination is the only row with the name
    have hone : ∀ j, db.forest.Child p n j ↔ j = d.inode := by
      intro j
      constructor
      · intro hj
        obtain ⟨c, hc, -⟩ := child_iff.1 hj
        obtain rfl := inode_of_getByInode hc
        have hfound := (getByParentName_iff hr).2 ⟨hc, hj⟩
        rw [hd] at hfound
        rw [Option.some.inj hfound]
      · rintro rfl
        exact hdc
    cases hdel : db.deleteEntry d.inode with
    | none => exact .inr ⟨d, rfl, by simp [hdel]⟩
    | some db' =>
      have hchildless := deleteEntry_isSome_iff_childless.1 (Option.isSome_of_eq_some hdel)
      refine .inl ⟨fun j hj => (hone j).1 hj ▸ hchildless, ?_⟩
      simp only [hdel, Option.getD_some]
      rw [forest_deleteEntry hdel]
      funext j
      by_cases hj : j = d.inode
      · rw [hj, Function.update_self, Forest.clear, if_pos hdc]
      · rw [Function.update_of_ne hj, Forest.clear, if_neg (mt (hone j).1 hj)]

/-! ## Requests -/

section Requests

variable {w w' : World}

/-- A creation fails without a trace in the index, or inserts its row. -/
theorem handleCreate_db_cases (m : Mount) (w : World) (p : Inode) (n : Str) :
    (∃ x, (handleCreate m w p n).1 = .error x ∧ (handleCreate m w p n).2.db = w.db) ∨
      ∃ q e i, w.db.getByInode p = some q ∧ e.mountId = m.mountId ∧ e.parent = p ∧ e.name = n ∧
        e.kind = .file ∧ w.db.insertFile e = some (i, (handleCreate m w p n).2.db) ∧
        ∃ v, (handleCreate m w p n).1 = .ok v := by
  simp only [handleCreate, World.allocFh]
  repeat' split
  any_goals exact .inl ⟨_, rfl, rfl⟩
  exact .inr ⟨_, _, _, ‹_›, rfl, rfl, rfl, rfl, ‹_›, _, rfl⟩

theorem handleMkdir_db_cases (m : Mount) (w : World) (p : Inode) (n : Str) :
    (∃ x, (handleMkdir m w p n).1 = .error x ∧ (handleMkdir m w p n).2.db = w.db) ∨
      ∃ q e i, w.db.getByInode p = some q ∧ e.mountId = m.mountId ∧ e.parent = p ∧ e.name = n ∧
        e.kind = .directory ∧ w.db.insertFile e = some (i, (handleMkdir m w p n).2.db) ∧
        ∃ v, (handleMkdir m w p n).1 = .ok v := by
  simp only [handleMkdir]
  repeat' split
  any_goals exact .inl ⟨_, rfl, rfl⟩
  exact .inr ⟨_, _, _, ‹_›, rfl, rfl, rfl, rfl, ‹_›, _, rfl⟩

theorem servesNames_of_ok {r : Request} {c : NameCall Inode Str FileKind} (hcall : r.call = some c)
    (herror : r.error m w = none) (h : Does w.db.forest c w'.db.forest) :
    ServesNames m w r w' := by
  rw [ServesNames, hcall]
  dsimp only
  rw [herror]
  exact h

theorem servesNames_of_error {r : Request} {c : NameCall Inode Str FileKind} {x : Errno}
    (hcall : r.call = some c) (herror : r.error m w = some x)
    (h : w'.db.forest = w.db.forest ∨ LosesDestination w.db.forest r w'.db.forest)
    (hremoves : r.removes = true → ∀ f', ¬Does w.db.forest c f') : ServesNames m w r w' := by
  rw [ServesNames, hcall]
  dsimp only
  rw [herror]
  exact ⟨h, hremoves⟩

theorem servesNames_handleCreate (hr : Rooted m w.db) (p : Inode) (n : Str) :
    ServesNames m w (.create p n) (handleCreate m w p n).2 := by
  rcases handleCreate_db_cases m w p n with
    ⟨x, hx, hdb⟩ | ⟨q, e, i, hq, he, hep, hen, hek, h, v, hv⟩
  · have herror : Request.error m w (.create p n) = some x := by rw [Request.error, hx, errorOf]
    exact servesNames_of_error rfl herror (.inl (by rw [hdb])) nofun
  · have herror : Request.error m w (.create p n) = none := by rw [Request.error, hv, errorOf]
    have hdoes := does_of_insertFile hr he (by rw [hep, hq]; rfl) h
    rw [hep, hen, hek] at hdoes
    exact servesNames_of_ok rfl herror hdoes

theorem servesNames_handleMkdir (hr : Rooted m w.db) (p : Inode) (n : Str) :
    ServesNames m w (.mkdir p n) (handleMkdir m w p n).2 := by
  rcases handleMkdir_db_cases m w p n with
    ⟨x, hx, hdb⟩ | ⟨q, e, i, hq, he, hep, hen, hek, h, v, hv⟩
  · have herror : Request.error m w (.mkdir p n) = some x := by rw [Request.error, hx, errorOf]
    exact servesNames_of_error rfl herror (.inl (by rw [hdb])) nofun
  · have herror : Request.error m w (.mkdir p n) = none := by rw [Request.error, hv, errorOf]
    have hdoes := does_of_insertFile hr he (by rw [hep, hq]; rfl) h
    rw [hep, hen, hek] at hdoes
    exact servesNames_of_ok rfl herror hdoes

/-- A name without a row cannot be removed. -/
theorem not_does_of_getByParentName (hr : Rooted m db)
    (h : db.getByParentName m.mountId p n = none) (k : Option FileKind)
    (f' : Forest Inode Str FileKind) : ¬Does db.forest (.remove p n k) f' := by
  intro hf
  cases hf with
  | remove hi =>
  obtain ⟨c, hc, -⟩ := child_iff.1 hi
  obtain rfl := inode_of_getByInode hc
  rw [(getByParentName_iff hr).2 ⟨hc, hi⟩] at h
  cases h

/-- What the removal of a row found by its name would be. -/
theorem does_remove_iff (hr : Rooted m db) (h : db.getByParentName m.mountId p n = some r)
    (k : Option FileKind) :
    (∃ f', Does db.forest (.remove p n k) f') ↔
      (∀ l ∈ k, r.kind = l) ∧ db.forest.Childless r.inode := by
  obtain ⟨hri, hc⟩ := (getByParentName_iff hr).1 h
  have hnode := forest_of_getByInode hri
  constructor
  · rintro ⟨f', hf⟩
    cases hf with
    | remove hj hx hk hchildless =>
      obtain ⟨c, hcj, -⟩ := child_iff.1 hj
      obtain rfl := inode_of_getByInode hcj
      have hfound := (getByParentName_iff hr).2 ⟨hcj, hj⟩
      obtain rfl := Option.some.inj (h.symm.trans hfound)
      obtain rfl := Option.some.inj (hnode.symm.trans hx)
      exact ⟨hk, hchildless⟩
  · rintro ⟨hk, hchildless⟩
    exact ⟨_, .remove hc hnode hk hchildless⟩

theorem servesNames_handleUnlink (hr : Rooted m w.db) (p : Inode) (n : Str) :
    ServesNames m w (.unlink p n) (handleUnlink m w p n).2 := by
  cases hd : w.db.getByParentName m.mountId p n with
  | none =>
    have hserve : handleUnlink m w p n = (.error .ENOENT, w) := by rw [handleUnlink, hd]
    have herror : Request.error m w (.unlink p n) = some .ENOENT := by
      rw [Request.error, hserve, errorOf]
    exact servesNames_of_error rfl herror (.inl (by rw [hserve]))
      fun _ => not_does_of_getByParentName hr hd none
  | some r =>
    obtain ⟨hri, hc⟩ := (getByParentName_iff hr).1 hd
    cases hdel : w.db.deleteEntry r.inode with
    | none =>
      have herror : Request.error m w (.unlink p n) = some Errno.EIO := by
        simp only [Request.error, handleUnlink, hd, hdel, errorOf]
      refine servesNames_of_error rfl herror (.inl ?_) fun _ f' hf => ?_
      · simp only [handleUnlink, hd, hdel]
      · have hchildless := ((does_remove_iff hr hd none).1 ⟨f', hf⟩).2
        rw [← deleteEntry_isSome_iff_childless, hdel] at hchildless
        cases hchildless
    | some db' =>
      have herror : Request.error m w (.unlink p n) = none := by
        simp only [Request.error, handleUnlink, hd, hdel, errorOf]
      have hforest : (handleUnlink m w p n).2.db.forest =
          Function.update w.db.forest r.inode none := by
        simp only [handleUnlink, hd, hdel]
        rw [← forest_deleteEntry hdel]
        exact forest_of_sameRows ⟨rfl, fun _ => rfl⟩
      refine servesNames_of_ok rfl herror ?_
      rw [hforest]
      exact .remove hc (forest_of_getByInode hri) (fun _ hk => by cases hk)
        (deleteEntry_isSome_iff_childless.1 (Option.isSome_of_eq_some hdel))

theorem servesNames_handleRmdir (hr : Rooted m w.db) (hg : w.db.forest.Grounded) (p : Inode)
    (n : Str) : ServesNames m w (.rmdir p n) (handleRmdir m w p n).2 := by
  cases hd : w.db.getByParentName m.mountId p n with
  | none =>
    have hserve : handleRmdir m w p n = (.error .ENOENT, w) := by rw [handleRmdir, hd]
    have herror : Request.error m w (.rmdir p n) = some .ENOENT := by
      rw [Request.error, hserve, errorOf]
    exact servesNames_of_error rfl herror (.inl (by rw [hserve]))
      fun _ => not_does_of_getByParentName hr hd _
  | some r =>
    obtain ⟨hri, hc⟩ := (getByParentName_iff hr).1 hd
    have hdoes := does_remove_iff hr hd (some .directory)
    by_cases hkind : r.kind = .directory
    · by_cases hchildren : w.db.listChildren m.mountId r.inode = []
      · cases hdel : w.db.deleteEntry r.inode with
        | none =>
          -- what keeps the row is a child, which the listing would show
          have hnot : ¬w.db.forest.Childless r.inode := by
            rw [← deleteEntry_isSome_iff_childless, hdel]
            exact Bool.false_ne_true
          have hchildless : w.db.forest.Childless r.inode := by
            intro j _ hin
            obtain ⟨c, hc, hcp⟩ := isIn_iff.1 hin
            have hmem := mem_listChildren.2 ⟨mem_rows_of_getByInode hc, hr.mount j c hc, hcp⟩
            rw [hchildren] at hmem
            cases hmem
          exact absurd hchildless hnot
        | some db' =>
          have herror : Request.error m w (.rmdir p n) = none := by
            simp only [Request.error, handleRmdir, hd, hkind, ne_eq, not_true_eq_false,
              hchildren, if_false, hdel, errorOf]
          have hforest : (handleRmdir m w p n).2.db.forest =
              Function.update w.db.forest r.inode none := by
            simp only [handleRmdir, hd, hkind, ne_eq, not_true_eq_false, hchildren, if_false, hdel]
            rw [← forest_deleteEntry hdel]
            exact forest_of_sameRows ⟨rfl, fun _ => rfl⟩
          refine servesNames_of_ok rfl herror ?_
          rw [hforest]
          refine .remove hc (forest_of_getByInode hri) ?_
            (deleteEntry_isSome_iff_childless.1 (Option.isSome_of_eq_some hdel))
          rintro l ⟨⟩
          exact hkind
      · have herror : Request.error m w (.rmdir p n) = some .ENOTEMPTY := by
          simp only [Request.error, handleRmdir, hd, hkind, ne_eq, not_true_eq_false, if_false,
            hchildren, not_false_eq_true, if_true, errorOf]
        refine servesNames_of_error rfl herror (.inl ?_) fun _ f' hf => ?_
        · simp only [handleRmdir, hd, hkind, ne_eq, not_true_eq_false, if_false, hchildren,
            not_false_eq_true, if_true]
        · obtain ⟨c, hmem⟩ := List.exists_mem_of_ne_nil _ hchildren
          obtain ⟨hcrow, -, hcp⟩ := mem_listChildren.1 hmem
          have hin : w.db.forest.IsIn r.inode c.inode :=
            isIn_iff.2 ⟨c, getByInode_of_mem hcrow, hcp⟩
          by_cases hself : c.inode = r.inode
          · exact hg.not_isIn_self (hself ▸ hin)
          · exact (hdoes.1 ⟨f', hf⟩).2 c.inode hself hin
    · have herror : Request.error m w (.rmdir p n) = some .ENOTDIR := by
        simp only [Request.error, handleRmdir, hd, hkind, ne_eq, not_false_eq_true, if_true,
          errorOf]
      refine servesNames_of_error rfl herror (.inl ?_) fun _ f' hf => ?_
      · simp only [handleRmdir, hd, hkind, ne_eq, not_false_eq_true, if_true]
      · exact hkind ((hdoes.1 ⟨f', hf⟩).1 _ rfl)

/-- A rename that fails may have dropped the destination; one that does not has renamed its row in
the index without it. -/
theorem handleRename_db_cases (m : Mount) (w : World) (p : Inode) (n : Str) (p' : Inode)
    (n' : Str) :
    (∃ x, (handleRename m w p n p' n').1 = .error x ∧
      ((handleRename m w p n p' n').2.db = w.db ∨
        (handleRename m w p n p' n').2.db = (dropDestination w.db m.mountId p' n').1)) ∨
      ∃ r q path cp db₂, w.db.getByParentName m.mountId p n = some r ∧
        w.db.getByInode p' = some q ∧
        (dropDestination w.db m.mountId p' n').1.renameEntry r.inode p' n' path cp = some db₂ ∧
        SameRows db₂ (handleRename m w p n p' n').2.db ∧
        (handleRename m w p n p' n').1 = .ok () := by
  simp only [handleRename]
  split
  · exact .inl ⟨_, rfl, .inl rfl⟩
  split
  · exact .inl ⟨_, rfl, .inl rfl⟩
  split
  · exact .inl ⟨_, rfl, .inl rfl⟩
  split
  · exact .inl ⟨_, rfl, .inr rfl⟩
  · refine .inr ⟨_, _, _, _, _, ‹_›, ‹_›, ‹_›, ?_, rfl⟩
    split
    · exact ⟨rfl, fun _ => rfl⟩
    · exact ⟨rfl, fun _ => rfl⟩

/-- The index after a row was renamed in it. -/
theorem forest_renameEntry {q : Inode} {n' path : Str} {cp : Option PathBuf}
    (h : db.renameEntry i q n' path cp = some db') (hr : db.getByInode i = some r) :
    db'.forest =
      Function.update db.forest i (some { r.node with parent := some q, name := n' }) := by
  have hmap := renameEntry_rows h
  funext j
  by_cases hj : j = i
  · subst hj
    rw [Function.update_self, forest, hmap.self, hr]
    rfl
  · rw [Function.update_of_ne hj, forest, hmap.of_ne hj, forest]

theorem servesNames_handleRename (hr : Rooted m w.db) {p p' : Inode} {n n' : Str}
    (hne : (p, n) ≠ (p', n')) :
    ServesNames m w (.rename p n p' n') (handleRename m w p n p' n').2 := by
  rcases handleRename_db_cases m w p n p' n' with
    ⟨x, hx, hdb⟩ | ⟨r, q, path, cp, db₂, hd, hq, hrename, hsame, hok⟩
  · have herror : Request.error m w (.rename p n p' n') = some x := by
      rw [Request.error, hx, errorOf]
    refine servesNames_of_error rfl herror ?_ nofun
    rcases hdb with hdb | hdb
    · exact .inl (by rw [hdb])
    · rw [hdb]
      rcases forest_dropDestination hr p' n' with ⟨hchildless, hclear⟩ | ⟨-, -, hkept⟩
      · exact .inr ⟨p, n, p', n', rfl, hchildless, hclear⟩
      · exact .inl (by rw [hkept])
  · have herror : Request.error m w (.rename p n p' n') = none := by
      rw [Request.error, hok, errorOf]
    obtain ⟨hri, hc⟩ := (getByParentName_iff hr).1 hd
    obtain ⟨-, -, hrp, hrn⟩ := getByParentName_spec hd
    have hparent : (w.db.forest p').isSome = true := by rw [forest_of_getByInode hq]; rfl
    -- the row that moves is not the one at the destination
    have hapart : ∀ d, w.db.getByParentName m.mountId p' n' = some d → d.inode ≠ r.inode := by
      intro d hdest he
      obtain ⟨hdi, -, hdp, hdn⟩ := getByParentName_spec hdest
      rw [he, hri] at hdi
      obtain rfl := Option.some.inj hdi
      exact hne (Prod.ext (Option.some.inj (hrp.symm.trans hdp)) (hrn.symm.trans hdn))
    have hkept : (dropDestination w.db m.mountId p' n').1.getByInode r.inode = some r := by
      rcases getByInode_dropDestination w.db m.mountId p' n' r.inode with h | ⟨d, hdest, he, -⟩
      · rw [h, hri]
      · exact absurd he (hapart d hdest)
    refine servesNames_of_ok rfl herror ?_
    rw [forest_of_sameRows hsame, forest_renameEntry hrename hkept]
    rcases forest_dropDestination hr p' n' with ⟨hchildless, hclear⟩ | ⟨d, hdest, hsamedb⟩
    · rw [hclear]
      exact .move hc (forest_of_getByInode hri) hparent hchildless
    · rw [hsamedb, renameEntry_eq_none hdest hri (hr.mount _ _ hri) (hapart d hdest)] at hrename
      cases hrename

end Requests

/-! ## Steps -/

section Steps

variable {w w' : World} {ev : Event}

/-- A step that only changes what a row says of its content, or drops one row. -/
theorem node_of_rowStep {r' : FileEntry} (h : RowStep m w ev i r (some r'))
    (hpoll : ∀ op, ev ≠ .poll op) (hrename : ∀ p n p' n', ev ≠ .request (.rename p n p' n')) :
    r'.node = r.node := by
  cases h with
  | renamed => exact absurd rfl (hrename _ _ _ _)
  | refreshed | dropped => exact absurd rfl (hpoll _)
  | _ => rfl

/-- The events that are neither calls on the names nor remote changes. -/
def Event.sparesNames : Event → Bool
  | .request r => r.call.isNone
  | .poll _ => false
  | _ => true

/-- A step that is no call on the names leaves them, or a hydration takes one away. -/
theorem names_of_rowsStep (h : RowsStep m w ev db') (hev : ev.sparesNames = true) :
    db'.forest = w.db.forest ∨
      ∃ k env, ev = .hydration k env ∧ ∃ i, w.db.forest.Childless i ∧
        db'.forest = Function.update w.db.forest i none := by
  have hadds : ∀ i, w.db.getByInode i = none → db'.getByInode i = none := by
    intro i hn
    by_contra hsome
    obtain ⟨r', hr'⟩ := Option.ne_none_iff_exists'.1 hsome
    have hnew := (h.new i r' hn hr').1
    cases hnew <;> cases hev
  have hnode : ∀ i r r', w.db.getByInode i = some r → db'.getByInode i = some r' →
      r'.node = r.node := by
    intro i r r' hr hr'
    have hrow := h.row i r hr
    rw [hr'] at hrow
    refine node_of_rowStep hrow ?_ ?_
    · rintro _ rfl
      cases hev
    · rintro _ _ _ _ rfl
      cases hev
  have hforest : ∀ i, (∀ r, w.db.getByInode i = some r → (db'.getByInode i).isSome = true) →
      db'.forest i = w.db.forest i := by
    intro i hi
    cases hr : w.db.getByInode i with
    | none => rw [forest, hadds i hr, forest, hr]
    | some r =>
      obtain ⟨r', hr'⟩ := Option.isSome_iff_exists.1 (hi r hr)
      rw [forest, hr', forest, hr, Option.map_some, Option.map_some, hnode i r r' hr hr']
  by_cases hgone : ∃ i r, w.db.getByInode i = some r ∧ db'.getByInode i = none
  · obtain ⟨i, r, hr, hn⟩ := hgone
    have hdropped : ∀ j q, w.db.getByInode j = some q → db'.getByInode j = none →
        ∃ k env e rd, ev = .hydration k env ∧ w.hydrations[k]? = some ⟨j, .prune e, rd⟩ := by
      intro j q hq hj
      have hrow := h.row j q hq
      rw [hj] at hrow
      cases hrow with
      | pruned hh => exact ⟨_, _, _, _, rfl, hh⟩
      | _ => cases hev
    obtain ⟨k, env, e, rd, rfl, hh⟩ := hdropped i r hr hn
    -- only the row of the hydration has gone
    have hothers : ∀ j q, w.db.getByInode j = some q → j ≠ i →
        (db'.getByInode j).isSome = true := by
      intro j q hq hne
      by_contra hj
      obtain ⟨_, _, _, _, hev', hh'⟩ := hdropped j q hq (by simpa using hj)
      obtain ⟨rfl, rfl⟩ := Event.hydration.inj hev'
      exact hne (congrArg Hydration.inode (Option.some.inj (hh'.symm.trans hh)))
    have hupdate : db'.forest = Function.update w.db.forest i none := by
      funext j
      by_cases hj : j = i
      · rw [hj, Function.update_self, forest, hn]
        rfl
      · rw [Function.update_of_ne hj]
        exact hforest j fun q hq => hothers j q hq hj
    refine .inr ⟨k, env, rfl, i, fun j hj hin => ?_, hupdate⟩
    have hin' : db'.forest.IsIn i j := by
      obtain ⟨x, hx, hp⟩ := hin
      exact ⟨x, by rw [hupdate, Function.update_of_ne hj, hx], hp⟩
    have hsome := hasParents_forest db' i j hin'
    rw [hupdate, Function.update_self] at hsome
    cases hsome
  · refine .inl (funext fun i => hforest i fun r hr => ?_)
    by_contra hn
    exact hgone ⟨i, r, hr, by simpa using hn⟩

/-- **What a step of the daemon does to the names.** -/
theorem namesStep_of_step (hr : Rooted m w.db) (hg : w.db.forest.Grounded)
    (hk : KernelKeeps m w (.daemon ev)) (h : step m w ev = some w') :
    NamesStep m w (.daemon ev) w' := by
  have hspares : ev.sparesNames = true → _ := names_of_rowsStep (rowsStep_of_step h)
  cases ev with
  | request q =>
    obtain ⟨-, rfl⟩ := step_request h
    cases q with
    | create p n => exact servesNames_handleCreate hr p n
    | mkdir p n => exact servesNames_handleMkdir hr p n
    | unlink p n => exact servesNames_handleUnlink hr p n
    | rmdir p n => exact servesNames_handleRmdir hr hg p n
    | rename p n p' n' => exact servesNames_handleRename hr hk.1
    | _ =>
      rcases hspares rfl with hsame | ⟨_, _, ⟨⟩, _⟩
      exact hsame
  | poll op => trivial
  | hydration k env =>
    rcases hspares rfl with hsame | ⟨_, _, -, hpruned⟩
    · exact .inl hsame
    · exact .inr hpruned
  | _ =>
    rcases hspares rfl with hsame | ⟨_, _, ⟨⟩, _⟩
    exact hsame

theorem namesStep_of_restart {point : CrashPoint} {env : StartEnv} (hr : Rooted m w.db)
    (h : lifeStep m w (.restart point env) = some w') : NamesStep m w (.restart point env) w' := by
  obtain ⟨disk, hdisk, hstart⟩ := Option.bind_eq_some_iff.1 h
  have hforest : w'.db.forest = disk.1.forest := (sameTree_of_restart hstart).forest
  rcases db_of_disk hdisk with hdb | ⟨p, n, p', n', moved, rfl, hdb⟩
  · rw [hdb] at hforest
    cases point with
    | _ => exact .inl hforest
  · rw [hdb] at hforest
    rcases forest_dropDestination hr p' n' with ⟨hchildless, hclear⟩ | ⟨-, -, hkept⟩
    · exact .inr (.inr ⟨p, n, p', n', rfl, hchildless, hforest.trans hclear⟩)
    · exact .inl (by rw [hforest, hkept])

/-! ## No step puts a row below itself -/

/-- The call of a file system puts no node below itself, if the node it moves is not above its new
place. -/
theorem noneBelowItself_of_does {f f' : Forest Inode Str FileKind} {c : NameCall Inode Str FileKind}
    (hf : f.HasParents) (h : Does f c f')
    (hc : ∀ p n p' n' i, c = .move p n p' n' → f.Child p n i → ¬f.Above i p') {q j : Inode}
    (hin : f'.IsIn q j) (hne : ¬f.IsIn q j) : ¬f.Above j q := by
  obtain ⟨x, hx, hq⟩ := hin
  cases h with
  | @add p n k i hp hfree hi =>
    by_cases hj : j = i
    · subst hj
      rw [Function.update_self] at hx
      obtain rfl := Option.some.inj hx
      obtain rfl : p = q := Option.some.inj hq
      refine Forest.not_above_of_none hf hi ?_
      rintro rfl
      rw [hi] at hp
      cases hp
    · rw [Function.update_of_ne hj] at hx
      exact absurd ⟨x, hx, hq⟩ hne
  | @remove p n k i y hi hy hk hchildless =>
    by_cases hj : j = i
    · rw [hj, Function.update_self] at hx
      cases hx
    · rw [Function.update_of_ne hj] at hx
      exact absurd ⟨x, hx, hq⟩ hne
  | @move p p' n n' i y hi hy hp' hdest =>
    by_cases hj : j = i
    · subst hj
      rw [Function.update_self] at hx
      obtain rfl := Option.some.inj hx
      obtain rfl : p' = q := Option.some.inj hq
      exact hc _ _ _ _ _ rfl hi
    · rw [Function.update_of_ne hj, Forest.clear] at hx
      split at hx
      · cases hx
      · exact absurd ⟨x, hx, hq⟩ hne

/-- Names that are only taken away put nothing anywhere. -/
theorem not_isIn_of_kept {f f' : Forest Inode Str FileKind}
    (h : ∀ j, f' j = f j ∨ f' j = none) {q j : Inode} (hin : f'.IsIn q j) : f.IsIn q j := by
  obtain ⟨x, hx, hq⟩ := hin
  rcases h j with hj | hj
  · exact ⟨x, hj ▸ hx, hq⟩
  · rw [hj] at hx
    cases hx

theorem kept_of_losesDestination {f f' : Forest Inode Str FileKind} {r : Request}
    (h : LosesDestination f r f') (j : Inode) : f' j = f j ∨ f' j = none := by
  obtain ⟨p, n, p', n', -, -, rfl⟩ := h
  rw [Forest.clear]
  split
  · exact .inr rfl
  · exact .inl rfl

theorem noneBelowItself_of_servesNames {r : Request} (hr : Rooted m w.db)
    (hk : KernelKeeps m w (.daemon (.request r))) (h : ServesNames m w r w') :
    NoneBelowItself w (.daemon (.request r)) w' := by
  intro q j hin hne
  rw [ServesNames] at h
  split at h
  · exact absurd (h ▸ hin) hne
  · rename_i c hcall
    split at h
    · refine noneBelowItself_of_does (hasParents_forest w.db) h ?_ hin hne
      rintro p n p' n' i rfl hi
      cases r with
      | rename =>
        obtain ⟨rfl, rfl, rfl, rfl⟩ := NameCall.move.inj (Option.some.inj hcall)
        obtain ⟨c, hc, -⟩ := child_iff.1 hi
        obtain rfl := inode_of_getByInode hc
        exact hk.2 c ((getByParentName_iff hr).2 ⟨hc, hi⟩)
      | _ => cases hcall
    · rcases h.1 with hsame | hloses
      · exact absurd (hsame ▸ hin) hne
      · exact absurd (not_isIn_of_kept (kept_of_losesDestination hloses) hin) hne

theorem noneBelowItself_of_namesStep {e : LifeEvent} (hr : Rooted m w.db)
    (hk : KernelKeeps m w e) (hstep : fullStep m w e = some w') (h : NamesStep m w e w') :
    NoneBelowItself w e w' := by
  have hsame : w'.db.forest = w.db.forest → NoneBelowItself w e w' :=
    fun hforest q j hin hne => absurd (hforest ▸ hin) hne
  cases e with
  | daemon ev =>
    cases ev with
    | request r => exact noneBelowItself_of_servesNames hr hk h
    | poll op =>
      obtain rfl := Option.some.inj hstep
      exact hk.2
    | hydration k env =>
      rcases h with h | ⟨i, -, h⟩
      · exact hsame h
      · refine fun q j hin hne => absurd (not_isIn_of_kept (fun j => ?_) hin) hne
        rw [h, Function.update_apply]
        split
        · exact .inr rfl
        · exact .inl rfl
    | _ => exact hsame h
  | restart point env =>
    have hbrings : BringsRoot m w.db.forest w'.db.forest →
        NoneBelowItself w (.restart point env) w' := by
      rintro ⟨-, hforest⟩ q j hin
      rw [hforest] at hin
      exact absurd hin (not_isIn_init m 0 q j)
    cases point with
    | rename =>
      rcases h with h | h | hloses
      · exact hsame h
      · exact hbrings h
      · exact fun q j hin hne =>
          absurd (not_isIn_of_kept (kept_of_losesDestination hloses) hin) hne
    | _ => exact h.elim hsame hbrings

/-! ## The root -/

/-- The rows are a tree of names under the root of the mount. -/
structure Planted (m : Mount) (db : Db) : Prop where
  rooted : Rooted m db
  grounded : db.forest.Grounded
  intact : db.RootIntact m

/-- The root is in no directory. -/
theorem parent_of_root (hr : Rooted m db) (hg : db.forest.Grounded)
    (hroot : db.getByInode fuseRootInode = some r) : r.parent = none := by
  by_contra hp
  obtain ⟨p, hp⟩ := Option.ne_none_iff_exists'.1 hp
  exact Forest.not_isIn_top (hasParents_forest db) hr.oneTop hg (isIn_iff.2 ⟨r, hroot, hp⟩)

/-- No row is there without the root. -/
theorem Planted.rows_eq_nil (h : Planted m db) (hn : db.getByInode fuseRootInode = none) :
    db.fileIndex.rows = [] := by
  by_contra hrows
  obtain ⟨r, hmem⟩ := List.exists_mem_of_ne_nil _ hrows
  have hsome : (db.forest r.inode).isSome = true := by rw [forest, getByInode_of_mem hmem]; rfl
  obtain ⟨names, hpath⟩ :=
    Forest.exists_path (hasParents_forest db) h.rooted.oneTop h.grounded hsome
  have hroot := hpath.isSome_top (hasParents_forest db) hsome
  rw [forest, hn] at hroot
  cases hroot

/-- What a step of the daemon changes of a row in no directory leaves it a root. -/
theorem isRoot_of_rowStep {r' : FileEntry} (h : RowStep m w ev i r (some r'))
    (hpoll : ∀ op, ev ≠ .poll op) (htop : r'.parent = none) (hr : r.IsRoot m) : r'.IsRoot m := by
  cases h with
  | renamed => cases htop
  | refreshed | dropped => exact absurd rfl (hpoll _)
  | _ => exact hr

/-- **The root stays what it is**: what would make it something else would put it in a directory. -/
theorem rootIntact_of_step (hroot : w.db.RootIntact m) (h : step m w ev = some w')
    (hpoll : ∀ op, ev = .poll op → op.mountId = m.mountId) (hr' : Rooted m w'.db)
    (hg' : w'.db.forest.Grounded) : w'.db.RootIntact m := by
  intro r' hrow'
  have htop := parent_of_root hr' hg' hrow'
  obtain ⟨p, hregrows⟩ := regrows_of_step h hpoll
  rcases hregrows _ r' hrow' with ⟨r, hrow, -, -⟩ | ⟨hp, -⟩
  · by_cases hop : ∃ op, ev = .poll op
    · obtain ⟨op, rfl⟩ := hop
      obtain rfl := Option.some.inj h
      rcases placed_applyRemote (hpoll op rfl) hrow' with hsame | ⟨hp, -⟩
      · exact hroot r' hsame
      · rw [htop] at hp
        cases hp
    · have hstep := (rowsStep_of_step h).row _ r hrow
      rw [hrow'] at hstep
      exact isRoot_of_rowStep hstep (fun op hev => hop ⟨op, hev⟩) htop (hroot r hrow)
  · rw [htop] at hp
    cases hp

/-- A start on an index with its root. -/
theorem fullStep_eq_lifeStep {point : CrashPoint} {env : StartEnv} (h : Planted m w.db)
    (hsome : (w.db.getByInode fuseRootInode).isSome = true) :
    fullStep m w (.restart point env) = lifeStep m w (.restart point env) := by
  rw [fullStep, lifeStep]
  refine Option.bind_congr fun disk hdisk =>
    startUp_eq_restart ?_ (rootIntact_of_disk hdisk h.intact)
  obtain ⟨r, hr⟩ := Option.isSome_iff_exists.1 hsome
  rcases db_of_disk hdisk with hdb | ⟨-, -, p, n, -, -, hdb⟩
  · rw [hdb, hsome]
  · rw [hdb]
    rcases getByInode_dropDestination w.db m.mountId p n fuseRootInode with hi | ⟨d, hd, hi, -⟩
    · rw [hi, hsome]
    · obtain ⟨hdi, -, hdp, -⟩ := getByParentName_spec hd
      have htop := parent_of_root h.rooted h.grounded (hi ▸ hdi)
      rw [hdp] at htop
      cases htop

/-- A start on an index without its root leaves the root alone. -/
theorem rows_of_restart_rootless {point : CrashPoint} {env : StartEnv} (h : Planted m w.db)
    (hn : w.db.getByInode fuseRootInode = none)
    (hstep : fullStep m w (.restart point env) = some w') :
    w.db.fileIndex.rows = [] ∧ ∃ t, w'.db.fileIndex.rows = [rootEntryAt m.mountId t] := by
  obtain ⟨disk, hdisk, hstart⟩ := Option.bind_eq_some_iff.1 hstep
  have hempty := h.rows_eq_nil hn
  refine ⟨hempty, rows_of_startUp_empty hstart ?_⟩
  by_contra hrows
  obtain ⟨r, hmem⟩ := List.exists_mem_of_ne_nil _ hrows
  obtain ⟨r₀, hr₀⟩ := exists_of_disk hdisk (getByInode_of_mem hmem)
  have hmem₀ := mem_rows_of_getByInode hr₀
  rw [hempty] at hmem₀
  cases hmem₀

/-- The index of the root alone. -/
theorem getByInode_of_root {t : ℕ}
    (h : db.fileIndex.rows = [rootEntryAt m.mountId t]) (i : Inode) :
    db.getByInode i =
      if i = fuseRootInode then some (rootEntryAt m.mountId t) else none := by
  rw [getByInode, Foundations.Table.get, h, List.find?_cons]
  by_cases hi : i = fuseRootInode
  · subst hi
    rfl
  · have hne : decide ((rootEntryAt m.mountId t).inode = i) = false := decide_eq_false (Ne.symm hi)
    rw [if_neg hi, hne]
    rfl

theorem forest_of_root {t : ℕ} (h : db.fileIndex.rows = [rootEntryAt m.mountId t]) :
    db.forest = (World.init m 0).db.forest := by
  funext i
  rw [forest, getByInode_of_root h, forest, getByInode_of_root (m := m) (t := 0) rfl]
  split
  · rfl
  · rfl

theorem planted_of_root {t : ℕ}
    (h : db.fileIndex.rows = [rootEntryAt m.mountId t]) : Planted m db := by
  have hrow : ∀ i r, db.getByInode i = some r →
      i = fuseRootInode ∧ r = rootEntryAt m.mountId t := by
    intro i r hr
    rw [getByInode_of_root h] at hr
    split at hr
    · exact ⟨‹_›, (Option.some.inj hr).symm⟩
    · cases hr
  refine ⟨⟨fun i r hr => ?_, fun i r hr _ => (hrow i r hr).1⟩, ?_, fun r hr => ?_⟩
  · rw [(hrow i r hr).2]
    rfl
  · rw [forest_of_root h]
    exact grounded_init m 0
  · rw [(hrow _ r hr).2]
    exact ⟨rfl, rfl, rfl⟩

theorem namesStep_of_fullStep {e : LifeEvent} (hp : Planted m w.db) (hk : KernelKeeps m w e)
    (h : fullStep m w e = some w') : NamesStep m w e w' := by
  cases e with
  | daemon ev => exact namesStep_of_step hp.rooted hp.grounded hk h
  | restart point env =>
    cases hroot : w.db.getByInode fuseRootInode with
    | some r =>
      rw [fullStep_eq_lifeStep hp (by rw [hroot]; rfl)] at h
      exact namesStep_of_restart hp.rooted h
    | none =>
      obtain ⟨hempty, t, hrows⟩ := rows_of_restart_rootless hp hroot h
      have hnone : ∀ i, w.db.forest i = none := by
        intro i
        rw [forest, getByInode, Foundations.Table.get, hempty]
        rfl
      have hbrings : BringsRoot m w.db.forest w'.db.forest := ⟨hnone, forest_of_root hrows⟩
      cases point with
      | rename => exact .inr (.inl hbrings)
      | _ => exact .inr hbrings

/-- **The names stay a tree under the root** while the kernel and the poller keep to theirs. -/
theorem planted_of_fullStep {e : LifeEvent} (hp : Planted m w.db) (hk : KernelKeeps m w e)
    (h : fullStep m w e = some w') : Planted m w'.db := by
  have hbelow := noneBelowItself_of_namesStep hp.rooted hk h (namesStep_of_fullStep hp hk h)
  cases e with
  | daemon ev =>
    have hpoll : ∀ op, ev = .poll op → op.mountId = m.mountId := by
      rintro op rfl
      exact hk.1
    obtain ⟨p, hregrows⟩ := regrows_of_step h hpoll
    have hrooted := hregrows.rooted hp.rooted
    have hgrounded := (hregrows.grounded_iff hp.grounded).2 hbelow
    exact ⟨hrooted, hgrounded, rootIntact_of_step hp.intact h hpoll hrooted hgrounded⟩
  | restart point env =>
    cases hroot : w.db.getByInode fuseRootInode with
    | some r =>
      obtain ⟨disk, hdisk, hstart⟩ := Option.bind_eq_some_iff.1 h
      have hintact := rootIntact_of_startUp hstart (rootIntact_of_disk hdisk hp.intact)
      rw [fullStep_eq_lifeStep hp (by rw [hroot]; rfl)] at h
      obtain ⟨p, hregrows⟩ := regrows_of_lifeStep h fun _ hop => by cases hop
      exact ⟨hregrows.rooted hp.rooted, (hregrows.grounded_iff hp.grounded).2 hbelow, hintact⟩
    | none =>
      obtain ⟨-, t, hrows⟩ := rows_of_restart_rootless hp hroot h
      exact planted_of_root hrows

end Steps

/-! ## Runs -/

/-- A file is created and gets another name before the daemon starts again. -/
def renameAndRestart : List LifeEvent :=
  [.daemon (.request (.create fuseRootInode ['a'])),
    .daemon (.request (.rename fuseRootInode ['a'] fuseRootInode ['b'])),
    .restart .between .fine]

end Stratosync

import Stratosync.Fuse.Attributes

/-!
# The size a file is reported with is the length of what is read

`fits_of_lifeStep` is the step: under `KeepsSizes` the sizes of every row, taken as the request in
progress will mark it, go with what the row has. It is proved for the requests, for the update that
ends one and for the steps of the tasks apart; `rowFits_of_request` and `rowFits_of_task` say what
becomes of the cache file and `rowFits_marked` what becomes of the columns.

`sizesMatch_of_run` follows. An upsert does not write the size of the cache file, so a row that was
cached before its object has grown reports the old size.
-/

namespace Stratosync

open Foundations.Runs

variable {m : Mount} {w w' : World} {fs fs' : CacheFs} {i : Inode} {r r' : FileEntry}

/-- The sizes of the rows of files are right, as the request in progress will leave them. -/
def FitsAll (w : World) : Prop :=
  ∀ i r, w.db.getByInode i = some r → r.kind = .file → RowFits w.fs (w.marked r)

/-- `FitsAll`, with what keeps a new row from the mark of a request in progress. -/
structure SizesHold (w : World) : Prop where
  fits : FitsAll w
  bounded : InodesBounded w
  given : ∀ c ∈ w.fuse, c.cachePath.isSome = true → c.inode ≤ w.db.seq

/-! ## Rows and their marks -/

theorem marked_of_idle (h : w.fuse = none) (r : FileEntry) : w.marked r = r := by
  rw [World.marked, h]

theorem marked_congr (h : w'.fuse = w.fuse) (r : FileEntry) : w'.marked r = w.marked r := by
  rw [World.marked, World.marked, h]

theorem marked_of_marks {c : FuseCall} (hc : w.fuse = some c) (hi : c.inode = r.inode)
    (hp : (c.cachePath <|> r.cachePath).isSome = true) : w.marked r = c.mark r := by
  rw [World.marked, hc]
  exact if_pos ⟨hi, hp⟩

theorem marked_of_not_marks (h : ¬w.Marks r) : w.marked r = r := by
  rw [World.marked]
  split
  · rename_i c hc
    exact if_neg fun ⟨hi, hp⟩ => h ⟨c, hc, hi, hp⟩
  · rfl

theorem rowFits_of_local (hl : r.status.hasLocalData = true)
    (h : HasLength fs r.cachePath r.recordedSize) : RowFits fs r := by
  rwa [RowFits, if_pos hl]

theorem rowFits_of_remote (hl : r.status.hasLocalData ≠ true) (h : r.OneSize) : RowFits fs r := by
  rwa [RowFits, if_neg hl]

theorem rowFits_evicted : RowFits fs r.evicted :=
  rowFits_of_remote Bool.false_ne_true fun _ h => by cases h

theorem rowFits_mark {c : FuseCall} :
    RowFits fs (c.mark r) ↔ HasLength fs (c.cachePath <|> r.cachePath) c.newSize :=
  Iff.rfl

/-- The sizes are those that the kernel is told. -/
theorem servesLength_of_rowFits (hk : r.kind = .file) (h : RowFits fs r) :
    ServesLength fs r (entryToAttr r).size := by
  have hsize : (entryToAttr r).size = r.recordedSize := if_pos hk
  rw [hsize, ServesLength]
  rw [RowFits] at h
  split
  · rwa [if_pos ‹_›] at h
  · rw [if_neg ‹_›] at h
    rw [FileEntry.recordedSize]
    cases hc : r.cacheSize with
    | none => rfl
    | some n => exact (h n hc).symm

/-- A row that stays right where its cache file does. -/
theorem rowFits_of_files (h : RowFits fs r)
    (hf : r.status.hasLocalData = true → HasLength fs r.cachePath r.recordedSize →
      HasLength fs' r.cachePath r.recordedSize) : RowFits fs' r := by
  rw [RowFits] at h ⊢
  split at h
  · rename_i hl
    rw [if_pos hl]
    exact hf hl h
  · rename_i hl
    rwa [if_neg hl]

theorem HasLength.mono {path : Option PathBuf} {n : ℕ} (h : HasLength fs path n)
    (hf : ∀ p b, fs'.files p = some b → fs.files p = some b) : HasLength fs' path n :=
  fun p hp b hb => h p hp b (hf p b hb)

/-- A row whose mark is still to come is right when it was; another is when its columns are. -/
theorem rowFits_marked (hd : RowFits fs (w.marked r)) (hi : r'.inode = r.inode)
    (hp : r'.cachePath = r.cachePath) (h : ¬w.Marks r → RowFits fs r → RowFits fs r') :
    RowFits fs (w.marked r') := by
  by_cases hm : w.Marks r
  · obtain ⟨c, hc, hci, hcp⟩ := hm
    rw [marked_of_marks hc hci hcp, rowFits_mark] at hd
    rwa [marked_of_marks hc (hci.trans hi.symm) (hp.symm ▸ hcp), rowFits_mark, hp]
  · have hm' : ¬w.Marks r' := by
      rintro ⟨c, hc, hci, hcp⟩
      exact hm ⟨c, hc, hci.trans hi, hp ▸ hcp⟩
    rw [marked_of_not_marks hm] at hd
    rw [marked_of_not_marks hm']
    exact h hm hd

theorem rowFits_of_status {s : SyncStatus} (hk : StatusKeepsSize w.fs r s)
    (hf : ∀ p b, fs'.files p = some b → w.fs.files p = some b) (hb : RowFits fs' r) :
    RowFits fs' { r with status := s } := by
  rw [StatusKeepsSize] at hk
  rw [RowFits] at hb
  split at hk
  · rename_i hs
    refine rowFits_of_local hs ?_
    obtain hl | hfile := hk
    · rwa [if_pos hl] at hb
    · exact hfile.mono hf
  · rename_i hs
    refine rowFits_of_remote hs ?_
    split at hb
    · exact hk ‹_›
    · exact hb

/-! ## Cache files -/

/-- **The cache file of a row after a request for another one.** -/
theorem hasLength_of_request {q : Request} {p : PathBuf} {new : Option Bytes}
    (hk : RequestKeepsSize m w r q) (hr : w.db.getByInode i = some r)
    (hl : r.status.hasLocalData = true) (hp : r.cachePath = some p)
    (hb : HasLength w.fs r.cachePath r.recordedSize)
    (hown : ∀ cp, changedFile m w q ≠ some (r.inode, cp))
    (hdest : ∀ p n p' n', q = .rename p n p' n' → w.db.getByParentName m.mountId p' n' = some r →
      (w.db.deleteEntry r.inode).isNone = true)
    (hfile : FileStep m w (.request q) p (w.fs.files p) new) :
    ∀ b ∈ new, b.length = r.recordedSize := by
  intro b hbf
  generalize hold : w.fs.files p = old at *
  cases hfile with
  | same => exact hb p hp b (hold.trans hbf)
  | @written fh offset data f old hf =>
    obtain rfl := Option.some.inj hbf
    have hne : f.inode ≠ r.inode := by
      rintro hfi
      exact hown f.cachePath (by rw [changedFile, hf, Option.map_some, hfi])
    have := hk f hf old hold
    rw [if_neg hne] at this
    exact (this hl hp).symm
  | @truncated j n e _ _ he hep =>
    obtain rfl := Option.some.inj hbf
    have hne : j ≠ r.inode := by
      rintro rfl
      exact hown _ (by rw [changedFile, he, Option.map_some])
    rw [hk hne e he hl (by rw [hep, Option.getD_some, hp])]
    exact Foundations.Edits.length_resize
  | @derived j n e _ he hep =>
    obtain rfl := Option.some.inj hbf
    have hne : j ≠ r.inode := by
      rintro rfl
      exact hown _ (by rw [changedFile, he, Option.map_some])
    rw [hk hne e he hl (by rw [hep, Option.getD_none, hp])]
    exact Foundations.Edits.length_resize
  | created hq hcp =>
    obtain rfl := Option.some.inj hbf
    exact (hk _ hq _ hcp hl hp).symm
  | @movedTo q n q' n' src cp _ data hsrc hcp hdata =>
    obtain rfl := Option.some.inj hbf
    by_cases hsame : src.inode = r.inode
    · have hsr := (Db.getByParentName_spec hsrc).1
      rw [hsame, Db.inode_of_getByInode hr, hr] at hsr
      obtain rfl := Option.some.inj hsr
      exact hb cp hcp _ hdata
    · exact (hk _ hsrc hsame (hdest _ _ _ _ rfl) _ hcp _ hdata hl hp).symm
  | unlinked | movedAway => cases hbf

theorem rowFits_of_request {q : Request} (hk : RequestKeepsSize m w r q)
    (hr : w.db.getByInode i = some r) (hb : RowFits w.fs r)
    (hown : ∀ cp, changedFile m w q ≠ some (r.inode, cp))
    (hdest : ∀ p n p' n', q = .rename p n p' n' → w.db.getByParentName m.mountId p' n' = some r →
      (w.db.deleteEntry r.inode).isNone = true)
    (hfile : ∀ p, FileStep m w (.request q) p (w.fs.files p) (fs'.files p)) : RowFits fs' r :=
  rowFits_of_files hb fun hl hlen p hp => hasLength_of_request hk hr hl hp hlen hown hdest (hfile p)

/-- The cache file of a row after the step of a task. -/
theorem rowFits_of_task {ev : Event} (h : step m w ev = some w') (hev : ∀ q, ev ≠ .request q)
    (hk : KeepsSize m w r ev) (hkind : r.kind = .file) (hb : RowFits w.fs (w.marked r)) :
    RowFits w'.fs (w.marked r) := by
  refine rowFits_of_files hb fun hl hlen p hp b hbf => ?_
  have hfile := file_of_step h p
  generalize hold : w.fs.files p = old at *
  generalize hnew : w'.fs.files p = new at *
  cases hfile with
  | same => exact hlen p hp b (hold.trans hbf)
  | installed hh =>
    obtain rfl := Option.some.inj hbf
    exact ((hk _ hh hkind).2 _ rfl hl hp).symm
  | evicted | dropped => cases hbf
  | _ => exact absurd rfl (hev _)

/-- A destination that a rename does not drop could not be dropped, or nothing was moved. -/
theorem destination_of_rename {p p' : Inode} {n n' : Str} {r₁ : FileEntry}
    (hdest : w.db.getByParentName m.mountId p' n' = some r)
    (hr₁ : (handleRename m w p n p' n').2.db.getByInode r.inode = some r₁) :
    (handleRename m w p n p' n').2.fs = w.fs ∨ (w.db.deleteEntry r.inode).isNone = true := by
  cases hsrc : w.db.getByParentName m.mountId p n with
  | none =>
    left
    simp only [handleRename, hsrc]
    split <;> rfl
  | some src =>
    obtain ⟨-, hfs⟩ | ⟨q, -, -, hdb⟩ := handleRename_spec p' n' hsrc
    · exact .inl hfs
    · right
      cases hdel : w.db.deleteEntry r.inode with
      | none => rfl
      | some db₁ =>
        have hdrop : (dropDestination w.db m.mountId p' n').1.getByInode r.inode = none := by
          simp only [dropDestination, hdest, hdel, Option.getD_some]
          rw [Db.getByInode_deleteEntry hdel, if_pos rfl]
        obtain ⟨-, hdb⟩ | ⟨db, hren, hdb⟩ := hdb
        · rw [hdb, hdrop] at hr₁
          cases hr₁
        · rw [hdb, getByInode_of_renamed hren hdrop] at hr₁
          cases hr₁

/-! ## Requests -/

theorem fits_of_write {fh offset : ℕ} {data : Bytes} (hw : w.fuse = none)
    (hI : FitsAll w)
    (hk : ∀ r ∈ w.db.fileIndex.rows, KeepsSize m w r (.request (.write fh offset data))) :
    FitsAll (handleWrite w fh offset data).2 := by
  cases hres : (handleWrite w fh offset data).1 with
  | error e =>
    rw [handleWrite_eq_of_error hres]
    exact hI
  | ok =>
    obtain ⟨f, old, hf, hold, hw'⟩ := handleWrite_spec hres
    rw [hw']
    intro i r hr hkind
    have hr : w.db.getByInode i = some r := hr
    have hreq := hk r (Db.mem_rows_of_getByInode hr) hkind
    have hb := hI i r hr hkind
    rw [marked_of_idle hw] at hb
    by_cases hi : f.inode = r.inode
    · cases hcp : r.cachePath with
      | none =>
        -- the row cannot be marked
        rw [marked_of_not_marks]
        · refine rowFits_of_files hb fun _ _ p hp => ?_
          rw [hcp] at hp
          cases hp
        · rintro ⟨c, hc, -, hp⟩
          obtain rfl := Option.some.inj hc
          rw [hcp] at hp
          cases hp
      | some p =>
        rw [marked_of_marks (c := .write f.inode _) rfl hi (by rw [hcp]; rfl), rowFits_mark]
        intro q hq b hb
        obtain rfl : p = q := Option.some.inj (hcp.symm.trans hq)
        rw [Option.mem_def, CacheFs.files_put] at hb
        split at hb
        · rw [← Option.some.inj hb]
          rfl
        · rename_i hne
          have hlen := hreq f hf old hold
          rw [if_pos hi] at hlen
          exact hlen (fun hsame => hne (Option.some.inj (hcp.symm.trans hsame))) p hcp b hb
    · rw [marked_of_not_marks]
      · refine rowFits_of_request hreq hr hb (fun cp hcp => ?_) (fun _ _ _ _ h => by cases h)
          fun p => ?_
        · rw [changedFile, hf, Option.map_some] at hcp
          exact hi (congrArg Prod.fst (Option.some.inj hcp))
        · have hfile := fileStep_write (m := m) (w := w) (p := p) fh offset data
          rwa [hw'] at hfile
      · rintro ⟨c, hc, hci, -⟩
        obtain rfl := Option.some.inj hc
        exact hi hci

theorem fits_of_setattr {j : Inode} {n : ℕ} (hw : w.fuse = none) (hI : FitsAll w)
    (hk : ∀ r ∈ w.db.fileIndex.rows, KeepsSize m w r (.request (.setattr j n))) :
    FitsAll (handleSetattr m w j n).2 := by
  cases hres : (handleSetattr m w j n).1 with
  | error e =>
    obtain ⟨hdb, hfuse, hfs⟩ := handleSetattr_eq_of_error hres
    intro i r hr hkind
    rw [hdb] at hr
    rw [marked_congr hfuse]
    refine rowFits_of_files (hI i r hr hkind) fun _ hlen => hlen.mono fun p b hb => ?_
    rwa [hfs] at hb
  | ok =>
    obtain ⟨e, p, cp, fs, he, -, hp, hfiles, hw'⟩ := handleSetattr_spec hres
    have hfile := fun p => fileStep_setattr (m := m) (w := w) (p := p) j n
    rw [hw'] at hfile ⊢
    intro i r hr hkind
    have hr : w.db.getByInode i = some r := hr
    have hreq := hk r (Db.mem_rows_of_getByInode hr) hkind
    have hb := hI i r hr hkind
    rw [marked_of_idle hw] at hb
    by_cases hi : j = r.inode
    · rw [hi, Db.inode_of_getByInode hr, hr] at he
      obtain rfl := Option.some.inj he
      rw [marked_of_marks (c := .setattr j n cp) rfl hi (Option.isSome_iff_exists.2 ⟨p, hp⟩),
        rowFits_mark]
      intro q hq b hb
      obtain rfl : p = q := Option.some.inj (hp.symm.trans hq)
      rw [hfiles, if_pos rfl] at hb
      rw [← Option.some.inj hb]
      exact Foundations.Edits.length_resize
    · rw [marked_of_not_marks]
      · refine rowFits_of_request hreq hr hb (fun cp hcp => ?_) (fun _ _ _ _ h => by cases h)
          hfile
        rw [changedFile, he, Option.map_some] at hcp
        exact hi (congrArg Prod.fst (Option.some.inj hcp))
      · rintro ⟨c, hc, hci, -⟩
        obtain rfl := Option.some.inj hc
        exact hi hci

/-- The row of a new file. -/
theorem rowFits_of_created {p : Inode} {n : Str} (h : step m w (.request (.create p n)) = some w')
    (hn : w.db.getByInode i = none) (hr' : w'.db.getByInode i = some r') :
    RowFits w'.fs r' := by
  rw [(step_request h).2] at hr' ⊢
  change (handleCreate m w p n).2.db.getByInode i = some r' at hr'
  change RowFits (handleCreate m w p n).2.fs r'
  cases hres : (handleCreate m w p n).1 with
  | error e =>
    have hdb : (handleCreate m w p n).2.db = w.db := by
      generalize hout : handleCreate m w p n = out at hres ⊢
      simp only [handleCreate, World.allocFh] at hout
      repeat' split at hout
      all_goals subst hout
      all_goals first | rfl | cases hres
    rw [hdb, hn] at hr'
    cases hr'
  | ok out =>
    obtain ⟨j, fh⟩ := out
    obtain ⟨q, cp, fs₁, fs₂, db, -, -, -, hcr, hins, hdb, hfs⟩ := handleCreate_spec hres
    obtain ⟨db₁, h₁, he⟩ := Option.map_eq_some_iff.1 hins
    obtain ⟨rfl, rfl⟩ := Prod.mk.inj he
    rw [hdb, Db.getByInode_insertRow h₁] at hr'
    split at hr'
    · rw [← Option.some.inj hr', hfs]
      refine rowFits_of_local rfl fun c hc b hb => ?_
      obtain rfl := Option.some.inj hc
      rw [Option.mem_def, CacheFs.files_of_create hcr, if_pos rfl] at hb
      rw [← Option.some.inj hb]
      rfl
    · rw [hn] at hr'
      cases hr'

/-- The row that a rename leaves. -/
theorem rowFits_of_renamed {p p' : Inode} {n n' : Str} {q : FileEntry}
    (h : step m w (.request (.rename p n p' n')) = some w')
    (hsrc : w.db.getByParentName m.mountId p n = some r) (hr : w.db.getByInode i = some r)
    (hb : RowFits w.fs r) (hr' : w'.db.getByInode i = some { r with
      parent := some p', name := n', remotePath := joinRemote q.remotePath n'
      cachePath := (moveCacheFile w.fs r.cachePath n').2 }) :
    RowFits w'.fs { r with
      parent := some p', name := n', remotePath := joinRemote q.remotePath n'
      cachePath := (moveCacheFile w.fs r.cachePath n').2 } := by
  rw [RowFits] at hb
  split at hb
  · rename_i hl
    refine rowFits_of_local hl ?_
    intro p hp b hbf
    obtain ⟨cp, hcp, hold⟩ := file_of_renamed h hsrc hr hr' hp hbf
    exact hb cp hcp b hold
  · rename_i hl
    exact rowFits_of_remote hl hb

/-- A request that changes no content of its own. -/
theorem fits_of_plain {q : Request} (hplain : changedFile m w q = none)
    (h : step m w (.request q) = some w') (hI : FitsAll w)
    (hk : ∀ r ∈ w.db.fileIndex.rows, KeepsSize m w r (.request q)) : FitsAll w' := by
  obtain ⟨hw, hw'⟩ := step_request h
  have hidle : w'.fuse = none := by
    rw [Option.eq_none_iff_forall_ne_some]
    rintro c hc
    obtain ⟨p, hp⟩ := changedFile_of_serve (m := m) (q := q) hw (hw' ▸ hc)
    rw [hplain] at hp
    cases hp
  intro i r' hr' hkind
  rw [marked_of_idle hidle]
  -- a row that stays as it is
  have hsame : ∀ r, w.db.getByInode i = some r → r.kind = .file →
      w'.db.getByInode i = some r' → RowFits w'.fs r := by
    intro r hr hrk hr'
    have hb := hI i r hr hrk
    rw [marked_of_idle hw] at hb
    have hreq := hk r (Db.mem_rows_of_getByInode hr) hrk
    by_cases hfs : w'.fs = w.fs
    · rwa [hfs]
    · refine rowFits_of_request hreq hr hb (fun cp hcp => ?_) ?_ (file_of_step h)
      · rw [hplain] at hcp
        cases hcp
      · rintro p n p' n' rfl hdest
        rw [hw'] at hr' hfs
        rw [← Db.inode_of_getByInode hr] at hr'
        exact (destination_of_rename hdest hr').resolve_left hfs
  cases hr : w.db.getByInode i with
  | some r =>
    have hrow := row_of_step h hr
    rw [hr'] at hrow
    cases hrow with
    | same => exact hsame r' hr hkind hr'
    | opened hs =>
      refine rowFits_of_remote Bool.false_ne_true ?_
      have hb := hsame r hr hkind hr'
      rw [RowFits, if_neg] at hb
      · exact hb
      · revert hs
        cases r.status <;> simp [SyncStatus.needsHydration, SyncStatus.hasLocalData]
    | renamed hsrc hq =>
      have hb := hI i r hr hkind
      rw [marked_of_idle hw] at hb
      exact rowFits_of_renamed h hsrc hr hb hr'
  | none =>
    cases ((rowsStep_of_step h).new i r' hr hr').1 with
    | created => exact rowFits_of_created h hr hr'
    | made _ hdir =>
      rw [hdir] at hkind
      cases hkind

theorem fits_of_request {q : Request} (h : step m w (.request q) = some w') (hI : FitsAll w)
    (hk : ∀ r ∈ w.db.fileIndex.rows, KeepsSize m w r (.request q)) : FitsAll w' := by
  obtain ⟨hw, hw'⟩ := step_request h
  cases q with
  | write fh offset data => exact hw' ▸ fits_of_write hw hI hk
  | setattr j n => exact hw' ▸ fits_of_setattr hw hI hk
  | _ => exact fits_of_plain rfl h hI hk

/-! ## The update that ends a request -/

theorem fits_of_fuse {env : Env} {c : FuseCall} (hc : w.fuse = some c) (hI : FitsAll w)
    (hk : ∀ r ∈ w.db.fileIndex.rows, KeepsSize m w r (.fuse env)) : FitsAll (c.tick w env) := by
  have hstep : step m w (.fuse env) = some (c.tick w env) := congrArg (Option.map _) hc
  have hidle : (c.tick w env).fuse = none := by
    obtain ⟨_, _, hw⟩ := fuseCall_tick_eq w env c
    rw [hw]
  intro i r' hr' hkind
  rw [marked_of_idle hidle, fs_tick]
  rcases row_inv_of_step hstep hr' with ⟨r, hr, hrow⟩ | ⟨hnew, -⟩
  · have hri := Db.inode_of_getByInode hr
    have hrk : r.kind = .file := by
      cases hrow <;> exact hkind
    have hb := hI i r hr hrk
    by_cases hm : w.Marks r
    · obtain ⟨c', hc', hi, hp⟩ := hm
      obtain rfl : c = c' := Option.some.inj (hc.symm.trans hc')
      rw [marked_of_marks hc hi hp] at hb
      have hrc : w.db.getByInode c.inode = some r := by rw [hi, hri, hr]
      cases hf : env.fault with
      | false =>
        obtain ⟨p, hp⟩ := Option.isSome_iff_exists.1 hp
        have hself := (rowMapped_of_path hf hrc hp).self
        rw [hi, hri, hr', hr] at hself
        rwa [Option.some.inj hself]
      | true =>
        rw [db_tick_of_fault hf, hr] at hr'
        rw [← Option.some.inj hr']
        exact hk r (Db.mem_rows_of_getByInode hr) hrk hf ⟨c, hc, hi, hp⟩
    · rw [marked_of_not_marks hm] at hb
      cases hrow with
      | same => exact hb
      | @dirtied _ c' _ hc' =>
        -- the row has no cache path, and nothing is read of it
        refine rowFits_of_local rfl fun p hp => ?_
        exact absurd ⟨c', hc', hri.symm, Option.isSome_iff_exists.2 ⟨p, hp⟩⟩ hm
  · cases hnew

/-! ## Tasks -/

/-- A task that installs nothing only removes files. -/
theorem files_of_task {ev : Event} (h : step m w ev = some w') (hreq : ∀ q, ev ≠ .request q)
    (hinst : ∀ k env, ev = .hydration k env → ∀ x ∈ w.hydrations[k]?, x.pc.installs = none) :
    ∀ p b, w'.fs.files p = some b → w.fs.files p = some b := by
  intro p b hb
  have hfile := file_of_step h p
  generalize w.fs.files p = old at *
  generalize w'.fs.files p = new at *
  cases hfile with
  | same => exact hb
  | installed hh => cases hinst _ _ rfl _ hh
  | evicted | dropped => cases hb
  | _ => exact absurd rfl (hreq _)

theorem rowFits_marked_evicted (hb : RowFits fs (w.marked r)) :
    RowFits fs (w.marked r.evicted) := by
  by_cases hm : w.Marks r.evicted
  · obtain ⟨c, hc, hi, hp⟩ := hm
    rw [marked_of_marks hc hi hp, rowFits_mark]
    obtain ⟨q, hq⟩ : ∃ q, c.cachePath = some q := by
      cases hcp : c.cachePath with
      | none =>
        rw [hcp] at hp
        cases hp
      | some q => exact ⟨q, rfl⟩
    rw [marked_of_marks (r := r) hc hi (by rw [hq]; rfl), rowFits_mark, hq] at hb
    rw [hq]
    exact hb
  · rw [marked_of_not_marks hm]
    exact rowFits_evicted

/-- The row of a file that was hydrated, with the file that was installed. -/
theorem rowFits_marked_hydrated {e : FileEntry} {cp : PathBuf} {n : ℕ}
    (hb : RowFits fs (w.marked r)) (hfile : HasLength fs (some cp) n)
    (hk : ∀ c ∈ w.fuse, c.inode = r.inode → c.cachePath = none →
      HasLength fs (some cp) c.newSize) :
    RowFits fs (w.marked (r.hydrated e cp n)) := by
  by_cases hm : w.Marks (r.hydrated e cp n)
  · obtain ⟨c, hc, hi, hp⟩ := hm
    rw [marked_of_marks hc hi hp, rowFits_mark]
    cases hcp : c.cachePath with
    | none => exact hk c hc hi hcp
    | some q =>
      rw [marked_of_marks (r := r) hc hi (by rw [hcp]; rfl), rowFits_mark, hcp] at hb
      exact hb
  · rw [marked_of_not_marks hm]
    exact rowFits_of_local rfl hfile

/-- What the tasks of the daemon do to the row of a file. -/
theorem fits_of_task {ev : Event} (h : step m w ev = some w') (hreq : ∀ q, ev ≠ .request q)
    (hfuse : ∀ env, ev ≠ .fuse env) (hpoll : ∀ op, ev ≠ .poll op) (hI : FitsAll w)
    (hk : ∀ r ∈ w.db.fileIndex.rows, KeepsSize m w r ev) : FitsAll w' := by
  have hsame : w'.fuse = w.fuse := by
    obtain hf | ⟨env, rfl, -⟩ | ⟨q, rfl, -⟩ := fuse_of_step h
    · exact hf
    · exact absurd rfl (hfuse env)
    · exact absurd rfl (hreq q)
  intro i r' hr' hkind
  rw [marked_congr hsame]
  rcases row_inv_of_step h hr' with ⟨r, hr, hrow⟩ | ⟨hnew, -⟩
  · have hri := (Db.inode_of_getByInode hr).symm
    have hkeep := hk r (Db.mem_rows_of_getByInode hr)
    have hb : r.kind = .file → RowFits w'.fs (w.marked r) := fun hrk =>
      rowFits_of_task h hreq hkeep hrk (hI i r hr hrk)
    have hfiles := files_of_task h hreq
    cases hrow with
    | same => exact hb hkind
    | dirtied => exact absurd rfl (hfuse _)
    | opened | renamed => exact absurd rfl (hreq _)
    | refreshed | dropped => exact absurd rfl (hpoll _)
    | reset hu hf =>
      exact rowFits_marked (hb hkind) rfl rfl fun hm =>
        rowFits_of_status (hkeep _ hu hkind hri hm hf) (hfiles fun _ _ h => by cases h)
    | reverted => exact rowFits_marked_evicted (hb hkind)
    | marked hu =>
      exact rowFits_marked (hb hkind) rfl rfl fun hm =>
        rowFits_of_status (hkeep _ hu hkind hri hm) (hfiles fun _ _ h => by cases h)
    | uploaded hu hf =>
      exact rowFits_marked (hb hkind) rfl rfl fun hm _ =>
        rowFits_of_local rfl ((hkeep _ hu hkind hri hm hf).mono (hfiles fun _ _ h => by cases h))
    | failed hu =>
      exact rowFits_marked (hb hkind) rfl rfl fun hm =>
        rowFits_of_status (hkeep _ hu hkind hri hm) (hfiles fun _ _ h => by cases h)
    | claimed hh | timedOut hh | rolledBack hh =>
      refine rowFits_marked (hb hkind) rfl rfl fun hm =>
        rowFits_of_status ((hkeep _ hh hkind).1 hri hm) (hfiles fun k env he x hx => ?_)
      cases he
      rw [Option.some.inj (hx.symm.trans hh)]
      rfl
    | hydrated hh hf =>
      have hsub := hfiles fun k env he x hx => by
        cases he
        rw [Option.some.inj (hx.symm.trans hh)]
        rfl
      refine rowFits_marked_hydrated (hb hkind) (fun p hp b hbf => ?_)
        fun c hc hi hnone => ((hkeep _ hh hkind).1 hri c hc hi hnone).mono hsub
      obtain rfl := Option.some.inj hp
      rw [Option.some.inj ((hsub _ b hbf).symm.trans hf)]
    | backfilled => exact rowFits_marked (hb hkind) rfl rfl fun _ h => h
    | claimedByRead hrd hpc hf =>
      refine rowFits_marked (hb hkind) rfl rfl fun hm =>
        rowFits_of_status (hkeep _ hrd _ ?_ hkind hri hf hm) (hfiles fun _ _ h => by cases h)
      rw [hpc]
      rfl
    | evicted => exact rowFits_marked_evicted (hb hkind)
  · cases hnew with
    | created | made => exact absurd rfl (hreq _)
    | listed => exact absurd rfl (hpoll _)

/-- **What the poller does to the row of a file.** -/
theorem fits_of_poll {op : RemoteOp} (hI : FitsAll w)
    (hgiven : ∀ c ∈ w.fuse, c.cachePath.isSome = true → c.inode ≤ w.db.seq)
    (hk : ∀ r ∈ w.db.fileIndex.rows, KeepsSize m w r (.poll op)) : FitsAll (w.poll op) := by
  have h : step m w (.poll op) = some (w.poll op) := rfl
  intro i r' hr' hkind
  rw [marked_congr (show (w.poll op).fuse = w.fuse from rfl)]
  have hfiles := files_of_task h (fun _ h => by cases h) fun _ _ h => by cases h
  obtain ⟨r, hr, href⟩ | ⟨hl, hlt, -⟩ := (rowsListed_applyRemote op w.db).rows i r' hr'
  · have hkeep := hk r (Db.mem_rows_of_getByInode hr)
    have hb : r.kind = .file → RowFits (w.poll op).fs (w.marked r) := fun hrk =>
      rowFits_of_task h (fun _ h => by cases h) hkeep hrk (hI i r hr hrk)
    obtain rfl | ⟨u, hu, hmatch, id, rfl⟩ := href
    · exact hb hkind
    have hup := hkeep u hu hmatch hkind
    by_cases hm : w.Marks r
    · rw [UpsertKeepsSize, if_pos hm] at hup
      exact rowFits_marked (hb hup) rfl rfl fun hnot => absurd hm hnot
    · rw [UpsertKeepsSize, if_neg hm] at hup
      have hm' : ¬w.Marks { refreshRow u.2.1 r with remoteItemId := id } := hm
      rw [marked_of_not_marks hm']
      split at hup
      · rename_i hs
        refine rowFits_of_local ?_ (hup.mono hfiles)
        exact (congrArg SyncStatus.hasLocalData (if_pos hs)).trans (hasLocalData_of_isUnsynced hs)
      · rename_i hs
        refine rowFits_of_remote ?_ hup
        exact (congrArg SyncStatus.hasLocalData (if_neg hs)).trans_ne Bool.false_ne_true
  · -- a row that is new has no size of a cache file
    rw [marked_of_not_marks, RowFits]
    · split
      · intro p hp
        rw [hl.cachePath] at hp
        cases hp
      · intro n hn
        rw [hl.cacheSize] at hn
        cases hn
    · rintro ⟨c, hc, hi, hp⟩
      rw [hl.cachePath] at hp
      have hsome : c.cachePath.isSome = true := by
        revert hp
        cases c.cachePath <;> exact id
      rw [Db.inode_of_getByInode hr'] at hi
      exact absurd (hgiven c hc hsome) (hi ▸ Nat.not_le.2 hlt)

/-! ## Runs -/

/-- A request that is to enter a cache path is for a row there is. -/
theorem given_of_step {ev : Event} (hx : SizesHold w) (h : step m w ev = some w') :
    ∀ c ∈ w'.fuse, c.cachePath.isSome = true → c.inode ≤ w'.db.seq := by
  intro c hc hp
  refine le_trans ?_ (seq_le_of_step h)
  obtain hf | ⟨env, -, hf⟩ | ⟨q, rfl, hw, hw'⟩ := fuse_of_step h
  · exact hx.given c (hf ▸ hc) hp
  · rw [hf] at hc
    cases hc
  · rw [hw'] at hc
    obtain ⟨p, hq⟩ := changedFile_of_serve hw hc
    cases q with
    | write fh offset data =>
      change (handleWrite w fh offset data).2.fuse = some c at hc
      cases hres : (handleWrite w fh offset data).1 with
      | error e =>
        rw [handleWrite_eq_of_error hres, hw] at hc
        cases hc
      | ok =>
        obtain ⟨f, old, -, -, hw'⟩ := handleWrite_spec hres
        rw [hw'] at hc
        obtain rfl := Option.some.inj hc
        cases hp
    | setattr j n =>
      obtain ⟨r, hr, he⟩ := Option.map_eq_some_iff.1 hq
      rw [← (Prod.mk.inj he).1]
      exact hx.bounded j r hr
    | _ => cases hq

theorem sizesHold_of_step {ev : Event} (hx : SizesHold w) (h : step m w ev = some w')
    (hk : ∀ r ∈ w.db.fileIndex.rows, KeepsSize m w r ev) : SizesHold w' := by
  refine ⟨?_, hx.bounded.step h, given_of_step hx h⟩
  cases ev with
  | request q => exact fits_of_request h hx.fits hk
  | fuse env =>
    obtain ⟨c, hc, rfl⟩ := Option.map_eq_some_iff.1 h
    exact fits_of_fuse hc hx.fits hk
  | poll op => exact Option.some.inj h ▸ fits_of_poll hx.fits hx.given hk
  | _ =>
    exact fits_of_task h (fun _ h => by cases h) (fun _ h => by cases h) (fun _ h => by cases h)
      hx.fits hk

/-- **A start after a crash leaves the sizes right.** -/
theorem sizesHold_of_restart {point : CrashPoint} {env : StartEnv} (hx : SizesHold w)
    (h : lifeStep m w (.restart point env) = some w')
    (hk : KeepsSizes m w (.restart point env)) : SizesHold w' := by
  obtain ⟨disk, hdisk, hstart⟩ := Option.bind_eq_some_iff.1 h
  have hidle := fuse_of_restart hstart
  refine ⟨fun i r' hr' hkind => ?_, fun i r' hr' => ?_, fun c hc => ?_⟩
  · rw [marked_of_idle hidle]
    obtain ⟨r, hr, rfl | rfl⟩ := row_of_restart hstart hr' hkind
    · have hr₀ := getByInode_of_disk hdisk hr
      obtain ⟨hfuse, hreq⟩ := hk r' (Db.mem_rows_of_getByInode hr₀) hkind
      have hb : RowFits w.fs r' := by
        by_cases hm : w.Marks r'
        · exact hfuse hm
        · exact marked_of_not_marks hm ▸ hx.fits i r' hr₀ hkind
      have hdisk' : RowFits disk.2 r' := by
        refine rowFits_of_files hb fun hl hlen p hp b hbf => ?_
        obtain hsame | ⟨q, hq, hfile⟩ := file_of_disk hdisk p
        · exact hlen p hp b (hsame ▸ hbf)
        · refine hasLength_of_request (hreq q hq) hr₀ hl hp hlen ?_ ?_ hfile b hbf
          · intro cp hcp
            cases point with
            | setattr j made =>
              cases made with
              | false => cases hq
              | true =>
                obtain rfl := Option.some.inj hq
                obtain ⟨e, he, heq⟩ := Option.map_eq_some_iff.1 hcp
                have hj : j = i := (Prod.mk.inj heq).1.trans (Db.inode_of_getByInode hr₀)
                rw [cachePath_of_disk hdisk (hj ▸ hr₀)] at hp
                cases hp
            | between => cases hq
            | create p n made | rename p n p' n' made =>
              cases made with
              | false => cases hq
              | true =>
                obtain rfl := Option.some.inj hq
                cases hcp
          · rintro p n p' n' rfl hdest
            rw [← Db.inode_of_getByInode hr] at hr
            cases point with
            | rename _ _ _ _ made =>
              cases made with
              | false => cases hq
              | true =>
                obtain ⟨rfl, rfl, rfl, rfl⟩ := Request.rename.inj (Option.some.inj hq)
                exact destination_of_disk hdisk hdest hr
            | between => cases hq
            | create _ _ made | setattr _ made => cases made <;> cases hq
      exact rowFits_of_files hdisk' fun _ hlen => hlen.mono fun p b => files_of_restart hstart
    · exact rowFits_evicted
  · obtain ⟨r, hr⟩ := exists_of_restart hstart hr'
    rw [seq_of_restart hstart, seq_of_disk hdisk]
    exact hx.bounded i r (getByInode_of_disk hdisk hr)
  · rw [hidle] at hc
    cases hc

theorem sizesHold_init (m : Mount) (now : ℕ) : SizesHold (World.init m now) := by
  refine ⟨fun i r hr hkind => ?_, inodesBounded_init m now, fun c hc => by cases hc⟩
  obtain rfl : r = rootEntry m.mountId := List.mem_singleton.1 (Db.mem_rows_of_getByInode hr)
  cases hkind

/-- **Every step that keeps the sizes leaves them right.** -/
theorem sizesHold_of_lifeStep {e : LifeEvent} (hx : SizesHold w) (hk : KeepsSizes m w e)
    (h : lifeStep m w e = some w') : SizesHold w' := by
  cases e with
  | daemon ev => exact sizesHold_of_step hx h hk
  | restart point env => exact sizesHold_of_restart hx h hk

theorem sizesMatch_of_sizesHold (hx : SizesHold w) : w.SizesMatch := by
  intro hidle i r hr hkind
  have hb := hx.fits i r hr hkind
  rw [marked_of_idle hidle] at hb
  exact servesLength_of_rowFits hkind hb

/-- A file of one byte is listed, opened and hydrated. -/
def hydrateListed : List LifeEvent :=
  [.daemon (foreignVersion ['a'] [1] ['v']), .daemon (.poll (reportedFile ['a'] 1 ['v'])),
    .daemon (.request (.open_ 2))] ++ List.replicate 5 (.daemon (.hydration 0 .fine))

/-- The object of the file grows, and a poll lists it. -/
def growHydrated : List LifeEvent :=
  hydrateListed ++ [.daemon (foreignVersion ['a'] [1, 2, 3] ['w'])]

end Stratosync

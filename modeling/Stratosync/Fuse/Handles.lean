import Stratosync.Cache.Unshared
import Stratosync.Cache.EvictSynced
import Stratosync.Fuse.EditsSpared

/-!
# Open handles and their inodes

An entry of the table of open files has its own copy of a cache path and a remote path, taken when
the file was opened. It keeps up with the row of its inode (`Follows`) as long as no step changes
what the row records while the file is open: no rename that moves the cache file, no eviction, no
hydration or truncation that records another path. `handlesFollow_of_run` shows that then a write
through a handle changes the file the row records, and no other, and a read answers with bytes of
the row's content.
-/

namespace Stratosync

open Foundations.Runs Foundations.Pool

/-- The entry of the table of open files a read keeps. -/
def ReadPc.handle : ReadPc → Option OpenFile
  | .status f | .claim f | .range f | .await f _ | .retarget f => some f
  | .start | .cache => none

/-- The handle a read is about. -/
def World.readHandle (w : World) (rd : Read) : Option OpenFile :=
  rd.pc.handle <|> w.openFiles rd.fh

/-- The open files of inode `i`. -/
def World.handlesOn (w : World) (i : Inode) : List OpenFile :=
  ((List.range w.nextFh).filterMap w.openFiles).filter fun f => f.inode = i

/-- The row records a cache file that is there. -/
def HasFile (w : World) (r : FileEntry) : Prop := ∃ p ∈ r.cachePath, (w.fs.files p).isSome = true

/-- The entry of an open file agrees with the row of its inode: on the cache file, or, before the
content is there, on the remote path and on the cache path, if the row has one. -/
structure Follows (w : World) (f : OpenFile) (r : FileEntry) : Prop where
  ready : f.hydrating = false →
    r.cachePath = some f.cachePath ∧ (w.fs.files f.cachePath).isSome = true
  hydrating : f.hydrating = true →
    r.remotePath = f.remotePath ∧ ∀ p ∈ r.cachePath, p = f.cachePath

/-- The entry `f` a read keeps of handle `fh` still names the inode and its remote path. -/
structure Tracks (w : World) (fh : ℕ) (f : OpenFile) : Prop where
  inode_le : f.inode ≤ w.db.seq
  fh_lt : fh < w.nextFh
  remotePath : ∀ r, w.db.getByInode f.inode = some r → r.remotePath = f.remotePath
  inode_eq : ∀ g, w.openFiles fh = some g → g.inode = f.inode

/-- The cache file of handle `fh` can be read, if its inode exists. -/
structure Ready (w : World) (fh : ℕ) : Prop where
  fh_lt : fh < w.nextFh
  hydrating : ∀ g, w.openFiles fh = some g → g.hydrating = true → w.db.getByInode g.inode = none

/-- A read in progress is about the inode its handle was opened for. -/
structure ReadFollows (w : World) (rd : Read) : Prop where
  handle : ∀ f ∈ rd.pc.handle, Tracks w rd.fh f
  cache : rd.pc = .cache → Ready w rd.fh

/-- **Open handles follow their inodes.** -/
structure HandlesFollow (w : World) : Prop where
  unshared : NotShared w
  bounded : InodesBounded w
  fresh : ∀ fh f, w.openFiles fh = some f → fh < w.nextFh ∧ f.inode ≤ w.db.seq
  follows : ∀ fh f r, w.openFiles fh = some f → w.db.getByInode f.inode = some r → Follows w f r
  reads : ∀ rd ∈ w.reads, ReadFollows w rd
  writes : ∀ i n, w.fuse = some (.write i n) → i ≤ w.db.seq ∧
    ∀ r, w.db.getByInode i = some r → r.cachePath.isSome = true

/-! ## The condition -/

/-- Every open file of `i` awaits its content, and no change of `i` is in progress. -/
def Loose (w : World) (i : Inode) : Prop :=
  (∀ f ∈ w.handlesOn i, f.hydrating = true) ∧ ∀ c ∈ w.fuse, c.inode ≠ i

/-- A write finds a cache path on record, an open a cache file; an unlink of an open file drops its
row; a rename of an open file moves no cache file and finds no handle or read that goes by the
remote path. -/
def RequestKeeps (m : Mount) (w : World) : Request → Prop
  | .write fh _ _ => ∀ f ∈ w.openFiles fh, ∀ r ∈ w.db.getByInode f.inode,
      r.cachePath.isSome = true
  | .open_ i => ∀ r ∈ w.db.getByInode i,
      (r.status.needsHydration || r.status.isHydrating) = false → HasFile w r
  | .unlink p n => ∀ r ∈ w.db.getByParentName m.mountId p n, w.handlesOn r.inode ≠ [] →
      (w.db.deleteEntry r.inode).isSome = true
  | .rename p n _ n' =>
    ∀ r ∈ w.db.getByParentName m.mountId p n,
      (∀ f ∈ w.handlesOn r.inode, f.hydrating = false ∧
        (moveCacheFile w.fs r.cachePath n').2 = r.cachePath) ∧
      ∀ rd ∈ w.reads, ∀ f ∈ rd.pc.handle, f.inode ≠ r.inode
  | _ => True

/-- A read that takes the cache path from the row finds a cache file on record. -/
def ReadKeeps (w : World) (env : Env) : ReadPc → Prop
  | .status f => env.fault = false ∧ ∀ r ∈ w.db.getByInode f.inode,
      (r.status.hasLocalData && !r.status.isHydrating) = true → HasFile w r
  | .retarget f => ∀ r ∈ w.db.getByInode f.inode, HasFile w r
  | _ => True

def FuseCall.isWrite : FuseCall → Bool
  | .write .. => true
  | .setattr .. => false

/-- The upload is about to revert its row. -/
def UploadPc.reverts : UploadPc → Bool
  | .revert _ => true
  | _ => false

/-- A step that leaves what the rows of open files record, or does so before their content is
there. -/
def KeepsHandles (m : Mount) (w : World) : Event → Prop
  | .request r => OwnFile m w r ∧ RequestKeeps m w r
  | .fuse env => ∀ c ∈ w.fuse, (c.isWrite = true → env.fault = false) ∧ ∀ cp ∈ c.cachePath,
      OnlyRecordedBy w cp c.inode ∧ ∀ f ∈ w.handlesOn c.inode, f.cachePath = cp
  | .upload k _ => ∀ u ∈ w.uploads[k]?, u.pc.reverts = true → Loose w u.inode
  | .hydration k _ => ∀ h ∈ w.hydrations[k]?, ∀ cp ∈ h.pc.target,
      OnlyRecordedBy w cp h.inode ∧ ∀ f ∈ w.handlesOn h.inode, f.cachePath = cp
  | .eviction _ => ∀ ev ∈ w.eviction, ∀ c ∈ ev.chosen,
      OnlyRecordedBy w c.cachePath c.inode ∧ Loose w c.inode
  | .read k env => ∀ rd ∈ w.reads[k]?, ReadKeeps w env rd.pc
  | .poll _ => False
  | _ => True

section Decidable

variable (m : Mount) (w : World)

instance (r : FileEntry) : Decidable (HasFile w r) :=
  inferInstanceAs (Decidable (∃ p ∈ r.cachePath, _ = true))

instance (i : Inode) : Decidable (Loose w i) :=
  inferInstanceAs (Decidable (_ ∧ ∀ c ∈ w.fuse, c.inode ≠ i))

instance : (r : Request) → Decidable (RequestKeeps m w r)
  | .write fh _ _ => inferInstanceAs (Decidable (∀ f ∈ w.openFiles fh,
      ∀ r ∈ w.db.getByInode f.inode, r.cachePath.isSome = true))
  | .open_ i => inferInstanceAs (Decidable (∀ r ∈ w.db.getByInode i, _ = false → HasFile w r))
  | .unlink p n => inferInstanceAs (Decidable (∀ r ∈ w.db.getByParentName m.mountId p n,
      w.handlesOn r.inode ≠ [] → (w.db.deleteEntry r.inode).isSome = true))
  | .rename p n _ _ => inferInstanceAs (Decidable
      (∀ r ∈ w.db.getByParentName m.mountId p n, (∀ f ∈ w.handlesOn r.inode, _ ∧ _) ∧
        ∀ rd ∈ w.reads, ∀ f ∈ rd.pc.handle, f.inode ≠ r.inode))
  | .setattr .. | .release _ | .fsync _ | .read .. | .create .. | .mkdir .. | .rmdir .. =>
    .isTrue trivial

instance (env : Env) : (pc : ReadPc) → Decidable (ReadKeeps w env pc)
  | .status f => inferInstanceAs (Decidable (_ ∧ ∀ r ∈ w.db.getByInode f.inode, _ = true → _))
  | .retarget f => inferInstanceAs (Decidable (∀ r ∈ w.db.getByInode f.inode, HasFile w r))
  | .start | .claim _ | .range _ | .await .. | .cache => .isTrue trivial

instance : (ev : Event) → Decidable (KeepsHandles m w ev)
  | .request r => inferInstanceAs (Decidable (OwnFile m w r ∧ RequestKeeps m w r))
  | .fuse _ => inferInstanceAs (Decidable (∀ c ∈ w.fuse, (_ → _) ∧ ∀ cp ∈ c.cachePath,
      OnlyRecordedBy w cp c.inode ∧ ∀ f ∈ w.handlesOn c.inode, f.cachePath = cp))
  | .upload k _ => inferInstanceAs (Decidable (∀ u ∈ w.uploads[k]?, _ = true → Loose w u.inode))
  | .hydration k _ => inferInstanceAs (Decidable (∀ h ∈ w.hydrations[k]?, ∀ cp ∈ h.pc.target,
      OnlyRecordedBy w cp h.inode ∧ ∀ f ∈ w.handlesOn h.inode, f.cachePath = cp))
  | .eviction _ => inferInstanceAs (Decidable (∀ ev ∈ w.eviction, ∀ c ∈ ev.chosen,
      OnlyRecordedBy w c.cachePath c.inode ∧ Loose w c.inode))
  | .read k env => inferInstanceAs (Decidable (∀ rd ∈ w.reads[k]?, ReadKeeps w env rd.pc))
  | .poll _ => .isFalse id
  | .launch _ | .startEviction | .background .. | .prefetch _ | .foreign _ | .clock _ =>
    .isTrue trivial

end Decidable

/-! ## What is promised of a step -/

/-- The answer's bytes are from the content of inode `i`, whose row is `r`. -/
def ReadSource.OfRow (w : World) (i : Inode) (r : FileEntry) : ReadSource → Prop
  | .header j => j = i
  | .remote path => path = r.remotePath
  | .cache p => r.cachePath = some p ∧
      ∀ j q, w.db.getByInode j = some q → q.cachePath = some p → j = i

/-- A write through a handle of an inode that exists fails without effect, or it changes the cache
file on record and no other, and is about to mark the row. -/
def WritesOwn (w : World) (ev : Event) (w' : World) : Prop :=
  ∀ fh offset data, ev = .request (.write fh offset data) → ∀ f r, w.openFiles fh = some f →
    w.db.getByInode f.inode = some r →
      (∃ e, (handleWrite w fh offset data).1 = .error e ∧ w' = w) ∨
      (∃ n, w'.fuse = some (.write f.inode n)) ∧ r.cachePath = some f.cachePath ∧
        (∀ p, p ≠ f.cachePath → w'.fs.files p = w.fs.files p) ∧
        ∀ j q, w.db.getByInode j = some q → q.cachePath = some f.cachePath → j = f.inode

/-- The row of a write is marked as dirty. -/
def MarksWritten (w : World) (ev : Event) (w' : World) : Prop :=
  ∀ env i n r, ev = .fuse env → w.fuse = some (.write i n) → w.db.getByInode i = some r →
    ∃ r', w'.db.getByInode i = some r' ∧ r'.status = .dirty

/-- A read that answers with data answers with content of its inode, and one that goes to the
cache file finds it. -/
def ReadsOwn (m : Mount) (w : World) (ev : Event) : Prop :=
  ∀ k env rd f r, ev = .read k env → w.reads[k]? = some rd → w.readHandle rd = some f →
    w.db.getByInode f.inode = some r →
      (∀ src bytes, (Read.tick m w env rd).2 = .reply (.ok (src, bytes)) → src.OfRow w f.inode r) ∧
      (rd.pc = .cache → ∃ src bytes, (Read.tick m w env rd).2 = .reply (.ok (src, bytes)))

variable {m : Mount} {w w' : World} {ev : Event} {i : Inode} {fh : ℕ}

/-! ## The table of open files -/

theorem mem_handlesOn (hi : HandlesFollow w) {f : OpenFile} (hf : w.openFiles fh = some f) :
    f ∈ w.handlesOn f.inode := by
  refine List.mem_filter.2 ⟨List.mem_filterMap.2 ⟨fh, ?_, hf⟩, by simp⟩
  exact List.mem_range.2 (hi.fresh fh f hf).1

/-- **The ways in which a handle comes to be what it is after a step.** -/
inductive HandleStep (m : Mount) (w w' : World) : Event → ℕ → OpenFile → Prop
  | same {ev fh f} (hf : w.openFiles fh = some f) : HandleStep m w w' ev fh f
  | opened {i r f} (hr : w.db.getByInode i = some r) (hi : f.inode = i)
      (hc : f.cachePath = r.cachePath.getD (m.derivedPath r)) (hp : f.remotePath = r.remotePath)
      (hh : f.hydrating = (r.status.needsHydration || r.status.isHydrating))
      (hfh : w.nextFh < w'.nextFh) : HandleStep m w w' (.request (.open_ i)) w.nextFh f
  | created {p n i f} (hi : f.inode = i) (hh : f.hydrating = false)
      (hn : w.db.seq < i) (hle : i ≤ w'.db.seq)
      (hr : ∀ r, w'.db.getByInode i = some r → r.cachePath = some f.cachePath)
      (hfile : w'.fs.files f.cachePath = some []) (hfh : w.nextFh < w'.nextFh) :
      HandleStep m w w' (.request (.create p n)) w.nextFh f
  | retargeted {k env rd g} (hrd : w.reads[k]? = some rd) (hg : w.openFiles rd.fh = some g)
      (hpc : (∃ f e, rd.pc = .status f ∧ w.db.getByInode f.inode = some e ∧
        (e.status.hasLocalData && !e.status.isHydrating) = true) ∨ ∃ f, rd.pc = .retarget f) :
      HandleStep m w w' (.read k env) rd.fh { g with
        cachePath := ((w.db.getByInode g.inode).bind FileEntry.cachePath).getD g.cachePath
        hydrating := false }

theorem openFiles_allocFh (w : World) (f : OpenFile) (fh : ℕ) :
    (w.allocFh f).2.openFiles fh = if fh = w.nextFh then some f else w.openFiles fh :=
  Function.update_apply ..

theorem openFiles_retarget (w : World) (fh fh' : ℕ) :
    (w.retarget fh').openFiles fh =
      if fh = fh' then (w.openFiles fh').map fun g => { g with
        cachePath := ((w.db.getByInode g.inode).bind FileEntry.cachePath).getD g.cachePath
        hydrating := false }
      else w.openFiles fh :=
  Function.update_apply ..

theorem handleStep_open {f : OpenFile} (hw : (handleOpen m w i).2 = w')
    (h : w'.openFiles fh = some f) : HandleStep m w w' (.request (.open_ i)) fh f := by
  have halloc : ∀ (w₁ : World) (r : FileEntry), w₁.openFiles = w.openFiles →
      w₁.nextFh = w.nextFh → w.db.getByInode i = some r →
      (w₁.allocFh { inode := i, cachePath := r.cachePath.getD (m.derivedPath r)
                    remotePath := r.remotePath
                    hydrating := r.status.needsHydration || r.status.isHydrating }).2 = w' →
      HandleStep m w w' (.request (.open_ i)) fh f := by
    rintro w₁ r ho hn hr rfl
    rw [openFiles_allocFh, ho, hn] at h
    split at h
    · rename_i hfh
      obtain rfl := Option.some.inj h
      subst hfh
      exact .opened hr rfl rfl rfl rfl (hn ▸ Nat.lt_succ_self _)
    · exact .same h
  simp only [handleOpen] at hw
  split at hw
  · subst hw
    exact .same h
  rename_i r hr
  split at hw
  · split at hw
    · subst hw
      exact .same h
    · exact halloc _ r (by rfl) (by rfl) hr hw
  · refine halloc _ r ?_ ?_ hr hw
    all_goals split <;> rfl

theorem handleStep_create {p : Inode} {n : Str} {f : OpenFile}
    (hw : (handleCreate m w p n).2 = w') (h : w'.openFiles fh = some f) :
    HandleStep m w w' (.request (.create p n)) fh f := by
  simp only [handleCreate] at hw
  split at hw
  · subst hw
    exact .same h
  split at hw
  · subst hw
    exact .same h
  split at hw
  · subst hw
    exact .same h
  split at hw
  · subst hw
    exact .same h
  rename_i cp hcp
  split at hw
  · subst hw
    exact .same h
  rename_i fs₁ h₁
  split at hw
  · subst hw
    exact .same h
  rename_i fs₂ h₂
  split at hw
  · subst hw
    exact .same h
  rename_i j db hins
  subst hw
  rw [openFiles_allocFh] at h
  split at h
  · rename_i hfh
    obtain rfl := Option.some.inj h
    subst hfh
    obtain ⟨r, -, -, -, -, -, -, hc, hnext, -, hseq, hrows⟩ := Db.insertFile_spec hins
    refine .created rfl rfl (hnext ▸ w.db.seq_lt_nextInode) hseq.ge (fun r' hr' => ?_) ?_
      (Nat.lt_succ_self _)
    · obtain rfl : r = r' := Option.some.inj ((((hrows j).trans (if_pos rfl)).symm).trans hr')
      exact hc
    · exact (CacheFs.files_of_create h₂ cp).trans (if_pos rfl)
  · exact .same h

theorem handleStep_read {k : ℕ} {env : Env} {rd : Read} {f : OpenFile} {w' : World}
    (hrd : w.reads[k]? = some rd) (h : (Read.tick m w env rd).1.openFiles fh = some f) :
    HandleStep m w w' (.read k env) fh f := by
  have hretarget : ((∃ f e, rd.pc = .status f ∧ w.db.getByInode f.inode = some e ∧
      (e.status.hasLocalData && !e.status.isHydrating) = true) ∨ ∃ f, rd.pc = .retarget f) →
      (w.retarget rd.fh).openFiles fh = some f → HandleStep m w w' (.read k env) fh f := by
    intro hpc h
    rw [openFiles_retarget] at h
    split at h
    · rename_i hfh
      obtain ⟨g, hg, rfl⟩ := Option.map_eq_some_iff.1 h
      subst hfh
      exact .retargeted hrd hg hpc
    · exact .same h
  simp only [Read.tick] at h
  split at h
  case h_2 f₀ hpc =>
    split at h
    · exact .same h
    rename_i e he
    split at h
    · rename_i hlocal
      exact hretarget (.inl ⟨f₀, e, hpc, (by split at he <;> [cases he; exact he]), hlocal⟩) h
    split at h <;> exact .same h
  case h_8 f₀ hpc => exact hretarget (.inr ⟨f₀, hpc⟩) h
  all_goals
    repeat' split at h
    all_goals exact .same h

/-- **What a handle was before a step.** -/
theorem handle_of_step (h : step m w ev = some w') {f : OpenFile} (hf : w'.openFiles fh = some f) :
    HandleStep m w w' ev fh f := by
  have hframe := frame_of_step h
  cases ev with
  | request r =>
    have hw := (step_request h).2.symm
    cases r with
    | open_ i => exact handleStep_open hw hf
    | create p n => exact handleStep_create hw hf
    | release fh' =>
      subst hw
      simp only [serve, handleRelease] at hf
      have hupdate : Function.update w.openFiles fh' none fh = some f →
          w.openFiles fh = some f := by
        rw [Function.update_apply]
        split
        · rintro ⟨⟩
        · exact id
      repeat' split at hf
      · exact .same hf
      · exact .same (hupdate hf)
      · exact .same (hupdate hf)
    | _ =>
      subst hw
      simp only [serve, handleWrite, handleSetattr, handleFsync, handleRead, handleMkdir,
        handleUnlink, handleRmdir, handleRename] at hf
      repeat' split at hf
      all_goals exact .same hf
  | read k env =>
    obtain ⟨x, hx, rfl⟩ := Option.map_eq_some_iff.1 h
    dsimp only at hf
    split at hf <;> exact handleStep_read hx hf
  | _ =>
    rw [(hframe.handles rfl).1] at hf
    exact .same hf

theorem nextFh_le_of_step (h : step m w ev = some w') : w.nextFh ≤ w'.nextFh := by
  have hframe := frame_of_step h
  cases ev with
  | request r =>
    obtain ⟨-, rfl⟩ := step_request h
    cases r <;> simp only [serve, handleWrite, handleSetattr, handleOpen, handleRelease,
      handleFsync, handleRead, handleCreate, handleMkdir, handleUnlink, handleRmdir, handleRename,
      World.allocFh]
    all_goals try (repeat' split)
    all_goals first
      | exact le_rfl
      | exact Nat.le_succ _
  | read k env =>
    obtain ⟨x, -, rfl⟩ := Option.map_eq_some_iff.1 h
    obtain ⟨_, _, _, _, hw⟩ := read_tick_eq m w env x
    dsimp only
    rw [hw]
    split <;> exact le_rfl
  | _ => exact (hframe.handles rfl).2.ge

/-! ## The row and the cache file of an open file -/

/-- The row of an inode that was given out was there before. -/
theorem row_before (h : step m w ev = some w') (hle : i ≤ w.db.seq) {r' : FileEntry}
    (hr' : w'.db.getByInode i = some r') :
    ∃ r, w.db.getByInode i = some r ∧ RowStep m w ev i r (some r') := by
  rcases row_inv_of_step h hr' with hrow | ⟨-, hlt⟩
  · exact hrow
  · exact absurd hlt hle.not_gt

theorem row_of_unlink {p : Inode} {n : Str} {r : FileEntry}
    (hr : w.db.getByParentName m.mountId p n = some r)
    (hd : (w.db.deleteEntry r.inode).isSome = true) :
    (handleUnlink m w p n).2.db.getByInode r.inode = none := by
  obtain ⟨db, hd⟩ := Option.isSome_iff_exists.1 hd
  simp only [handleUnlink, hr, hd]
  exact (Db.getByInode_deleteEntry hd r.inode).trans (if_pos rfl)

/-- A rename that leaves the row its cache path leaves the file there, too. -/
theorem files_of_rename {p : Inode} {n : Str} {p' : Inode} {n' : Str} {r : FileEntry}
    {cp : PathBuf} (hr : w.db.getByParentName m.mountId p n = some r) (hcp : r.cachePath = some cp)
    (hmove : (moveCacheFile w.fs r.cachePath n').2 = r.cachePath) :
    (handleRename m w p n p' n').2.fs.files cp = w.fs.files cp := by
  have hfiles : (moveCacheFile w.fs r.cachePath n').1.files cp = w.fs.files cp := by
    rcases files_moveCacheFile w.fs r.cachePath n' cp with h | ⟨cp', data, hcp', hd, hm, h⟩
    · exact h
    · obtain rfl := Option.some.inj (hcp.symm.trans hcp')
      obtain hpath := Option.some.inj ((hm.symm.trans hmove).trans hcp)
      rw [h, if_pos hpath.symm, hd]
  simp only [handleRename]
  split
  · rfl
  split
  · rfl
  rename_i r₀ hr₀
  obtain rfl := Option.some.inj (hr.symm.trans hr₀)
  split
  · rfl
  split <;> exact hfiles

/-- The cache file of a handle whose content is there stays there as long as the inode does. -/
theorem hasFile_of_step (hi : HandlesFollow w) (hg : KeepsHandles m w ev)
    (h : step m w ev = some w') {f : OpenFile} {r : FileEntry} (hf : w.openFiles fh = some f)
    (hr : w.db.getByInode f.inode = some r) (hh : f.hydrating = false)
    (hrow : (w'.db.getByInode f.inode).isSome = true) :
    (w'.fs.files f.cachePath).isSome = true := by
  obtain ⟨hcp, hsome⟩ := (hi.follows fh f r hf hr).ready hh
  have hmem := mem_handlesOn hi hf
  have hserve : ∀ req, ev = .request req → w' = serve m w req := by
    rintro req rfl
    exact (step_request h).2
  have hfile := file_of_step h f.cachePath
  generalize hq : f.cachePath = q at hfile hcp
  generalize hb : w.fs.files q = b, hb' : w'.fs.files q = b' at hfile
  cases hfile with
  | same =>
    rw [← hb, ← hq]
    exact hsome
  | written | truncated | derived | created | movedTo | installed => rfl
  | unlinked hr₀ hcp₀ =>
    have hinode : f.inode = _ := hi.unshared _ _ _ _ _ hr (Db.getByParentName_spec hr₀).1 hcp hcp₀
    have hdel := hg.2 _ hr₀ (hinode ▸ List.ne_nil_of_mem hmem)
    rw [hserve _ rfl, hinode] at hrow
    have hnone := row_of_unlink hr₀ hdel
    simp only [serve, hnone] at hrow
    cases hrow
  | movedAway hr₀ hcp₀ =>
    have hinode : f.inode = _ := hi.unshared _ _ _ _ _ hr (Db.getByParentName_spec hr₀).1 hcp hcp₀
    have hmove := ((hg.2 _ hr₀).1 f (hinode ▸ hmem)).2
    rw [← hb', hserve _ rfl]
    simp only [serve]
    rw [files_of_rename hr₀ hcp₀ hmove, ← hq]
    exact hsome
  | @evicted _ ev c rest n _ he hpc =>
    have hc : ev.chosen = some c := by rw [Eviction.chosen, hpc]
    obtain ⟨hown, hloose⟩ := hg ev he c hc
    have hinode : r.inode = c.inode := hown r (Db.mem_rows_of_getByInode hr) hcp
    rw [Db.inode_of_getByInode hr] at hinode
    cases hh.symm.trans (hloose.1 f (hinode ▸ hmem))
  | dropped => exact hg.elim

/-- A handle that agreed with its row agrees with what a step makes of the row. -/
theorem Follows.step (hi : HandlesFollow w) (hg : KeepsHandles m w ev)
    (h : Stratosync.step m w ev = some w') {f : OpenFile} {r' : FileEntry}
    (hf : w.openFiles fh = some f) (hr' : w'.db.getByInode f.inode = some r') :
    Follows w' f r' := by
  obtain ⟨r, hr, hrow⟩ := row_before h (hi.fresh fh f hf).2 hr'
  have hfollows := hi.follows fh f r hf hr
  have hmem := mem_handlesOn hi hf
  have hfile : f.hydrating = false → (w'.fs.files f.cachePath).isSome = true := fun hh =>
    hasFile_of_step hi hg h hf hr hh (by rw [hr']; rfl)
  have hsame : r'.remotePath = r.remotePath → r'.cachePath = r.cachePath → Follows w' f r' :=
    fun hrp hcp => ⟨fun hh => ⟨hcp ▸ (hfollows.ready hh).1, hfile hh⟩,
      fun hh => ⟨hrp.trans (hfollows.hydrating hh).1, hcp ▸ (hfollows.hydrating hh).2⟩⟩
  have hloose : f.hydrating = true → r'.remotePath = r.remotePath → r'.cachePath = none →
      Follows w' f r' := fun hh hrp hcp => by
    refine ⟨fun hh' => ?_, fun _ => ⟨hrp.trans (hfollows.hydrating hh).1, fun p hp => ?_⟩⟩
    · cases hh.symm.trans hh'
    · rw [hcp] at hp
      cases hp
  have hrecorded : r'.remotePath = r.remotePath → r'.cachePath = some f.cachePath →
      Follows w' f r' := fun hrp hcp =>
    ⟨fun hh => ⟨hcp, hfile hh⟩, fun hh => ⟨hrp.trans (hfollows.hydrating hh).1, fun p hp => by
      rw [hcp] at hp
      exact (Option.some.inj hp).symm⟩⟩
  generalize hj : f.inode = j at hrow hmem
  cases hrow with
  | same | opened | reset | marked | uploaded | failed | claimed | timedOut | rolledBack
  | backfilled | claimedByRead => exact hsame rfl rfl
  | @dirtied _ c _ hc =>
    cases hcp : c.cachePath with
    | none => exact hsame rfl (by simp [FuseCall.mark, hcp])
    | some cp =>
      have hpath : f.cachePath = cp := ((hg c hc).2 cp hcp).2 f hmem
      exact hrecorded rfl (by simp [FuseCall.mark, hcp, hpath])
  | renamed hr₀ hq =>
    rw [← hj, ← Db.inode_of_getByInode hr] at hmem
    obtain ⟨hh, hmove⟩ := (hg.2 _ hr₀).1 f hmem
    refine ⟨fun _ => ⟨hmove.trans (hfollows.ready hh).1, hfile hh⟩, fun hh' => ?_⟩
    cases hh.symm.trans hh'
  | reverted hu => exact hloose ((hg _ hu rfl).1 f hmem) rfl rfl
  | hydrated hh =>
    have hpath : f.cachePath = _ := (hg _ hh _ rfl).2 f hmem
    exact hrecorded rfl (by rw [hpath]; rfl)
  | @evicted _ ev c rest n _ he hpc =>
    have hc : ev.chosen = some c := by rw [Eviction.chosen, hpc]
    exact hloose ((hg ev he c hc).2.1 f hmem) rfl rfl
  | refreshed | dropped => exact hg.elim

/-! ## The handles after a step -/

theorem fresh_of_step (hi : HandlesFollow w) (h : step m w ev = some w') {f : OpenFile}
    (hf : w'.openFiles fh = some f) : fh < w'.nextFh ∧ f.inode ≤ w'.db.seq := by
  have hle := seq_le_of_step h
  cases handle_of_step h hf with
  | same hf =>
    have := hi.fresh fh f hf
    exact ⟨this.1.trans_le (nextFh_le_of_step h), this.2.trans hle⟩
  | opened hr hfi _ _ _ hfh =>
    rw [hfi]
    exact ⟨hfh, (hi.bounded _ _ hr).trans hle⟩
  | created hfi _ _ hseq _ _ hfh =>
    rw [hfi]
    exact ⟨hfh, hseq⟩
  | retargeted hrd hg =>
    have := hi.fresh _ _ hg
    exact ⟨this.1.trans_le (nextFh_le_of_step h), this.2.trans hle⟩

/-- A handle that takes its cache path from the row finds a cache file on record. -/
theorem hasFile_of_retarget (hi : HandlesFollow w) {k : ℕ} {env : Env} {rd : Read}
    (hg : KeepsHandles m w (.read k env)) (hrd : w.reads[k]? = some rd)
    (hpc : (∃ f e, rd.pc = .status f ∧ w.db.getByInode f.inode = some e ∧
      (e.status.hasLocalData && !e.status.isHydrating) = true) ∨ ∃ f, rd.pc = .retarget f)
    {g : OpenFile} (hgf : w.openFiles rd.fh = some g) {r : FileEntry}
    (hr : w.db.getByInode g.inode = some r) : HasFile w r := by
  have hreads := hi.reads rd (mem_of_getElem? hrd)
  have hkeeps : ReadKeeps w env rd.pc := hg rd hrd
  rcases hpc with ⟨f, e, hpc, he, hlocal⟩ | ⟨f, hpc⟩ <;> rw [hpc] at hkeeps
  · have hinode := (hreads.handle f (by rw [hpc]; rfl)).inode_eq g hgf
    rw [hinode] at hr
    obtain rfl := Option.some.inj (he.symm.trans hr)
    exact hkeeps.2 e he hlocal
  · have hinode := (hreads.handle f (by rw [hpc]; rfl)).inode_eq g hgf
    exact hkeeps r (hinode ▸ hr)

theorem follows_of_step (hi : HandlesFollow w) (hg : KeepsHandles m w ev)
    (h : step m w ev = some w') {f : OpenFile} {r' : FileEntry} (hf : w'.openFiles fh = some f)
    (hr' : w'.db.getByInode f.inode = some r') : Follows w' f r' := by
  have hstep := handle_of_step h hf
  cases hstep with
  | same hf => exact Follows.step hi hg h hf hr'
  | @opened i r _ hr hfi hc hp hh _ =>
    subst hfi
    have hrow := row_of_step h hr
    rw [hr'] at hrow
    have hsame : r'.cachePath = r.cachePath ∧ r'.remotePath = r.remotePath := by
      cases hrow with
      | same | opened => exact ⟨rfl, rfl⟩
    refine ⟨fun hh' => ?_, fun _ => ⟨hsame.2.trans hp.symm, fun p hp' => ?_⟩⟩
    · obtain ⟨p, hp, hfile⟩ := hg.2 r hr (hh.symm.trans hh')
      have hcp : f.cachePath = p := by rw [hc, Option.mem_def.1 hp, Option.getD_some]
      refine ⟨by rw [hsame.1, hcp]; exact hp, ?_⟩
      have hstep := file_of_step h p
      rw [hcp]
      generalize w.fs.files p = b, w'.fs.files p = b' at hstep hfile
      cases hstep with
      | same => exact hfile
    · rw [hc, ← hsame.1, Option.mem_def.1 hp', Option.getD_some]
  | created hfi hh _ _ hr hfile _ =>
    refine ⟨fun _ => ⟨hr r' (hfi ▸ hr'), by rw [hfile]; rfl⟩, fun hh' => ?_⟩
    cases hh.symm.trans hh'
  | @retargeted k env rd g hrd hgf hpc =>
    obtain ⟨r, hr, hrow⟩ := row_before h (hi.fresh _ _ hgf).2 hr'
    obtain ⟨p, hp, hfile⟩ := hasFile_of_retarget hi hg hrd hpc hgf hr
    have hcp : r'.cachePath = r.cachePath := by
      generalize hj : g.inode = j at hrow
      cases hrow with
      | same | claimedByRead => rfl
    refine ⟨fun _ => ?_, nofun⟩
    simp only [hr, Option.bind_some, Option.mem_def.1 hp, Option.getD_some]
    exact ⟨hcp.trans hp, by rw [(frame_of_step h).files rfl]; exact hfile⟩

/-! ## The reads after a step -/

/-- No inode that is gone comes back. -/
theorem row_none_of_step (h : step m w ev = some w') (hle : i ≤ w.db.seq)
    (hn : w.db.getByInode i = none) : w'.db.getByInode i = none := by
  cases hr' : w'.db.getByInode i with
  | none => rfl
  | some r' =>
    obtain ⟨r, hr, -⟩ := row_before h hle hr'
    rw [hn] at hr
    cases hr

/-- The step renames no row of inode `i`. -/
def NoRename (m : Mount) (w : World) (ev : Event) (i : Inode) : Prop :=
  ∀ p n p' n' r, ev = .request (.rename p n p' n') →
    w.db.getByParentName m.mountId p n = some r → i ≠ r.inode

theorem Tracks.step (hg : KeepsHandles m w ev) (h : Stratosync.step m w ev = some w')
    {f : OpenFile} (ht : Tracks w fh f) (hn : NoRename m w ev f.inode) : Tracks w' fh f := by
  refine ⟨ht.inode_le.trans (seq_le_of_step h), ht.fh_lt.trans_le (nextFh_le_of_step h),
    fun r' hr' => ?_, fun g hgf => ?_⟩
  · obtain ⟨r, hr, hrow⟩ := row_before h ht.inode_le hr'
    have hold := ht.remotePath r hr
    generalize hj : f.inode = j at hrow
    cases hrow with
    | renamed hr₀ =>
      exact absurd (Db.inode_of_getByInode hr).symm (hn _ _ _ _ _ rfl hr₀)
    | refreshed | dropped => exact hg.elim
    | _ => exact hold
  · cases handle_of_step h hgf with
    | same hgf => exact ht.inode_eq g hgf
    | opened | created => exact absurd ht.fh_lt (lt_irrefl _)
    | @retargeted _ _ _ g₀ _ hg₀ => exact ht.inode_eq g₀ hg₀

theorem Ready.step (hi : HandlesFollow w) (h : Stratosync.step m w ev = some w')
    (hr : Ready w fh) : Ready w' fh := by
  refine ⟨hr.fh_lt.trans_le (nextFh_le_of_step h), fun g hgf hh => ?_⟩
  cases handle_of_step h hgf with
  | same hgf => exact row_none_of_step h (hi.fresh _ _ hgf).2 (hr.hydrating g hgf hh)
  | opened | created => exact absurd hr.fh_lt (lt_irrefl _)
  | retargeted => cases hh

/-- Where a read goes next, it has the entry it had or has just taken from the table, and it goes
to the cache file when that is there or its inode is gone. -/
theorem readFollows_of_goto (hi : HandlesFollow w) {k : ℕ} {env : Env} {rd : Read} {pc : ReadPc}
    (hg : ReadKeeps w env rd.pc) (hrd : w.reads[k]? = some rd)
    (h : (Read.tick m w env rd).2 = .goto pc) :
    (∀ f ∈ pc.handle, Tracks w rd.fh f) ∧
      (pc = .cache → Ready w rd.fh ∨
        (Read.tick m w env rd).1.openFiles = (w.retarget rd.fh).openFiles ∧ rd.fh < w.nextFh) := by
  have hreads := hi.reads rd (mem_of_getElem? hrd)
  obtain ⟨id, fh, offset, size, pc₀⟩ := rd
  -- the entry a read has is kept until it is at the cache file
  have hkeep : ∀ f, pc₀.handle = some f → pc ≠ .cache → (∀ f' ∈ pc.handle, f' = f) →
      (∀ f ∈ pc.handle, Tracks w fh f) ∧ (pc = .cache → Ready w fh ∨
        (Read.tick m w env ⟨id, fh, offset, size, pc₀⟩).1.openFiles =
          (w.retarget fh).openFiles ∧ fh < w.nextFh) := fun f hf hne hsame =>
    ⟨fun f' hf' => hsame f' hf' ▸ hreads.handle f hf, fun hpc => absurd hpc hne⟩
  cases pc₀ with
  | start =>
    simp only [Read.tick] at h
    split at h
    · cases h
    rename_i f hf
    have hfresh := hi.fresh fh f hf
    split at h
    · rename_i hh
      cases h
      refine ⟨fun f' hf' => (by cases hf'), fun _ => .inl ⟨hfresh.1, fun g hgf hg => ?_⟩⟩
      obtain rfl := Option.some.inj (hf.symm.trans hgf)
      simp [hg] at hh
    · rename_i hh
      split at h
      · cases h
      · cases h
        refine ⟨fun f' hf' => ?_, fun hpc => by cases hpc⟩
        obtain rfl := Option.some.inj hf'
        refine ⟨hfresh.2, hfresh.1, fun r hr => ?_, fun g hgf => ?_⟩
        · exact ((hi.follows fh f r hf hr).hydrating (by simpa using hh)).1
        · rw [Option.some.inj (hf.symm.trans hgf)]
  | status f =>
    have ht := hreads.handle f rfl
    simp only [Read.tick] at h ⊢
    rw [hg.1] at h ⊢
    simp only [Bool.false_eq_true, if_false] at h ⊢
    cases hr : w.db.getByInode f.inode with
    | none =>
      simp only [hr] at h
      cases h
      refine ⟨fun f' hf' => (by cases hf'), fun _ => .inl ⟨ht.fh_lt, fun g hgf _ => ?_⟩⟩
      rw [ht.inode_eq g hgf]
      exact hr
    | some e =>
      simp only [hr] at h ⊢
      split at h
      · rename_i hlocal
        cases h
        rw [if_pos hlocal]
        exact ⟨fun f' hf' => (by cases hf'), fun _ => .inr ⟨rfl, ht.fh_lt⟩⟩
      · split at h <;> cases h <;>
          exact ⟨fun f' hf' => Option.some.inj hf' ▸ ht, fun hpc => by cases hpc⟩
  | claim f =>
    simp only [Read.tick] at h
    split at h <;> cases h <;>
      exact hkeep f rfl (by rintro ⟨⟩) fun f' hf' => (Option.some.inj hf').symm
  | range f =>
    simp only [Read.tick] at h
    split at h <;> cases h
    exact hkeep f rfl (by rintro ⟨⟩) fun f' hf' => (Option.some.inj hf').symm
  | await f signal =>
    rcases signal with _ | _ | _ <;> cases h
    all_goals exact hkeep f rfl (by rintro ⟨⟩) fun f' hf' => (Option.some.inj hf').symm
  | retarget f =>
    cases h
    exact ⟨fun f' hf' => (by cases hf'), fun _ => .inr ⟨rfl, (hreads.handle f rfl).fh_lt⟩⟩
  | cache =>
    simp only [Read.tick] at h
    repeat' split at h
    all_goals cases h

theorem ReadFollows.step (hi : HandlesFollow w) (hg : KeepsHandles m w ev)
    (h : Stratosync.step m w ev = some w') {rd : Read} (hrd : rd ∈ w.reads) :
    ReadFollows w' rd := by
  have hreads := hi.reads rd hrd
  refine ⟨fun f hf => (hreads.handle f hf).step hg h ?_, fun hpc => (hreads.cache hpc).step hi h⟩
  rintro p n p' n' r rfl hr
  exact (hg.2 r hr).2 rd hrd f hf

/-- Giving a read its result leaves its handle alone. -/
theorem handle_of_deliver {reader : Option ℕ} {result : Except SyncError Unit} {rd' : Read}
    {w₁ : World} (hw : w₁.reads = w.reads) (hr : rd' ∈ (w₁.deliver reader result).reads) :
    ∃ rd ∈ w.reads, rd'.fh = rd.fh ∧ rd'.pc.handle = rd.pc.handle ∧
      (rd'.pc = .cache → rd.pc = .cache) := by
  obtain ⟨rd, hrd, rfl⟩ := List.mem_map.1 hr
  refine ⟨rd, hw ▸ hrd, ?_⟩
  split
  · rename_i f hpc
    split
    · exact ⟨rfl, by rw [hpc]; rfl, nofun⟩
    · exact ⟨rfl, rfl, id⟩
  · exact ⟨rfl, rfl, id⟩

theorem reads_of_serve (r : Request) :
    (serve m w r).reads = w.reads ∨
      ∃ fh offset size,
        (serve m w r).reads = w.reads ++ [⟨w.nextRead, fh, offset, size, .start⟩] := by
  cases r with
  | read fh offset size => exact .inr ⟨fh, offset, size, rfl⟩
  | _ =>
    left
    simp only [serve, handleWrite, handleSetattr, handleOpen, handleRelease, handleFsync,
      handleCreate, handleMkdir, handleUnlink, handleRmdir, handleRename, World.allocFh]
    repeat' split
    all_goals rfl

theorem readFollows_of_read (hi : HandlesFollow w) {k : ℕ} {env : Env}
    (hg : KeepsHandles m w (.read k env)) (h : step m w (.read k env) = some w') :
    ∀ rd ∈ w'.reads, ReadFollows w' rd := by
  have hold : ∀ rd ∈ w.reads, ReadFollows w' rd := fun rd hrd => .step hi hg h hrd
  obtain ⟨rd, hrd, hw⟩ := Option.map_eq_some_iff.1 h
  have hreads : (Read.tick m w env rd).1.reads = w.reads := by
    obtain ⟨_, _, _, _, hw⟩ := read_tick_eq m w env rd
    rw [hw]
  dsimp only at hw
  split at hw
  · rename_i pc hpc
    have hnext := readFollows_of_goto hi (hg rd hrd) hrd hpc
    have hrename : ∀ i, NoRename m w (.read k env) i := fun _ _ _ _ _ _ hev => nomatch hev
    have hopen : w'.openFiles = (Read.tick m w env rd).1.openFiles := by rw [← hw]
    have hadvance : w'.reads = advance w.reads k (some { rd with pc }) := by rw [← hw, hreads]
    rw [hadvance]
    refine forall_advance hold fun q hq => ?_
    obtain rfl := Option.some.inj hq
    refine ⟨fun f hf => (hnext.1 f hf).step hg h (hrename _), fun hcache => ?_⟩
    rcases hnext.2 hcache with hready | ⟨hret, hlt⟩
    · exact hready.step hi h
    · refine ⟨hlt.trans_le (nextFh_le_of_step h), fun g hgf hh => ?_⟩
      rw [hopen, hret, openFiles_retarget, if_pos rfl] at hgf
      obtain ⟨g₀, -, rfl⟩ := Option.map_eq_some_iff.1 hgf
      cases hh
  · have hadvance : w'.reads = advance w.reads k none := by rw [← hw, hreads]
    rw [hadvance]
    exact forall_advance hold nofun

theorem readFollows_of_step (hi : HandlesFollow w) (hg : KeepsHandles m w ev)
    (h : step m w ev = some w') : ∀ rd ∈ w'.reads, ReadFollows w' rd := by
  have hold : ∀ rd ∈ w.reads, ReadFollows w' rd := fun rd hrd => .step hi hg h hrd
  have hframe := frame_of_step h
  cases ev with
  | request r =>
    have hw := (step_request h).2
    rcases reads_of_serve (m := m) (w := w) r with hr | ⟨fh, offset, size, hr⟩ <;>
      rw [← hw] at hr <;> rw [hr]
    · exact hold
    · refine forall_append hold fun rd hrd => ?_
      rw [List.mem_singleton.1 hrd]
      exact ⟨nofun, nofun⟩
  | read k env => exact readFollows_of_read hi hg h
  | hydration k env =>
    obtain ⟨x, hx, hw⟩ := Option.map_eq_some_iff.1 h
    dsimp only at hw
    split at hw
    · have hreads : w'.reads = w.reads := by rw [← hw]; exact reads_of_tick
      rwa [hreads]
    · rename_i result hres
      intro rd' hrd'
      obtain ⟨rd, hrd, hrd'⟩ : ∃ rd ∈ w.reads, rd'.fh = rd.fh ∧ rd'.pc.handle = rd.pc.handle ∧
          (rd'.pc = .cache → rd.pc = .cache) := by
        rw [← hw] at hrd'
        exact handle_of_deliver reads_of_tick hrd'
      obtain ⟨hfh, hh, hc⟩ := hrd'
      obtain ⟨h₁, h₂⟩ := hold rd hrd
      refine ⟨?_, ?_⟩ <;> rw [hfh]
      · rwa [hh]
      · exact fun hpc => h₂ (hc hpc)
  | _ => exact hframe.reads rfl ▸ hold

/-! ## Writes and reads through a handle -/

/-- A request in progress after a request changed the file of an open handle, or is a
truncation. -/
theorem fuse_of_write {r : Request} {n : ℕ} (hw : w.fuse = none)
    (h : (serve m w r).fuse = some (.write i n)) :
    ∃ fh offset data f, r = .write fh offset data ∧ w.openFiles fh = some f ∧ f.inode = i := by
  rcases inProgress_serve hw ⟨_, h, rfl⟩ with hwrite | ⟨k, rfl⟩
  · exact hwrite
  · simp only [serve, handleSetattr] at h
    repeat' split at h
    all_goals first
      | cases h
      | cases hw.symm.trans h

theorem writes_of_step (hi : HandlesFollow w) (hg : KeepsHandles m w ev)
    (h : step m w ev = some w') {n : ℕ} (hf : w'.fuse = some (.write i n)) :
    i ≤ w'.db.seq ∧ ∀ r', w'.db.getByInode i = some r' → r'.cachePath.isSome = true := by
  have hle := seq_le_of_step h
  rcases fuse_of_step h with he | ⟨_, -, he⟩ | ⟨req, rfl, hn, hw⟩
  · have hold := he ▸ hf
    obtain ⟨hseq, hrow⟩ := hi.writes i n hold
    refine ⟨hseq.trans hle, fun r' hr' => ?_⟩
    obtain ⟨r, hr, hstep⟩ := row_before h hseq hr'
    have hsome := hrow r hr
    cases hstep with
    | @dirtied _ c _ hc =>
      cases hcp : c.cachePath with
      | none => simpa [FuseCall.mark, hcp] using hsome
      | some cp => simp [FuseCall.mark, hcp]
    | renamed =>
      rw [(step_request h).1] at hold
      cases hold
    | hydrated => rfl
    | reverted hu => exact absurd rfl ((hg _ hu rfl).2 _ hold)
    | @evicted _ ev c rest k _ he hpc =>
      have hc : ev.chosen = some c := by rw [Eviction.chosen, hpc]
      exact absurd rfl ((hg ev he c hc).2.2 _ hold)
    | refreshed | dropped => exact hg.elim
    | _ => exact hsome
  · rw [he] at hf
    cases hf
  · rw [hw] at hf
    obtain ⟨fh, offset, data, f, rfl, ho, rfl⟩ := fuse_of_write hn hf
    have hseq := (hi.fresh fh f ho).2
    refine ⟨hseq.trans hle, fun r' hr' => ?_⟩
    obtain ⟨r, hr, hstep⟩ := row_before h hseq hr'
    have hsome := hg.2 f ho r hr
    generalize hj : f.inode = j at hstep
    cases hstep with
    | same => exact hsome

theorem HandlesFollow.step (hi : HandlesFollow w) (hg : KeepsHandles m w ev)
    (h : Stratosync.step m w ev = some w') : HandlesFollow w' where
  unshared := by
    refine hi.unshared.step ?_ h
    cases ev with
    | request r => exact hg.1
    | fuse env => exact fun c hc cp hcp => ((hg c hc).2 cp hcp).1
    | hydration k env => exact fun x hx cp hcp => (hg x hx cp hcp).1
    | eviction env =>
      intro ev he c hc
      refine (hg ev he c ?_).1
      rw [Option.mem_def, Eviction.removing] at hc
      split at hc
      · rename_i hpc
        rw [Option.mem_def, Eviction.chosen, hpc]
        exact hc
      · cases hc
    | _ => trivial
  bounded := hi.bounded.step h
  fresh := fun fh f hf => fresh_of_step hi h hf
  follows := fun fh f r hf hr => follows_of_step hi hg h hf hr
  reads := readFollows_of_step hi hg h
  writes := fun i n hf => writes_of_step hi hg h hf

theorem writesOwn_of_step (hi : HandlesFollow w) (hg : KeepsHandles m w ev)
    (h : step m w ev = some w') : WritesOwn w ev w' := by
  rintro fh offset data rfl f r hf hr
  obtain ⟨hfuse, rfl⟩ := step_request h
  simp only [serve]
  cases hb : w.fs.files f.cachePath with
  | none => exact .inl (by simp [handleWrite, hf, CacheFs.write, hb])
  | some b =>
    have hcp : r.cachePath = some f.cachePath := by
      have hfollows := hi.follows fh f r hf hr
      cases hh : f.hydrating with
      | false => exact (hfollows.ready hh).1
      | true =>
        obtain ⟨p, hp⟩ := Option.isSome_iff_exists.1 (hg.2 f hf r hr)
        rw [hp, (hfollows.hydrating hh).2 p hp]
    refine .inr ⟨?_, hcp, fun p hp => ?_, fun j q hq hqp => hi.unshared _ _ _ _ _ hq hr hqp hcp⟩ <;>
      simp only [handleWrite, hf, CacheFs.write, hb, Option.map_some]
    · exact ⟨_, rfl⟩
    · rw [CacheFs.files_put, if_neg hp]

theorem marksWritten_of_step (hi : HandlesFollow w) (hg : KeepsHandles m w ev)
    (h : step m w ev = some w') : MarksWritten w ev w' := by
  rintro env i n r rfl hc hr
  obtain rfl : FuseCall.tick w env (.write i n) = w' := by simpa [step, hc] using h
  rcases rows_of_fuseCall w env (.write i n) with hrows | ⟨-, hfault | ⟨q, hq, hnone⟩⟩
  · exact ⟨_, hrows.self.trans (by rw [FuseCall.inode, hr]; rfl), rfl⟩
  · cases hfault.symm.trans ((hg _ hc).1 rfl)
  · have hsome := (hi.writes i n hc).2 q hq
    rw [hnone] at hsome
    cases hsome

theorem readsOwn_of_step (hi : HandlesFollow w) : ReadsOwn m w ev := by
  rintro k env rd f r rfl hrd hf hr
  have hreads := hi.reads rd (mem_of_getElem? hrd)
  obtain ⟨id, fh, offset, size, pc⟩ := rd
  cases pc with
  | start =>
    refine ⟨fun src bytes h => ?_, fun hpc => by cases hpc⟩
    have hopen : w.openFiles fh = some f := hf
    simp only [Read.tick, hopen] at h
    repeat' split at h
    all_goals cases h
    rfl
  | range f₀ =>
    refine ⟨fun src bytes h => ?_, fun hpc => by cases hpc⟩
    obtain rfl : f₀ = f := Option.some.inj hf
    simp only [Read.tick] at h
    split at h <;> cases h
    exact ((hreads.handle f₀ rfl).remotePath r hr).symm
  | cache =>
    have hopen : w.openFiles fh = some f := hf
    have hfollows := hi.follows fh f r hopen hr
    have hh : f.hydrating = false := Bool.eq_false_iff.2 fun hh => by
      have hnone := (hreads.cache rfl).hydrating f hopen hh
      rw [hr] at hnone
      cases hnone
    obtain ⟨hcp, hfile⟩ := hfollows.ready hh
    obtain ⟨b, hb⟩ := Option.isSome_iff_exists.1 hfile
    have htick : (Read.tick m w env ⟨id, fh, offset, size, .cache⟩).2 =
        .reply (.ok (.cache f.cachePath, (b.drop offset).take size)) := by
      simp only [Read.tick, hopen, hb]
    refine ⟨fun src bytes h => ?_, fun _ => ⟨_, _, htick⟩⟩
    rw [htick] at h
    cases h
    exact ⟨hcp, fun j q hq hqp => hi.unshared _ _ _ _ _ hq hr hqp hcp⟩
  | await f₀ signal =>
    refine ⟨fun src bytes h => ?_, fun hpc => by cases hpc⟩
    rcases signal with _ | _ | _ <;> cases h
  | status | claim | retarget =>
    refine ⟨fun src bytes h => ?_, fun hpc => by cases hpc⟩
    simp only [Read.tick] at h
    repeat' split at h
    all_goals cases h

/-- **Open handles follow their inodes** in a run in which no step changes what the rows of open
files record, once their content is there. -/
theorem handlesFollow_of_run {evs : List Event} (h₀ : HandlesFollow w)
    (hg : Guarded (step m) (KeepsHandles m) w evs) :
    Along (step m) (fun w ev w' => WritesOwn w ev w' ∧ MarksWritten w ev w' ∧ ReadsOwn m w ev)
      w evs :=
  along_of_guarded (I := HandlesFollow) (fun _ _ _ hi hg h => hi.step hg h)
    (fun _ _ _ hi hg h => ⟨writesOwn_of_step hi hg h, marksWritten_of_step hi hg h,
      readsOwn_of_step hi⟩) h₀ hg

theorem handlesFollow_init (m : Mount) (now : ℕ) : HandlesFollow (World.init m now) where
  unshared := notShared_init m now
  bounded := inodesBounded_init m now
  fresh := fun fh f hf => by
    rw [show (World.init m now).openFiles fh = none from rfl] at hf
    cases hf
  follows := fun fh f r hf => by
    rw [show (World.init m now).openFiles fh = none from rfl] at hf
    cases hf
  reads := fun _ hrd => nomatch hrd
  writes := fun i n hf => by
    rw [show (World.init m now).fuse = none from rfl] at hf
    cases hf

/-- A file is written, moved to another directory and written again, and read, through one
handle. -/
def writeMovedFile : List Event :=
  [.request (.mkdir fuseRootInode ['d']), .request (.create fuseRootInode ['a']),
    .request (.write 1 0 [7]), .fuse .fine, .request (.rename fuseRootInode ['a'] 2 ['a']),
    .request (.write 1 1 [8]), .fuse .fine, .request (.read 1 0 2), .read 0 .fine, .read 0 .fine]

theorem handlesFollow_writeMovedFile :
    Along (step sampleMount)
      (fun w ev w' => WritesOwn w ev w' ∧ MarksWritten w ev w' ∧ ReadsOwn sampleMount w ev)
      (World.init sampleMount 0) writeMovedFile :=
  have hguard : Guarded (step sampleMount) (KeepsHandles sampleMount) (World.init sampleMount 0)
      writeMovedFile := by decide
  handlesFollow_of_run (handlesFollow_init sampleMount 0) hguard

/-- A file is renamed while it is open, and a new one takes its place. -/
def recreateRenamed : List Event :=
  [.request (.create fuseRootInode ['a']),
    .request (.rename fuseRootInode ['a'] fuseRootInode ['b']),
    .request (.create fuseRootInode ['a'])]

theorem not_writesOwn_recreateRenamed :
    ¬∀ (m : Mount) (w w' : World) (evs : List Event) (ev : Event),
      run (step m) (World.init m 0) evs = some w → step m w ev = some w' →
        WritesOwn w ev w' ∧ MarksWritten w ev w' ∧ ReadsOwn m w ev := by
  intro h
  have hwrites := (h sampleMount _ _ recreateRenamed (.request (.write 1 0 [7])) rfl rfl).1
  rcases hwrites 1 0 [7] rfl _ _ rfl rfl with ⟨e, he, -⟩ | ⟨-, hcp, -⟩
  · cases he
  · exact absurd hcp (by decide)

end Stratosync

import Stratosync.Daemon.Frame

/-!
# What a step does to a cache file

`FileStep` lists every way in which a step of the system changes what is at a path of the cache
directory, with the event and the row, handle or task it does so for; `file_of_step` says that the
list is complete.
-/

namespace Stratosync

open CacheFs

/-- **The ways in which a step changes what is at a path.** -/
inductive FileStep (m : Mount) (w : World) :
    Event → PathBuf → Option Bytes → Option Bytes → Prop
  | same {ev p b} : FileStep m w ev p b b
  | written {fh offset data f b} (hf : w.openFiles fh = some f) :
      FileStep m w (.request (.write fh offset data)) f.cachePath (some b)
        (some (writeAt b offset data))
  | truncated {i n r p b} (hr : w.db.getByInode i = some r) (hp : r.cachePath = some p) :
      FileStep m w (.request (.setattr i n)) p (some b) (some (setLen b n))
  | derived {i n r b} (hr : w.db.getByInode i = some r) (hp : r.cachePath = none) :
      FileStep m w (.request (.setattr i n)) (m.derivedPath r) b (some (setLen [] n))
  | created {p n q cp b} (hq : w.db.getByInode p = some q)
      (hcp : safeCachePath w.fs m.cacheDir (joinRemote q.remotePath n) = some cp) :
      FileStep m w (.request (.create p n)) cp b (some [])
  | unlinked {p n r cp b} (hr : w.db.getByParentName m.mountId p n = some r)
      (hcp : r.cachePath = some cp) : FileStep m w (.request (.unlink p n)) cp b none
  | movedAway {p n p' n' r cp b} (hr : w.db.getByParentName m.mountId p n = some r)
      (hcp : r.cachePath = some cp) : FileStep m w (.request (.rename p n p' n')) cp b none
  | movedTo {p n p' n' r cp b data} (hr : w.db.getByParentName m.mountId p n = some r)
      (hcp : r.cachePath = some cp) (hd : w.fs.files cp = some data) :
      FileStep m w (.request (.rename p n p' n')) (movedCachePath cp n') b (some data)
  | installed {k env i e cp data rd b}
      (hh : w.hydrations[k]? = some ⟨i, .install e cp data, rd⟩) :
      FileStep m w (.hydration k env) cp b (some data)
  | evicted {env ev c rest n b} (he : w.eviction = some ev) (hpc : ev.pc = .remove c rest n) :
      FileStep m w (.eviction env) c.cachePath b none
  | dropped {op p b} : FileStep m w (.poll op) p b none

variable {m : Mount} {w w' : World} {p : PathBuf}

theorem files_removeIfPresent (fs : CacheFs) (o : Option PathBuf) (p : PathBuf) :
    (fs.removeIfPresent o).files p = fs.files p ∨
      (o = some p ∧ (fs.removeIfPresent o).files p = none) := by
  rw [removeIfPresent]
  cases h : o.bind fs.remove with
  | none => exact .inl rfl
  | some fs' =>
    obtain ⟨q, rfl, h⟩ := Option.bind_eq_some_iff.1 h
    rw [Option.getD_some, files_of_remove h]
    split
    · rename_i hp
      exact .inr ⟨congrArg some hp.symm, rfl⟩
    · exact .inl rfl

theorem fileStep_write (fh offset : ℕ) (data : Bytes) :
    FileStep m w (.request (.write fh offset data)) p (w.fs.files p)
      ((handleWrite w fh offset data).2.fs.files p) := by
  simp only [handleWrite]
  split
  · exact .same
  · rename_i f hf
    split
    · exact .same
    · rename_i fs h
      obtain ⟨b, hb, hfs⟩ := files_of_write h
      simp only [hfs p]
      split
      · rename_i hp
        rw [hp, hb]
        exact .written hf
      · exact .same

theorem fileStep_setattr (i n : ℕ) :
    FileStep m w (.request (.setattr i n)) p (w.fs.files p)
      ((handleSetattr m w i n).2.fs.files p) := by
  simp only [handleSetattr]
  split
  · exact .same
  rename_i r hr
  split
  · rename_i cp hcp
    split
    · exact .same
    · rename_i fs h
      obtain ⟨b, hb, hfs⟩ := files_of_write h
      simp only [hfs p]
      split
      · rename_i hp
        rw [hp, hb]
        exact .truncated hr hcp
      · exact .same
  · rename_i hcp
    split
    · exact .same
    · rename_i fs₁ h₁
      split
      · simp only [files_of_createDirAll h₁]
        exact .same
      · rename_i fs₂ h₂
        simp only [files_put, files_of_create h₂, files_of_createDirAll h₁]
        split
        · rename_i hp
          rw [hp]
          exact .derived hr hcp
        · exact .same

theorem fileStep_create (q : Inode) (n : Str) :
    FileStep m w (.request (.create q n)) p (w.fs.files p)
      ((handleCreate m w q n).2.fs.files p) := by
  simp only [handleCreate, World.allocFh]
  split
  · exact .same
  split
  · exact .same
  rename_i hq
  split
  · exact .same
  split
  · exact .same
  rename_i hcp
  split
  · exact .same
  rename_i fs₁ h₁
  split
  · simp only [files_of_createDirAll h₁]
    exact .same
  rename_i fs₂ h₂
  have hfs : FileStep m w (.request (.create q n)) p (w.fs.files p) (fs₂.files p) := by
    rw [files_of_create h₂, files_of_createDirAll h₁]
    split
    · rename_i hp
      rw [hp]
      exact .created hq hcp
    · exact .same
  split <;> exact hfs

theorem fileStep_unlink (q : Inode) (n : Str) :
    FileStep m w (.request (.unlink q n)) p (w.fs.files p)
      ((handleUnlink m w q n).2.fs.files p) := by
  simp only [handleUnlink]
  split
  · exact .same
  rename_i r hr
  have hfs : FileStep m w (.request (.unlink q n)) p (w.fs.files p)
      ((w.fs.removeIfPresent r.cachePath).files p) := by
    rcases files_removeIfPresent w.fs r.cachePath p with h | ⟨hcp, h⟩ <;> rw [h]
    · exact .same
    · exact .unlinked hr hcp
  split <;> exact hfs

/-- Moving the cache file of a row changes at most the path it had and the one it gets. -/
theorem files_moveCacheFile (fs : CacheFs) (o : Option PathBuf) (n : Str) (p : PathBuf) :
    (moveCacheFile fs o n).1.files p = fs.files p ∨
      ∃ cp data, o = some cp ∧ fs.files cp = some data ∧
        (moveCacheFile fs o n).2 = some (movedCachePath cp n) ∧
        (moveCacheFile fs o n).1.files p =
          if p = movedCachePath cp n then some data else if p = cp then none else fs.files p := by
  cases o with
  | none => exact .inl rfl
  | some cp =>
    cases h : fs.rename cp (movedCachePath cp n) with
    | none => exact .inl (by simp only [moveCacheFile, h])
    | some fs' =>
      obtain ⟨data, hd, hfs⟩ := files_of_rename h
      refine .inr ⟨cp, data, rfl, hd, ?_, ?_⟩ <;> simp only [moveCacheFile, h]
      exact hfs p

theorem fileStep_rename (q : Inode) (n : Str) (q' : Inode) (n' : Str) :
    FileStep m w (.request (.rename q n q' n')) p (w.fs.files p)
      ((handleRename m w q n q' n').2.fs.files p) := by
  simp only [handleRename]
  split
  · exact .same
  split
  · exact .same
  rename_i r hr
  split
  · exact .same
  have hfs : FileStep m w (.request (.rename q n q' n')) p (w.fs.files p)
      ((moveCacheFile w.fs r.cachePath n').1.files p) := by
    rcases files_moveCacheFile w.fs r.cachePath n' p with h | ⟨cp, data, hcp, hd, -, h⟩ <;> rw [h]
    · exact .same
    · split
      · rename_i hp
        rw [hp]
        exact .movedTo hr hcp hd
      · split
        · rename_i hp
          rw [hp]
          exact .movedAway hr hcp
        · exact .same
  split <;> exact hfs

theorem fileStep_serve (r : Request) :
    FileStep m w (.request r) p (w.fs.files p) ((serve m w r).fs.files p) := by
  cases r with
  | write fh offset data => exact fileStep_write fh offset data
  | setattr i n => exact fileStep_setattr i n
  | open_ i =>
    simp only [serve, handleOpen, World.allocFh]
    repeat' split
    all_goals exact .same
  | release fh =>
    simp only [serve, handleRelease]
    repeat' split
    all_goals exact .same
  | fsync fh =>
    simp only [serve, handleFsync]
    split <;> exact .same
  | read fh offset size => exact .same
  | create q n => exact fileStep_create q n
  | mkdir q n =>
    simp only [serve, handleMkdir]
    repeat' split
    all_goals exact .same
  | unlink q n => exact fileStep_unlink q n
  | rmdir q n =>
    simp only [serve, handleRmdir]
    repeat' split
    all_goals exact .same
  | rename q n q' n' => exact fileStep_rename q n q' n'

theorem fileStep_hydration {k : ℕ} {env : Env} {h : Hydration} (hh : w.hydrations[k]? = some h) :
    FileStep m w (.hydration k env) p (w.fs.files p)
      ((Hydration.tick m w h.inode env h.pc).1.fs.files p) := by
  obtain ⟨i, pc, rd⟩ := h
  cases pc with
  | install e cp data =>
    simp only [Hydration.tick]
    split
    · exact .same
    · rename_i fs h
      split
      · exact .same
      · obtain ⟨fs₁, h₁, h₂⟩ := Option.bind_eq_some_iff.1 h
        simp only [files_of_install h₂, files_of_createDirAll h₁]
        split
        · rename_i hp
          rw [hp]
          exact .installed hh
        · exact .same
  | _ =>
    unfold Hydration.tick
    split <;> try (repeat' split)
    all_goals first
      | exact .same
      | contradiction

theorem fileStep_eviction {env : Env} {ev : Eviction} (he : w.eviction = some ev) :
    FileStep m w (.eviction env) p (w.fs.files p) ((ev.tick m w env).1.fs.files p) := by
  unfold Eviction.tick
  split
  case h_4 c rest n hpc =>
    split
    · exact .same
    · rcases files_removeIfPresent w.fs (some c.cachePath) p with h | ⟨hp, h⟩
      · simp only [h]
        exact .same
      · simp only [h]
        obtain rfl := Option.some.inj hp
        exact .evicted he hpc
  all_goals try (repeat' split)
  all_goals exact .same

theorem fileStep_poll (op : RemoteOp) :
    FileStep m w (.poll op) p (w.fs.files p) ((w.poll op).fs.files p) := by
  have hdrop : ∀ (l : List PathBuf) (fs : CacheFs),
      FileStep m w (.poll op) p (w.fs.files p) (fs.files p) →
      FileStep m w (.poll op) p (w.fs.files p)
        ((l.foldl (fun fs q => fs.removeIfPresent (some q)) fs).files p) := by
    intro l
    induction l with
    | nil => exact fun fs h => h
    | cons q l ih =>
      intro fs h
      refine ih _ ?_
      rcases files_removeIfPresent fs (some q) p with hq | ⟨-, hq⟩ <;> rw [hq]
      · exact h
      · exact .dropped
  exact hdrop _ w.fs .same

/-- **What a step does to a cache file.** -/
theorem file_of_step {ev : Event} (h : step m w ev = some w') (p : PathBuf) :
    FileStep m w ev p (w.fs.files p) (w'.fs.files p) := by
  have hframe := frame_of_step h
  cases ev with
  | request r =>
    rw [(step_request h).2]
    exact fileStep_serve r
  | hydration k env =>
    obtain ⟨x, hx, rfl⟩ := Option.map_eq_some_iff.1 h
    have : FileStep m w (.hydration k env) p (w.fs.files p)
        ((Hydration.tick m w x.inode env x.pc).1.fs.files p) := fileStep_hydration hx
    dsimp only
    split <;> exact this
  | eviction env =>
    obtain ⟨x, hx, rfl⟩ := Option.map_eq_some_iff.1 h
    exact fileStep_eviction hx
  | poll op => exact Option.some.inj h ▸ fileStep_poll op
  | _ =>
    rw [hframe.files rfl]
    exact .same

/-! ## Paths of other rows -/

/-- No row but that of `i` records the path. -/
def OnlyRecordedBy (w : World) (p : PathBuf) (i : Inode) : Prop :=
  ∀ r ∈ w.db.fileIndex.rows, r.cachePath = some p → r.inode = i

/-- The request changes no file of another row; a rename may replace the file of the row at its
destination. -/
def OwnFile (m : Mount) (w : World) : Request → Prop
  | .write fh _ _ => ∀ f ∈ w.openFiles fh, OnlyRecordedBy w f.cachePath f.inode
  | .setattr i _ => ∀ r ∈ w.db.getByInode i,
      OnlyRecordedBy w (r.cachePath.getD (m.derivedPath r)) i
  | .create parent name => ∀ q ∈ w.db.getByInode parent,
      ∀ cp ∈ safeCachePath w.fs m.cacheDir (joinRemote q.remotePath name),
        ∀ r ∈ w.db.fileIndex.rows, r.cachePath ≠ some cp
  | .rename parent name newParent newName => ∀ r ∈ w.db.getByParentName m.mountId parent name,
      ∀ cp ∈ r.cachePath, ∀ q ∈ w.db.fileIndex.rows,
        q.cachePath = some (movedCachePath cp newName) →
          q.inode = r.inode ∨
            ∃ d ∈ w.db.getByParentName m.mountId newParent newName, q.inode = d.inode
  | _ => True

instance (w : World) (p : PathBuf) (i : Inode) : Decidable (OnlyRecordedBy w p i) :=
  inferInstanceAs (Decidable (∀ r ∈ w.db.fileIndex.rows, _ → r.inode = i))

instance (m : Mount) (w : World) : (r : Request) → Decidable (OwnFile m w r)
  | .write fh _ _ =>
    inferInstanceAs (Decidable (∀ f ∈ w.openFiles fh, OnlyRecordedBy w f.cachePath f.inode))
  | .setattr i _ =>
    inferInstanceAs (Decidable (∀ r ∈ w.db.getByInode i, OnlyRecordedBy w _ i))
  | .create parent _ => inferInstanceAs (Decidable (∀ q ∈ w.db.getByInode parent, ∀ cp ∈ _,
      ∀ r ∈ w.db.fileIndex.rows, r.cachePath ≠ some cp))
  | .rename parent name newParent newName =>
    inferInstanceAs (Decidable (∀ r ∈ w.db.getByParentName m.mountId parent name,
      ∀ cp ∈ r.cachePath, ∀ q ∈ w.db.fileIndex.rows,
        q.cachePath = some (movedCachePath cp newName) → q.inode = r.inode ∨
          ∃ d ∈ w.db.getByParentName m.mountId newParent newName, q.inode = d.inode))
  | .open_ _ | .release _ | .fsync _ | .read .. | .mkdir .. | .unlink .. | .rmdir .. =>
    .isTrue trivial

end Stratosync

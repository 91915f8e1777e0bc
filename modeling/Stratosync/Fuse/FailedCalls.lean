import Stratosync.Daemon.Step
import Stratosync.Foundations.Runs
import Stratosync.State.Accepts

/-!
# Calls that fail

`handle_create`, `handle_mkdir` and `handle_rename` where any call they make may fail: the database
or the file system refuses it, or it fails for a reason of its own, such as a full disk. Without
such reasons they are the handlers of `Fuse.WriteOps`.

An error is answered with what was done before it left in place. A file is created, and truncated if
it was there, before its row is refused; a rename has by then dropped the row of its destination
and moved the cache file. `atomic_iff` says when a call that fails has changed nothing.
-/

namespace Stratosync

open Foundations Foundations.Runs

/-- The calls of the handlers. -/
inductive Call
  | parentRow
  | sourceRow
  | destRow
  | createDirs
  | createFile
  | insertRow
  | deleteRow
  | moveFile
  | renameRow
  | insertTombstone
  deriving DecidableEq, Repr

/-- Which calls fail for a reason of their own. -/
abbrev Failures := Call → Bool

namespace Failures

variable (fails : Failures) (m : Mount) (w : World)

/-- The result of a call. -/
def attempt {α : Type} (c : Call) (r : Option α) : Option α := if fails c then none else r

def handleCreate (parent : Inode) (name : Str) : Except Errno (Inode × ℕ) × World :=
  if !validateFilename name then (.error .EINVAL, w)
  else if fails .parentRow then (.error Errno.EIO, w)
  else
    match w.db.getByInode parent with
    | none => (.error .ENOENT, w)
    | some parentEntry =>
      let remotePath := joinRemote parentEntry.remotePath name
      if m.ignore remotePath then (.error .EPERM, w)
      else
        match safeCachePath w.fs m.cacheDir remotePath with
        | none => (.error .EACCES, w)
        | some cachePath =>
          match fails.attempt .createDirs (w.fs.createDirAll cachePath.dropLast) with
          | none => (.error Errno.EIO, w)
          | some fs₁ =>
            match fails.attempt .createFile (fs₁.create cachePath) with
            | none => (.error Errno.EIO, { w with fs := fs₁ })
            | some fs₂ =>
              match fails.attempt .insertRow (w.db.insertFile
                { mountId := m.mountId, parent, name, remotePath, kind := .file, size := 0
                  mtime := w.db.now, etag := none, status := .dirty
                  cachePath := some cachePath, cacheSize := some 0 }) with
              | none => (.error Errno.EIO, { w with fs := fs₂ })
              | some (inode, db) =>
                let w₁ : World := { w with fs := fs₂, db }
                let (fh, w') := w₁.allocFh { inode, cachePath, remotePath, hydrating := false }
                (.ok (inode, fh), w')

def handleMkdir (parent : Inode) (name : Str) : Except Errno Inode × World :=
  if !validateFilename name then (.error .EINVAL, w)
  else if fails .parentRow then (.error Errno.EIO, w)
  else
    match w.db.getByInode parent with
    | none => (.error .ENOENT, w)
    | some parentEntry =>
      let remotePath := joinRemote parentEntry.remotePath name
      if m.ignore remotePath then (.error .EPERM, w)
      else
        match fails.attempt .insertRow (w.db.insertFile
          { mountId := m.mountId, parent, name, remotePath, kind := .directory, size := 0
            mtime := w.db.now, etag := none, status := .cached
            cachePath := none, cacheSize := none }) with
        | none => (.error Errno.EIO, w)
        | some (inode, db) =>
          (.ok inode, { w with db, background := w.background ++ [.mkdir remotePath] })

/-- A destination that cannot be looked up is taken for none, and one that cannot be deleted
stays. -/
def dropDestination (db : Db) (mountId : ℕ) (newParent : Inode) (newName : Str) :
    Db × Option FileEntry :=
  match fails.attempt .destRow (db.getByParentName mountId newParent newName) with
  | none => (db, none)
  | some dest => ((fails.attempt .deleteRow (db.deleteEntry dest.inode)).getD db, some dest)

/-- A cache file that cannot be moved stays. -/
def moveCacheFile (fs : CacheFs) (cachePath : Option PathBuf) (newName : Str) :
    CacheFs × Option PathBuf :=
  match cachePath with
  | none => (fs, none)
  | some old =>
    let new := movedCachePath old newName
    match fails.attempt .moveFile (fs.rename old new) with
    | none => (fs, some old)
    | some fs' => (fs', some new)

def handleRename (parent : Inode) (name : Str) (newParent : Inode) (newName : Str) :
    Except Errno Unit × World :=
  if !validateFilename newName then (.error .EINVAL, w)
  else if fails .sourceRow then (.error Errno.EIO, w)
  else
    match w.db.getByParentName m.mountId parent name with
    | none => (.error .ENOENT, w)
    | some entry =>
      if fails .parentRow then (.error Errno.EIO, w)
      else
        match w.db.getByInode newParent with
        | none => (.error .ENOENT, w)
        | some newParentEntry =>
          let newRemote := joinRemote newParentEntry.remotePath newName
          let (db₁, dest) := fails.dropDestination w.db m.mountId newParent newName
          let headers := match dest with
            | some d => Function.update w.headers d.inode none
            | none => w.headers
          let (fs, newCachePath) := fails.moveCacheFile w.fs entry.cachePath newName
          match fails.attempt .renameRow
              (db₁.renameEntry entry.inode newParent newName newRemote newCachePath) with
          | none => (.error Errno.EIO, { w with db := db₁, fs, headers })
          | some db₂ =>
            let needsMove := needsRemoteRename entry.status
            (.ok (), { w with
              db := if needsMove && !fails .insertTombstone then
                  db₂.insertTombstone m.mountId entry.remotePath tombstoneTtl
                else db₂
              fs, headers
              background := w.background ++
                renameBackground dest needsMove entry.remotePath newRemote })

end Failures

/-- The requests. -/
inductive Mutation
  | create (parent : Inode) (name : Str)
  | mkdir (parent : Inode) (name : Str)
  | rename (parent : Inode) (name : Str) (newParent : Inode) (newName : Str)
  deriving DecidableEq, Repr

/-- Serve a request: the error it is answered with, if it fails, and the world after it. -/
def Mutation.serve (fails : Failures) (m : Mount) (w : World) : Mutation → Option Errno × World
  | .create p n =>
    let (result, w') := fails.handleCreate m w p n
    (match result with | .error e => some e | .ok _ => none, w')
  | .mkdir p n =>
    let (result, w') := fails.handleMkdir m w p n
    (match result with | .error e => some e | .ok _ => none, w')
  | .rename p n p' n' =>
    let (result, w') := fails.handleRename m w p n p' n'
    (match result with | .error e => some e | .ok _ => none, w')

/-- The index rows, the tombstones and the cache files there were are as before. -/
structure Unchanged (w w' : World) : Prop where
  rows : w'.db.fileIndex.rows = w.db.fileIndex.rows
  tombstones : w'.db.tombstones = w.db.tombstones
  files : ∀ p data, w.fs.files p = some data → w'.fs.files p = some data

/-- If the request fails it has changed nothing. -/
def Mutation.Atomic (fails : Failures) (m : Mount) (w : World) (c : Mutation) : Prop :=
  (c.serve fails m w).1.isSome = true → Unchanged w (c.serve fails m w).2

/-! ## When a request that fails has changed nothing -/

section Conditions

variable (fails : Failures) (m : Mount) (w : World)

/-- A create gets as far as the file at the cache path. -/
structure CreatesFile (parent : Inode) (name path : Str) (cachePath : PathBuf) : Prop where
  valid : validateFilename name = true
  parentRow : fails .parentRow = false
  remotePath : ∃ q, w.db.getByInode parent = some q ∧ path = joinRemote q.remotePath name
  allowed : m.ignore path = false
  safe : safeCachePath w.fs m.cacheDir path = some cachePath
  createDirs : fails .createDirs = false
  createFile : fails .createFile = false
  created : ((w.fs.createDirAll cachePath.dropLast).bind fun fs =>
    fs.create cachePath).isSome = true

/-- Some row has the path, or the name in the directory. -/
def Taken (parent : Inode) (name path : Str) : Prop :=
  ∃ c ∈ w.db.fileIndex.rows, c.mountId = m.mountId ∧
    (c.remotePath = path ∨ c.parent = some parent ∧ c.name = name)

/-- A rename finds its row and the new directory. -/
structure FindsRows (parent : Inode) (name : Str) (newParent : Inode) (newName : Str)
    (r q : FileEntry) : Prop where
  valid : validateFilename newName = true
  sourceRow : fails .sourceRow = false
  source : w.db.getByParentName m.mountId parent name = some r
  parentRow : fails .parentRow = false
  parent : w.db.getByInode newParent = some q

/-- The rename drops this row: it is at the destination, and there is no other row in it. -/
structure Drops (newParent : Inode) (newName : Str) (d : FileEntry) : Prop where
  destRow : fails .destRow = false
  dest : w.db.getByParentName m.mountId newParent newName = some d
  deleteRow : fails .deleteRow = false
  empty : ∀ c ∈ w.db.fileIndex.rows, c.inode ≠ d.inode → c.parent ≠ some d.inode

/-- The rename moves the cache file of the row. -/
structure MovesFile (newName : Str) (r : FileEntry) (old : PathBuf) : Prop where
  cachePath : r.cachePath = some old
  elsewhere : movedCachePath old newName ≠ old
  moveFile : fails .moveFile = false
  moved : (w.fs.rename old (movedCachePath old newName)).isSome = true

/-- The row cannot be entered at its new place: the new directory was dropped, or another row that
stays has the path, or the name in the directory. -/
def Refused (newParent : Inode) (newName : Str) (r q : FileEntry) : Prop :=
  ¬Drops fails m w newParent newName r ∧
    (Drops fails m w newParent newName q ∨
      ∃ c ∈ w.db.fileIndex.rows, c.inode ≠ r.inode ∧ ¬Drops fails m w newParent newName c ∧
        c.mountId = m.mountId ∧ (c.remotePath = joinRemote q.remotePath newName ∨
          c.parent = some newParent ∧ c.name = newName))

/-- Where the row is refused, a create has found no content at the cache path, and a rename has
dropped no row and moved no file. -/
def Mutation.Harmless : Mutation → Prop
  | .create parent name => ∀ path cachePath, CreatesFile fails m w parent name path cachePath →
    fails .insertRow = true ∨ Taken m w parent name path →
      ∀ data, w.fs.files cachePath = some data → data = []
  | .mkdir _ _ => True
  | .rename parent name newParent newName => ∀ r q,
    FindsRows fails m w parent name newParent newName r q →
      fails .renameRow = true ∨ Refused fails m w newParent newName r q →
        (∀ d, ¬Drops fails m w newParent newName d) ∧ ∀ old, ¬MovesFile fails w newName r old

end Conditions

variable {fails : Failures} {m : Mount} {w : World} {p p' : Inode} {n n' : Str}

/-! ## The handlers without failures -/

theorem handleCreate_never :
    Failures.handleCreate (fun _ => false) m w p n = handleCreate m w p n := rfl

theorem handleMkdir_never :
    Failures.handleMkdir (fun _ => false) m w p n = handleMkdir m w p n := rfl

theorem handleRename_never :
    Failures.handleRename (fun _ => false) m w p n p' n' = handleRename m w p n p' n' := by
  unfold Failures.handleRename handleRename
  simp only [Bool.not_false, Bool.and_true]
  rfl

/-! ## Creates -/

theorem Unchanged.of_files {w' : World} (hdb : w'.db = w.db) (hfs : w'.fs.files = w.fs.files) :
    Unchanged w w' :=
  ⟨by rw [hdb], by rw [hdb], fun p data h => by rw [hfs, h]⟩

theorem attempt_eq_some {α : Type} {c : Call} {r : Option α} {x : α} :
    fails.attempt c r = some x ↔ fails c = false ∧ r = some x := by
  rw [Failures.attempt]
  cases fails c <;> simp

theorem attempt_eq_none {α : Type} {c : Call} {r : Option α} :
    fails.attempt c r = none ↔ fails c = true ∨ r = none := by
  rw [Failures.attempt]
  cases fails c <;> simp

/-- What a create does: it fails before the cache file is there, or it has made it empty and the row
is refused, or it succeeds. -/
theorem handleCreate_cases (fails : Failures) (m : Mount) (w : World) (p : Inode) (n : Str) :
    ((∀ path cp, ¬CreatesFile fails m w p n path cp) ∧
      ∃ e w', fails.handleCreate m w p n = (.error e, w') ∧ w'.db = w.db ∧
        w'.fs.files = w.fs.files) ∨
    ∃ path cp fs, CreatesFile fails m w p n path cp ∧
      (∀ q, fs.files q = if q = cp then some [] else w.fs.files q) ∧
      ((fails .insertRow = true ∨ Taken m w p n path) ∧
          fails.handleCreate m w p n = (.error Errno.EIO, { w with fs }) ∨
        ¬(fails .insertRow = true ∨ Taken m w p n path) ∧
          ∃ x w', fails.handleCreate m w p n = (.ok x, w')) := by
  unfold Failures.handleCreate
  split
  · rename_i hv
    refine .inl ⟨fun _ _ h => ?_, _, _, rfl, rfl, rfl⟩
    simp [h.valid] at hv
  rename_i hv
  split
  · rename_i hf
    refine .inl ⟨fun _ _ h => ?_, _, _, rfl, rfl, rfl⟩
    simp [h.parentRow] at hf
  rename_i hf
  split
  · rename_i hq
    refine .inl ⟨fun _ _ h => ?_, _, _, rfl, rfl, rfl⟩
    obtain ⟨q, hq', -⟩ := h.remotePath
    cases hq.symm.trans hq'
  rename_i q hq
  have hpath : ∀ {path cp}, CreatesFile fails m w p n path cp → path = joinRemote q.remotePath n :=
    fun h => by
      obtain ⟨q', hq', rfl⟩ := h.remotePath
      rw [Option.some.inj (hq.symm.trans hq')]
  dsimp only
  split
  · rename_i hi
    refine .inl ⟨fun _ _ h => ?_, _, _, rfl, rfl, rfl⟩
    rw [← hpath h, h.allowed] at hi
    cases hi
  rename_i hi
  split
  · rename_i hcp
    refine .inl ⟨fun _ _ h => ?_, _, _, rfl, rfl, rfl⟩
    have hcp' := h.safe
    rw [hpath h, hcp] at hcp'
    cases hcp'
  rename_i cp hcp
  have hcp' : ∀ {path cp'}, CreatesFile fails m w p n path cp' → cp' = cp := fun h => by
    have hcp' := h.safe
    rw [hpath h, hcp] at hcp'
    exact (Option.some.inj hcp').symm
  split
  · rename_i hdirs
    refine .inl ⟨fun _ _ h => ?_, _, _, rfl, rfl, rfl⟩
    have hmade := h.created
    rw [hcp' h] at hmade
    rcases attempt_eq_none.1 hdirs with hdirs | hdirs
    · rw [h.createDirs] at hdirs
      cases hdirs
    · rw [hdirs] at hmade
      cases hmade
  rename_i fs₁ hdirs
  obtain ⟨hdirs, hfs₁⟩ := attempt_eq_some.1 hdirs
  split
  · rename_i hfile
    refine .inl ⟨fun _ _ h => ?_, _, _, rfl, rfl, CacheFs.files_of_createDirAll hfs₁⟩
    have hmade := h.created
    rw [hcp' h, hfs₁, Option.bind_some] at hmade
    rcases attempt_eq_none.1 hfile with hfile | hfile
    · rw [h.createFile] at hfile
      cases hfile
    · rw [hfile] at hmade
      cases hmade
  rename_i fs₂ hfile
  obtain ⟨hfile, hfs₂⟩ := attempt_eq_some.1 hfile
  have hcreates : CreatesFile fails m w p n (joinRemote q.remotePath n) cp :=
    { valid := by simpa using hv
      parentRow := by simpa using hf
      remotePath := ⟨q, hq, rfl⟩
      allowed := by simpa using hi
      safe := hcp
      createDirs := hdirs
      createFile := hfile
      created := by rw [hfs₁, Option.bind_some, hfs₂]; rfl }
  refine .inr ⟨_, cp, fs₂, hcreates, fun q' => ?_, ?_⟩
  · rw [CacheFs.files_of_create hfs₂, CacheFs.files_of_createDirAll hfs₁]
  have htaken : w.db.insertFile
      { mountId := m.mountId, parent := p, name := n, remotePath := joinRemote q.remotePath n
        kind := .file, size := 0, mtime := w.db.now, etag := none, status := .dirty
        cachePath := some cp, cacheSize := some 0 } = none ↔
      Taken m w p n (joinRemote q.remotePath n) := by
    rw [← Option.not_isSome_iff_eq_none, Db.insertFile_isSome_iff (by rw [hq]; rfl) fun _ _ => rfl]
    simp only [Taken, not_forall, not_and_or, not_not, exists_prop]
  rw [← htaken, ← attempt_eq_none]
  split
  · exact .inl ⟨‹_›, rfl⟩
  · rename_i hsome
    rw [hsome]
    exact .inr ⟨nofun, _, _, rfl⟩

theorem atomic_create_iff :
    (Mutation.create p n).Atomic fails m w ↔ (Mutation.create p n).Harmless fails m w := by
  obtain ⟨hnone, e, w', hres, hdb, hfs⟩ | ⟨path, cp, fs, hcreates, hfs, hres⟩ :=
    handleCreate_cases fails m w p n
  · refine ⟨fun _ path cp h => absurd h (hnone path cp), fun _ _ => ?_⟩
    have hserve : ((Mutation.create p n).serve fails m w).2 = w' := by rw [Mutation.serve, hres]
    rw [hserve]
    exact .of_files hdb hfs
  · -- the path and the cache path are determined
    have huniq : ∀ {path' cp'}, CreatesFile fails m w p n path' cp' → path' = path ∧ cp' = cp := by
      intro path' cp' h
      obtain ⟨q, hq, rfl⟩ := hcreates.remotePath
      obtain ⟨q', hq', rfl⟩ := h.remotePath
      obtain rfl := Option.some.inj (hq.symm.trans hq')
      exact ⟨rfl, Option.some.inj (h.safe.symm.trans hcreates.safe)⟩
    obtain ⟨href, hres⟩ | ⟨hgood, x, w', hres⟩ := hres
    · have hserve : (Mutation.create p n).serve fails m w = (some Errno.EIO, { w with fs }) := by
        rw [Mutation.serve, hres]
      constructor
      · intro h path' cp' h' _ data hdata
        obtain ⟨rfl, rfl⟩ := huniq h'
        rw [Mutation.Atomic, hserve] at h
        have hkept := (h rfl).files _ data hdata
        rw [hfs, if_pos rfl] at hkept
        exact (Option.some.inj hkept).symm
      · intro h _
        rw [hserve]
        refine ⟨rfl, rfl, fun q data hdata => ?_⟩
        change fs.files q = some data
        rw [hfs]
        split
        · rename_i hq
          rw [h path cp hcreates href data (hq ▸ hdata)]
        · exact hdata
    · refine ⟨fun _ path' cp' h' href => ?_, fun _ hfail => ?_⟩
      · obtain ⟨rfl, rfl⟩ := huniq h'
        exact absurd href hgood
      · rw [Mutation.serve, hres] at hfail
        cases hfail

/-- A `mkdir` changes the index last. -/
theorem atomic_mkdir : (Mutation.mkdir p n).Atomic fails m w := by
  have hcases : (fails.handleMkdir m w p n).2 = w ∨ ∃ x, (fails.handleMkdir m w p n).1 = .ok x := by
    unfold Failures.handleMkdir
    split
    · exact .inl rfl
    split
    · exact .inl rfl
    split
    · exact .inl rfl
    dsimp only
    split
    · exact .inl rfl
    split
    · exact .inl rfl
    · exact .inr ⟨_, rfl⟩
  intro hfail
  rw [Mutation.serve] at hfail ⊢
  rcases hcases with hsame | ⟨x, hok⟩
  · exact .of_files (congrArg World.db hsame) (congrArg (fun w => w.fs.files) hsame)
  · dsimp only at hfail
    rw [hok] at hfail
    cases hfail

/-! ## Renames -/

theorem dropDestination_cases (fails : Failures) (m : Mount) (w : World) (p' : Inode) (n' : Str) :
    ((∀ d, ¬Drops fails m w p' n' d) ∧ (fails.dropDestination w.db m.mountId p' n').1 = w.db) ∨
    ∃ d, Drops fails m w p' n' d ∧
      w.db.deleteEntry d.inode = some (fails.dropDestination w.db m.mountId p' n').1 := by
  rw [Failures.dropDestination]
  split
  · rename_i hdest
    refine .inl ⟨fun d h => ?_, rfl⟩
    rcases attempt_eq_none.1 hdest with hdest | hdest
    · rw [h.destRow] at hdest
      cases hdest
    · rw [h.dest] at hdest
      cases hdest
  · rename_i d hdest
    obtain ⟨hrow, hdest⟩ := attempt_eq_some.1 hdest
    cases hdel : fails.attempt .deleteRow (w.db.deleteEntry d.inode) with
    | none =>
      refine .inl ⟨fun d' h => ?_, rfl⟩
      obtain rfl := Option.some.inj (hdest.symm.trans h.dest)
      rcases attempt_eq_none.1 hdel with hdel | hdel
      · rw [h.deleteRow] at hdel
        cases hdel
      · have hsome := Db.deleteEntry_isSome_iff.2 h.empty
        rw [hdel] at hsome
        cases hsome
    | some db =>
      obtain ⟨hdel, hdb⟩ := attempt_eq_some.1 hdel
      refine .inr ⟨d, ⟨hrow, hdest, hdel, Db.deleteEntry_isSome_iff.1 ?_⟩, hdb⟩
      rw [hdb]
      rfl

/-- The rows that are left are those the rename does not drop. -/
theorem mem_dropDestination {c : FileEntry} :
    c ∈ (fails.dropDestination w.db m.mountId p' n').1.fileIndex.rows ↔
      c ∈ w.db.fileIndex.rows ∧ ¬Drops fails m w p' n' c := by
  obtain ⟨hnone, hdb⟩ | ⟨d, hd, hdb⟩ := dropDestination_cases fails m w p' n'
  · rw [hdb]
    exact ⟨fun h => ⟨h, hnone c⟩, fun h => h.1⟩
  · have hmem := Db.mem_rows_of_getByInode (Db.getByParentName_spec hd.dest).1
    obtain ⟨t, ht, hdb⟩ := Option.map_eq_some_iff.1 hdb
    rw [← hdb, Foundations.Table.commit_eq_some.1 ht, List.mem_filter]
    refine and_congr_right fun hc => ?_
    constructor
    · intro hne hdrop
      obtain rfl := Option.some.inj (hd.dest.symm.trans hdrop.dest)
      simp at hne
    · intro hnot
      have hne : c.inode ≠ d.inode := fun heq => by
        have hcd := (Db.getByInode_of_mem hc).symm.trans (heq ▸ Db.getByInode_of_mem hmem)
        exact hnot (Option.some.inj hcd ▸ hd)
      simpa using hne

theorem rows_dropDestination_iff :
    (fails.dropDestination w.db m.mountId p' n').1.fileIndex.rows = w.db.fileIndex.rows ↔
      ∀ d, ¬Drops fails m w p' n' d := by
  constructor
  · intro h d hd
    have hmem := Db.mem_rows_of_getByInode (Db.getByParentName_spec hd.dest).1
    rw [← h] at hmem
    exact (mem_dropDestination.1 hmem).2 hd
  · intro h
    obtain ⟨-, hdb⟩ | ⟨d, hd, -⟩ := dropDestination_cases fails m w p' n'
    · rw [hdb]
    · exact absurd hd (h d)

theorem tombstones_dropDestination :
    (fails.dropDestination w.db m.mountId p' n').1.tombstones = w.db.tombstones := by
  obtain ⟨-, hdb⟩ | ⟨d, -, hdb⟩ := dropDestination_cases fails m w p' n'
  · rw [hdb]
  · obtain ⟨t, -, hdb⟩ := Option.map_eq_some_iff.1 hdb
    rw [← hdb]

theorem isSome_moveCacheFile (fs : CacheFs) (cp : Option PathBuf) :
    (fails.moveCacheFile fs cp n').2.isSome = cp.isSome := by
  unfold Failures.moveCacheFile
  split
  · rfl
  · dsimp only
    split <;> rfl

/-- The files are as before exactly when no cache file is moved. -/
theorem files_moveCacheFile_iff {r : FileEntry} :
    (∀ q data, w.fs.files q = some data →
      (fails.moveCacheFile w.fs r.cachePath n').1.files q = some data) ↔
        ∀ old, ¬MovesFile fails w n' r old := by
  unfold Failures.moveCacheFile
  split
  · rename_i hcp
    refine ⟨fun _ old h => ?_, fun _ _ _ h => h⟩
    rw [h.cachePath] at hcp
    cases hcp
  · rename_i old hcp
    dsimp only
    split
    · rename_i hmove
      refine ⟨fun _ old' h => ?_, fun _ _ _ h => h⟩
      obtain rfl := Option.some.inj (hcp.symm.trans h.cachePath)
      have hmoved := h.moved
      rcases attempt_eq_none.1 hmove with hmove | hmove
      · rw [h.moveFile] at hmove
        cases hmove
      · rw [hmove] at hmoved
        cases hmoved
    · rename_i fs hmove
      obtain ⟨hfail, hmove⟩ := attempt_eq_some.1 hmove
      obtain ⟨data, hdata, hfiles⟩ := CacheFs.files_of_rename hmove
      constructor
      · intro h old' hmoves
        obtain rfl := Option.some.inj (hcp.symm.trans hmoves.cachePath)
        have hkept := h _ data hdata
        rw [hfiles, if_neg (Ne.symm hmoves.elsewhere), if_pos rfl] at hkept
        cases hkept
      · intro h q data' hq
        have hsame : movedCachePath old n' = old := by
          by_contra hne
          exact h old ⟨hcp, hne, hfail, by rw [hmove]; rfl⟩
        rw [hfiles, hsame]
        split
        · rename_i hold
          rw [← hdata, ← hold, hq]
        · exact hq

/-- An update of no row goes through. -/
theorem Db.updateRow_isSome_of_none {db : Db} {i : Inode} {f : FileEntry → FileEntry}
    (h : db.getByInode i = none) : (db.updateRow i f).isSome = true := by
  have hrows : (db.fileIndex.rows.map fun r => if decide (r.inode = i) then f r else r) =
      db.fileIndex.rows := by
    refine List.map_congr_left (g := id) (fun r hr => ?_) |>.trans (List.map_id _)
    have hne : r.inode ≠ i := fun hri => by
      have hr' := Db.getByInode_of_mem hr
      rw [hri, h] at hr'
      cases hr'
    simp [hne]
  rw [updateRow, Option.isSome_map, Foundations.Table.update, hrows,
    Foundations.Table.commit_isSome]
  exact db.fileIndex.ok

/-- The database refuses the renamed row exactly when its place is taken or gone. -/
theorem renameEntry_eq_none_iff {r q : FileEntry} {cp : Option PathBuf}
    (h : FindsRows fails m w p n p' n' r q) (hcp : cp.isSome = r.cachePath.isSome) :
    (fails.dropDestination w.db m.mountId p' n').1.renameEntry r.inode p' n'
        (joinRemote q.remotePath n') cp = none ↔ Refused fails m w p' n' r q := by
  obtain ⟨hr, hmount, -, -⟩ := Db.getByParentName_spec h.source
  have hmem := Db.mem_rows_of_getByInode hr
  have hq := Db.mem_rows_of_getByInode h.parent
  have hqi := Db.inode_of_getByInode h.parent
  have ok := w.db.fileIndex.ok
  rw [← Option.not_isSome_iff_eq_none, Refused, Db.renameEntry]
  by_cases hdrop : Drops fails m w p' n' r
  · -- the row itself is dropped, and nothing is left to be renamed
    have hnone : (fails.dropDestination w.db m.mountId p' n').1.getByInode r.inode = none := by
      cases hget : (fails.dropDestination w.db m.mountId p' n').1.getByInode r.inode with
      | none => rfl
      | some c =>
        obtain ⟨hc, hnot⟩ := mem_dropDestination.1 (Db.mem_rows_of_getByInode hget)
        have hci := Db.inode_of_getByInode hget
        have hcr := (Db.getByInode_of_mem hc).symm.trans (hci ▸ hr)
        exact absurd hdrop (Option.some.inj hcr ▸ hnot)
    simp [Db.updateRow_isSome_of_none hnone, hdrop]
  · have hget := Db.getByInode_of_mem (mem_dropDestination.2 ⟨hmem, hdrop⟩)
    refine (not_congr (Db.updateRow_isSome_iff hget (by exact fun _ => rfl))).trans ?_
    simp only [hdrop, not_false_eq_true, true_and]
    constructor
    · intro hfits
      by_contra hnot
      rw [not_or] at hnot
      obtain ⟨hparent, hclash⟩ := hnot
      refine hfits ⟨fun c hc hci hm hp => hclash ?_, fun c hc hci hm _ hp hn => hclash ?_,
        fun c hc hci hm hs hid => ?_, ?_, fun hk hs => ?_⟩
      · obtain ⟨hc, hstay⟩ := mem_dropDestination.1 hc
        exact ⟨c, hc, hci, hstay, hm.trans hmount, .inl hp⟩
      · obtain ⟨hc, hstay⟩ := mem_dropDestination.1 hc
        exact ⟨c, hc, hci, hstay, hm.trans hmount, .inr ⟨hp, hn⟩⟩
      · have heq := Table.eq_of_unique (fun h => ⟨h.1.symm, h.2.2 ▸ h.2.1, h.2.2.symm⟩)
          ok.itemIdUnique (mem_dropDestination.1 hc).1 hmem ⟨hm, hs, hid⟩
        have hinode : c.inode = r.inode := congrArg FileEntry.inode heq
        exact hci hinode
      · rintro _ ⟨⟩
        exact ⟨q, mem_dropDestination.2 ⟨hq, hparent⟩, hqi⟩
      · exact hcp.trans (ok.cachePathRecorded r hmem hk hs)
    · rintro (hparent | ⟨c, hc, hci, hstay, hm, hclash⟩) hfits
      · obtain ⟨q', hq', hqi'⟩ := hfits.parent p' rfl
        obtain ⟨hq', hstay⟩ := mem_dropDestination.1 hq'
        have hqq := (Db.getByInode_of_mem hq').symm.trans (hqi' ▸ h.parent)
        exact hstay (Option.some.inj hqq ▸ hparent)
      · have hc' := mem_dropDestination.2 ⟨hc, hstay⟩
        have hm' : c.mountId = r.mountId := hm.trans hmount.symm
        rcases hclash with hp | ⟨hp, hn⟩
        · exact hfits.path c hc' hci hm' hp
        · exact hfits.name c hc' hci hm' (by rw [hp]; rfl) hp hn

/-- What a rename does: it fails before it has changed anything, or it has dropped its destination
and moved the cache file and the row is refused, or it succeeds. -/
theorem handleRename_cases (fails : Failures) (m : Mount) (w : World) (p : Inode) (n : Str)
    (p' : Inode) (n' : Str) :
    ((∀ r q, ¬FindsRows fails m w p n p' n' r q) ∧
      ∃ e, fails.handleRename m w p n p' n' = (.error e, w)) ∨
    ∃ r q, FindsRows fails m w p n p' n' r q ∧
      ((fails .renameRow = true ∨ Refused fails m w p' n' r q) ∧
          (∃ headers, fails.handleRename m w p n p' n' = (.error Errno.EIO,
            { w with
              db := (fails.dropDestination w.db m.mountId p' n').1
              fs := (fails.moveCacheFile w.fs r.cachePath n').1
              headers })) ∨
        ¬(fails .renameRow = true ∨ Refused fails m w p' n' r q) ∧
          ∃ w', fails.handleRename m w p n p' n' = (.ok (), w')) := by
  unfold Failures.handleRename
  split
  · rename_i hv
    refine .inl ⟨fun _ _ h => ?_, _, rfl⟩
    simp [h.valid] at hv
  rename_i hv
  split
  · rename_i hf
    refine .inl ⟨fun _ _ h => ?_, _, rfl⟩
    simp [h.sourceRow] at hf
  rename_i hf
  split
  · rename_i hr
    refine .inl ⟨fun _ _ h => ?_, _, rfl⟩
    cases hr.symm.trans h.source
  rename_i r hr
  split
  · rename_i hf'
    refine .inl ⟨fun _ _ h => ?_, _, rfl⟩
    simp [h.parentRow] at hf'
  rename_i hf'
  split
  · rename_i hq
    refine .inl ⟨fun _ _ h => ?_, _, rfl⟩
    cases hq.symm.trans h.parent
  rename_i q hq
  have hfinds : FindsRows fails m w p n p' n' r q :=
    ⟨by simpa using hv, by simpa using hf, hr, by simpa using hf', hq⟩
  refine .inr ⟨r, q, hfinds, ?_⟩
  rw [← renameEntry_eq_none_iff hfinds (isSome_moveCacheFile w.fs r.cachePath),
    ← attempt_eq_none]
  dsimp only
  split
  · exact .inl ⟨‹_›, _, rfl⟩
  · rename_i hsome
    rw [hsome]
    exact .inr ⟨nofun, _, rfl⟩

theorem atomic_rename_iff :
    (Mutation.rename p n p' n').Atomic fails m w ↔
      (Mutation.rename p n p' n').Harmless fails m w := by
  obtain ⟨hnone, e, hres⟩ | ⟨r, q, hfinds, hres⟩ := handleRename_cases fails m w p n p' n'
  · refine ⟨fun _ r q h => absurd h (hnone r q), fun _ _ => ?_⟩
    rw [Mutation.serve, hres]
    exact .of_files rfl rfl
  · have huniq : ∀ {r' q'}, FindsRows fails m w p n p' n' r' q' → r' = r ∧ q' = q := fun h =>
      ⟨Option.some.inj (h.source.symm.trans hfinds.source),
        Option.some.inj (h.parent.symm.trans hfinds.parent)⟩
    obtain ⟨href, headers, hres⟩ | ⟨hgood, w', hres⟩ := hres
    · have hserve : (Mutation.rename p n p' n').serve fails m w = (some Errno.EIO,
          { w with
            db := (fails.dropDestination w.db m.mountId p' n').1
            fs := (fails.moveCacheFile w.fs r.cachePath n').1
            headers }) := by rw [Mutation.serve, hres]
      rw [Mutation.Atomic, hserve]
      constructor
      · intro h r' q' h' _
        obtain ⟨rfl, rfl⟩ := huniq h'
        exact ⟨rows_dropDestination_iff.1 (h rfl).rows, files_moveCacheFile_iff.1 (h rfl).files⟩
      · intro h _
        obtain ⟨hdrop, hmove⟩ := h r q hfinds href
        exact ⟨rows_dropDestination_iff.2 hdrop, tombstones_dropDestination,
          files_moveCacheFile_iff.2 hmove⟩
    · refine ⟨fun _ r' q' h' href => ?_, fun _ hfail => ?_⟩
      · obtain ⟨rfl, rfl⟩ := huniq h'
        exact absurd href hgood
      · rw [Mutation.serve, hres] at hfail
        cases hfail

/-- **A request that fails changes nothing exactly when it is harmless.** -/
theorem Mutation.atomic_iff (fails : Failures) (m : Mount) (w : World) (c : Mutation) :
    c.Atomic fails m w ↔ c.Harmless fails m w := by
  cases c with
  | create p n => exact atomic_create_iff
  | mkdir p n => exact iff_of_true atomic_mkdir trivial
  | rename p n p' n' => exact atomic_rename_iff

/-- A file is written in a directory, the directory is renamed, and another one takes its name. -/
def directoryReplaced : List Event :=
  [.request (.mkdir 1 ['A']), .request (.create 2 ['x']), .request (.write 1 0 [1]), .fuse .fine,
    .request (.rename 1 ['A'] 1 ['B']), .request (.mkdir 1 ['A'])]

/-- The row of the file keeps its remote path, so a file of its name is refused in the new
directory; its cache file is truncated before that. -/
theorem not_atomic_directoryReplaced :
    ¬∀ (fails : Failures) (m : Mount) (w : World) (c : Mutation), c.Atomic fails m w := by
  intro h
  obtain ⟨w, -, hfail, hbefore, hafter⟩ : ∃ w,
      run (step sampleMount) (World.init sampleMount 0) directoryReplaced = some w ∧
        ((Mutation.create 4 ['x']).serve (fun _ => false) sampleMount w).1.isSome = true ∧
        w.fs.files [['c'], ['A'], ['x']] = some [1] ∧
        ((Mutation.create 4 ['x']).serve (fun _ => false) sampleMount w).2.fs.files
          [['c'], ['A'], ['x']] = some [] := ⟨_, rfl, rfl, rfl, rfl⟩
  have hkept := (h (fun _ => false) sampleMount w (.create 4 ['x']) hfail).files _ _ hbefore
  rw [hafter] at hkept
  cases hkept

end Stratosync

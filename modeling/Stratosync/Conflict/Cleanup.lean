import Stratosync.Backend.WebDav
import Stratosync.Conflict.KeepsBoth
import Stratosync.Conflict.Names
import Stratosync.Foundations.Runs

/-!
# The clean-up of conflict files

`conflicts cleanup` takes the conflict files of a mount one after the other and removes those whose
content the original has. It asks the remote for size and etag of both, and where these do not tell
it compares bytes: the sibling's with those in the cache file of the original, if there is one, or
with those of the original on the remote. When the question fails with an error that speaks of
something not found, it takes the sibling for gone, whichever of the two the error is about.

`lossless_iff` says when no sibling is lost that has a content of its own.
-/

namespace Stratosync

open Foundations

/-! ## The remote calls -/

/-- An error of a backend call: whether it is `NotFound`, and how it is displayed. -/
structure CallError where
  notFound : Bool
  display : Str
  deriving DecidableEq, Repr

/-- How the calls about one sibling go. -/
structure CleanupEnv where
  statCanonical : Option CallError
  statSibling : Option CallError
  /-- A `stat` of the comparison of bytes fails. -/
  statAgain : Bool
  download : Bool
  /-- A local file of the comparison cannot be read or written. -/
  io : Bool
  /-- The error of `delete`, and whether the object is gone nevertheless. -/
  delete : Option (CallError × Bool)
  dbFails : Bool

/-- Every call succeeds. -/
def CleanupEnv.fine : CleanupEnv := ⟨none, none, false, false, false, none, false⟩

/-- `backend.stat`: an error of the call, or `NotFound` for a path with nothing at it. -/
def statOrError (r : Remote) (fails : Option CallError) (path : Str) :
    Except CallError RemoteMetadata :=
  match fails, r.stat path with
  | some e, _ => .error e
  | none, some metadata => .ok metadata
  | none, none => .error ⟨true, "not found: ".toList ++ path⟩

/-- `format!("stat {path}: {e}")`. -/
def statContext (path : Str) (e : CallError) : Str :=
  "stat ".toList ++ (path ++ (": ".toList ++ e.display))

/-! ## `content.rs` -/

inductive StatEqResult
  | equal
  | different
  | unknown
  deriving DecidableEq, Repr

def statRemoteEq (r : Remote) (env : CleanupEnv) (a b : Str) : Except Str StatEqResult :=
  match statOrError r env.statCanonical a with
  | .error e => .error (statContext a e)
  | .ok metaA =>
    match statOrError r env.statSibling b with
    | .error e => .error (statContext b e)
    | .ok metaB =>
      if metaA.size ≠ metaB.size then .ok .different
      else
        match metaA.etag, metaB.etag with
        | some v, some w => if v = w then .ok .equal else .ok .different
        | _, _ => .ok .unknown

/-- `local_eq_remote`, its first result; an error is `none`. -/
def localEqRemote (r : Remote) (env : CleanupEnv) (content : Bytes) (path : Str) : Option Bool :=
  if env.statAgain then none
  else
    match r.stat path with
    | none => none
    | some metadata =>
      if content.length ≠ metadata.size then some false
      else
        match r.object path with
        | none => none
        | some o =>
          if env.download || env.io then none else some (filesEqual content o.data metadata.size)

/-- `remote_eq_remote`; an error is `none`. -/
def remoteEqRemote (r : Remote) (env : CleanupEnv) (a b : Str) : Option Bool :=
  if env.statAgain then none
  else
    match r.stat a, r.stat b with
    | some metaA, some metaB =>
      if metaA.size ≠ metaB.size then some false
      else
        match r.object a, r.object b with
        | some x, some y =>
          if env.download || env.io then none else some (filesEqual x.data y.data metaA.size)
        | _, _ => none
    | _, _ => none

/-! ## The clean-up -/

/-- The database and the remote of the mount. -/
structure CleanupState where
  db : Db
  remote : Remote

/-- A sibling's turn: the file that `find_conflict_sibling` gives for it, and how the calls go. -/
structure CleanupTurn where
  sibling : FileEntry
  canonical : Option FileEntry
  env : CleanupEnv

/-- What the comparison comes to. -/
inductive CleanupVerdict
  | equal
  | keep
  | skip
  | orphan
  deriving DecidableEq, Repr

section

variable (dryRun : Bool) (files : PathBuf → Option Bytes)

def cleanupVerdict (r : Remote) (env : CleanupEnv) (canonical sibling : FileEntry) :
    CleanupVerdict :=
  match statRemoteEq r env canonical.remotePath sibling.remotePath with
  | .ok .equal => .equal
  | .ok .different => .keep
  | .ok .unknown =>
    match match canonical.cachePath.bind files with
      | some content => localEqRemote r env content sibling.remotePath
      | none => remoteEqRemote r env canonical.remotePath sibling.remotePath with
    | some true => .equal
    | some false => .keep
    | none => .skip
  | .error msg =>
    if containsText msg "not found".toList || containsText msg "directory not found".toList
    then .orphan
    else .skip

/-- `db.delete_entry`, whose error is only reported. -/
def CleanupState.deleteEntry (s : CleanupState) (env : CleanupEnv) (i : Inode) : CleanupState :=
  if env.dbFails then s
  else
    match s.db.deleteEntry i with
    | some db => { s with db }
    | none => s

/-- `backend.delete`: the remote after it, and whether it ends well, as it does when there is
nothing to delete. -/
def deleteOrError (r : Remote) (env : CleanupEnv) (path : Str) : Remote × Bool :=
  match env.delete with
  | some (e, gone) => (if gone then Function.update r path none else r, e.notFound)
  | none =>
    match r.delete path with
    | .ok r' => (r', true)
    | .error .notFound => (r, true)
    | .error _ => (r, false)

/-- The turn of a sibling whose original is `canonical`. -/
def cleanupSibling (s : CleanupState) (env : CleanupEnv) (canonical sibling : FileEntry) :
    CleanupState :=
  match cleanupVerdict files s.remote env canonical sibling with
  | .keep | .skip => s
  | .orphan => if dryRun then s else s.deleteEntry env sibling.inode
  | .equal =>
    if dryRun then s
    else
      match deleteOrError s.remote env sibling.remotePath with
      | (remote, true) => { s with remote }.deleteEntry env sibling.inode
      | (remote, false) => { s with remote }

/-- `collect_conflict_entries`. -/
def collectConflictEntries (db : Db) (mountId : ℕ) : List FileEntry :=
  (db.fileIndex.rows.filter fun r =>
    r.mountId = mountId ∧ (r.status = .conflict ∨ like "%.conflict.%".toList r.name)).insertionSort
      fun a b => b.mtime ≤ a.mtime

/-- One turn of the loop; a sibling without an original in the index is skipped. -/
def cleanupStep (mountId : ℕ) (s : CleanupState) (t : CleanupTurn) : Option CleanupState :=
  match t.canonical with
  | none => if findConflictSibling s.db mountId t.sibling = [] then some s else none
  | some canonical =>
    if canonical ∈ findConflictSibling s.db mountId t.sibling then
      some (cleanupSibling dryRun files s t.env canonical t.sibling)
    else none

/-! ## What holds, and when -/

/-- The turn takes the sibling's row or its object away. -/
def Removes (s : CleanupState) (t : CleanupTurn) (s' : CleanupState) : Prop :=
  (s.db.getByInode t.sibling.inode).isSome = true ∧ s'.db.getByInode t.sibling.inode = none ∨
    (s.remote.object t.sibling.remotePath).isSome = true ∧
      s'.remote.object t.sibling.remotePath = none

/-- The sibling has a content on the remote that the original does not have there. -/
def HoldsDistinct (s : CleanupState) (t : CleanupTurn) : Prop :=
  ∃ o, s.remote.object t.sibling.remotePath = some o ∧
    ∀ canonical ∈ t.canonical, ∀ o', s.remote.object canonical.remotePath = some o' →
      o'.data ≠ o.data

/-- **Nothing is lost**: what is removed has no object, or one with the content of the original. -/
def Lossless (s : CleanupState) (t : CleanupTurn) (s' : CleanupState) : Prop :=
  Removes s t s' → ¬HoldsDistinct s t

/-- The `stat` of a path fails, with a text that speaks of something not found. -/
def ReadsMissing (r : Remote) (fails : Option CallError) (path : Str) : Prop :=
  ∃ e, statOrError r fails path = .error e ∧ "not found".toList <:+: statContext path e

/-- The original is not found, or it is found and the sibling is not. -/
def TakenForOrphan (r : Remote) (env : CleanupEnv) (canonical sibling : FileEntry) : Prop :=
  ReadsMissing r env.statCanonical canonical.remotePath ∨
    (statOrError r env.statCanonical canonical.remotePath).isOk = true ∧
      ReadsMissing r env.statSibling sibling.remotePath

/-- Both are found and of one size, and they have one etag, or one of them has none and the cache
file of the original has the content of the sibling. -/
def TakenForEqual (r : Remote) (env : CleanupEnv) (canonical sibling : FileEntry) : Prop :=
  ∃ a b, statOrError r env.statCanonical canonical.remotePath = .ok a ∧
    statOrError r env.statSibling sibling.remotePath = .ok b ∧ a.size = b.size ∧
      ((∃ v, a.etag = some v ∧ b.etag = some v) ∨
        (a.etag = none ∨ b.etag = none) ∧ env.statAgain = false ∧ env.download = false ∧
          env.io = false ∧ ∃ o, r.object sibling.remotePath = some o ∧
            canonical.cachePath.bind files = some o.data)

/-- The row is there and can be deleted. -/
def RowGoes (s : CleanupState) (env : CleanupEnv) (i : Inode) : Prop :=
  env.dbFails = false ∧ (s.db.deleteEntry i).isSome = true ∧ (s.db.getByInode i).isSome = true

/-- The call deletes the object, whether or not it says so. -/
def ObjectGoes (env : CleanupEnv) : Prop := ∀ d ∈ env.delete, d.2 = true

/-- The call says that the object is deleted, or was not there. -/
def DeleteEndsWell (env : CleanupEnv) : Prop := ∀ d ∈ env.delete, d.1.notFound = true

/-- A sibling with a content of its own is not taken for gone while its row can be deleted, and not
for equal while its object or its row can. -/
def SiblingSpared (s : CleanupState) (t : CleanupTurn) (_ : CleanupState) : Prop :=
  dryRun = false → HoldsDistinct s t → ∀ canonical ∈ t.canonical,
    ¬(TakenForOrphan s.remote t.env canonical t.sibling ∧ RowGoes s t.env t.sibling.inode) ∧
      ¬(TakenForEqual files s.remote t.env canonical t.sibling ∧
        (ObjectGoes t.env ∨ DeleteEndsWell t.env ∧ RowGoes s t.env t.sibling.inode))

end

/-! ## The comparison -/

variable {dryRun : Bool} {files : PathBuf → Option Bytes} {mountId : ℕ} {r : Remote}
  {env : CleanupEnv} {canonical sibling : FileEntry} {s s' : CleanupState} {t : CleanupTurn}

theorem statRemoteEq_eq_error_iff {a b msg : Str} : statRemoteEq r env a b = .error msg ↔
    (∃ e, statOrError r env.statCanonical a = .error e ∧ statContext a e = msg) ∨
      (statOrError r env.statCanonical a).isOk = true ∧
        ∃ e, statOrError r env.statSibling b = .error e ∧ statContext b e = msg := by
  rw [statRemoteEq]
  cases statOrError r env.statCanonical a with
  | error e => simp [Except.isOk, Except.toBool]
  | ok x =>
    cases statOrError r env.statSibling b with
    | error e => simp [Except.isOk, Except.toBool]
    | ok y =>
      refine iff_of_false ?_ (by simp)
      simp only
      repeat' split
      all_goals exact fun h => by cases h

/-- When both are found, size and etag decide. -/
theorem statRemoteEq_eq_ok_iff {a b : Str} {result : StatEqResult} :
    statRemoteEq r env a b = .ok result ↔
      ∃ x y, statOrError r env.statCanonical a = .ok x ∧ statOrError r env.statSibling b = .ok y ∧
        (if x.size ≠ y.size then StatEqResult.different
          else
            match x.etag, y.etag with
            | some v, some w => if v = w then .equal else .different
            | _, _ => .unknown) = result := by
  rw [statRemoteEq]
  cases statOrError r env.statCanonical a with
  | error e => simp
  | ok x =>
    cases statOrError r env.statSibling b with
    | error e => simp
    | ok y =>
      simp only [Except.ok.injEq, ↓existsAndEq, true_and]
      by_cases hsize : x.size = y.size
      · cases x.etag <;> cases y.etag <;> simp [hsize]
        split <;> simp
      · simp [hsize]

theorem statRemoteEq_eq_equal_iff {a b : Str} : statRemoteEq r env a b = .ok .equal ↔
    ∃ x y, statOrError r env.statCanonical a = .ok x ∧ statOrError r env.statSibling b = .ok y ∧
      x.size = y.size ∧ ∃ v, x.etag = some v ∧ y.etag = some v := by
  rw [statRemoteEq_eq_ok_iff]
  refine exists₂_congr fun x y => and_congr_right fun _ => and_congr_right fun _ => ?_
  by_cases hsize : x.size = y.size
  · cases x.etag <;> cases y.etag <;> simp [hsize, eq_comm]
  · simp [hsize]

theorem statRemoteEq_eq_unknown_iff {a b : Str} : statRemoteEq r env a b = .ok .unknown ↔
    ∃ x y, statOrError r env.statCanonical a = .ok x ∧ statOrError r env.statSibling b = .ok y ∧
      x.size = y.size ∧ (x.etag = none ∨ y.etag = none) := by
  rw [statRemoteEq_eq_ok_iff]
  refine exists₂_congr fun x y => and_congr_right fun _ => and_congr_right fun _ => ?_
  by_cases hsize : x.size = y.size
  · cases x.etag <;> cases y.etag <;> simp [hsize]
    split <;> simp
  · simp [hsize]

/-- The text that is looked for last contains the one before it. -/
theorem containsText_notFound {msg : Str} :
    (containsText msg "not found".toList || containsText msg "directory not found".toList) =
      true ↔ "not found".toList <:+: msg := by
  rw [Bool.or_eq_true, containsText_iff, containsText_iff, or_iff_left_of_imp]
  exact fun h => List.IsInfix.trans ⟨"directory ".toList, [], rfl⟩ h

theorem cleanupVerdict_eq_orphan_iff :
    cleanupVerdict files r env canonical sibling = .orphan ↔
      TakenForOrphan r env canonical sibling := by
  have hmsg : cleanupVerdict files r env canonical sibling = .orphan ↔
      ∃ msg, statRemoteEq r env canonical.remotePath sibling.remotePath = .error msg ∧
        "not found".toList <:+: msg := by
    rw [cleanupVerdict]
    cases statRemoteEq r env canonical.remotePath sibling.remotePath with
    | error msg =>
      simp only [Except.error.injEq, exists_eq_left', ← containsText_notFound]
      split
      · rename_i h
        exact iff_of_true rfl h
      · rename_i h
        exact iff_of_false nofun h
    | ok x =>
      refine iff_of_false ?_ (by simp)
      cases x <;> simp only
      · exact nofun
      · exact nofun
      · split <;> exact nofun
  rw [hmsg]
  simp only [statRemoteEq_eq_error_iff, TakenForOrphan, ReadsMissing]
  constructor
  · rintro ⟨msg, ⟨e, he, rfl⟩ | ⟨hok, e, he, rfl⟩, htext⟩
    · exact .inl ⟨e, he, htext⟩
    · exact .inr ⟨hok, e, he, htext⟩
  · rintro (⟨e, he, htext⟩ | ⟨hok, e, he, htext⟩)
    · exact ⟨_, .inl ⟨e, he, rfl⟩, htext⟩
    · exact ⟨_, .inr ⟨hok, e, he, rfl⟩, htext⟩

theorem localEqRemote_eq_true_iff {content : Bytes} {path : Str} :
    localEqRemote r env content path = some true ↔
      env.statAgain = false ∧ env.download = false ∧ env.io = false ∧
        ∃ o, r.object path = some o ∧ content = o.data := by
  rw [localEqRemote]
  cases hobj : r.object path with
  | none =>
    refine iff_of_false (fun h => ?_) (by simp)
    simp only at h
    repeat' split at h
    all_goals cases h
  | some o =>
    obtain ⟨metadata, hstat, hsize⟩ := stat_of_object hobj
    simp only [hstat, hsize, Option.some.injEq, ↓existsAndEq, true_and]
    by_cases hlen : content.length = o.data.length
    · have hequal : filesEqual content o.data o.data.length = true ↔ content = o.data := by
        refine ⟨ResolveCase.filesEqual_eq hlen rfl, ?_⟩
        rintro rfl
        simp [filesEqual]
      cases env.statAgain <;> cases env.download <;> cases env.io <;> simp [hlen, hequal]
    · have hne : content ≠ o.data := fun h => hlen (congrArg List.length h)
      cases env.statAgain <;> simp [hlen, hne]

theorem data_eq_of_remoteEqRemote {a b : Str} (h : remoteEqRemote r env a b = some true) :
    ∃ x y, r.object a = some x ∧ r.object b = some y ∧ x.data = y.data := by
  rw [remoteEqRemote] at h
  cases hx : r.object a with
  | none =>
    simp only [hx] at h
    repeat' split at h
    all_goals cases h
  | some x =>
    cases hy : r.object b with
    | none =>
      simp only [hx, hy] at h
      repeat' split at h
      all_goals cases h
    | some y =>
      obtain ⟨metaA, hstatA, hsizeA⟩ := stat_of_object hx
      obtain ⟨metaB, hstatB, hsizeB⟩ := stat_of_object hy
      refine ⟨x, y, rfl, rfl, ?_⟩
      simp only [hx, hy, hstatA, hstatB, hsizeA, hsizeB] at h
      by_cases hlen : x.data.length = y.data.length
      · refine ResolveCase.filesEqual_eq rfl hlen.symm ?_
        cases hagain : env.statAgain <;> simp [hagain, hlen] at h
        rw [hlen]
        exact h.2
      · cases hagain : env.statAgain <;> simp [hagain, hlen] at h

/-- With contents that differ, the comparison comes out equal by size and etag, or by the cache
file. -/
theorem cleanupVerdict_eq_equal_iff
    (hdiff : ∀ x y, r.object canonical.remotePath = some x →
      r.object sibling.remotePath = some y → x.data ≠ y.data) :
    cleanupVerdict files r env canonical sibling = .equal ↔
      TakenForEqual files r env canonical sibling := by
  have hcompare : cleanupVerdict files r env canonical sibling = .equal ↔
      statRemoteEq r env canonical.remotePath sibling.remotePath = .ok .equal ∨
        statRemoteEq r env canonical.remotePath sibling.remotePath = .ok .unknown ∧
          ∃ content ∈ canonical.cachePath.bind files,
            localEqRemote r env content sibling.remotePath = some true := by
    rw [cleanupVerdict]
    cases statRemoteEq r env canonical.remotePath sibling.remotePath with
    | error msg =>
      refine iff_of_false ?_ (by simp)
      simp only
      split <;> exact nofun
    | ok x =>
      cases x with
      | equal => simp
      | different => simp
      | unknown =>
        simp only [Except.ok.injEq, reduceCtorEq, false_or, true_and]
        cases hcached : canonical.cachePath.bind files with
        | none =>
          refine iff_of_false ?_ (by simp)
          intro h
          split at h
          · rename_i heq
            obtain ⟨x, y, hx, hy, hdata⟩ := data_eq_of_remoteEqRemote heq
            exact hdiff x y hx hy hdata
          · cases h
          · cases h
        | some content =>
          simp only [Option.mem_def, Option.some.injEq, exists_eq_left']
          split <;> simp [*]
  rw [hcompare, statRemoteEq_eq_equal_iff, statRemoteEq_eq_unknown_iff, TakenForEqual]
  constructor
  · rintro (⟨x, y, hx, hy, hsize, hetag⟩ | ⟨⟨x, y, hx, hy, hsize, hetag⟩, content, hc, hlocal⟩)
    · exact ⟨x, y, hx, hy, hsize, .inl hetag⟩
    · obtain ⟨hagain, hdownload, hio, o, ho, rfl⟩ := localEqRemote_eq_true_iff.1 hlocal
      exact ⟨x, y, hx, hy, hsize, .inr ⟨hetag, hagain, hdownload, hio, o, ho, hc⟩⟩
  · rintro ⟨x, y, hx, hy, hsize, hetag | ⟨hetag, hagain, hdownload, hio, o, ho, hc⟩⟩
    · exact .inl ⟨x, y, hx, hy, hsize, hetag⟩
    · exact .inr ⟨⟨x, y, hx, hy, hsize, hetag⟩, o.data, hc,
        localEqRemote_eq_true_iff.2 ⟨hagain, hdownload, hio, o, ho, rfl⟩⟩

/-! ## What a turn removes -/

theorem remote_deleteEntry (i : Inode) : (s.deleteEntry env i).remote = s.remote := by
  rw [CleanupState.deleteEntry]
  repeat' split
  all_goals rfl

/-- A row that is there is gone after the deletion if it can go. -/
theorem getByInode_deleteEntry_iff (s : CleanupState) (env : CleanupEnv) (i : Inode) :
    (s.db.getByInode i).isSome = true ∧ (s.deleteEntry env i).db.getByInode i = none ↔
      RowGoes s env i := by
  rw [CleanupState.deleteEntry, RowGoes]
  cases env.dbFails with
  | true => simp +contextual [Option.isSome_iff_ne_none]
  | false =>
    cases hdelete : s.db.deleteEntry i with
    | none => simp +contextual [Option.isSome_iff_ne_none]
    | some db =>
      have hgone := Db.getByInode_deleteEntry hdelete i
      simp [hgone]

/-- What `delete` does to an object that is there. -/
theorem deleteOrError_spec (env : CleanupEnv) {path : Str} {o : RemoteObject}
    (ho : r.object path = some o) :
    ((deleteOrError r env path).1.object path = none ↔ ObjectGoes env) ∧
      ((deleteOrError r env path).2 = true ↔ DeleteEndsWell env) := by
  have hdelete : r.delete path = .ok (Function.update r path none) := by
    rw [Remote.object] at ho
    rw [Remote.delete]
    split at ho
    · rename_i hnode
      rw [hnode]
    · cases ho
  have herased : (Remote.object (Function.update r path none) path) = none := by
    simp [Remote.object]
  rw [deleteOrError, ObjectGoes, DeleteEndsWell]
  cases env.delete with
  | none => simp [hdelete, herased]
  | some d =>
    obtain ⟨e, gone⟩ := d
    cases gone <;> simp [herased, ho]

theorem not_removes_self : ¬Removes s t s := by
  rintro (⟨hsome, hnone⟩ | ⟨hsome, hnone⟩)
  · exact Option.isSome_iff_ne_none.1 hsome hnone
  · exact Option.isSome_iff_ne_none.1 hsome hnone

/-- What the turn of a sibling with an object takes away. -/
theorem removes_iff {c : FileEntry} {o : RemoteObject}
    (ho : s.remote.object t.sibling.remotePath = some o) :
    Removes s t (cleanupSibling dryRun files s t.env c t.sibling) ↔ dryRun = false ∧
      (cleanupVerdict files s.remote t.env c t.sibling = .orphan ∧
          RowGoes s t.env t.sibling.inode ∨
        cleanupVerdict files s.remote t.env c t.sibling = .equal ∧
          (ObjectGoes t.env ∨ DeleteEndsWell t.env ∧ RowGoes s t.env t.sibling.inode)) := by
  rw [cleanupSibling]
  cases hverdict : cleanupVerdict files s.remote t.env c t.sibling with
  | keep => simp [not_removes_self]
  | skip => simp [not_removes_self]
  | orphan =>
    cases dryRun with
    | true => simpa using not_removes_self
    | false => simp [Removes, getByInode_deleteEntry_iff, remote_deleteEntry, ho]
  | equal =>
    cases dryRun with
    | true => simpa using not_removes_self
    | false =>
      obtain ⟨hobject, hwell⟩ := deleteOrError_spec t.env ho
      cases hdelete : deleteOrError s.remote t.env t.sibling.remotePath with
      | mk remote ok =>
        rw [hdelete] at hobject hwell
        cases ok with
        | true =>
          have hends : DeleteEndsWell t.env := hwell.1 rfl
          have hrow := getByInode_deleteEntry_iff { s with remote } t.env t.sibling.inode
          have hgoes : RowGoes { s with remote } t.env t.sibling.inode ↔
              RowGoes s t.env t.sibling.inode := .rfl
          simp [Removes, hrow, hgoes, remote_deleteEntry, ho, hobject, hends, or_comm]
        | false =>
          have hends : ¬DeleteEndsWell t.env := fun h => Bool.false_ne_true (hwell.2 h)
          simp +contextual [Removes, ho, hobject, hends, Option.isSome_iff_ne_none]

/-- **When a clean-up loses nothing.** -/
theorem lossless_iff (dryRun : Bool) (files : PathBuf → Option Bytes) (mountId : ℕ)
    (s : CleanupState) (ts : List CleanupTurn) :
    Runs.Along (cleanupStep dryRun files mountId) Lossless s ts ↔
      Runs.Along (cleanupStep dryRun files mountId) (SiblingSpared dryRun files) s ts := by
  refine Runs.along_congr (fun s t s' hstep => ?_) s ts
  rw [cleanupStep] at hstep
  cases hc : t.canonical with
  | none =>
    simp only [hc] at hstep
    split at hstep
    · obtain rfl := Option.some.inj hstep
      refine iff_of_true (fun hremoves => absurd hremoves not_removes_self) fun _ _ c hmem => ?_
      rw [hc] at hmem
      cases hmem
    · cases hstep
  | some c =>
    simp only [hc] at hstep
    split at hstep
    · obtain rfl := Option.some.inj hstep
      rw [Lossless, SiblingSpared]
      by_cases hdistinct : HoldsDistinct s t
      · obtain ⟨o, ho, hdiff⟩ := hdistinct
        have hdiff' : ∀ x y, s.remote.object c.remotePath = some x →
            s.remote.object t.sibling.remotePath = some y → x.data ≠ y.data := by
          intro x y hx hy
          obtain rfl := Option.some.inj (ho.symm.trans hy)
          exact hdiff c hc x hx
        rw [removes_iff ho, cleanupVerdict_eq_orphan_iff, cleanupVerdict_eq_equal_iff hdiff']
        have hd : HoldsDistinct s t := ⟨o, ho, hdiff⟩
        simp only [hc, Option.mem_def, Option.some.injEq, forall_eq', hd, not_true, true_implies,
          imp_false, not_and, not_or]
      · exact iff_of_true (fun _ => hdistinct) fun _ h => absurd h hdistinct
    · cases hstep

/-- A file in the index and its conflict file, which alone is on the remote. -/
def siblingOnly : CleanupState where
  db := indexOf (withConflict "r.pdf".toList)
  remote := fun path =>
    if path = makeConflictName "r.pdf".toList exampleSuffix then
      some (.file ⟨[1], some ['v'], 0, none⟩)
    else none

def originalRow : FileEntry := rowOf (withConflict "r.pdf".toList) "r.pdf".toList

/-- The turn of the conflict file, with no call that fails. -/
def siblingTurn : CleanupTurn where
  sibling := rowOf (withConflict "r.pdf".toList) (makeConflictName "r.pdf".toList exampleSuffix)
  canonical := some originalRow
  env := .fine

/-- The original is missing, and the row of the conflict file goes. -/
theorem not_lossless_siblingOnly :
    collectConflictEntries siblingOnly.db 1 = [siblingTurn.sibling] ∧
      ¬Runs.Along (cleanupStep false (fun _ => none) 1) Lossless siblingOnly [siblingTurn] := by
  refine ⟨by decide +kernel, fun h => ?_⟩
  have hstep : cleanupStep false (fun _ => none) 1 siblingOnly siblingTurn =
      some (cleanupSibling false (fun _ => none) siblingOnly .fine originalRow
        siblingTurn.sibling) := by
    have hfound : originalRow ∈ findConflictSibling siblingOnly.db 1 siblingTurn.sibling := by
      decide +kernel
    simp only [cleanupStep, siblingTurn] at hfound ⊢
    exact if_pos hfound
  have hgone : Removes siblingOnly siblingTurn
      (cleanupSibling false (fun _ => none) siblingOnly .fine originalRow siblingTurn.sibling) :=
    .inl ⟨by decide +kernel, by decide +kernel⟩
  refine (h _ hstep).1 hgone ⟨⟨[1], some ['v'], 0, none⟩, by decide +kernel, ?_⟩
  rintro canonical hc o' ho'
  obtain rfl := Option.some.inj hc
  have hmissing : siblingOnly.remote.object originalRow.remotePath = none := by
    decide +kernel
  rw [hmissing] at ho'
  cases ho'

end Stratosync

import Stratosync.Conflict.Commands
import Stratosync.Conflict.LostSides

/-!
# Resolving by hand what was kept apart

After a keep-both resolution `conflicts keep-local` and `conflicts merge` are to work with the local
version, which is in the conflict file by then. They take the cache file for it, and the resolver
has put the remote version there. `usesLocal_iff`: the commands do what they are for exactly where
the two versions are the same.

`Swapping` is the invariant of the resolver's run up to its end, `Knows` that of a command's.
-/

namespace Stratosync

open Foundations.Tasks

/-- A deletion leaves the other objects. -/
theorem object_of_delete {r r' : Remote} {path q : Str} (h : r.delete path = .ok r')
    (hq : q ≠ path) : r'.object q = r.object q := by
  rw [Remote.delete] at h
  split at h
  · obtain rfl := Except.ok.inj h
    rw [Remote.object, Remote.object, Function.update_of_ne hq]
  · cases h
  · cases h

namespace ResolveCase

variable {c : ResolveCase} {h : Holdings}

/-! ## What the resolver leaves -/

variable (c) in
/-- The rows when the resolver has kept both under this name. -/
def Entered (name : Str) (db : Db) : Prop :=
  ∃ db₀ i size mtime etag, c.Recorded db₀ ∧
    db₀.insertFile (conflictRow c.entry name (c.entry.conflictPath name) size mtime etag) =
      some (i, db)

variable (c) in
/-- The remote with a conflict file of this name. -/
def WithSibling (name : Str) (r : Remote) : Prop :=
  ∃ o, r = c.start.world.remote.put (c.entry.conflictPath name) o

variable (c) in
/-- **The local and the remote version change places**: where the resolver is with that. -/
def Swapping (h : Holdings) : ResolvePc → Prop
  | .statMerged _ | .recordMerged _ _ => True
  | .statUploaded name | .fetchRemote name =>
    h.world.db = c.start.world.db ∧ c.WithSibling name h.world.remote
  | .saveRemote name data =>
    h.world.db = c.start.world.db ∧ c.WithSibling name h.world.remote ∧ data = c.remote.data
  | .statRemote name | .recordRemote name _ _ =>
    h.world.db = c.start.world.db ∧ c.WithSibling name h.world.remote ∧
      h.world.fs.files c.cachePath = some c.remote.data
  | .statSibling name _ | .insertSibling name _ _ =>
    c.Recorded h.world.db ∧ c.WithSibling name h.world.remote ∧
      h.world.fs.files c.cachePath = some c.remote.data
  | _ => h.world.db = c.start.world.db ∧ h.world.remote = c.start.world.remote

variable (c) in
/-- The versions have changed places. -/
def Swapped (h : Holdings) : Prop :=
  ∃ name, c.Entered name h.world.db ∧ c.WithSibling name h.world.remote ∧
    h.world.fs.files c.cachePath = some c.remote.data

variable (c) in
/-- What a step of the resolver has to leave. -/
def SwapLeaves : Holdings × ResolveNext → Prop
  | (h, .goto pc) => c.Swapping h pc
  | (h, .ok .keptBoth) => c.Swapped h
  | _ => True

theorem object_of_withSibling {name : Str} {r : Remote} (h : c.WithSibling name r) :
    r.object c.entry.remotePath = some c.remote := by
  obtain ⟨o, rfl⟩ := h
  rw [Remote.object_put, if_neg fun h => conflictRemotePath_ne _ _ h.symm, c.hasRemote]

theorem swapLeaves_tick {pc : ResolvePc} (hk : c.Swapping h pc) (env : ResolveEnv) :
    c.SwapLeaves (pc.tick c.tools c.entry c.cachePath h env) := by
  cases pc with
  | statMerged | recordMerged =>
    simp only [ResolvePc.tick]
    split <;> trivial
  | equalStat | equalFetch | readMerged | readSibling | equalCompare =>
    simp only [ResolvePc.tick]
    split <;> (try split) <;> first | exact hk | trivial
  | nameSibling => exact hk
  | equalRecord =>
    simp only [ResolvePc.tick]
    split
    · trivial
    · split <;> trivial
  | base =>
    simp only [ResolvePc.tick]
    split
    · trivial
    · split <;> exact hk
  | mergeFetch =>
    simp only [ResolvePc.tick]
    split <;> exact hk
  | mergeSave =>
    simp only [ResolvePc.tick]
    split
    · rename_i h' hsave
      obtain ⟨-, fs, rfl, -⟩ := Holdings.tried_save_spec hsave
      exact hk
    · exact hk
  | merge =>
    simp only [ResolvePc.tick]
    split <;> exact hk
  | writeMerged text clean =>
    obtain ⟨fs, hw, -⟩ | ⟨fs, hw, -⟩ := h.write_cases env c.cachePath text
    · simp only [ResolvePc.tick, hw]
      split <;> exact hk
    · simp only [ResolvePc.tick, hw]
      trivial
  | putMerged =>
    simp only [ResolvePc.tick]
    split <;> trivial
  | putSibling name data =>
    simp only [ResolvePc.tick]
    split
    · rename_i hup
      obtain ⟨o, -, hput⟩ := put_of_upload hup
      exact ⟨hk.1, o, hput.trans (congrArg (Remote.put · _ _) hk.2)⟩
    · trivial
  | statUploaded =>
    simp only [ResolvePc.tick]
    split
    · exact hk
    · trivial
  | fetchRemote name =>
    simp only [ResolvePc.tick, object_of_withSibling hk.2]
    split
    · rename_i ho
      exact ⟨hk.1, hk.2, congrArg RemoteObject.data (Option.some.inj ho).symm⟩
    · trivial
  | saveRemote name data =>
    obtain ⟨hdb, hr, rfl⟩ := hk
    simp only [ResolvePc.tick]
    split
    · rename_i h' hsave
      obtain ⟨-, fs, rfl, hfs⟩ := Holdings.tried_save_spec hsave
      exact ⟨hdb, hr, (hfs _).trans (if_pos rfl)⟩
    · trivial
  | statRemote =>
    simp only [ResolvePc.tick]
    split
    · trivial
    · split <;> exact hk
  | recordRemote =>
    simp only [ResolvePc.tick]
    split
    · rename_i db hdb
      obtain ⟨-, hset⟩ := tryDb_eq_some.1 hdb
      rw [hk.1] at hset
      exact ⟨⟨_, _, _, _, hset⟩, hk.2⟩
    · trivial
  | statSibling =>
    simp only [ResolvePc.tick]
    split <;> exact hk
  | insertSibling name size etag =>
    simp only [ResolvePc.tick]
    split
    · rename_i db hdb
      obtain ⟨-, hins⟩ := tryDb_eq_some.1 hdb
      obtain ⟨⟨i, db'⟩, hrow, rfl⟩ := Option.map_eq_some_iff.1 hins
      exact ⟨name, ⟨_, i, _, _, _, hk.1, hrow⟩, hk.2⟩
    · trivial

/-- After a resolution that kept both the cache file has the remote version. -/
theorem swapped_of_keptBoth {envs : List ResolveEnv}
    (h' : resolveFrom c.tools c.entry c.cachePath c.start .equalStat envs = (h, .ok .keptBoth)) :
    c.Swapped h := by
  have h₀ : c.SwapLeaves (c.start, .goto .equalStat) := ⟨rfl, rfl⟩
  have hl := runFrom_induct (fun _ _ env hk => swapLeaves_tick hk env) h₀ envs
  rw [resolveFrom] at h'
  rwa [h'] at hl

end ResolveCase

/-! ## The commands -/

/-- The step of a command comes after its upload. -/
def CommandPc.uploaded : CommandPc → Bool
  | .statUploaded | .deleteSibling | .deleteRow _
  | .statCanonical | .record _ | .storeBase _ => true
  | _ => false

/-- The command has come past its upload. -/
def uploaded : CommandNext → Bool
  | .goto pc => pc.uploaded
  | .ok _ => true
  | .err => false

/-- A conflict whose two versions were kept, and what a command then finds for its path. -/
structure KeptBoth where
  conflict : ResolveCase
  mount : Mount
  envs : List ResolveEnv
  after : Holdings
  resolved : resolveFrom conflict.tools conflict.entry conflict.cachePath conflict.start .equalStat
    envs = (after, .ok .keptBoth)
  /-- The row of the conflict file. -/
  sibling : FileEntry
  stored : after.world.db.getByInode sibling.inode = some sibling
  new : conflict.start.world.db.getByInode sibling.inode = none
  /-- The row of the canonical path. -/
  entry : FileEntry
  indexed : after.world.db.getByInode conflict.entry.inode = some entry
  /-- The conflict file the command takes for that of the entry. -/
  found : Option FileEntry
  context : ⟨entry, found⟩ ∈ resolvePath after.world.db entry.mountId entry.remotePath

namespace KeptBoth

variable (k : KeptBoth) {h : Holdings}

/-- The local bytes: those in the conflict file. -/
def localBytes : Option Bytes :=
  (k.after.world.remote.object k.sibling.remotePath).map RemoteObject.data

/-- The bytes at the canonical path. -/
def canonical (h : Holdings) : Option Bytes :=
  (h.world.remote.object k.entry.remotePath).map RemoteObject.data

/-- A run of the command comes to this. -/
def Reaches (command : Command) (h : Holdings) (next : CommandNext) : Prop :=
  ∃ p envs, command.cachePath k.mount k.entry = some p ∧
    commandFrom k.conflict.tools ⟨command, ⟨k.entry, k.found⟩, p⟩ k.after .start envs = (h, next)

/-- The canonical path holds what a conflict file of these bytes is to contribute. -/
def Contributes (command : Command) (data : Bytes) (h : Holdings) : Prop :=
  match command with
  | .merge => ∃ hash base text, k.after.getBaseHash k.entry.inode = some hash ∧
      k.after.objects hash = some base ∧
      k.conflict.tools.mergeFile data base k.conflict.remote.data = .clean text ∧
      k.canonical h = some text
  | _ => k.canonical h = some data

/-- **The commands use the local version**: from its upload on `keep-local` has the local bytes at
the canonical path, `merge` merges the base, the local bytes and the remote bytes, and neither
deletes a conflict file before the canonical path holds what it contributes. -/
structure UsesLocal : Prop where
  keepLocal : ∀ h next, k.Reaches .keepLocal h next → uploaded next = true →
    k.canonical h = k.localBytes
  merge : ∀ h hash, k.Reaches .merge h (.goto (.merge hash)) →
    k.after.getBaseHash k.entry.inode = some hash ∧
      h.objects hash = k.after.objects hash ∧
      h.world.fs.files k.conflict.cachePath = k.localBytes ∧
      h.world.fs.files (mergeRemote k.conflict.cachePath) = some k.conflict.remote.data
  deleted : ∀ command h next, command = .keepLocal ∨ command = .merge →
    k.Reaches command h next → ∀ f ∈ k.found, ∀ o,
      k.after.world.remote.object f.remotePath = some o →
        h.world.remote.object f.remotePath = none → k.Contributes command o.data h

/-- The versions that were kept are the same, and so is that in the conflict file found. -/
def Alike : Prop :=
  k.localBytes = some k.conflict.remote.data ∧ ∀ f ∈ k.found, f.inode ≠ k.entry.inode ∧
    ∀ o, k.after.world.remote.object f.remotePath = some o → o.data = k.conflict.remote.data

variable {k}

/-! ### The rows and the files before the command -/

theorem swapped : k.conflict.Swapped k.after := ResolveCase.swapped_of_keptBoth k.resolved

theorem hasRemote : k.after.world.fs.files k.conflict.cachePath = some k.conflict.remote.data := by
  obtain ⟨_, -, -, hfile⟩ := k.swapped
  exact hfile

/-- The rows of the pair. -/
theorem rows : k.entry.remotePath = k.conflict.entry.remotePath ∧
    k.entry.inode = k.conflict.entry.inode ∧
    k.entry.cachePath = some k.conflict.cachePath ∧ ∃ name,
      k.sibling.remotePath = k.conflict.entry.conflictPath name ∧
        k.conflict.WithSibling name k.after.world.remote := by
  obtain ⟨name, ⟨db, i, size, mtime, etag, ⟨n, e, m, s, hset⟩, hins⟩, hremote, -⟩ := k.swapped
  have hrows := Db.setCached_rows hset
  obtain ⟨r, -, -, hpath, -, -, -, -, -, hfresh, -, hafter⟩ := Db.insertFile_spec hins
  have hself := hrows.self
  rw [k.conflict.indexed, Option.map_some] at hself
  have hentry := k.indexed
  rw [hafter, if_neg (by rintro rfl; rw [hself] at hfresh; cases hfresh), hself,
    Option.some.injEq] at hentry
  have hsibling := k.stored
  have hnew : db.getByInode k.sibling.inode = none := by
    rw [hrows.rows, k.new]
    split <;> rfl
  rw [hafter, hnew] at hsibling
  split at hsibling
  · obtain rfl := Option.some.inj hsibling
    refine ⟨?_, ?_, ?_, name, hpath, hremote⟩ <;> rw [← hentry]
  · cases hsibling

theorem hasCanonical :
    k.after.world.remote.object k.entry.remotePath = some k.conflict.remote := by
  obtain ⟨hpath, -, -, name, -, hremote⟩ := k.rows
  rw [hpath]
  exact ResolveCase.object_of_withSibling hremote

/-- The conflict file found, where it is another row, is at another path. -/
theorem found_path_ne {f : FileEntry} (hf : f ∈ k.found) (hne : f.inode ≠ k.entry.inode) :
    f.remotePath ≠ k.entry.remotePath := by
  intro hpath
  obtain ⟨hmem, hmount⟩ := sibling_of_resolvePath k.context f hf
  have h₁ := Db.getByRemotePath_self (Db.getByInode_of_mem hmem)
  have h₂ := Db.getByRemotePath_self k.indexed
  rw [hpath, hmount, h₂] at h₁
  exact hne (congrArg FileEntry.inode (Option.some.inj h₁)).symm

/-! ### What is where when a command has come to a step -/

variable {command : Command} {next : CommandNext}

variable (k) in
/-- The command at work on the pair. -/
def run (command : Command) : CommandRun :=
  ⟨command, ⟨k.entry, k.found⟩, k.conflict.cachePath⟩

variable (k) in
/-- What a command puts at the canonical path. -/
def Makes (command : Command) (data : Bytes) : Prop :=
  match command with
  | .merge => ∃ hash base, k.after.getBaseHash k.entry.inode = some hash ∧
      k.after.objects hash = some base ∧
      k.conflict.tools.mergeFile k.conflict.remote.data base k.conflict.remote.data = .clean data
  | _ => data = k.conflict.remote.data

variable (k) in
/-- The canonical path holds what the command puts there. -/
def Put (command : Command) (h : Holdings) : Prop :=
  ∃ data, k.Makes command data ∧ k.canonical h = some data

variable (k) in
/-- The command merges with the base of this hash, and has changed nothing yet. -/
def Merging (command : Command) (hash : Option Str) (h : Holdings) : Prop :=
  command = .merge ∧ h = k.after ∧
    ∃ base ∈ hash, k.after.getBaseHash k.entry.inode = some base ∧
      (k.after.objects base).isSome = true

variable (k) in
/-- **What is where when a command has come to a step.** -/
def Knows (command : Command) (h : Holdings) : CommandPc → Prop
  | .start => h = k.after
  | .fetchRemote hash => k.Merging command hash h
  | .saveRemote hash data => k.Merging command hash h ∧ data = k.conflict.remote.data
  | .merge hash =>
    (h.world.remote = k.after.world.remote ∧ command = .merge) ∧
      k.after.getBaseHash k.entry.inode = some hash ∧ (k.after.objects hash).isSome = true ∧
      h.objects = k.after.objects ∧
      h.world.fs.files k.conflict.cachePath = some k.conflict.remote.data ∧
      h.world.fs.files (mergeRemote k.conflict.cachePath) = some k.conflict.remote.data
  | .writeMerged text clean =>
    (h.world.remote = k.after.world.remote ∧ command = .merge) ∧
      (clean = true → k.Makes .merge text)
  | .readLocal =>
    h.world.remote = k.after.world.remote ∧
      ∀ data ∈ h.world.fs.files k.conflict.cachePath, k.Makes command data
  | .putLocal data => h.world.remote = k.after.world.remote ∧ k.Makes command data
  | .statUploaded | .deleteSibling | .deleteRow _ | .statCanonical | .record _ | .storeBase _
  | .setPinned => k.Put command h

variable (k) in
/-- What a step has to leave. -/
def Leaves (command : Command) : Holdings × CommandNext → Prop
  | (h, .goto pc) => k.Knows command h pc
  | (h, _) => h.world.remote = k.after.world.remote ∨ k.Put command h

/-- A command changes nothing on the remote before it has put its result there. -/
theorem same_or_put {pc : CommandPc} (hk : k.Knows command h pc) :
    h.world.remote = k.after.world.remote ∨ k.Put command h := by
  cases pc with
  | start => exact .inl (congrArg (fun h : Holdings => h.world.remote) hk)
  | fetchRemote => exact .inl (congrArg (fun h : Holdings => h.world.remote) hk.2.1)
  | saveRemote => exact .inl (congrArg (fun h : Holdings => h.world.remote) hk.1.2.1)
  | merge | writeMerged => exact .inl hk.1.1
  | readLocal | putLocal => exact .inl hk.1
  | _ => exact .inr hk

/-- The steps that end with the upload. -/
theorem leaves_of_uploading (env : ResolveEnv) {pc : CommandPc} (hk : k.Knows command h pc)
    (hpc : pc = .readLocal ∨ ∃ data, pc = .putLocal data) :
    k.Leaves command ((k.run command).tick k.conflict.tools h env pc) := by
  obtain rfl | ⟨data, rfl⟩ := hpc
  · simp only [CommandRun.tick]
    split
    · rename_i hdata
      exact ⟨hk.1, hk.2 _ hdata⟩
    · exact .inl hk.1
  · simp only [CommandRun.tick]
    split
    · rename_i hup
      obtain ⟨o, rfl, hput⟩ := put_of_upload hup
      refine ⟨o.data, hk.2, ?_⟩
      rw [canonical, Holdings.withRemote, hput, Remote.object_put]
      exact congrArg _ (if_pos rfl)
    · exact .inl hk.1

/-- The steps after the upload. -/
theorem leaves_of_finalizing (hne : ∀ f ∈ k.found, f.inode ≠ k.entry.inode) (env : ResolveEnv)
    {pc : CommandPc} (hk : k.Put command h) (hpc : pc.uploaded = true ∨ pc = .setPinned) :
    k.Leaves command ((k.run command).tick k.conflict.tools h env pc) := by
  cases pc with
  | statUploaded | statCanonical =>
    simp only [CommandRun.tick]
    split
    · exact hk
    · exact .inr hk
  | deleteSibling =>
    simp only [CommandRun.tick]
    split
    · exact hk
    · rename_i f hf
      split
      · rename_i r' hdel
        split at hdel
        · cases hdel
        obtain ⟨data, hmade, hcanonical⟩ := hk
        refine ⟨data, hmade, ?_⟩
        rw [canonical, Holdings.withRemote,
          object_of_delete hdel fun h => found_path_ne hf (hne f hf) h.symm]
        exact hcanonical
      · exact hk
      · exact .inr hk
  | deleteRow =>
    simp only [CommandRun.tick]
    split
    · exact hk
    · exact .inr hk
  | record =>
    simp only [CommandRun.tick]
    split
    all_goals first | exact hk | exact .inr hk
  | storeBase pc =>
    obtain ⟨data, hmade, hcanonical⟩ := hk
    have hput : k.Put command (BaseTask.tick k.conflict.tools h env.toEnv
        ⟨(k.run command).entry.inode, (k.run command).cachePath, pc⟩).1 := by
      refine ⟨data, hmade, ?_⟩
      rw [canonical, BaseTask.world_tick]
      exact hcanonical
    simp only [CommandRun.tick]
    split
    · rename_i ht
      rw [ht] at hput
      exact hput
    · rename_i ht
      rw [ht] at hput
      exact .inr hput
  | setPinned =>
    simp only [CommandRun.tick]
    split
    · exact .inr hk
    · exact .inr hk
  | start | readLocal | putLocal | fetchRemote | saveRemote | merge | writeMerged =>
    obtain h | h := hpc <;> cases h

/-- The steps of a merge up to its text. -/
theorem leaves_of_merging (env : ResolveEnv) {pc : CommandPc} (hk : k.Knows command h pc)
    (hpc : (∃ hash, pc = .fetchRemote hash) ∨ (∃ hash data, pc = .saveRemote hash data) ∨
      (∃ hash, pc = .merge hash) ∨ ∃ text clean, pc = .writeMerged text clean) :
    k.Leaves command ((k.run command).tick k.conflict.tools h env pc) := by
  obtain ⟨hash, rfl⟩ | ⟨hash, data, rfl⟩ | ⟨hash, rfl⟩ | ⟨text, clean, rfl⟩ := hpc
  · obtain ⟨rfl, rfl, hbase⟩ := hk
    have hremote : k.after.world.remote.object (k.run .merge).entry.remotePath =
      some k.conflict.remote := hasCanonical
    simp only [CommandRun.tick, hremote]
    split
    · rename_i ho
      obtain rfl := Option.some.inj ho
      exact ⟨⟨rfl, rfl, hbase⟩, rfl⟩
    · exact .inl rfl
  · obtain ⟨⟨rfl, rfl, base, hbase, hget, hobject⟩, rfl⟩ := hk
    obtain rfl := Option.mem_def.1 hbase
    cases hsave : (if env.fault = true then none
      else k.after.save (k.run .merge).target k.conflict.remote.data) with
    | none =>
      simp only [CommandRun.tick, hsave]
      exact .inl rfl
    | some h' =>
      simp only [CommandRun.tick, hsave]
      obtain ⟨-, fs, rfl, hfs⟩ := Holdings.tried_save_spec hsave
      refine ⟨⟨rfl, rfl⟩, hget, hobject, rfl, ?_, (hfs _).trans (if_pos rfl)⟩
      refine (hfs _).trans ?_
      split
      · rfl
      · exact hasRemote
  · obtain ⟨⟨hremote, rfl⟩, hget, hobject, hobjects, hcache, htmp⟩ := hk
    obtain ⟨base, hbase⟩ := Option.isSome_iff_exists.1 hobject
    have hmerge : tryThreeWayMerge k.conflict.tools (h.objects hash)
        (h.world.fs.files (k.run .merge).cachePath) (h.world.fs.files (k.run .merge).target) =
          k.conflict.tools.mergeFile k.conflict.remote.data base k.conflict.remote.data := by
      rw [hobjects, hbase, show h.world.fs.files (k.run .merge).cachePath = _ from hcache,
        show h.world.fs.files (k.run .merge).target = _ from htmp]
      rfl
    simp only [CommandRun.tick, hmerge]
    split
    · rename_i text htext
      split at htext
      · cases htext
      · exact ⟨⟨hremote, rfl⟩, fun _ => ⟨hash, base, hget, hbase, htext⟩⟩
    · exact ⟨⟨hremote, rfl⟩, fun h => absurd h (by decide)⟩
    · exact .inl hremote
  · obtain ⟨⟨hremote, rfl⟩, hmade⟩ := hk
    obtain ⟨fs, hw, hfs⟩ | ⟨fs, hw, -⟩ := h.write_cases env (k.run .merge).cachePath text
    · simp only [CommandRun.tick, hw]
      cases clean with
      | false => exact .inl hremote
      | true =>
        refine ⟨hremote, fun data hdata => ?_⟩
        have hfile : (fs.removeIfPresent (some (k.run .merge).target)).files
            k.conflict.cachePath = some data := hdata
        rw [CacheFs.files_removeIfPresent_some] at hfile
        split at hfile
        · cases hfile
        · have hself : k.conflict.cachePath = (k.run .merge).cachePath := rfl
          rw [hfs, if_pos hself] at hfile
          obtain rfl := Option.some.inj hfile
          exact hmade rfl
    · simp only [CommandRun.tick, hw]
      exact .inl hremote

/-- The first step. -/
theorem leaves_of_start (hc : command = .keepLocal ∨ command = .merge) (env : ResolveEnv) :
    k.Leaves command ((k.run command).tick k.conflict.tools k.after env .start) := by
  obtain rfl | rfl := hc
  · change k.Leaves .keepLocal (k.after,
      if k.after.world.fs.exists_ k.conflict.cachePath then .goto .readLocal else .err)
    by_cases hexists : k.after.world.fs.exists_ k.conflict.cachePath = true
    · rw [if_pos hexists]
      refine ⟨rfl, fun data hdata => ?_⟩
      exact Option.some.inj (hdata.symm.trans hasRemote)
    · rw [if_neg hexists]
      exact .inl rfl
  · simp only [CommandRun.tick, CommandRun.begin_, run]
    split
    · exact .inl rfl
    · split
      · rename_i hash hhash
        obtain ⟨hget, hobject⟩ := Option.filter_eq_some_iff.1 hhash
        exact ⟨rfl, rfl, hash, rfl, hget, hobject⟩
      · exact .inl rfl

/-- **Every step of a command keeps what is known.** -/
theorem leaves_tick (hc : command = .keepLocal ∨ command = .merge)
    (hne : ∀ f ∈ k.found, f.inode ≠ k.entry.inode) (env : ResolveEnv) {pc : CommandPc}
    (hk : k.Knows command h pc) :
    k.Leaves command ((k.run command).tick k.conflict.tools h env pc) := by
  cases pc with
  | start =>
    obtain rfl : h = k.after := hk
    exact leaves_of_start hc env
  | readLocal | putLocal => exact leaves_of_uploading env hk (by simp)
  | fetchRemote | saveRemote | merge | writeMerged => exact leaves_of_merging env hk (by simp)
  | setPinned => exact leaves_of_finalizing hne env hk (.inr rfl)
  | _ => exact leaves_of_finalizing hne env hk (.inl rfl)

/-- Both commands work on the cache file of the row. -/
theorem reaches_iff (hc : command = .keepLocal ∨ command = .merge) :
    k.Reaches command h next ↔
      Foundations.Tasks.Reaches (fun h env pc => (k.run command).tick k.conflict.tools h env pc)
        k.after .start h next := by
  have hpath : command.cachePath k.mount k.entry = some k.conflict.cachePath := by
    obtain ⟨-, -, hcached, -⟩ := k.rows
    obtain rfl | rfl := hc
    · exact hcached
    · exact hcached
  constructor
  · rintro ⟨p, envs, hp, hrun⟩
    obtain rfl := Option.some.inj (hpath.symm.trans hp)
    exact ⟨envs, hrun⟩
  · rintro ⟨envs, hrun⟩
    exact ⟨_, envs, hpath, hrun⟩

theorem leaves_of_reaches (hc : command = .keepLocal ∨ command = .merge)
    (hne : ∀ f ∈ k.found, f.inode ≠ k.entry.inode) (hr : k.Reaches command h next) :
    k.Leaves command (h, next) := by
  have h₀ : k.Leaves command (k.after, .goto .start) := show k.Knows command k.after .start from rfl
  exact ((reaches_iff hc).1 hr).leaves (fun _ _ env hk => leaves_tick hc hne env hk) h₀

theorem same_or_put_of_reaches (hc : command = .keepLocal ∨ command = .merge)
    (hne : ∀ f ∈ k.found, f.inode ≠ k.entry.inode) (hr : k.Reaches command h next) :
    h.world.remote = k.after.world.remote ∨ k.Put command h := by
  have hl := leaves_of_reaches hc hne hr
  cases next with
  | goto pc => exact same_or_put hl
  | ok | err => exact hl

/-- Where the versions are the same the commands use the local one. -/
theorem usesLocal_of_alike (ha : k.Alike) : k.UsesLocal := by
  obtain ⟨hlocal, hfound⟩ := ha
  have hne : ∀ f ∈ k.found, f.inode ≠ k.entry.inode := fun f hf => (hfound f hf).1
  constructor
  · intro h next hr _
    rw [hlocal]
    obtain hsame | ⟨data, rfl, hcanonical⟩ := same_or_put_of_reaches (.inl rfl) hne hr
    · rw [canonical, hsame, hasCanonical, Option.map_some]
    · exact hcanonical
  · intro h hash hr
    obtain ⟨-, hget, -, hobjects, hcache, htmp⟩ := leaves_of_reaches (.inr rfl) hne hr
    exact ⟨hget, congrFun hobjects hash, hcache.trans hlocal.symm, htmp⟩
  · intro command h next hc hr f hf o ho hgone
    obtain hsame | ⟨data, hmade, hcanonical⟩ := same_or_put_of_reaches hc hne hr
    · rw [hsame, ho] at hgone
      cases hgone
    · have hdata := (hfound f hf).2 o ho
      obtain rfl | rfl := hc
      · exact hcanonical.trans (congrArg some (hmade.trans hdata.symm))
      · obtain ⟨hash, base, hget, hbase, hmerge⟩ := hmade
        exact ⟨hash, base, data, hget, hbase, hdata ▸ hmerge, hcanonical⟩

/-! ### Where the versions differ -/

theorem Reaches.step {pc : CommandPc} {h' : Holdings}
    (hr : k.Reaches .keepLocal h (.goto pc)) (env : ResolveEnv)
    (ht : (k.run .keepLocal).tick k.conflict.tools h env pc = (h', next)) :
    k.Reaches .keepLocal h' next :=
  (reaches_iff (.inl rfl)).2 (((reaches_iff (.inl rfl)).1 hr).step env ht)

/-- `keep-local` uploads the cache file, which has the remote version. -/
theorem reaches_statUploaded : ∃ o, o.data = k.conflict.remote.data ∧
    k.Reaches .keepLocal (k.after.withRemote (k.after.world.remote.put k.entry.remotePath o))
      (.goto .statUploaded) := by
  have hfile : k.after.world.fs.files (k.run .keepLocal).cachePath =
    some k.conflict.remote.data := hasRemote
  have hstart : k.Reaches .keepLocal k.after (.goto .start) := (reaches_iff (.inl rfl)).2 .refl
  have hread : k.Reaches .keepLocal k.after (.goto .readLocal) := by
    refine hstart.step (.fine exampleSuffix.ts) ?_
    have hexists : k.after.world.fs.exists_ (k.run .keepLocal).cachePath = true := by
      rw [CacheFs.exists_, hfile]
      rfl
    change (k.after, if k.after.world.fs.exists_ (k.run .keepLocal).cachePath then _ else _) = _
    rw [if_pos hexists]
  have hput : k.Reaches .keepLocal k.after (.goto (.putLocal k.conflict.remote.data)) := by
    refine hread.step (.fine exampleSuffix.ts) ?_
    simp only [CommandRun.tick, hfile]
    rfl
  obtain ⟨o, ho, hup⟩ := upload_none k.conflict.remote.data none 0
    (ne_dir_of_object k.hasCanonical)
  refine ⟨o, ho, hput.step (.fine exampleSuffix.ts) ?_⟩
  simp only [CommandRun.tick]
  rw [show k.after.world.remote.upload (k.run .keepLocal).entry.remotePath none
    k.conflict.remote.data (ResolveEnv.fine exampleSuffix.ts).etag
      (ResolveEnv.fine exampleSuffix.ts).mtime = _ from hup]
  rfl

/-- `keep-local` deletes the conflict file it found. -/
theorem reaches_deleteRow {f : FileEntry} (hf : f ∈ k.found) {o : RemoteObject}
    (ho : k.after.world.remote.object f.remotePath = some o) : ∃ h o',
      k.Reaches .keepLocal h (.goto (.deleteRow f.inode)) ∧ o'.data = k.conflict.remote.data ∧
        h.world.remote = Function.update (k.after.world.remote.put k.entry.remotePath o')
          f.remotePath none := by
  obtain ⟨o', ho', hup⟩ := k.reaches_statUploaded
  have hcanonical : (k.after.world.remote.put k.entry.remotePath o').object k.entry.remotePath =
      some o' := by
    rw [Remote.object_put, if_pos rfl]
  obtain ⟨md, hmd, -⟩ := stat_of_object hcanonical
  have hdelete : k.Reaches .keepLocal
      (k.after.withRemote (k.after.world.remote.put k.entry.remotePath o'))
        (.goto .deleteSibling) := by
    refine hup.step (.fine exampleSuffix.ts) ?_
    have hmd' : (k.after.withRemote
      (k.after.world.remote.put k.entry.remotePath o')).world.remote.stat
        (k.run .keepLocal).entry.remotePath = some md := hmd
    simp only [CommandRun.tick, hmd']
    rfl
  obtain ⟨o₁, ho₁⟩ : ∃ o₁, (k.after.world.remote.put k.entry.remotePath o').object f.remotePath =
      some o₁ := by
    rw [Remote.object_put]
    split
    · exact ⟨_, rfl⟩
    · exact ⟨o, ho⟩
  have hdel : (k.after.world.remote.put k.entry.remotePath o').delete f.remotePath =
      .ok (Function.update (k.after.world.remote.put k.entry.remotePath o') f.remotePath none) := by
    rw [Remote.object] at ho₁
    rw [Remote.delete]
    split at ho₁
    · rename_i ho₂
      rw [ho₂]
    · cases ho₁
  refine ⟨(k.after.withRemote (k.after.world.remote.put k.entry.remotePath o')).withRemote
    (Function.update (k.after.world.remote.put k.entry.remotePath o') f.remotePath none), o',
      hdelete.step (.fine exampleSuffix.ts) ?_, ho', rfl⟩
  have hsibling : (k.run .keepLocal).context.conflictSibling = some f := hf
  have hdel' : (k.after.withRemote
    (k.after.world.remote.put k.entry.remotePath o')).world.remote.delete f.remotePath = _ := hdel
  simp only [CommandRun.tick, hsibling]
  rw [show (ResolveEnv.fine exampleSuffix.ts).error = none from rfl]
  dsimp only
  rw [hdel']

theorem alike_of_usesLocal (hu : k.UsesLocal) : k.Alike := by
  have hlocal : k.localBytes = some k.conflict.remote.data := by
    obtain ⟨o, ho, hr⟩ := k.reaches_statUploaded
    rw [← hu.keepLocal _ _ hr rfl, canonical, Holdings.withRemote, Remote.object_put, if_pos rfl,
      Option.map_some, ho]
  refine ⟨hlocal, fun f hf => ?_⟩
  have hne : f.inode ≠ k.entry.inode := by
    intro hinode
    obtain ⟨hmem, -⟩ := sibling_of_resolvePath k.context f hf
    have hrow := Db.getByInode_of_mem hmem
    rw [hinode, Db.inode_of_getByInode k.indexed, k.indexed] at hrow
    obtain rfl := Option.some.inj hrow
    -- the canonical object itself would be deleted
    obtain ⟨h, o', hr, -, hremote⟩ := reaches_deleteRow hf k.hasCanonical
    have hgone := hu.keepLocal _ _ hr rfl
    rw [hlocal, canonical, hremote, Remote.object, Function.update_self] at hgone
    cases hgone
  refine ⟨hne, fun o ho => ?_⟩
  obtain ⟨h, o', hr, ho', hremote⟩ := reaches_deleteRow hf ho
  have hpath := found_path_ne hf hne
  have hgone : h.world.remote.object f.remotePath = none := by
    rw [hremote, Remote.object, Function.update_self]
  have hcontributes : k.canonical h = some o.data :=
    hu.deleted .keepLocal h _ (.inl rfl) hr f hf o ho hgone
  rw [canonical, hremote, Remote.object, Function.update_of_ne fun h => hpath h.symm]
    at hcontributes
  change ((k.after.world.remote.put k.entry.remotePath o').object k.entry.remotePath).map _ = _
    at hcontributes
  rw [Remote.object_put, if_pos rfl, Option.map_some, ho'] at hcontributes
  exact (Option.some.inj hcontributes).symm

/-- **The commands use the local version exactly where** it is the remote one: the cache file they
take for it has the remote version after both were kept. -/
theorem usesLocal_iff (k : KeptBoth) : k.UsesLocal ↔ k.Alike :=
  ⟨alike_of_usesLocal, usesLocal_of_alike⟩

end KeptBoth

/-! ## A conflict whose local version is not used -/

/-- The conflict over `a.txt` where merging is off. -/
def apartCase : ResolveCase :=
  { textCase with
    tools := { textTools with textConflictStrategy := .keepBoth }
    indexed := rfl, inDirectory := rfl, cached := rfl, hasLocal := rfl, hasRemote := rfl
    writable := textCase.writable }

/-- Its resolution, when nothing fails. -/
def apartRun : Holdings × ResolveNext :=
  resolveFrom apartCase.tools apartCase.entry apartCase.cachePath apartCase.start .equalStat
    (List.replicate 14 (.fine exampleSuffix.ts))

/-- The two versions of `a.txt` after that. -/
def apart : KeptBoth where
  conflict := apartCase
  mount := sampleMount
  envs := List.replicate 14 (.fine exampleSuffix.ts)
  after := apartRun.1
  resolved := Prod.ext rfl rfl
  sibling := (apartRun.1.world.db.getByInode 3).getD (rootEntry 1)
  stored := rfl
  new := rfl
  entry := (apartRun.1.world.db.getByInode 2).getD (rootEntry 1)
  indexed := rfl
  found := ((resolvePath apartRun.1.world.db 1 "a.txt".toList).head?).bind
    ResolveContext.conflictSibling
  context := List.mem_cons_self

/-- `keep-local` uploads the other client's version, and then deletes the user's. -/
theorem not_usesLocal_apart : ¬∀ k : KeptBoth, k.UsesLocal := by
  intro h
  have hremote := (KeptBoth.alike_of_usesLocal (h apart)).1
  have hlocal : apart.localBytes = some (asciiBytes "mine\n") := rfl
  exact absurd (hlocal.symm.trans hremote) (by decide)

end Stratosync

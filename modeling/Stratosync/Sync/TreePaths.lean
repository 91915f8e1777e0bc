import Stratosync.Daemon.Rows
import Stratosync.Foundations.Runs
import Stratosync.Sync.Convergence
import Stratosync.Sync.Tree

/-!
# Parents and paths along a run

Five writers give a row its parent, name and path: the handlers of `create`, `mkdir` and `rename`,
the directory listings and the upserts of the poller. None of them rewrites the rows below the one
it writes, and an upsert takes the root for a directory it does not know. `pathsAgree_of_run` says
that nothing else takes the two encodings of the tree apart.
-/

namespace Stratosync

open Foundations.Runs Foundations.Pool Db

/-! ## The condition -/

/-- The rename moves a row alone, or fails: it is refused, or its destination cannot go. -/
def renameInPlace (m : Mount) (db : Db) (parent : Inode) (name : Str) (newParent : Inode)
    (newName : Str) : Bool :=
  !validateFilename newName ||
    (db.getByParentName m.mountId parent name).all fun r =>
      (db.getByInode newParent).all fun q =>
        db.mayMove r newParent (joinRemote q.remotePath newName) ||
          (db.getByParentName m.mountId newParent newName).any fun d =>
            d.inode ≠ r.inode ∧ (db.deleteEntry d.inode).isNone

/-- The directory of a listing that has entries to write is where it was when it was loaded. -/
def Population.inPlace (db : Db) (p : Population) : Bool :=
  match p.pc with
  | .upsert (_ :: _) => (db.getByInode p.dir.inode).all fun q => q.remotePath = p.dir.remotePath
  | _ => true

/-- The upsert puts the entry in the directory its path names, and a row it finds by item id at
another path moves alone. -/
def upsertInPlace (m : Mount) (db : Db) (paths : PathToInode) (x : RemoteMetadata) : Bool :=
  let parent := resolveParent paths x.path
  db.inDirectory parent x.name x.path &&
    (x.itemId.bind (db.getByItemId m.mountId)).all fun r => db.mayMove r parent x.path

/-- The entry a full poll is about to upsert, and the inodes it knows. -/
def FullPollPc.nextUpsert : FullPollPc → Option (PathToInode × RemoteMetadata)
  | .upsert _ (x :: _) paths => some (paths, x)
  | _ => none

/-- The entry the poller is about to upsert, and the inodes it knows. -/
def PollerPc.nextUpsert (m : Mount) : PollerPc → Option (PathToInode × RemoteMetadata)
  | .full pc | .delta (.full _ pc) => pc.nextUpsert
  | .delta (.apply active (c :: _) paths _) =>
    (c.metadata.filter fun x => admitted m active x).map fun x => (paths, x)
  | _ => none

/-- The step writes rows where their paths say and moves none that has rows in it. -/
def keepsTree (m : Mount) (s : Site) : SiteEvent → Bool
  | .daemon (.request (.rename p n p' n')) => renameInPlace m s.world.db p n p' n'
  | .population k env => env.fault || s.populations[k]?.all (Population.inPlace s.world.db)
  | .poll env =>
    env.fault || (s.poller.bind (PollerPc.nextUpsert m)).all fun u =>
      upsertInPlace m s.world.db u.1 u.2
  | _ => true

/-! ## The invariant -/

/-- Inodes that were given out. -/
def PathToInode.Within (paths : PathToInode) (seq : ℕ) : Prop :=
  ∀ path i, paths path = some i → i ≤ seq

/-- The inodes a full poll knows. -/
def FullPollPc.paths : FullPollPc → PathToInode
  | .generation _ snap | .tombstones _ snap _ => fun path => (snap path).map RemoteSnapshot.inode
  | .upsert _ _ paths => paths
  | _ => fun _ => none

/-- The inodes the poller knows. -/
def PollerPc.paths : PollerPc → PathToInode
  | .full pc | .delta (.full _ pc) => pc.paths
  | .delta (.apply _ _ paths _) | .delta (.removeFile _ _ _ paths _) => paths
  | _ => fun _ => none

/-- The entries of a listing are joined to the path of its directory. -/
def Population.Joined (p : Population) : Prop :=
  ∀ rest, p.pc = .upsert rest → ∀ chunk ∈ rest, ∀ e ∈ chunk,
    e.remotePath = joinRemote p.dir.remotePath e.name

/-- What the steps keep. -/
structure TreeInv (s : Site) : Prop where
  tree : TreeOk s.world.db
  root : fuseRootInode ≤ s.world.db.seq
  joined : ∀ p ∈ s.populations, p.Joined
  dirs : ∀ p ∈ s.populations, p.dir.inode ≤ s.world.db.seq
  paths : ∀ pc, s.poller = some pc → pc.paths.Within s.world.db.seq

variable {m : Mount} {w w' : World} {s s' : Site}

/-! ## The daemon -/

/-- A rename is the only step of the daemon that changes the place of a row. -/
theorem samePlace_of_rowStep {ev : Event} {i : Inode} {r r' : FileEntry}
    (h : RowStep m w ev i r (some r')) (hpoll : ∀ op, ev ≠ .poll op)
    (hrename : ∀ p n p' n', ev ≠ .request (.rename p n p' n')) : SamePlace r r' := by
  cases h with
  | renamed => exact absurd rfl (hrename _ _ _ _)
  | refreshed | dropped => exact absurd rfl (hpoll _)
  | _ => exact ⟨rfl, rfl, rfl⟩

theorem inDirectory_join {db : Db} {p : Inode} {q : FileEntry} (n : Str)
    (hq : db.getByInode p = some q) : db.inDirectory p n (joinRemote q.remotePath n) = true := by
  simp [inDirectory, hq]

theorem treeStep_handleCreate (hb : InodesBounded w) (p : Inode) (n : Str) :
    TreeStep w.db (handleCreate m w p n).2.db := by
  simp only [handleCreate, World.allocFh]
  repeat' split
  any_goals exact TreeStep.refl w.db
  rename_i h
  refine treeStep_of_insertFile ?_ ?_ h
  · exact inDirectory_join n ‹_›
  · exact hb p _ ‹_›

theorem treeStep_handleMkdir (hb : InodesBounded w) (p : Inode) (n : Str) :
    TreeStep w.db (handleMkdir m w p n).2.db := by
  simp only [handleMkdir]
  repeat' split
  any_goals exact TreeStep.refl w.db
  rename_i h
  refine treeStep_of_insertFile ?_ ?_ h
  · exact inDirectory_join n ‹_›
  · exact hb p _ ‹_›

/-- A rename fails when the row at its destination is another one that stays. -/
theorem renameEntry_eq_none {db : Db} {p : Inode} {n path : Str} {cp : Option PathBuf}
    {r d : FileEntry} (hd : db.getByParentName m.mountId p n = some d)
    (hr : db.getByInode r.inode = some r) (hm : r.mountId = m.mountId) (hne : d.inode ≠ r.inode) :
    db.renameEntry r.inode p n path cp = none := by
  by_contra hsome
  obtain ⟨db', h⟩ := Option.ne_none_iff_exists'.1 hsome
  have hmap := renameEntry_rows h
  obtain ⟨hdi, hdm, hdp, hdn⟩ := getByParentName_spec hd
  have hself := hmap.self
  rw [hr, Option.map_some] at hself
  have hother := (hmap.of_ne hne).trans hdi
  -- both would have the name in the directory
  have heq := Foundations.Table.eq_of_unique
    (P := fun a b : FileEntry =>
      a.mountId = b.mountId ∧ a.parent.isSome ∧ a.parent = b.parent ∧ a.name = b.name)
    (fun h => ⟨h.1.symm, h.2.2.1 ▸ h.2.1, h.2.2.1.symm, h.2.2.2.symm⟩)
    db'.fileIndex.ok.nameUnique (mem_rows_of_getByInode hother) (mem_rows_of_getByInode hself)
    ⟨hdm.trans hm.symm, by rw [hdp]; rfl, hdp, hdn⟩
  exact hne (by rw [heq])

theorem treeStep_dropDestination {db : Db} {p : Inode} {n : Str} :
    TreeStep db (dropDestination db m.mountId p n).1 := by
  rw [dropDestination]
  split
  · exact .refl db
  · rename_i d _
    cases h : db.deleteEntry d.inode with
    | none => exact .refl db
    | some db' => exact treeStep_of_deleteRows h

theorem treeStep_handleRename {p : Inode} {n : Str} {p' : Inode} {n' : Str}
    (hplace : renameInPlace m w.db p n p' n' = true) :
    TreeStep w.db (handleRename m w p n p' n').2.db := by
  simp only [handleRename]
  split
  · exact .refl w.db
  rename_i hvalid
  split
  · exact .refl w.db
  rename_i r hr
  split
  · exact .refl w.db
  rename_i q hq
  split
  · exact treeStep_dropDestination
  rename_i db h
  obtain ⟨hri, hrm, -⟩ := getByParentName_spec hr
  have hmove : w.db.mayMove r p' (joinRemote q.remotePath n') = true := by
    have hvalid : validateFilename n' = true := by simpa using hvalid
    rw [renameInPlace, hvalid, hr, Option.all_some, hq, Option.all_some, Bool.not_true,
      Bool.false_or, Bool.or_eq_true] at hplace
    refine hplace.resolve_right fun hd => ?_
    obtain ⟨d, hd, hdr⟩ := Option.any_eq_true .. |>.1 hd
    rw [decide_eq_true_eq, Option.isNone_iff_eq_none] at hdr
    have hdrop : (dropDestination w.db m.mountId p' n').1 = w.db := by
      simp [dropDestination, hd, hdr.2]
    rw [hdrop, renameEntry_eq_none hd hri hrm hdr.1] at h
    cases h
  have hmap := renameEntry_rows h
  have hback : ∀ j x, (dropDestination w.db m.mountId p' n').1.getByInode j = some x →
      w.db.getByInode j = some x := by
    intro j x hx
    rcases getByInode_dropDestination _ _ p' n' j with hj | ⟨_, _, _, hj⟩
    · exact hj ▸ hx
    · rw [hj] at hx
      cases hx
  have hstep : TreeStep w.db db := by
    cases hself : db.getByInode r.inode with
    | some r' =>
      have hrow := hmap.self
      rw [hself] at hrow
      obtain ⟨r₀, hr₀, rfl⟩ := Option.map_eq_some_iff.1 hrow.symm
      obtain rfl := Option.some.inj ((hback _ _ hr₀).symm.trans hri)
      refine treeStep_of_put (inDirectory_join n' hq) hmove
        (hmap.seq.trans seq_dropDestination).ge hri hself rfl rfl rfl fun j x hj hx => ?_
      rw [hmap.of_ne hj] at hx
      exact hback j x hx
    | none =>
      -- the destination was the row itself
      refine treeStep_of_samePlace (hmap.seq.trans seq_dropDestination).ge fun j x hx => ?_
      have hj : j ≠ r.inode := by
        rintro rfl
        rw [hself] at hx
        cases hx
      rw [hmap.of_ne hj] at hx
      exact ⟨x, hback j x hx, .refl x⟩
  split
  · exact hstep.trans_same ⟨rfl, fun _ => rfl⟩
  · exact hstep

/-- A step of the daemon keeps the tree. -/
theorem treeStep_of_step {ev : Event} (hb : InodesBounded w) (h : step m w ev = some w')
    (hpoll : ∀ op, ev ≠ .poll op)
    (hplace : ∀ p n p' n', ev = .request (.rename p n p' n') →
      renameInPlace m w.db p n p' n' = true) : TreeStep w.db w'.db := by
  -- the steps that add no row and move none
  have hsame : (∀ p n p' n', ev ≠ .request (.rename p n p' n')) →
      (∀ p n, ev ≠ .request (.create p n)) → (∀ p n, ev ≠ .request (.mkdir p n)) →
      TreeStep w.db w'.db := by
    intro hrename hcreate hmkdir
    refine treeStep_of_samePlace (seq_le_of_step h) fun i r' hr' => ?_
    rcases row_inv_of_step h hr' with ⟨r, hr, hstep⟩ | ⟨hnew, -⟩
    · exact ⟨r, hr, samePlace_of_rowStep hstep hpoll hrename⟩
    · cases hnew with
      | created => exact absurd rfl (hcreate _ _)
      | made => exact absurd rfl (hmkdir _ _)
      | listed => exact absurd rfl (hpoll _)
  cases ev with
  | request r =>
    cases r with
    | rename p n p' n' =>
      rw [(step_request h).2]
      exact treeStep_handleRename (hplace p n p' n' rfl)
    | create p n =>
      rw [(step_request h).2]
      exact treeStep_handleCreate hb p n
    | mkdir p n =>
      rw [(step_request h).2]
      exact treeStep_handleMkdir hb p n
    | _ => exact hsame (fun _ _ _ _ => (nomatch ·)) (fun _ _ => (nomatch ·)) fun _ _ => (nomatch ·)
  | poll op => exact absurd rfl (hpoll op)
  | _ => exact hsame (fun _ _ _ _ => (nomatch ·)) (fun _ _ => (nomatch ·)) fun _ _ => (nomatch ·)

/-! ## The directory listings -/

theorem joined_listedEntries {tombstones : List Str} {dir : FileEntry}
    {children : List RemoteMetadata} {chunk : List ListedEntry} {e : ListedEntry}
    (hchunk : chunk ∈ chunks 1000 (listedEntries tombstones dir children)) (he : e ∈ chunk) :
    e.remotePath = joinRemote dir.remotePath e.name := by
  have hmem := List.mem_flatten_of_mem hchunk he
  rw [flatten_chunks] at hmem
  obtain ⟨c, -, rfl⟩ := List.mem_map.1 hmem
  rfl

/-- A call of a listing keeps the tree, when the directory is where the listing was taken. -/
theorem treeOk_of_populationStep {p : Population} {fault : Bool}
    {listing : Except SyncError (List RemoteMetadata)} {next : Option PopulationPc}
    {started : List Population} (h : PopulationStep m w fault listing p w' next started)
    (hok : TreeOk w.db) (hjoined : p.Joined) (hdir : p.dir.inode ≤ w.db.seq)
    (hplace : fault = false → p.inPlace w.db = true) :
    TreeOk w'.db ∧ w.db.seq ≤ w'.db.seq := by
  cases h with
  | @upserted chunk rest db hpc hf h =>
    refine treeOk_of_upsertChunk (fun e he => ?_) hdir hok h
    have hpath := hjoined _ hpc chunk List.mem_cons_self e he
    cases chunk with
    | nil => cases he
    | cons a chunk =>
      have hat := hplace hf
      rw [Population.inPlace, hpc] at hat
      rw [inDirectory, hpath]
      cases hq : w.db.getByInode p.dir.inode with
      | none => rfl
      | some q =>
        have hq : q.remotePath = p.dir.remotePath := by simpa [hq] using hat
        simp [hq]
  | marked _ h =>
    have hs := treeStep_of_rowMapped (markDirListed_rows h) fun r => ⟨rfl, rfl, rfl⟩
    exact ⟨hs.treeOk hok, hs.seq⟩
  | _ => exact ⟨hok, le_rfl⟩

theorem joined_of_populationStep {p : Population} {fault : Bool}
    {listing : Except SyncError (List RemoteMetadata)} {next : Option PopulationPc}
    {started : List Population} (h : PopulationStep m w fault listing p w' next started)
    (hjoined : p.Joined) :
    (∀ pc, next = some pc → ({ p with pc } : Population).Joined) ∧ ∀ q ∈ started, q.Joined := by
  have hnone : ∀ q ∈ ([] : List Population), q.Joined := fun _ => (nomatch ·)
  cases h with
  | prefetched | filtered =>
    refine ⟨?_, hnone⟩
    rintro _ ⟨⟩ rest hrest chunk hchunk e he
    obtain rfl := PopulationPc.upsert.inj hrest
    exact joined_listedEntries hchunk he
  | upserted hpc =>
    refine ⟨?_, hnone⟩
    rintro _ ⟨⟩ rest hrest chunk hchunk e he
    obtain rfl := PopulationPc.upsert.inj hrest
    exact hjoined _ hpc chunk (List.mem_cons_of_mem _ hchunk) e he
  | marked =>
    refine ⟨?_, hnone⟩
    intro pc hpc rest hrest
    split at hpc
    · obtain rfl := Option.some.inj hpc
      cases hrest
    · cases hpc
  | lookedAhead =>
    refine ⟨fun _ => (nomatch ·), fun q hq rest hrest => ?_⟩
    obtain ⟨r, -, rfl⟩ := List.mem_map.1 hq
    cases hrest
  | stop => exact ⟨fun _ => (nomatch ·), hnone⟩
  | _ =>
    refine ⟨?_, hnone⟩
    rintro _ ⟨⟩ rest hrest
    cases hrest

theorem dirs_of_populationStep {p : Population} {fault : Bool}
    {listing : Except SyncError (List RemoteMetadata)} {next : Option PopulationPc}
    {started : List Population} (h : PopulationStep m w fault listing p w' next started)
    (hok : TreeOk w.db) : ∀ q ∈ started, q.dir.inode ≤ w.db.seq := by
  cases h with
  | lookedAhead =>
    intro q hq
    obtain ⟨r, hr, rfl⟩ := List.mem_map.1 hq
    have hr := (mem_listChildren.1 (List.mem_filter.1 hr).1).1
    exact hok.bounded _ _ (getByInode_of_mem hr)
  | _ => exact fun _ => (nomatch ·)

/-! ## The poller -/

/-- The inodes of a snapshot were given out. -/
theorem within_snapshot {db : Db} {mountId : ℕ} (hok : TreeOk db) :
    PathToInode.Within
      (fun path => (db.snapshotRemoteIndex mountId path).map RemoteSnapshot.inode) db.seq := by
  intro path i hi
  obtain ⟨x, hx, rfl⟩ := Option.map_eq_some_iff.1 hi
  obtain ⟨r, hr, rfl⟩ := Option.map_eq_some_iff.1 hx
  exact hok.bounded _ _ (getByRemotePath_spec hr).1

theorem PathToInode.Within.update {paths : PathToInode} {seq seq' : ℕ} (h : paths.Within seq)
    (hle : seq ≤ seq') (path : Str) {i : Inode} (hi : i ≤ seq') :
    PathToInode.Within (Function.update paths path (some i)) seq' := by
  intro p j hj
  by_cases hp : p = path
  · subst hp
    rw [Function.update_self] at hj
    exact Option.some.inj hj ▸ hi
  · rw [Function.update_of_ne hp] at hj
    exact (h p j hj).trans hle

theorem resolveParent_le {paths : PathToInode} {seq : ℕ} (h : paths.Within seq)
    (hroot : fuseRootInode ≤ seq) (path : Str) : resolveParent paths path ≤ seq := by
  rw [resolveParent]
  split
  · rename_i p _
    cases hi : paths p with
    | none => exact hroot
    | some i => exact h p i hi
  · exact hroot

/-- An upsert in place keeps the tree. -/
theorem treeStep_of_upsertEntry {db db' : Db} {paths : PathToInode} {g : ℕ} {x : RemoteMetadata}
    {o : Option Inode} (hplace : upsertInPlace m db paths x = true) (hpaths : paths.Within db.seq)
    (hroot : fuseRootInode ≤ db.seq) (h : upsertEntry m paths g db x = (o, db')) :
    TreeStep db db' := by
  obtain ⟨hat, hmove⟩ := Bool.and_eq_true_iff.1 hplace
  refine treeStep_of_upsert hat (resolveParent_le hpaths hroot x.path) (fun r hr => ?_) h
  rw [hr, Option.all_some] at hmove
  exact hmove

theorem inode_le_of_upsertEntry {db db' : Db} {paths : PathToInode} {g : ℕ} {x : RemoteMetadata}
    {i : Inode} (hok : TreeOk db') (h : upsertEntry m paths g db x = (some i, db')) :
    i ≤ db'.seq := by
  obtain ⟨r, hr, -⟩ := (upsert_outcome h).written
  exact hok.bounded i r hr

/-- A call of a full poll keeps the tree, when its upsert is in place. -/
theorem treeStep_of_fullStep {env : PollEnv} {pc : FullPollPc} {n : PollNext FullPollPc}
    (h : FullPollStep m s env pc s' n) (hroot : fuseRootInode ≤ s.world.db.seq)
    (hpaths : pc.paths.Within s.world.db.seq)
    (hplace : env.fault = false →
      pc.nextUpsert.all (fun u => upsertInPlace m s.world.db u.1 u.2) = true) :
    TreeStep s.world.db s'.world.db := by
  cases h with
  | upserted hf h =>
    rw [Site.dropHeader_db, Site.withDb_db]
    exact treeStep_of_upsertEntry (hplace hf) hpaths hroot h
  | upsertRefused hf h =>
    rw [Site.withDb_db]
    exact treeStep_of_upsertEntry (hplace hf) hpaths hroot h
  | marked h => exact treeStep_of_markGeneration h
  | @swept job deleted db _ h =>
    rw [foldl_dropHeader_db, Site.withDb_db]
    have hs := treeStep_of_deleteStaleEntries s.world.db m.mountId job.generation
    rwa [h] at hs
  | @sweepRefused job db _ h =>
    have hs := treeStep_of_deleteStaleEntries s.world.db m.mountId job.generation
    rwa [h] at hs
  | fileRemoved => exact (Site.removeFile_db ..).symm ▸ .refl s.world.db
  | cleaned h => exact treeStep_of_cleaned h
  | finished h =>
    rcases h with rfl | h
    · exact .refl s.world.db
    · exact treeStep_of_batchMarkDirsListed h
  | _ => exact .refl s.world.db

theorem within_of_fullStep {env : PollEnv} {pc pc' : FullPollPc}
    (h : FullPollStep m s env pc s' (.goto pc')) (hok : TreeOk s.world.db)
    (hstep : TreeStep s.world.db s'.world.db) (hpaths : pc.paths.Within s.world.db.seq) :
    pc'.paths.Within s'.world.db.seq := by
  cases h with
  | snapshot => exact within_snapshot hok
  | generation | filtered => exact hpaths
  | @upserted job x todo paths i db _ h =>
    exact hpaths.update hstep.seq x.path (inode_le_of_upsertEntry (hstep.treeOk hok) h)
  | _ => exact fun _ _ => (nomatch ·)

/-- A round of a delta poll keeps the tree, when its upsert is in place. -/
theorem treeStep_of_applyChange {db db' : Db} {active : List Str} {paths : PathToInode}
    {c : RemoteChange} {o : Option Applied} (h : applyChange m active db paths c = (o, db'))
    (hroot : fuseRootInode ≤ db.seq) (hpaths : paths.Within db.seq)
    (hplace : ∀ x, c.metadata = some x → admitted m active x = true →
      upsertInPlace m db paths x = true) : TreeStep db db' := by
  cases hx : c.metadata with
  | some x =>
    rw [applyChange_of_metadata hx] at h
    split at h
    · rename_i ha
      split at h <;> rename_i hu <;> obtain ⟨-, rfl⟩ := Prod.mk.inj h <;>
        exact treeStep_of_upsertEntry (hplace x hx ha) hpaths hroot hu
    · obtain ⟨-, rfl⟩ := Prod.mk.inj h
      exact .refl db
  | none =>
    cases c with
    | added | modified => cases hx
    | deleted path itemId =>
      rw [applyChange] at h
      split at h
      · rename_i hd
        obtain ⟨-, rfl⟩ := Prod.mk.inj h
        exact treeStep_of_deleteChanged hd
      · obtain ⟨-, rfl⟩ := Prod.mk.inj h
        exact .refl db

theorem within_of_applyChange {db db' : Db} {active : List Str} {paths : PathToInode}
    {c : RemoteChange} {a : Applied} (h : applyChange m active db paths c = (some a, db'))
    (hok : TreeOk db') (hle : db.seq ≤ db'.seq) (hpaths : paths.Within db.seq) :
    a.paths.Within db'.seq := by
  have hsame : a.paths = paths → a.paths.Within db'.seq := by
    rintro he path i hi
    exact (hpaths path i (he ▸ hi)).trans hle
  cases hx : c.metadata with
  | some x =>
    rw [applyChange_of_metadata hx] at h
    split at h
    · split at h
      · rename_i i d hu
        obtain ⟨ha, rfl⟩ := Prod.mk.inj h
        obtain rfl := Option.some.inj ha
        exact hpaths.update hle x.path (inode_le_of_upsertEntry hok hu)
      · cases (Prod.mk.inj h).1
    · exact hsame (congrArg Applied.paths (Option.some.inj (Prod.mk.inj h).1)).symm
  | none =>
    cases c with
    | added | modified => cases hx
    | deleted path itemId =>
      rw [applyChange] at h
      split at h
      · exact hsame (congrArg Applied.paths (Option.some.inj (Prod.mk.inj h).1)).symm
      · cases (Prod.mk.inj h).1

theorem dropTouched_db (touched : Option Inode) (db : Db) :
    (touched.elim (s.withDb db) (s.withDb db).dropHeader).world.db = db := by
  cases touched <;> rfl

/-- A call of a delta poll keeps the tree, when its upsert is in place. -/
theorem treeStep_of_deltaStep {env : PollEnv} {pc : DeltaPollPc} {n : PollNext DeltaPollPc}
    (h : DeltaPollStep m s env pc s' n) (hroot : fuseRootInode ≤ s.world.db.seq)
    (hpaths : (PollerPc.delta pc).paths.Within s.world.db.seq)
    (hplace : env.fault = false → ((PollerPc.delta pc).nextUpsert m).all
      (fun u => upsertInPlace m s.world.db u.1 u.2) = true) :
    TreeStep s.world.db s'.world.db := by
  have happly : ∀ {active : List Str} {c : RemoteChange} {todo : List RemoteChange}
      {paths : PathToInode} {next : Str} {o : Option Applied} {db : Db},
      pc = .apply active (c :: todo) paths next →
      (env.fault = true → c.skipped m active = true) →
      applyChange m active s.world.db paths c = (o, db) → TreeStep s.world.db db := by
    rintro active c todo paths next o db rfl hskip h
    refine treeStep_of_applyChange h hroot hpaths fun x hx ha => ?_
    have hfault : env.fault = false := by
      rw [Bool.eq_false_iff]
      intro hf
      simpa [RemoteChange.skipped, hx, ha] using hskip hf
    have hup := hplace hfault
    rw [PollerPc.nextUpsert, hx, Option.filter_some, if_pos ha] at hup
    exact hup
  cases h with
  | full h | fullDone h | fallbackFailed h => exact treeStep_of_fullStep h hroot hpaths hplace
  | applied hskip h =>
    rw [dropTouched_db]
    exact happly rfl hskip h
  | applyRefused hskip h => exact happly rfl hskip h
  | fileRemoved => exact (Site.removeFile_db ..).symm ▸ .refl s.world.db
  | cleaned h => exact treeStep_of_cleaned h
  | _ => exact .refl s.world.db

theorem within_of_deltaStep {env : PollEnv} {pc pc' : DeltaPollPc}
    (h : DeltaPollStep m s env pc s' (.goto pc')) (hok : TreeOk s.world.db)
    (hstep : TreeStep s.world.db s'.world.db)
    (hpaths : (PollerPc.delta pc).paths.Within s.world.db.seq) :
    (PollerPc.delta pc').paths.Within s'.world.db.seq := by
  generalize hn : PollNext.goto pc' = n at h
  cases h with
  | full h =>
    obtain rfl := PollNext.goto.inj hn
    exact within_of_fullStep h hok hstep hpaths
  | snapshot =>
    obtain rfl := PollNext.goto.inj hn
    exact within_snapshot hok
  | @applied active c todo paths next a db _ h =>
    obtain rfl := PollNext.goto.inj hn
    rw [dropTouched_db] at hstep ⊢
    have ha := within_of_applyChange h (hstep.treeOk hok) hstep.seq hpaths
    cases hd : a.dropped <;> exact ha
  | @fileRemoved p active todo paths next =>
    obtain rfl := PollNext.goto.inj hn
    rw [Site.removeFile_db]
    exact hpaths
  | stored =>
    split at hn
    · obtain rfl := PollNext.goto.inj hn
      exact fun _ _ => (nomatch ·)
    · cases hn
  | fail | fallbackFailed | startFailed | startStored | storeStartFailed | applyRefused | cleaned =>
    cases hn
  | _ =>
    obtain rfl := PollNext.goto.inj hn
    exact fun _ _ => (nomatch ·)

/-! ## The site -/

theorem treeInv_init (m : Mount) (now : ℕ) : TreeInv (Site.init m now) where
  tree := by
    have hroot : ∀ i r, (Site.init m now).world.db.getByInode i = some r →
        i = fuseRootInode := by
      intro i r hr
      obtain rfl : r = rootEntry m.mountId := List.mem_singleton.1 (mem_rows_of_getByInode hr)
      exact (inode_of_getByInode hr).symm
    exact ⟨fun i r hr hi => absurd (hroot i r hr) hi, fun i r hr => (hroot i r hr).le⟩
  root := le_rfl
  joined := fun _ => (nomatch ·)
  dirs := fun _ => (nomatch ·)
  paths := fun _ => (nomatch ·)

/-- What is left of the invariant when the poller and the listings stay as they were. -/
theorem TreeInv.of_treeStep (hinv : TreeInv s) (hs : TreeStep s.world.db s'.world.db)
    (hpoller : ∀ pc, s'.poller = some pc → pc.paths.Within s'.world.db.seq)
    (hpop : s'.populations = s.populations) : TreeInv s' where
  tree := hs.treeOk hinv.tree
  root := hinv.root.trans hs.seq
  joined := hpop ▸ hinv.joined
  dirs p hp := (hinv.dirs p (hpop ▸ hp)).trans hs.seq
  paths := hpoller

theorem TreeInv.within {seq : ℕ} (hinv : TreeInv s) (hle : s.world.db.seq ≤ seq) (pc : PollerPc)
    (hpc : s.poller = some pc) : pc.paths.Within seq :=
  fun path i hi => (hinv.paths pc hpc path i hi).trans hle

theorem treeInv_of_pollerStep {useDelta : Bool} {env : PollEnv} (hinv : TreeInv s)
    (hkeeps : keepsTree m s (.poll env) = true) (h : pollerStep m useDelta s env = s') :
    TreeInv s' := by
  have hplace : ∀ pc, s.poller = some pc → env.fault = false →
      (pc.nextUpsert m).all (fun u => upsertInPlace m s.world.db u.1 u.2) = true := by
    intro pc hpc hf
    rw [keepsTree, hf, hpc] at hkeeps
    exact hkeeps
  cases pollerStep_cases h with
  | wakes =>
    refine hinv.of_treeStep (.refl s.world.db) ?_ rfl
    rintro _ ⟨⟩
    cases useDelta <;> exact fun _ _ => (nomatch ·)
  | full hp hstep =>
    have htree := treeStep_of_fullStep hstep hinv.root (hinv.paths _ hp) (hplace _ hp)
    have hpop := populations_of_fullStep hstep
    refine hinv.of_treeStep htree (fun pc hpc => ?_) hpop
    obtain ⟨pc', rfl, rfl⟩ := PollNext.pc_eq_some.1 hpc
    have hwithin := within_of_fullStep hstep hinv.tree htree (hinv.paths _ hp)
    exact hwithin
  | delta hp hstep =>
    have htree := treeStep_of_deltaStep hstep hinv.root (hinv.paths _ hp) (hplace _ hp)
    have hpop := populations_of_deltaStep hstep
    refine hinv.of_treeStep htree (fun pc hpc => ?_) hpop
    obtain ⟨pc', rfl, rfl⟩ := PollNext.pc_eq_some.1 hpc
    have hwithin := within_of_deltaStep hstep hinv.tree htree (hinv.paths _ hp)
    exact hwithin

/-- **A step that keeps the tree.** -/
theorem treeInv_of_step {useDelta : Bool} {ev : SiteEvent} (hinv : TreeInv s)
    (hkeeps : keepsTree m s ev = true) (h : siteStep m useDelta s ev = some s') : TreeInv s' := by
  cases siteStep_cases h with
  | @daemon ev w hpoll hkernel hw =>
    have hs : TreeStep s.world.db w.db := by
      refine treeStep_of_step hinv.tree.bounded hw hpoll ?_
      rintro p n p' n' rfl
      exact hkeeps
    exact hinv.of_treeStep hs (hinv.within hs.seq) rfl
  | poll env => exact treeInv_of_pollerStep hinv hkeeps rfl
  | @populate i r _ _ hr _ =>
    refine ⟨hinv.tree, hinv.root, ?_, ?_, hinv.paths⟩
    · refine forall_append hinv.joined ?_
      rintro p hp
      obtain rfl := List.mem_singleton.1 hp
      exact fun _ => (nomatch ·)
    · refine forall_append hinv.dirs ?_
      rintro p hp
      obtain rfl := List.mem_singleton.1 hp
      exact hinv.tree.bounded _ _ ((inode_of_getByInode hr).symm ▸ hr)
  | @population k env p w next started hp ht =>
    have hmem := mem_of_getElem? hp
    have hstep := ht ▸ populationStep_tick m s.world env.fault env.listing p
    obtain ⟨htree, hseq⟩ := treeOk_of_populationStep hstep hinv.tree (hinv.joined p hmem)
      (hinv.dirs p hmem) fun hf => by simpa [keepsTree, hf, hp] using hkeeps
    obtain ⟨hnext, hstarted⟩ := joined_of_populationStep hstep (hinv.joined p hmem)
    have hdirs := dirs_of_populationStep hstep hinv.tree
    refine ⟨htree, hinv.root.trans hseq, ?_, ?_, hinv.within hseq⟩
    · refine forall_append (forall_advance hinv.joined fun q hq => ?_) hstarted
      obtain ⟨pc, hpc, rfl⟩ := Option.map_eq_some_iff.1 hq
      exact hnext pc hpc
    · refine forall_append (forall_advance (fun q hq => (hinv.dirs q hq).trans hseq) fun q hq => ?_)
        fun q hq => (hdirs q hq).trans hseq
      obtain ⟨pc, -, rfl⟩ := Option.map_eq_some_iff.1 hq
      exact (hinv.dirs p hmem).trans hseq

/-- **The parents and the paths agree** in every state a run reaches whose steps write rows where
their paths say and move none that has rows in it. -/
theorem pathsAgree_of_run (m : Mount) (useDelta : Bool) (now : ℕ) (evs : List SiteEvent) (s : Site)
    (hkeeps : Guarded (siteStep m useDelta) (fun s ev => keepsTree m s ev = true)
      (Site.init m now) evs)
    (hrun : run (siteStep m useDelta) (Site.init m now) evs = some s) : s.world.db.PathsAgree :=
  (inv_of_run (fun _ _ _ hi hg h => treeInv_of_step hi hg h) (treeInv_init m now) hkeeps
    hrun).tree.agree

/-- A directory `d` with a file `d/x`. -/
def nestedFile : List SiteEvent :=
  [.daemon (.request (.mkdir fuseRootInode ['d'])), .daemon (.request (.create 2 ['x']))]

/-- The file is renamed, and a full poll lists a directory and a file in it. -/
def nestedRuns : List SiteEvent :=
  nestedFile ++ .daemon (.request (.rename 2 ['x'] 2 ['y'])) ::
    List.replicate 7 (.poll (.ofListing
      [{ listedFile ['e', '/', 'f'] with name := ['f'] }, { listedFile ['e'] with isDir := true }]))

theorem pathsAgree_of_nestedRuns :
    ∃ s, run (siteStep sampleMount false) (Site.init sampleMount 0) nestedRuns = some s ∧
      s.world.db.PathsAgree :=
  ⟨_, rfl, pathsAgree_of_run sampleMount false 0 nestedRuns _ (by decide) rfl⟩

/-- The file of a renamed directory stays at its old path. -/
theorem not_pathsAgree_of_rename :
    ¬∀ (m : Mount) (useDelta : Bool) (now : ℕ) (evs : List SiteEvent) (s : Site),
      run (siteStep m useDelta) (Site.init m now) evs = some s → s.world.db.PathsAgree := by
  intro h
  obtain ⟨s, hrun, q, r, hq, hr, hrow⟩ : ∃ s,
      run (siteStep sampleMount false) (Site.init sampleMount 0)
        (nestedFile ++ [.daemon (.request (.rename fuseRootInode ['d'] fuseRootInode ['e']))]) =
          some s ∧
      ∃ q r, s.world.db.getByInode 2 = some q ∧ s.world.db.getByInode 3 = some r ∧
        (q.remotePath, r.parent, r.name, r.remotePath) =
          (['e'], some 2, ['x'], ['d', '/', 'x']) := ⟨_, rfl, _, _, rfl, rfl, rfl⟩
  simp only [Prod.mk.injEq] at hrow
  obtain ⟨hqp, hparent, hname, hpath⟩ := hrow
  obtain ⟨p, q', hp, hq', hjoin⟩ := h _ _ _ _ s hrun 3 r hr (by decide) (by rw [hpath]; decide)
  obtain rfl := Option.some.inj (hparent.symm.trans hp)
  obtain rfl := Option.some.inj (hq.symm.trans hq')
  rw [hpath, hname, hqp] at hjoin
  exact absurd hjoin (by decide)

end Stratosync

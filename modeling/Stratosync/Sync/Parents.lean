import Stratosync.State.Accepts
import Stratosync.Sync.Identity
import Stratosync.Sync.Poller

/-!
# The directory an entry is put under

A poll looks the parent of an entry up in a map from paths to inodes: the rows of its snapshot, and
the rows it has written since. What the map does not have goes under the root. A full poll writes
shorter paths first; a delta poll takes the changes as they come, and a directory may come after
its children, or leave its old path behind in the map when it is renamed.

`parentsFound_iff` says for which batches every entry is nevertheless under the row of its parent
path, and for which listings an entry below an ignored directory is not put somewhere else.
-/

namespace Stratosync

open Foundations.Runs

/-! ## Parent paths -/

theorem prefix_of_parent {path p : Str} (h : parentPath path = some p) :
    (p ++ ['/']) <+: path := by
  unfold parentPath at h
  split at h
  · rename_i hslash
    obtain rfl := Option.some.inj h
    have hne : path.rdropWhile (· ≠ '/') ≠ [] := by
      rw [Ne, List.rdropWhile_eq_nil_iff]
      intro hall
      exact absurd (hall '/' (List.contains_iff_mem.1 hslash)) (by decide)
    have hlast : (path.rdropWhile (· ≠ '/')).getLast hne = '/' := by
      simpa using List.rdropWhile_last_not (fun c : Char => decide (c ≠ '/')) path hne
    have hsplit := List.dropLast_append_getLast hne
    rw [hlast] at hsplit
    rw [hsplit]
    exact List.rdropWhile_prefix _ path
  · cases h

theorem parentPath_ne {path : Str} : parentPath path ≠ some path := by
  intro h
  have hlen := (prefix_of_parent h).length_le
  rw [List.length_append, List.length_singleton] at hlen
  omega

/-- What a tombstone on the parent path covers, it covers as well. -/
theorem tombstoned_of_parent {tombstones : List Str} {path p : Str} (h : parentPath path = some p)
    (ht : tombstoned tombstones p = true) : tombstoned tombstones path = true := by
  rw [tombstoned, List.any_eq_true] at ht ⊢
  obtain ⟨t, htm, hat⟩ := ht
  have hbelow : atOrBelow p path = true := atOrBelow_iff.2 (.inr (prefix_of_parent h))
  exact ⟨t, htm, atOrBelow_trans hat hbelow⟩

/-! ## What an upsert leaves at the paths -/

namespace Db

/-- The inode an upsert writes: that of the row it finds, or a new one. -/
def upsertedInode (db : Db) (m : Mount) (x : RemoteMetadata) : Inode :=
  (((x.itemId.bind (db.getByItemId m.mountId)).or (db.getByRemotePath m.mountId x.path)).map
    FileEntry.inode).getD db.nextInode

namespace UpsertOutcome

variable {db db' : Db} {mountId : ℕ} {x : Refresh} {itemId : Option Str} {i : Inode}

/-- The row at another path stays there, unless the upsert moved it away. -/
theorem getByRemotePath_of_ne (h : UpsertOutcome db mountId x itemId db' i) {path : Str}
    (hp : path ≠ x.remotePath) : db'.getByRemotePath mountId path =
      (db.getByRemotePath mountId path).filter fun q => q.inode ≠ i := by
  obtain ⟨w, hwi, -, hwp, -⟩ := h.written
  ext r
  rw [Option.filter_eq_some_iff, getByRemotePath_eq_some, getByRemotePath_eq_some,
    decide_eq_true_eq]
  constructor
  · rintro ⟨hr, hm, hrp⟩
    have hne : r.inode ≠ i := by
      intro hri
      obtain rfl := Option.some.inj (hwi.symm.trans (hri ▸ hr))
      exact hp (hrp.symm.trans hwp)
    exact ⟨⟨h.other hne hr, hm, hrp⟩, hne⟩
  · rintro ⟨⟨hr, hm, hrp⟩, hne⟩
    exact ⟨h.keeps hne hr fun _ he => hp (hrp.symm.trans he), hm, hrp⟩

theorem inode_eq {m : Mount} {y : RemoteMetadata} {parent : Inode} {g : ℕ}
    (h : UpsertOutcome db m.mountId (y.toRefresh parent g) y.itemId db' i) :
    i = db.upsertedInode m y := by
  rw [upsertedInode]
  cases h with
  | inserted hid hpath =>
    have hpath : db.getByRemotePath m.mountId y.path = none := hpath
    rw [hid, hpath]
    rfl
  | refreshed hid hpath =>
    have hpath : db.getByRemotePath m.mountId y.path = some _ := hpath
    rw [hid, hpath]
    rfl
  | moved hid =>
    rw [hid]
    rfl

end UpsertOutcome

end Db

/-! ## A delta batch of additions -/

/-- One addition of a delta batch. -/
def addStep (m : Mount) (tombstones : List Str) (s : Db × PathToInode) (x : RemoteMetadata) :
    Option (Db × PathToInode) :=
  changeStep m tombstones s (.added x)

/-- The history of a batch: the entries it has applied. -/
def noteApplied (m : Mount) (tombstones : List Str) (_ : Db × PathToInode) (x : RemoteMetadata)
    (_ : Db × PathToInode) (applied : List RemoteMetadata) : List RemoteMetadata :=
  if admitted m tombstones x then x :: applied else applied

abbrev appliedStep (m : Mount) (tombstones : List Str) :
    (Db × PathToInode) × List RemoteMetadata → RemoteMetadata →
      Option ((Db × PathToInode) × List RemoteMetadata) :=
  withHistory (addStep m tombstones) (noteApplied m tombstones)

/-- **Every entry applied is under the row of its parent path**, when there is one. -/
def ParentsFound (m : Mount) (s : (Db × PathToInode) × List RemoteMetadata) : Prop :=
  ∀ x ∈ s.2, ∀ p ∈ parentPath x.path, ∀ q ∈ s.1.1.getByRemotePath m.mountId p,
    ∀ r ∈ s.1.1.getByRemotePath m.mountId x.path, r.parent = some q.inode

/-- The parent of an addition is known, and no entry applied before waits for its row. -/
structure ParentKnown (m : Mount) (s : (Db × PathToInode) × List RemoteMetadata)
    (x : RemoteMetadata) : Prop where
  /-- The row of the parent path is the one the map has, unless it is the row that moves. -/
  own : ∀ p ∈ parentPath x.path, ∀ q ∈ s.1.1.getByRemotePath m.mountId p,
    q.inode ≠ s.1.1.upsertedInode m x → resolveParent s.1.2 x.path = q.inode
  /-- The entries applied before that have this path as their parent are under its row. -/
  waiting : ∀ y ∈ s.2, parentPath y.path = some x.path →
    ∀ r ∈ s.1.1.getByRemotePath m.mountId y.path, r.inode ≠ s.1.1.upsertedInode m x →
      r.parent = some (s.1.1.upsertedInode m x)

variable {m : Mount} {tombstones : List Str}

theorem addStep_eq_some {s s' : Db × PathToInode} {x : RemoteMetadata}
    (hadm : admitted m tombstones x = true) (h : addStep m tombstones s x = some s') :
    Db.UpsertOutcome s.1 m.mountId (x.toRefresh (resolveParent s.2 x.path) 0) x.itemId s'.1
      (s.1.upsertedInode m x) := by
  obtain ⟨db, paths⟩ := s
  rw [addStep, changeStep, applyChange, if_pos hadm] at h
  cases hcall : upsertEntry m paths 0 db x with
  | mk o db' =>
    rw [hcall] at h
    cases o with
    | none => cases h
    | some i =>
      obtain rfl := Option.some.inj h
      rw [upsertEntry] at hcall
      have hout := Db.upsert_outcome hcall
      exact hout.inode_eq ▸ hout

/-- One addition keeps the entries under their parents exactly when its parent is known and none
of them waits for it. -/
theorem parentsFound_iff_of_step {s s' : (Db × PathToInode) × List RemoteMetadata}
    {x : RemoteMetadata} (hs : ParentsFound m s) (h : appliedStep m tombstones s x = some s') :
    ParentsFound m s' ↔ (admitted m tombstones x = true → ParentKnown m s x) := by
  obtain ⟨⟨db, paths⟩, applied⟩ := s
  obtain ⟨⟨db', paths'⟩, applied'⟩ := s'
  obtain ⟨hstep, hnote⟩ := withHistory_eq_some.1 h
  dsimp only at hstep hnote
  rw [noteApplied] at hnote
  by_cases hadm : admitted m tombstones x = true
  · rw [if_pos hadm] at hnote
    subst hnote
    have hout := addStep_eq_some hadm hstep
    dsimp only at hout
    obtain ⟨w, hwi, hwm, hwp, hwparent, -⟩ := hout.written
    have hwinode := Db.inode_of_getByInode hwi
    have hw : db'.getByRemotePath m.mountId x.path = some w :=
      Db.getByRemotePath_eq_some.2 ⟨by rwa [hwinode], hwm, hwp⟩
    have hne : ∀ {path : Str}, path ≠ x.path → db'.getByRemotePath m.mountId path =
        (db.getByRemotePath m.mountId path).filter fun q => q.inode ≠ db.upsertedInode m x :=
      hout.getByRemotePath_of_ne
    simp only [hadm, forall_const]
    constructor
    · intro hfound
      refine ⟨fun p hp q hq hqi => ?_, fun y hy hyp r hr hri => ?_⟩
      · have hpx : p ≠ x.path := fun he => parentPath_ne (he ▸ Option.mem_def.1 hp)
        have hq' : db'.getByRemotePath m.mountId p = some q := by
          rw [hne hpx, Option.mem_def.1 hq]
          simp [hqi]
        have := hfound x List.mem_cons_self p hp q hq' w hw
        rw [hwparent] at this
        exact Option.some.inj this
      · have hyx : y.path ≠ x.path := fun he => parentPath_ne (he ▸ hyp)
        have hr' : db'.getByRemotePath m.mountId y.path = some r := by
          rw [hne hyx, Option.mem_def.1 hr]
          simp [hri]
        have := hfound y (List.mem_cons_of_mem _ hy) x.path hyp w hw r hr'
        rwa [hwinode] at this
    · intro hknown y hy p hp q hq r hr
      have hyparent : parentPath y.path = some p := hp
      by_cases hyx : y.path = x.path
      · -- the entry itself, or an earlier one at its path
        obtain rfl := Option.some.inj (hw.symm.trans (hyx ▸ hr))
        have hpx : p ≠ x.path := fun he => parentPath_ne (he ▸ hyx ▸ hyparent)
        rw [Option.mem_def, hne hpx, Option.filter_eq_some_iff, decide_eq_true_eq] at hq
        rw [hwparent]
        exact congrArg some (hknown.own p (hyx ▸ hp) q hq.1 hq.2)
      · have hy : y ∈ applied := by
          rcases List.mem_cons.1 hy with rfl | hy
          · exact absurd rfl hyx
          · exact hy
        rw [Option.mem_def, hne hyx, Option.filter_eq_some_iff, decide_eq_true_eq] at hr
        by_cases hpx : p = x.path
        · subst hpx
          obtain rfl := Option.some.inj (hw.symm.trans hq)
          rw [hwinode]
          exact hknown.waiting y hy hyparent r hr.1 hr.2
        · rw [Option.mem_def, hne hpx, Option.filter_eq_some_iff] at hq
          exact hs y hy p hp q hq.1 r hr.1
  · rw [if_neg hadm] at hnote
    subst hnote
    rw [addStep, changeStep, applyChange, if_neg hadm] at hstep
    obtain ⟨rfl, rfl⟩ := Prod.mk.inj (Option.some.inj hstep)
    simp only [hadm, Bool.false_eq_true, false_implies, iff_true]
    exact hs

/-! ## The upserts of a full poll -/

/-- One upsert of a full poll. -/
def pollUpsertStep (m : Mount) (generation : ℕ) :
    Db × PathToInode → RemoteMetadata → Option (Db × PathToInode)
  | (db, paths), x =>
    match upsertEntry m paths generation db x with
    | (some i, db') => some (db', Function.update paths x.path (some i))
    | (none, _) => none

/-- **The entry is not under an unrelated directory**: where the poll leaves its parent path out,
it is under the row the parent path had. -/
def OwnDirectory (m : Mount) (tombstones : List Str) (snap : Snapshot) (x : RemoteMetadata)
    (db : Db) : Prop :=
  ∀ p ∈ parentPath x.path, (m.ignore p = true ∨ tombstoned tombstones p = true) →
    ∀ r ∈ db.getByRemotePath m.mountId x.path, r.parent = (snap p).map RemoteSnapshot.inode

/-- An ignored parent directory has a row. -/
def DirectoryIndexed (m : Mount) (snap : Snapshot) (x : RemoteMetadata) : Prop :=
  ∀ p ∈ parentPath x.path, m.ignore p = true → (snap p).isSome = true

instance (m : Mount) (snap : Snapshot) (x : RemoteMetadata) :
    Decidable (DirectoryIndexed m snap x) :=
  inferInstanceAs (Decidable (∀ p ∈ parentPath x.path, _ → _))

/-- The paths that are left out have the row they had, as long as the poll lasts. -/
def KeepsExcluded (m : Mount) (tombstones : List Str) (snap : Snapshot) (s : Db × PathToInode) :
    Prop :=
  ∀ p, (m.ignore p = true ∨ tombstoned tombstones p = true) →
    s.2 p = (snap p).map RemoteSnapshot.inode

theorem verdict_upsert {snap : Snapshot} {x : RemoteMetadata}
    (h : verdict m tombstones snap x = .upsert) :
    m.ignore x.path = false ∧ tombstoned tombstones x.path = false := by
  unfold verdict at h
  split at h
  · cases h
  split at h
  · cases h
  split at h
  · cases h
  rename_i htomb
  split at h
  · split at h <;> cases h
  rename_i hignore
  exact ⟨by simpa using hignore, by simpa using htomb⟩

theorem pollUpsertStep_eq_some {generation : ℕ} {db : Db} {paths : PathToInode}
    {s' : Db × PathToInode} {x : RemoteMetadata}
    (h : pollUpsertStep m generation (db, paths) x = some s') :
    ∃ i db', upsertEntry m paths generation db x = (some i, db') ∧
      s' = (db', Function.update paths x.path (some i)) := by
  rw [pollUpsertStep] at h
  split at h
  · rename_i i db' hcall
    exact ⟨i, db', hcall, (Option.some.inj h).symm⟩
  · cases h

theorem pollUpsert_of_step {generation : ℕ} {snap : Snapshot} {s s' : Db × PathToInode}
    {x : RemoteMetadata} (hx : verdict m tombstones snap x = .upsert)
    (hs : KeepsExcluded m tombstones snap s) (h : pollUpsertStep m generation s x = some s') :
    KeepsExcluded m tombstones snap s' ∧
      (OwnDirectory m tombstones snap x s'.1 ↔ DirectoryIndexed m snap x) := by
  obtain ⟨db, paths⟩ := s
  obtain ⟨hignore, htomb⟩ := verdict_upsert hx
  obtain ⟨i, db', hcall, rfl⟩ := pollUpsertStep_eq_some h
  rw [upsertEntry] at hcall
  obtain ⟨w, hwi, hwm, hwp, hwparent, -⟩ := (Db.upsert_outcome hcall).written
  have hw : db'.getByRemotePath m.mountId x.path = some w :=
    Db.getByRemotePath_eq_some.2 ⟨by rwa [Db.inode_of_getByInode hwi], hwm, hwp⟩
  refine ⟨fun p hp => ?_, ?_⟩
  · have hpx : p ≠ x.path := by
      rintro rfl
      rcases hp with hp | hp
      · rw [hignore] at hp
        cases hp
      · rw [htomb] at hp
        cases hp
    dsimp only
    rw [Function.update_of_ne hpx]
    exact hs p hp
  have hparent : ∀ p ∈ parentPath x.path, m.ignore p = true →
      w.parent = some (((snap p).map RemoteSnapshot.inode).getD fuseRootInode) := by
    intro p hp hip
    have hpath : paths p = (snap p).map RemoteSnapshot.inode := hs p (.inl hip)
    have hp : parentPath x.path = some p := hp
    rw [hwparent, RemoteMetadata.toRefresh]
    dsimp only
    rw [resolveParent, hp]
    dsimp only
    rw [hpath]
  constructor
  · intro hown p hp hip
    have hat := hown p hp (.inl hip) w hw
    rw [hparent p hp hip] at hat
    rw [← Option.isSome_map (f := RemoteSnapshot.inode), ← hat]
    rfl
  · intro hindexed p hp hexcl r hr
    obtain rfl := Option.some.inj (hw.symm.trans hr)
    have hip : m.ignore p = true := by
      rcases hexcl with hip | hpt
      · exact hip
      · rw [tombstoned_of_parent hp hpt] at htomb
        cases htomb
    rw [hparent p hp hip]
    obtain ⟨q, hq⟩ := Option.isSome_iff_exists.1 (hindexed p hp hip)
    rw [hq]
    rfl

theorem ownDirectory_iff {generation : ℕ} {snap : Snapshot} {s : Db × PathToInode}
{xs : List RemoteMetadata} (hxs : ∀ x ∈ xs, verdict m tombstones snap x = .upsert)
(hs : KeepsExcluded m tombstones snap s) :
Along (pollUpsertStep m generation) (fun _ x s' => OwnDirectory m tombstones snap x s'.1)
    s xs ↔
  Along (pollUpsertStep m generation) (fun _ x _ => DirectoryIndexed m snap x) s xs := by
  induction xs generalizing s with
  | nil => exact .rfl
  | cons x xs ih =>
refine forall₂_congr fun s' hs' => ?_
obtain ⟨hkeeps, hiff⟩ := pollUpsert_of_step (hxs x List.mem_cons_self) hs hs'
exact and_congr hiff (ih (fun y hy => hxs y (List.mem_cons_of_mem _ hy)) hkeeps)

/-- The upserts of a full poll, in a poll that runs alone. -/
theorem tick_of_pollUpsertStep {s : Site} {env : PollEnv} {job : FullPoll} {x : RemoteMetadata}
    {todo : List RemoteMetadata} {paths : PathToInode} {s' : Db × PathToInode}
    (hfault : env.fault = false)
    (h : pollUpsertStep m job.generation (s.world.db, paths) x = some s') :
    ∃ i, FullPollPc.tick m s env (.upsert job (x :: todo) paths) =
      ((s.withDb s'.1).dropHeader i, .goto (.upsert job todo s'.2)) := by
  obtain ⟨i, db', hcall, rfl⟩ := pollUpsertStep_eq_some h
  refine ⟨i, ?_⟩
  simp only [FullPollPc.tick, hfault, Bool.false_eq_true, if_false, hcall]

/-! ## Both kinds of poll -/

/-- **When the parents are found.** In a delta batch of additions, from any index and in any order:
exactly when each addition finds its parent in the map, if there is a row for it, and no entry
applied before it waits for its row. In a full poll of any listing: exactly when each entry it
writes below an ignored directory finds that directory indexed. -/
theorem parentsFound_iff (m : Mount) (tombstones : List Str) (s : Db × PathToInode)
    (batch : List RemoteMetadata) (db : Db) (snap : Snapshot) (generation : ℕ)
    (listing : List RemoteMetadata) :
    (Along (appliedStep m tombstones) (fun _ _ s' => ParentsFound m s') (s, []) batch ↔
      Along (appliedStep m tombstones)
        (fun s x _ => admitted m tombstones x = true → ParentKnown m s x) (s, []) batch) ∧
    (Along (pollUpsertStep m generation) (fun _ x s' => OwnDirectory m tombstones snap x s'.1)
        (db, fun path => (snap path).map RemoteSnapshot.inode)
        (toUpsert m tombstones snap listing) ↔
      Along (pollUpsertStep m generation) (fun _ x _ => DirectoryIndexed m snap x)
        (db, fun path => (snap path).map RemoteSnapshot.inode)
        (toUpsert m tombstones snap listing)) := by
  constructor
  · refine @along_congr_of_inv _ _ (appliedStep m tombstones) (ParentsFound m) _ _
      (fun _ _ _ hs h => parentsFound_iff_of_step hs h) (fun _ _ _ _ _ h => h) _ batch ?_
    exact fun x hx => absurd hx List.not_mem_nil
  · refine ownDirectory_iff (fun x hx => ?_) fun _ _ => rfl
    rw [toUpsert, List.mem_insertionSort, List.mem_filter, decide_eq_true_eq] at hx
    exact hx.2

/-- The directory `d` and the file in it, the file first. -/
def childFirst : List RemoteMetadata :=
  [{ path := "d/a".toList, name := ['a'], size := 1, mtime := 0, isDir := false, etag := none
     itemId := none },
    { path := ['d'], name := ['d'], size := 0, mtime := 0, isDir := true, etag := none
      itemId := none }]

/-- The file is under the root, and stays there when its directory comes. -/
theorem not_parentsFound_childFirst :
    ¬∀ (m : Mount) (tombstones : List Str) (db : Db) (batch : List RemoteMetadata),
      Along (appliedStep m tombstones) (fun _ _ s' => ParentsFound m s')
        ((db, fun path => (db.snapshotRemoteIndex m.mountId path).map RemoteSnapshot.inode), [])
        batch := by
  intro h
  have hall := h sampleMount [] (Db.empty 1 0) childFirst
  obtain ⟨s₁, s₂, h₁, h₂, hrows⟩ : ∃ s₁ s₂,
      appliedStep sampleMount [] ((Db.empty 1 0, fun path =>
        ((Db.empty 1 0).snapshotRemoteIndex 1 path).map RemoteSnapshot.inode), [])
          childFirst[0] = some s₁ ∧
      appliedStep sampleMount [] s₁ childFirst[1] = some s₂ ∧
      ((s₂.1.1.getByRemotePath 1 ['d']).map FileEntry.inode,
        (s₂.1.1.getByRemotePath 1 "d/a".toList).map FileEntry.parent,
        s₂.2.map RemoteMetadata.path) = (some 3, some (some 1), [['d'], "d/a".toList]) :=
    ⟨_, _, rfl, rfl, rfl⟩
  have hfound := ((hall s₁ h₁).2 s₂ h₂).1
  obtain ⟨hq, hrest⟩ := Prod.mk.inj hrows
  obtain ⟨hr, hpaths⟩ := Prod.mk.inj hrest
  obtain ⟨q, hq, hqi⟩ := Option.map_eq_some_iff.1 hq
  obtain ⟨r, hr, hrp⟩ := Option.map_eq_some_iff.1 hr
  obtain ⟨x, hx, hxp⟩ : ∃ x ∈ s₂.2, x.path = "d/a".toList := by
    rw [← List.mem_map, hpaths]
    decide
  have hparent : parentPath x.path = some ['d'] := by
    rw [hxp]
    decide
  have := hfound x hx ['d'] hparent q hq r (hxp ▸ hr)
  rw [hrp, hqi] at this
  exact absurd this (by decide)

end Stratosync

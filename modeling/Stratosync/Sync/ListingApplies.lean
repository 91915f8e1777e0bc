import Stratosync.State.Accepts
import Stratosync.Sync.TreePaths

/-!
# Listings that can be applied

The database refuses an upsert of a full poll when the entry's directory has no row, when another
row has its name there, when the row at its path cannot go, or when it would leave a local edit
without its file. While the parents and the paths of the rows agree, a row with the name is the
row at the path; `upsertsAccepted_of_run` says what else has to hold.
-/

namespace Stratosync

open Foundations.Runs Db

/-- What a full poll is about to upsert: its job, the inodes it knows and the entry. -/
def FullPollPc.nextListed : FullPollPc → Option (FullPoll × PathToInode × RemoteMetadata)
  | .upsert job (x :: _) paths => some (job, paths, x)
  | _ => none

def PollerPc.nextListed : PollerPc → Option (FullPoll × PathToInode × RemoteMetadata)
  | .full pc | .delta (.full _ pc) => pc.nextListed
  | _ => none

/-- **The database accepts the upsert of a full poll**, if the step makes one. -/
def UpsertAccepted (m : Mount) (s : Site) (ev : SiteEvent) : Prop :=
  ∀ env job paths x, ev = .poll env → env.fault = false →
    s.poller.bind PollerPc.nextListed = some (job, paths, x) →
      (upsertEntry m paths job.generation s.world.db x).1.isSome = true

/-- The entry's directory has a row; a row with its name there, other than the one the upsert
writes, is neither the root nor in the conflict namespace; a row that is replaced can go; and no
local edit without a file becomes a file. -/
def upsertFits (m : Mount) (db : Db) (paths : PathToInode) (x : RemoteMetadata) : Bool :=
  let parent := resolveParent paths x.path
  let byId := x.itemId.bind (db.getByItemId m.mountId)
  let target := byId.or (db.getByRemotePath m.mountId x.path)
  (db.getByInode parent).isSome &&
    (db.getByParentName m.mountId parent x.name).all (fun q =>
      target.any (fun t => t.inode = q.inode) ||
        q.inode ≠ fuseRootInode && !inConflictNamespace q.remotePath) &&
    byId.all (fun r => r.remotePath = x.path ||
      (db.getByRemotePath m.mountId x.path).all fun d =>
        (db.deleteEntry d.inode).isSome && d.inode ≠ parent) &&
    target.all fun t => x.isDir || !t.status.isUnsynced || t.cachePath.isSome

/-- The upsert of a full poll fits. -/
def listingFits (m : Mount) (s : Site) : SiteEvent → Bool
  | .poll env =>
    env.fault || (s.poller.bind PollerPc.nextListed).all fun u =>
      upsertFits m s.world.db u.2.1 u.2.2
  | _ => true

variable {m : Mount}

theorem nextUpsert_of_nextListed {pc : PollerPc} {job : FullPoll} {paths : PathToInode}
    {x : RemoteMetadata} (h : pc.nextListed = some (job, paths, x)) :
    pc.nextUpsert m = some (paths, x) := by
  have hfull : ∀ pc : FullPollPc, pc.nextListed = some (job, paths, x) →
      pc.nextUpsert = some (paths, x) := by
    intro pc h
    cases pc with
    | upsert job' todo paths' =>
      cases todo with
      | nil => cases h
      | cons y todo =>
        have heq : (job', paths', y) = (job, paths, x) := Option.some.inj h
        simp only [Prod.mk.injEq] at heq
        obtain ⟨-, rfl, rfl⟩ := heq
        rfl
    | _ => cases h
  cases pc with
  | full pc => exact hfull pc h
  | delta pc =>
    cases pc with
    | full initial pc => exact hfull pc h
    | _ => cases h

/-- In a tree whose parents and paths agree, an upsert that is in place and fits is accepted. -/
theorem upsertEntry_isSome {db : Db} {paths : PathToInode} {g : ℕ} {x : RemoteMetadata}
    (hagree : db.PathsAgree) (hplace : upsertInPlace m db paths x = true)
    (hfits : upsertFits m db paths x = true) :
    (upsertEntry m paths g db x).1.isSome = true := by
  obtain ⟨hat, -⟩ := Bool.and_eq_true_iff.1 hplace
  simp only [upsertFits, Bool.and_eq_true] at hfits
  obtain ⟨⟨⟨hparent, hname⟩, hclear⟩, hcache⟩ := hfits
  refine upsert_isSome ⟨hparent, ?_, ?_, ?_⟩
  · intro c hc hm hp hn
    have hci := getByInode_of_mem hc
    have hfound := getByParentName_self hci hp
    have hm : c.mountId = m.mountId := hm
    have hn : c.name = x.name := hn
    rw [hm, hn] at hfound
    have hp : c.parent = some (resolveParent paths x.path) := hp
    have hc := hname
    rw [show db.getByParentName m.mountId (resolveParent paths x.path) x.name = some c from hfound,
      Option.all_some, Bool.or_eq_true] at hc
    rcases hc with htarget | hc
    · obtain ⟨t, ht, hti⟩ := Option.any_eq_true .. |>.1 htarget
      exact .inr ⟨t, ht, by simpa using hti⟩
    · -- its path is the one its directory and its name give, and so is the entry's
      simp only [ne_eq, decide_not, Bool.and_eq_true, Bool.not_eq_eq_eq_not, Bool.not_true,
        decide_eq_false_iff_not] at hc
      obtain ⟨p, q, hcp, hq, hjoin⟩ := hagree c.inode c hci hc.1 hc.2
      obtain rfl := Option.some.inj (hp.symm.trans hcp)
      rw [inDirectory, hq, Option.all_some, decide_eq_true_eq] at hat
      exact .inl (by rw [hjoin, hn, hat]; rfl)
  · intro r hr hne d hd
    have hr : x.itemId.bind (db.getByItemId m.mountId) = some r := hr
    have hne : r.remotePath ≠ x.path := hne
    have hd : db.getByRemotePath m.mountId x.path = some d := hd
    have hd : (db.deleteEntry d.inode).isSome = true ∧ d.inode ≠ resolveParent paths x.path := by
      simpa [hr, hne, hd] using hclear
    exact hd
  · intro t ht hk hs
    have ht : (x.itemId.bind (db.getByItemId m.mountId)).or (db.getByRemotePath m.mountId x.path) =
        some t := ht
    have hdir : x.isDir = false := by
      have hk : x.kind = .file := hk
      cases hx : x.isDir with
      | false => rfl
      | true => simp [RemoteMetadata.kind, hx] at hk
    simpa [ht, hdir, hs] using hcache

/-- **Every upsert of a full poll is accepted**, in every run whose steps keep the tree and whose
listed entries fit. -/
theorem upsertsAccepted_of_run (m : Mount) (useDelta : Bool) (now : ℕ) (evs : List SiteEvent)
    (hkeeps : Guarded (siteStep m useDelta)
      (fun s ev => keepsTree m s ev = true ∧ listingFits m s ev = true) (Site.init m now) evs) :
    Along (siteStep m useDelta) (fun s ev _ => UpsertAccepted m s ev) (Site.init m now) evs := by
  refine along_of_guarded (fun _ _ _ hi hg h => treeInv_of_step hi hg.1 h)
    (fun s ev _ hi hg _ => ?_) (treeInv_init m now) hkeeps
  rintro env job paths x rfl hf hnext
  obtain ⟨hplace, hfits⟩ := hg
  obtain ⟨pc, hpc, hpcnext⟩ := Option.bind_eq_some_iff.1 hnext
  rw [keepsTree, hf, hpc, Option.bind_some, nextUpsert_of_nextListed hpcnext] at hplace
  rw [listingFits, hf, hnext] at hfits
  exact upsertEntry_isSome hi.tree.agree hplace hfits

/-- Every directory an entry is in is listed, and a name is the last part of its path. -/
def WellFormedListing (listing : List RemoteMetadata) : Prop :=
  (listing.map RemoteMetadata.path).Nodup ∧
    ∀ x ∈ listing, match parentPath x.path with
      | some p => x.path = joinRemote p x.name ∧ ∃ y ∈ listing, y.path = p ∧ y.isDir = true
      | none => x.path = x.name

/-- A directory `e` with a file `e/x`. -/
def nestedListing : List RemoteMetadata :=
  [{ listedFile ['e'] with isDir := true }, { listedFile ['e', '/', 'x'] with name := ['x'] }]

/-- The poll finds the directory and the file, and writes them. -/
def nestedPoll : List SiteEvent :=
  List.replicate 7 (.poll (.ofListing nestedListing))

theorem upsertsAccepted_of_nestedPoll :
    Along (siteStep sampleMount false) (fun s ev _ => UpsertAccepted sampleMount s ev)
      (Site.init sampleMount 0)
      (nestedPoll ++ [.daemon (.request (.rename 2 ['x'] 2 ['y']))]) :=
  upsertsAccepted_of_run sampleMount false 0 _ (by decide)

theorem wellFormed_nestedListing : WellFormedListing nestedListing := by
  refine ⟨by decide, ?_⟩
  intro x hx
  rcases List.mem_cons.1 hx with rfl | hx
  · exact rfl
  · obtain rfl := List.mem_singleton.1 hx
    exact ⟨rfl, _, List.mem_cons_self, rfl, rfl⟩

/-- The file of a renamed directory keeps its old path; the listing of the new one cannot be
applied, for its name is taken. -/
theorem not_upsertsAccepted_of_rename :
    ¬∀ (m : Mount) (now : ℕ) (before polls : List SiteEvent) (s : Site)
        (listing : List RemoteMetadata),
      run (siteStep m false) (Site.init m now) before = some s → s.poller = none →
        WellFormedListing listing →
          (∀ ev ∈ polls, ∃ env : PollEnv, ev = .poll env ∧ env.listing = .ok listing) →
            Along (siteStep m false) (fun s ev _ => UpsertAccepted m s ev) s polls := by
  intro h
  obtain ⟨s, hs, hidle, t, ht, job, paths, hpc, href⟩ : ∃ s,
      run (siteStep sampleMount false) (Site.init sampleMount 0)
        (nestedFile ++ [.daemon (.request (.rename fuseRootInode ['d'] fuseRootInode ['e']))]) =
          some s ∧ s.poller = none ∧
      ∃ t, run (siteStep sampleMount false) s
          (List.replicate 6 (.poll (.ofListing nestedListing))) = some t ∧
        ∃ job paths, t.poller.bind PollerPc.nextListed =
            some (job, paths, { listedFile ['e', '/', 'x'] with name := ['x'] }) ∧
          (upsertEntry sampleMount paths job.generation t.world.db
            { listedFile ['e', '/', 'x'] with name := ['x'] }).1.isSome = false :=
    ⟨_, rfl, rfl, _, rfl, _, _, rfl, rfl⟩
  have hpolls : ∀ ev ∈ List.replicate 6 (SiteEvent.poll (.ofListing nestedListing)) ++
      [.poll (.ofListing nestedListing)],
      ∃ env : PollEnv, ev = .poll env ∧ env.listing = .ok nestedListing := by
    intro ev hev
    have hev : ev ∈ List.replicate 7 (SiteEvent.poll (.ofListing nestedListing)) := hev
    exact ⟨_, List.eq_of_mem_replicate hev, rfl⟩
  have hall := h sampleMount 0 _ _ s nestedListing hs hidle wellFormed_nestedListing hpolls
  have hlast := ((hall.drop ht) _ rfl).1 _ job paths _ rfl rfl hpc
  rw [href] at hlast
  cases hlast

end Stratosync

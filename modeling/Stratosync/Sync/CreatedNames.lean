import Stratosync.Backend.DavListings
import Stratosync.Foundations.Fields
import Stratosync.Sync.Admission
import Stratosync.Sync.Convergence

/-!
# Names that can be created

A local create checks the name with `validateFilename` and nothing else; the listings and the polls
have filters of their own. `nameKept_iff` says which of the names that can be created pass these:
the ones without `..` anywhere in them, in directories of which the same holds, outside of a top
directory with the name of the conflict namespace, and under no tombstone. What passes is not swept
by the next full poll that finds it on the remote (`notSwept_of_poll`).
-/

namespace Stratosync

open Foundations.Fields Foundations.Runs

/-- The remote path of `names` one below the other, from the root of the mount. -/
def createdPath (names : List Str) : Str := names.foldl joinRemote ['/']

/-- The sweep of a poll does not delete the row of inode `i`. -/
def NotSwept (i : Inode) (x : Site × PollNext FullPollPc) (_ : PollEnv)
    (y : Site × PollNext FullPollPc) : Prop :=
  match x.2 with
  | .goto (.sweep _) =>
    ∀ r, x.1.world.db.getByInode i = some r → y.1.world.db.getByInode i = some r
  | _ => True

/-- **What is created is kept.** For the file or directory `name` in the directory `dirs`: the
filters of `poll_once` and `populate_directory` let it pass, it is outside of the conflict
namespace, and a full poll whose listing has it does not sweep its row. -/
structure NameKept (m : Mount) (active : List Str) (dirs : List Str) (name : Str) : Prop where
  poll : ∀ snap x, x.path = createdPath (dirs ++ [name]) → x.name = name →
    verdict m active snap x ≠ .skip
  populate : ∀ dir x, dir.remotePath = createdPath dirs → x.name = name →
    listedEntries active dir [x] ≠ []
  apart : inConflictNamespace (createdPath (dirs ++ [name])) = false
  kept : ∀ (s : Site) r env envs listing x, s.world.db.activeTombstones m.mountId = active →
    s.world.db.getByRemotePath m.mountId (createdPath (dirs ++ [name])) = some r →
      env.listing = .ok listing → x ∈ listing → x.path = createdPath (dirs ++ [name]) →
        x.name = name → Along (loneStep m) (NotSwept r.inode) (s, .goto .list) (env :: envs)

/-- Which names are kept. -/
structure NamePasses (active : List Str) (dirs : List Str) (name : Str) : Prop where
  noDots : ∀ n ∈ dirs ++ [name], containsDotDot n = false
  top : ∀ d ∈ dirs.head?, d ++ ['/'] ≠ conflictPrefix
  noTombstone : tombstoned active (createdPath (dirs ++ [name])) = false

/-! ## The path of what is created -/

theorem containsDotDot_iff {s : Str} : containsDotDot s = true ↔ ['.', '.'] <:+: s := by
  simp only [containsDotDot, List.any_eq_true, List.mem_tails, List.isPrefixOf_iff_prefix]
  constructor
  · rintro ⟨t, ht, hp⟩
    exact hp.isInfix.trans ht.isInfix
  · intro h
    obtain ⟨t, hp, hs⟩ := List.infix_iff_prefix_suffix.1 h
    exact ⟨t, hs, hp⟩

theorem trimSlashes_eq_self {s : Str} (hhead : s.head? ≠ some '/') (hlast : s.getLast? ≠ some '/') :
    trimSlashes s = s := by
  have hstart : trimStartSlash s = s := by
    rw [trimStartSlash, List.dropWhile_eq_self_iff]
    intro hl
    simp only [decide_eq_true_eq]
    intro hc
    rw [List.head?_eq_getElem?, List.getElem?_eq_getElem hl, hc] at hhead
    exact hhead rfl
  rw [trimSlashes, hstart, List.rdropWhile_eq_self_iff]
  intro hl
  simp only [decide_eq_true_eq]
  intro hc
  rw [List.getLast?_eq_some_getLast hl, hc] at hlast
  exact hlast rfl

variable {names dirs : List Str} {name : Str}

theorem ne_slash_of_valid {c : Char} (h : validateFilename name = true) (hc : c ∈ name) :
    c ≠ '/' := by
  rintro rfl
  exact (validateFilename_iff.1 h).2.2.2.1 hc

theorem head?_joinPath (h : ∀ n ∈ names, validateFilename n = true) :
    (joinPath names).head? ≠ some '/' := by
  cases names with
  | nil => simp [joinPath]
  | cons n names =>
    have hn := h n List.mem_cons_self
    obtain ⟨c, n, rfl⟩ := List.exists_cons_of_ne_nil (validateFilename_iff.1 hn).1
    have hc := ne_slash_of_valid hn List.mem_cons_self
    by_cases hnil : names = []
    · simpa [hnil, joinPath] using hc
    · simpa [joinPath_cons _ hnil] using hc

theorem getLast?_joinPath (h : ∀ n ∈ names, validateFilename n = true) :
    (joinPath names).getLast? ≠ some '/' := by
  obtain rfl | ⟨names, n, rfl⟩ := List.eq_nil_or_concat' names
  · simp [joinPath]
  have hn := h n (by simp)
  obtain ⟨n, c, rfl⟩ := (List.eq_nil_or_concat' n).resolve_left (validateFilename_iff.1 hn).1
  have hc := ne_slash_of_valid hn (List.mem_append_right _ (List.mem_singleton_self c))
  by_cases hnil : names = []
  · simpa [hnil, joinPath] using hc
  · rw [joinPath_append hnil (List.cons_ne_nil _ _), joinPath, joinPath, List.intercalate_singleton,
      ← List.cons_append, ← List.append_assoc, List.getLast?_concat]
    simpa using hc

/-- Names that can be created are joined by single slashes. -/
theorem createdPath_eq_joinPath (h : ∀ n ∈ names, validateFilename n = true) (hne : names ≠ []) :
    createdPath names = joinPath names := by
  induction names using List.reverseRecOn with
  | nil => exact absurd rfl hne
  | append_singleton names n ih =>
    have hnames : ∀ n ∈ names, validateFilename n = true := fun n hn =>
      h n (List.mem_append_left _ hn)
    rw [createdPath, List.foldl_append, List.foldl_cons, List.foldl_nil]
    by_cases hnil : names = []
    · subst hnil
      simp [joinPath, joinRemote, trimSlashes, trimStartSlash]
    · have hpath := ih hnames hnil
      rw [createdPath] at hpath
      have htrim := trimSlashes_eq_self (head?_joinPath hnames) (getLast?_joinPath hnames)
      have hlong : joinPath names ≠ [] := by
        obtain ⟨d, ds, rfl⟩ := List.exists_cons_of_ne_nil hnil
        have hd := (validateFilename_iff.1 (hnames d List.mem_cons_self)).1
        by_cases hds : ds = []
        · simpa [hds, joinPath] using hd
        · simp [joinPath_cons d hds, hd]
      rw [hpath, joinRemote, htrim, if_neg hlong, joinPath_append hnil (List.cons_ne_nil n [])]
      simp [joinPath]

/-- A path has `..` in it if one of its names has. -/
theorem containsDotDot_createdPath (h : ∀ n ∈ names, validateFilename n = true) (hne : names ≠ []) :
    containsDotDot (createdPath names) = false ↔ ∀ n ∈ names, containsDotDot n = false := by
  have hinfix : containsDotDot (createdPath names) = true ↔
      ∃ n ∈ names, containsDotDot n = true := by
    simp only [containsDotDot_iff, createdPath_eq_joinPath h hne]
    exact infix_intercalate_iff (by decide) (by decide)
  rw [← Bool.not_eq_true, hinfix]
  simp

theorem contains_nul_createdPath (h : ∀ n ∈ names, validateFilename n = true) (hne : names ≠ []) :
    (createdPath names).contains '\x00' = false := by
  rw [createdPath_eq_joinPath h hne, ← Bool.not_eq_true, List.contains_iff_mem,
    ← List.singleton_infix_iff, joinPath, infix_intercalate_iff (by decide) (by decide)]
  rintro ⟨n, hn, hnul⟩
  exact (validateFilename_iff.1 (h n hn)).2.2.2.2 ((List.singleton_infix_iff _ _).1 hnul)

/-- What is created is in the conflict namespace if its top directory has the name of that. -/
theorem inConflictNamespace_createdPath
    (h : ∀ n ∈ dirs ++ [name], validateFilename n = true) :
    inConflictNamespace (createdPath (dirs ++ [name])) = false ↔
      ∀ d ∈ dirs.head?, d ++ ['/'] ≠ conflictPrefix := by
  obtain ⟨base, hprefix, hbase⟩ : ∃ base, conflictPrefix = base ++ ['/'] ∧ '/' ∉ base :=
    ⟨conflictPrefix.dropLast, by decide, by decide⟩
  rw [inConflictNamespace, ← Bool.not_eq_true, List.isPrefixOf_iff_prefix,
    createdPath_eq_joinPath h (by simp), hprefix]
  cases dirs with
  | nil =>
    have hname := (validateFilename_iff.1 (h name (by simp))).2.2.2.1
    rw [List.nil_append, joinPath, concat_prefix_intercalate_iff hbase hname]
    simp
  | cons d dirs =>
    have hd := (validateFilename_iff.1 (h d (by simp))).2.2.2.1
    rw [List.cons_append, joinPath, concat_prefix_intercalate_iff hbase hd,
      and_iff_left (by simp)]
    constructor
    · rintro hne _ ⟨⟩ he
      exact hne (List.append_cancel_right he).symm
    · rintro h rfl
      exact h _ rfl rfl

/-! ## The poll that finds it -/

section Poll

variable {m : Mount} {db db' : Db} {job : FullPoll} {x y : RemoteMetadata} {i : Inode}
  {active : List Str} {listing : List RemoteMetadata}

/-- While entries are written, the row of inode `i` has the generation of the poll or is to be
marked, or it is at the path of the entry `x`, which is still to be written. -/
def Sparing (m : Mount) (job : FullPoll) (todo : List RemoteMetadata) (x : RemoteMetadata)
    (i : Inode) (db : Db) : Prop :=
  ∀ r, db.getByInode i = some r → job.generation ≤ r.pollGeneration ∨ i ∈ job.unchanged m ∨
    (x ∈ todo ∧ r.mountId = m.mountId ∧ r.remotePath = x.path)

/-- While rows are marked. -/
def Marked (job : FullPoll) (rest : List Inode) (i : Inode) (db : Db) : Prop :=
  ∀ r, db.getByInode i = some r → job.generation ≤ r.pollGeneration ∨ i ∈ rest

theorem sparing_of_snapshot {r : FileEntry} {g : ℕ}
    (hr : db.getByRemotePath m.mountId x.path = some r) (hx : x ∈ listing)
    (ha : admitted m active x = true) :
    Sparing m ⟨listing, db.snapshotRemoteIndex m.mountId, active, g⟩
      (toUpsert m active (db.snapshotRemoteIndex m.mountId) listing) x r.inode db := by
  intro r' hr'
  obtain ⟨hri, hrm, hrp⟩ := Db.getByRemotePath_spec hr
  obtain rfl := Option.some.inj (hri.symm.trans hr')
  obtain hv | ⟨s, hs, hv⟩ := verdict_of_admitted (db.snapshotRemoteIndex m.mountId) ha
  · exact .inr (.inr ⟨mem_toUpsert.2 ⟨hx, hv⟩, hrm, hrp⟩)
  · obtain ⟨q, hq, hqi⟩ := snapshot_eq_some hs
    obtain rfl := Option.some.inj (hq.symm.trans hr)
    exact .inr (.inl (mem_unchangedInodes.2 ⟨x, hx, hqi ▸ hv⟩))

theorem Sparing.upsert {todo : List RemoteMetadata} {paths : PathToInode} {j : Inode}
    (hs : Sparing m job (y :: todo) x i db)
    (h : upsertEntry m paths job.generation db y = (some j, db')) : Sparing m job todo x i db' := by
  intro r hr
  have hout := Db.upsert_outcome h
  by_cases hij : i = j
  · subst hij
    obtain ⟨w, hw, -, -, -, -, -, -, -, hwg⟩ := hout.written
    obtain rfl := Option.some.inj (hw.symm.trans hr)
    exact .inl hwg.ge
  obtain hg | hi | ⟨hx, hm, hp⟩ := hs r (hout.other hij hr)
  · exact .inl hg
  · exact .inr (.inl hi)
  · refine .inr (.inr ⟨(List.mem_cons.1 hx).resolve_left ?_, hm, hp⟩)
    rintro rfl
    exact hij (hout.eq_of_path hr hm hp)

theorem Marked.mark {chunk rest : List Inode} (hs : Marked job (chunk ++ rest) i db)
    (h : db.markGeneration job.generation chunk = some db') : Marked job rest i db' := by
  intro r' hr'
  rw [markGeneration_rows h i] at hr'
  obtain ⟨r, hr, rfl⟩ := Option.map_eq_some_iff.1 hr'
  by_cases hc : i ∈ chunk
  · rw [if_pos hc]
    exact .inl le_rfl
  · rw [if_neg hc]
    exact (hs r hr).imp id fun hi => (List.mem_append.1 hi).resolve_left hc

/-- The sweep leaves a marked row. -/
theorem Marked.sweep {r : FileEntry} (hs : Marked job [] i db) (hr : db.getByInode i = some r) :
    (db.deleteStaleEntries m.mountId job.generation).2.getByInode i = some r := by
  have hg : job.generation ≤ r.pollGeneration := (hs r hr).resolve_right List.not_mem_nil
  exact getByInode_of_sweep rfl hr fun _ => .inr hg

/-- The invariant of the poll, phase by phase, for the row of inode `i` and the entry `x`. -/
def SparePhase (m : Mount) (active : List Str) (listing : List RemoteMetadata) (x : RemoteMetadata)
    (i : Inode) : Site × PollNext FullPollPc → Prop
  | (_, .goto .list) => False
  | (s, .goto (.snapshot l)) =>
    l = listing ∧ s.world.db.activeTombstones m.mountId = active ∧
      ∃ r, s.world.db.getByRemotePath m.mountId x.path = some r ∧ r.inode = i
  | (s, .goto (.generation l snap)) | (s, .goto (.tombstones l snap _)) =>
    l = listing ∧ s.world.db.activeTombstones m.mountId = active ∧
      snap = s.world.db.snapshotRemoteIndex m.mountId ∧
        ∃ r, s.world.db.getByRemotePath m.mountId x.path = some r ∧ r.inode = i
  | (s, .goto (.upsert job todo _)) => Sparing m job todo x i s.world.db
  | (s, .goto (.mark job rest)) => Marked job rest.flatten i s.world.db
  | (s, .goto (.sweep job)) => Marked job [] i s.world.db
  | (_, .goto (.removeFiles ..)) | (_, .goto (.saveGeneration _)) | (_, .goto .cleanup)
  | (_, .goto .markListed) | (_, .done _) => True

theorem sparePhase_of_step {z z' : Site × PollNext FullPollPc} {env : PollEnv} (hx : x ∈ listing)
    (ha : admitted m active x = true) (hz : SparePhase m active listing x i z)
    (h : loneStep m z env = some z') :
    SparePhase m active listing x i z' ∧ NotSwept i z env z' := by
  obtain ⟨s, n⟩ := z
  obtain ⟨s', n'⟩ := z'
  obtain ⟨pc, hn, hstep⟩ := fullPollStep_of_loneStep h
  dsimp only at hn hstep
  subst hn
  clear h
  cases hstep with
  | fail =>
    refine ⟨trivial, ?_⟩
    cases pc with
    | sweep => exact fun r hr => hr
    | _ => trivial
  | listed => exact hz.elim
  | snapshot => exact ⟨⟨hz.1, hz.2.1, rfl, hz.2.2⟩, trivial⟩
  | generation => exact ⟨hz, trivial⟩
  | @filtered l _ g =>
    obtain ⟨rfl, rfl, rfl, r, hr, rfl⟩ := hz
    have hjob : FullPoll.Of ⟨l, s.world.db.snapshotRemoteIndex m.mountId,
        s.loadTombstones m env, g⟩ (s.world.db.activeTombstones m.mountId) l :=
      ⟨rfl, s.loadTombstones_cases m env⟩
    exact ⟨sparing_of_snapshot hr hx (hjob.admitted ha), trivial⟩
  | upsertsDone =>
    refine ⟨?_, trivial⟩
    intro r hr
    rw [flatten_chunks]
    obtain hg | hi | ⟨hnil, -⟩ := hz r hr
    · exact .inl hg
    · exact .inr hi
    · cases hnil
  | upserted _ h => exact ⟨Sparing.upsert hz h, trivial⟩
  | upsertRefused => exact ⟨trivial, trivial⟩
  | marksDone => exact ⟨hz, trivial⟩
  | marked h => exact ⟨Marked.mark hz h, trivial⟩
  | swept _ h =>
    refine ⟨trivial, fun r hr => ?_⟩
    have hkeep := Marked.sweep (m := m) hz hr
    rw [h] at hkeep
    rw [foldl_dropHeader_db]
    exact hkeep
  | sweepRefused _ h =>
    refine ⟨trivial, fun r hr => ?_⟩
    have hkeep := Marked.sweep (m := m) hz hr
    rw [h] at hkeep
    exact hkeep
  | filesRemoved => exact ⟨trivial, trivial⟩
  | fileRemoved => exact ⟨trivial, trivial⟩
  | generationSaved => exact ⟨trivial, trivial⟩
  | cleaned => exact ⟨trivial, trivial⟩
  | finished => exact ⟨trivial, trivial⟩

/-- **A full poll does not sweep a row whose path it finds in the listing**, if the filters let the
entry pass. -/
theorem notSwept_of_poll {s : Site} {r : FileEntry} {env : PollEnv} {envs : List PollEnv}
    (hr : s.world.db.getByRemotePath m.mountId x.path = some r) (hl : env.listing = .ok listing)
    (hx : x ∈ listing) (ha : admitted m (s.world.db.activeTombstones m.mountId) x = true) :
    Along (loneStep m) (NotSwept r.inode) (s, .goto .list) (env :: envs) := by
  intro z hz
  refine ⟨trivial, ?_⟩
  obtain rfl := Option.some.inj hz
  have hstart : SparePhase m (s.world.db.activeTombstones m.mountId) listing x r.inode
      (FullPollPc.tick m s env .list) := by
    rw [FullPollPc.tick, hl]
    dsimp only
    split
    · trivial
    · exact ⟨rfl, rfl, r, hr, rfl⟩
  have hall : Guarded (loneStep m) (fun _ _ => True) (FullPollPc.tick m s env .list) envs :=
    Guarded.of_forall (fun _ _ _ => trivial) _
  exact along_of_guarded (fun _ _ _ hi _ h => (sparePhase_of_step hx ha hi h).1)
    (fun _ _ _ hi _ h => (sparePhase_of_step hx ha hi h).2) hstart hall

end Poll

/-! ## Which names are kept -/

/-- What a poll finds of a name that passes is admitted. -/
theorem admitted_of_namePasses {m : Mount} {active : List Str} {x : RemoteMetadata}
    (hvalid : ∀ n ∈ dirs ++ [name], validateFilename n = true)
    (hignore : m.ignore (createdPath (dirs ++ [name])) = false) (h : NamePasses active dirs name)
    (hpath : x.path = createdPath (dirs ++ [name])) (hname : x.name = name) :
    admitted m active x = true := by
  have hslash : name.contains '/' = false := by
    have := (validateFilename_iff.1 (hvalid name (by simp))).2.2.2.1
    simpa using this
  have hunsafe : unsafeEntry x = false := by
    rw [unsafeEntry, hpath, hname, hslash, contains_nul_createdPath hvalid (by simp),
      (containsDotDot_createdPath hvalid (by simp)).2 h.noDots]
    rfl
  rw [admitted, hunsafe, hpath, hignore, h.noTombstone,
    (inConflictNamespace_createdPath hvalid).2 h.top]
  rfl

/-- An entry the filters of a full poll let pass although it has no row. -/
theorem passes_of_verdict {m : Mount} {active : List Str} {x : RemoteMetadata}
    (h : verdict m active (fun _ => none) x ≠ .skip) :
    unsafeEntry x = false ∧ inConflictNamespace x.path = false ∧
      tombstoned active x.path = false := by
  rw [verdict] at h
  cases hu : unsafeEntry x <;> cases hc : inConflictNamespace x.path <;>
    cases ht : tombstoned active x.path <;> simp_all

/-- **The names that can be created and are kept**: those without `..` in them and in the names of
their directories, outside of a top directory with the name of the conflict namespace, and under no
tombstone. -/
theorem nameKept_iff (m : Mount) (active : List Str) (dirs : List Str) (name : Str)
    (hvalid : ∀ n ∈ dirs ++ [name], validateFilename n = true)
    (hignore : m.ignore (createdPath (dirs ++ [name])) = false) :
    NameKept m active dirs name ↔ NamePasses active dirs name := by
  constructor
  · intro h
    have hv := h.poll (fun _ => none)
      { path := createdPath (dirs ++ [name]), name, size := 0, mtime := 0, isDir := false
        etag := none, itemId := none } rfl rfl
    obtain ⟨hbad, hconflict, htomb⟩ := passes_of_verdict hv
    simp only [unsafeEntry, Bool.or_eq_false_iff] at hbad
    exact ⟨(containsDotDot_createdPath hvalid (by simp)).1 hbad.1.1,
      (inConflictNamespace_createdPath hvalid).1 hconflict, htomb⟩
  · intro h
    constructor
    · intro snap x hpath hname hskip
      have ha := admitted_of_namePasses hvalid hignore h hpath hname
      obtain hv | ⟨s, -, hv⟩ := verdict_of_admitted snap ha
      all_goals
        rw [hv] at hskip
        cases hskip
    · intro dir x hdir hname
      have hjoin : joinRemote dir.remotePath x.name = createdPath (dirs ++ [name]) := by
        rw [hdir, hname, createdPath, createdPath, List.foldl_append]
        rfl
      have ha := admitted_of_namePasses (x := x.below dir.remotePath) hvalid hignore h hjoin hname
      simp only [admitted, Bool.not_eq_true', Bool.or_eq_false_iff] at ha
      have hpop := admits_populate m active dir x
      rw [safeListedName_of_safe ha.1.2, hjoin, h.noTombstone] at hpop
      intro hnil
      rw [ListingRoute.admits, hnil] at hpop
      cases hpop
    · exact (inConflictNamespace_createdPath hvalid).2 h.top
    · rintro s r env envs listing x rfl hr hl hx hpath hname
      have ha := admitted_of_namePasses hvalid hignore h hpath hname
      exact notSwept_of_poll (hpath ▸ hr) hl hx ha

theorem nameKept_in_directory :
    (∀ n ∈ [['d'], ['a']], validateFilename n = true) ∧
      sampleMount.ignore (createdPath [['d'], ['a']]) = false ∧
        (NameKept sampleMount [] [['d']] ['a'] ↔ NamePasses [] [['d']] ['a']) :=
  ⟨by decide, rfl, nameKept_iff sampleMount [] [['d']] ['a'] (by decide) rfl⟩

def dottedName : Str := ['a', '.', '.', 'b']

/-- A site whose daemon has created and uploaded a file with `..` in its name. -/
def dottedSite : Site :=
  let evs := .request (.create fuseRootInode dottedName) :: uploadFirst.tail
  let w := World.init sampleMount 0
  { Site.init sampleMount 0 with world := (run (step sampleMount) w evs).getD w }

/-- The file as the remote lists it. -/
def listedDotted : RemoteMetadata :=
  { path := dottedName, name := dottedName, size := 1, mtime := 0, isDir := false
    etag := some ['v'], itemId := none }

/-- The next full poll finds the file and sweeps its row. -/
theorem not_nameKept_dotted :
    ¬∀ (m : Mount) (active : List Str) (dirs : List Str) (name : Str),
      (∀ n ∈ dirs ++ [name], validateFilename n = true) →
        m.ignore (createdPath (dirs ++ [name])) = false → NameKept m active dirs name := by
  intro h
  obtain ⟨r, hr, hrow⟩ : ∃ r, dottedSite.world.db.getByRemotePath 1 dottedName = some r ∧
      (r.inode, r.status) = (2, .cached) := ⟨_, rfl, rfl⟩
  have hi : r.inode = 2 := congrArg Prod.fst hrow
  let env := PollEnv.ofListing [listedDotted]
  have hrun : Along (loneStep sampleMount) (NotSwept r.inode) (dottedSite, .goto .list)
      (List.replicate 6 env ++ [env]) :=
    (h sampleMount [] [] dottedName (by decide) rfl).kept dottedSite r env (List.replicate 6 env)
      [listedDotted] listedDotted rfl hr rfl (List.mem_singleton_self _) rfl rfl
  rw [hi] at hrun
  obtain ⟨hsweep, -⟩ := hrun.drop rfl _ rfl
  have hgone : none = some _ := hsweep _ rfl
  cases hgone

end Stratosync

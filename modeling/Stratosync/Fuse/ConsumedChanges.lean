import Stratosync.Daemon.CacheFiles
import Stratosync.Daemon.Hydrations

/-!
# Changes the index has consumed

A change that the index has consumed is not reported again, so a hydration must not leave bytes
that are older than the version the change announced. `noneLost_of_run`: in every run of the
hydrations of a row, with upserts of the row and edits of the remote at any time, in which no
upsert comes between a download and its end and none moves the row while a hydration goes by its
old path, the bytes of a cached row are no older than any version announced for its path, and its
etag is that of these bytes or of an older version.
-/

namespace Stratosync

open Foundations.Runs Foundations.Versions

/-! ## Announced versions -/

/-- The columns describe this version. -/
def Refresh.Names (x : Refresh) (o : RemoteObject) : Prop :=
  x.etag = o.etag ∧ x.size = o.data.length ∧ x.mtime = o.mtime

instance Refresh.decidableNames (x : Refresh) (o : RemoteObject) : Decidable (x.Names o) :=
  inferInstanceAs (Decidable (_ ∧ _))

/-- The versions that an upsert of these columns announces: their path and number. -/
def Refresh.announces (x : Refresh) (H : ObjectVersions) : List (Str × ℕ) :=
  ((List.range (H x.remotePath).length).filter fun n =>
    (H x.remotePath)[n]?.any fun o => x.Names o).map fun n => (x.remotePath, n)

/-- The columns of the upserts of an operation that a row shows afterwards. -/
def RemoteOp.consumedBy (op : RemoteOp) (r : FileEntry) : List Refresh :=
  (op.upserts.filter fun u => u.1 = r.mountId ∧ refreshRow u.2.1 r = r).map fun u => u.2.1

/-- The versions of the objects, and those announced by the changes one row has consumed. -/
structure Consumed where
  versions : ObjectVersions
  announced : List (Str × ℕ)

namespace Consumed

variable (K : Consumed)

/-- The history of row `i` after a step. -/
def next (i : Inode) (w : World) (ev : Event) (w' : World) : Consumed where
  versions := K.versions.next w.remote w'.remote
  announced := K.announced ++
    match ev with
    | .poll op => (w'.db.getByInode i).toList.flatMap fun r =>
        (op.consumedBy r).flatMap fun x => x.announces K.versions
    | _ => []

/-- The etag is that of an announced version. -/
def Dated (path : Str) (etag : Option Str) : Prop :=
  ∃ n o, (path, n) ∈ K.announced ∧ (K.versions path)[n]? = some o ∧ o.etag = etag

/-- The bytes are a version of the path, and no announced version is newer. -/
def Newest (path : Str) (data : Bytes) : Prop :=
  ∃ v o, (K.versions path)[v]? = some o ∧ o.data = data ∧ ∀ n, (path, n) ∈ K.announced → n ≤ v

/-- The cache file of a row is no older than what was announced, and its etag no newer than the
file. -/
def Shown (fs : CacheFs) (r : FileEntry) : Prop :=
  ∃ cp ∈ r.cachePath, ∃ data ∈ fs.files cp, ∃ v o, (K.versions r.remotePath)[v]? = some o ∧
    o.data = data ∧ (∀ n, (r.remotePath, n) ∈ K.announced → n ≤ v) ∧
      ∃ n ≤ v, ∃ o', (K.versions r.remotePath)[n]? = some o' ∧ o'.etag = r.etag

end Consumed

/-- The daemon with the history of row `i`. -/
abbrev consumeStep (m : Mount) (i : Inode) : World × Consumed → Event → Option (World × Consumed) :=
  withHistory (step m) fun w ev w' K => K.next i w ev w'

/-! ## The condition -/

/-- The row as a hydration has read it, until the row is recorded. -/
def HydrationPc.snapshot : HydrationPc → Option FileEntry
  | .claim e | .begin_ e | .download e _ | .install e _ _ | .record e _ => some e
  | _ => none

/-- The columns of an upsert belong to a version that the remote has had. -/
def Truthful (i : Inode) (w : World) (K : Consumed) (op : RemoteOp) : Prop :=
  ∀ r ∈ (w.db.applyRemote op).getByInode i, ∀ x ∈ op.consumedBy r, x.announces K.versions ≠ []

/-- The steps of the hydrations of row `i`, what starts them, upserts and edits of the remote. -/
def Concerns (i : Inode) : World × Consumed → Event → Prop
  | (w, _), .hydration k _ => ∀ h ∈ w.hydrations[k]?, h.inode = i
  | (w, K), .poll op =>
    match op with
    | .batchUpsert .. | .upsert .. => Truthful i w K op
    | .deleteByPath .. | .deleteByItemId .. | .deleteStale .. => False
  | _, .request (.open_ _) | _, .request (.read ..) | _, .request (.release _) | _, .read ..
  | _, .prefetch _ | _, .foreign _ | _, .clock _ => True
  | _, _ => False

/-- An upsert of the row does not overtake its hydrations: it comes while none holds a download,
and it leaves the row the path that they go by. And a hydration that has marked the row completes:
it ends with another status for the row. -/
def NotOvertaken (m : Mount) (i : Inode) : World × Consumed → Event → Prop
  | (w, _), .poll op => ∀ r ∈ w.db.getByInode i, ∀ u ∈ op.upserts, Matches u r →
      ∀ h ∈ w.hydrations, h.inode = i → h.pc.downloaded = false ∧
        ∀ e ∈ h.pc.snapshot, e.remotePath = u.2.1.remotePath
  | (w, _), .hydration k env => ∀ h ∈ w.hydrations[k]?, h.pc.Completes m w.fs env
  | _, _ => True

/-- **No consumed change is lost**: once the hydrations of the row have finished, it is stale or
remote, or cached with bytes that are no older than any announced version. -/
def NoneLost (i : Inode) (s : World × Consumed) : Prop :=
  ∀ r ∈ s.1.db.getByInode i, (∀ h ∈ s.1.hydrations, h.inode = i → h.pc.working = false) →
    (r.status = .cached ∧ s.2.Shown s.1.fs r) ∨ r.status = .stale ∨ r.status = .remote

/-- The row before its hydrations: nothing is lost so far, and its etag was announced. -/
structure AtRest (i : Inode) (s : World × Consumed) : Prop where
  given : i ≤ s.1.db.seq
  idle : ∀ h ∈ s.1.hydrations, h.inode ≠ i
  upToDate : s.2.versions.UpToDate s.1.remote
  announced : ∀ path n, (path, n) ∈ s.2.announced → n < (s.2.versions path).length
  dated : ∀ r ∈ s.1.db.getByInode i, s.2.Dated r.remotePath r.etag
  noneLost : NoneLost i s

/-! ## What a hydration holds -/

/-- The bytes a hydration has downloaded, in memory or in the cache file, have the property. -/
def HydrationPc.Holds (fs : CacheFs) (P : Bytes → Prop) : HydrationPc → Prop
  | .install _ _ data => P data
  | .record _ cp => ∃ data ∈ fs.files cp, P data
  | _ => True

/-- The hydrations of row `i` and its status. -/
structure Kept (i : Inode) (w : World) (K : Consumed) (r : FileEntry) : Prop where
  dated : K.Dated r.remotePath r.etag
  snapshot : ∀ h ∈ w.hydrations, h.inode = i → ∀ e ∈ h.pc.snapshot,
    e.remotePath = r.remotePath ∧ K.Dated r.remotePath e.etag
  held : ∀ h ∈ w.hydrations, h.inode = i → h.pc.Holds w.fs (K.Newest r.remotePath)
  status : (r.status = .cached ∧ K.Shown w.fs r) ∨ r.status = .stale ∨ r.status = .remote ∨
    (r.status = .hydrating ∧ ∃ h ∈ w.hydrations, h.inode = i ∧ h.pc.working = true)

/-- **The invariant** of the runs. -/
structure Sound (i : Inode) (s : World × Consumed) : Prop where
  given : i ≤ s.1.db.seq
  upToDate : s.2.versions.UpToDate s.1.remote
  announced : ∀ path n, (path, n) ∈ s.2.announced → n < (s.2.versions path).length
  kept : ∀ r ∈ s.1.db.getByInode i, Kept i s.1 s.2 r

variable {m : Mount} {i : Inode} {w w' : World} {K : Consumed} {r r' : FileEntry} {ev : Event}

/-! ## The history grows -/

namespace Consumed

/-- Versions are added and nothing is announced. -/
structure Extends (K K' : Consumed) : Prop where
  versions : ∀ path (n : ℕ) (o : RemoteObject),
    (K.versions path)[n]? = some o → (K'.versions path)[n]? = some o
  announced : K'.announced = K.announced

variable {K' : Consumed} {path : Str} {etag : Option Str} {data : Bytes}

theorem versions_next {n : ℕ} {o : RemoteObject} (h : (K.versions path)[n]? = some o) :
    ((K.next i w ev w').versions path)[n]? = some o :=
  getElem?_record h

theorem mem_announces {x : Refresh} {H : ObjectVersions} {n : ℕ} :
    (path, n) ∈ x.announces H ↔
      path = x.remotePath ∧ ∃ o, (H path)[n]? = some o ∧ x.Names o := by
  rw [Refresh.announces, List.mem_map]
  constructor
  · rintro ⟨k, hk, heq⟩
    obtain ⟨rfl, rfl⟩ := Prod.mk.inj heq
    obtain ⟨-, hk⟩ := List.mem_filter.1 hk
    obtain ⟨o, ho, hx⟩ := Option.any_eq_true _ _ |>.1 hk
    exact ⟨rfl, o, ho, of_decide_eq_true hx⟩
  · rintro ⟨rfl, o, ho, hx⟩
    refine ⟨n, List.mem_filter.2 ⟨?_, ?_⟩, rfl⟩
    · exact List.mem_range.2 (List.getElem?_eq_some_iff.1 ho).1
    · rw [ho]
      exact decide_eq_true hx

theorem extends_next (hev : ∀ op, ev ≠ .poll op) : K.Extends (K.next i w ev w') := by
  refine ⟨fun path n o h => versions_next h, ?_⟩
  cases ev with
  | poll op => exact absurd rfl (hev op)
  | _ => exact List.append_nil _

theorem Dated.mono (h : K.Dated path etag)
    (hv : ∀ (n : ℕ) (o : RemoteObject),
      (K.versions path)[n]? = some o → (K'.versions path)[n]? = some o)
    (ha : ∀ n, (path, n) ∈ K.announced → (path, n) ∈ K'.announced) : K'.Dated path etag := by
  obtain ⟨n, o, hn, ho, he⟩ := h
  exact ⟨n, o, ha n hn, hv n o ho, he⟩

theorem Dated.next (h : K.Dated path etag) : (K.next i w ev w').Dated path etag :=
  h.mono (fun _ _ => versions_next) fun _ => List.mem_append_left _

theorem Newest.extends (h : K.Newest path data) (hK : K.Extends K') : K'.Newest path data := by
  obtain ⟨v, o, ho, hdata, hn⟩ := h
  exact ⟨v, o, hK.versions _ _ _ ho, hdata, fun n h => hn n (hK.announced ▸ h)⟩

theorem Shown.extends {fs : CacheFs} (h : K.Shown fs r) (hK : K.Extends K') : K'.Shown fs r := by
  obtain ⟨cp, hcp, data, hdata, v, o, ho, ho', hn, k, hk, o', hk', he⟩ := h
  exact ⟨cp, hcp, data, hdata, v, o, hK.versions _ _ _ ho, ho', fun n h => hn n (hK.announced ▸ h),
    k, hk, o', hK.versions _ _ _ hk', he⟩

/-- The newest bytes under an announced etag. -/
theorem Newest.shown {fs : CacheFs} {cp : PathBuf} (h : K.Newest r.remotePath data)
    (hd : K.Dated r.remotePath r.etag) (hcp : r.cachePath = some cp)
    (hf : fs.files cp = some data) : K.Shown fs r := by
  obtain ⟨v, o, ho, ho', hn⟩ := h
  obtain ⟨n, o', hann, hn', he⟩ := hd
  exact ⟨cp, hcp, data, hf, v, o, ho, ho', hn, n, hn n hann, o', hn', he⟩

end Consumed

theorem HydrationPc.Holds.imp {fs : CacheFs} {P Q : Bytes → Prop} {pc : HydrationPc}
    (h : pc.Holds fs P) (hPQ : ∀ data, P data → Q data) : pc.Holds fs Q := by
  cases pc with
  | install => exact hPQ _ h
  | record =>
    obtain ⟨data, hdata, h⟩ := h
    exact ⟨data, hdata, hPQ _ h⟩
  | _ => trivial

/-- A file may be replaced by one that has the property. -/
theorem HydrationPc.Holds.of_files {fs fs' : CacheFs} {P : Bytes → Prop} {pc : HydrationPc}
    (h : pc.Holds fs P)
    (hfs : ∀ p, fs'.files p = fs.files p ∨ ∃ data, fs'.files p = some data ∧ P data) :
    pc.Holds fs' P := by
  cases pc with
  | record e cp =>
    obtain ⟨data, hdata, hP⟩ := h
    obtain heq | ⟨data', heq, hP'⟩ := hfs cp
    · exact ⟨data, heq.trans hdata, hP⟩
    · exact ⟨data', heq, hP'⟩
  | _ => exact h

/-- And so may the file of a cached row. -/
theorem Consumed.Shown.of_files {fs fs' : CacheFs} (h : K.Shown fs r)
    (hd : K.Dated r.remotePath r.etag)
    (hfs : ∀ p, fs'.files p = fs.files p ∨
      ∃ data, fs'.files p = some data ∧ K.Newest r.remotePath data) : K.Shown fs' r := by
  obtain ⟨cp, hcp, data, hdata, hrest⟩ := h
  obtain heq | ⟨data', heq, hnew⟩ := hfs cp
  · exact ⟨cp, hcp, data, heq.trans hdata, hrest⟩
  · exact hnew.shown hd hcp heq

/-! ## A call of a hydration -/

section Tick

variable {env : Env} {pc pc' : HydrationPc}

/-- What a hydration knows of the row it has read before, or reads now. -/
theorem snapshot_of_goto (h : (Hydration.tick m w i env pc).2 = .goto pc') {e : FileEntry}
    (he : pc'.snapshot = some e) : pc.snapshot = some e ∨ w.db.getByInode i = some e := by
  have hread : ∀ {x}, (if env.fault then none else w.db.getByInode i) = some x →
      w.db.getByInode i = some x := by
    intro x hx
    split at hx
    · cases hx
    · exact hx
  cases pc with
  | enter | reload =>
    simp only [Hydration.tick] at h
    repeat' split at h
    all_goals
      cases h
      try cases he
      try exact .inr (hread ‹_›)
  | wait a signal =>
    obtain _ | _ | _ := signal
    · simp only [Hydration.tick] at h
      split at h <;> cases h
      cases he
    · cases h
    · cases h
  | _ =>
    simp only [Hydration.tick] at h
    repeat' split at h
    all_goals
      cases h
      try cases he
      try exact .inl rfl

/-- A hydration holds the object as it downloads it, and the file as it installs it. -/
theorem holds_of_goto {P : Bytes → Prop} (h : (Hydration.tick m w i env pc).2 = .goto pc')
    (hp : pc.Holds w.fs P)
    (ho : ∀ e cp o, pc = .download e cp → w.remote.object e.remotePath = some o → P o.data) :
    pc'.Holds (Hydration.tick m w i env pc).1.fs P := by
  cases pc with
  | download e cp =>
    simp only [Hydration.tick] at h ⊢
    split at h <;> cases h
    · exact ho e cp _ rfl ‹_›
    all_goals trivial
  | install e cp data =>
    cases hins : (w.fs.createDirAll cp.dropLast).bind fun fs => fs.install cp data with
    | none =>
      simp only [Hydration.tick, hins] at h
      cases h
      trivial
    | some fs =>
      obtain ⟨fs₁, -, hfs⟩ := Option.bind_eq_some_iff.1 hins
      simp only [Hydration.tick, hins] at h ⊢
      split at h
      · cases h
        trivial
      · rename_i hf
        cases h
        rw [if_neg hf]
        exact ⟨data, (CacheFs.files_of_install hfs cp).trans (if_pos rfl), hp⟩
  | wait a signal =>
    obtain _ | _ | _ := signal
    · simp only [Hydration.tick] at h
      split at h <;> cases h
      trivial
    · cases h
    · cases h
  | _ =>
    simp only [Hydration.tick] at h
    repeat' split at h
    all_goals
      cases h
      try trivial

end Tick

/-! ## A step that consumes no change -/

section Hydrations

variable (hk : Kept i w K r) (hr : w.db.getByInode i = some r)
  (hc : Concerns i (w, K) ev) (h : step m w ev = some w')

theorem fetches_of_concerns (hc : Concerns i (w, K) ev) (hev : ∀ op, ev ≠ .poll op) :
    ev.fetches = true := by
  cases ev with
  | request r => cases r <;> first | rfl | cases hc
  | poll op => exact absurd rfl (hev op)
  | hydration | read | prefetch | foreign | clock => rfl
  | _ => cases hc

/-- A cache file changes only by the installation of a download of the row. -/
theorem files_of_concerns (hk : Kept i w K r) (hc : Concerns i (w, K) ev)
    (hev : ∀ op, ev ≠ .poll op) (h : step m w ev = some w') (p : PathBuf) :
    w'.fs.files p = w.fs.files p ∨
      ∃ data, w'.fs.files p = some data ∧ K.Newest r.remotePath data := by
  have hstep := file_of_step h p
  generalize w'.fs.files p = b' at hstep ⊢
  generalize w.fs.files p = b at hstep ⊢
  cases hstep with
  | same => exact .inl rfl
  | installed hh =>
    have hi := hc _ hh
    exact .inr ⟨_, rfl, hk.held _ (List.mem_of_getElem? hh) hi⟩
  | dropped => exact absurd rfl (hev _)
  | _ => cases hc

/-- What the hydrations know and hold after the step. -/
theorem hydration_of_concerns (hk : Kept i w K r) (hr : w.db.getByInode i = some r)
    (hu : K.versions.UpToDate w.remote)
    (hann : ∀ path n, (path, n) ∈ K.announced → n < (K.versions path).length)
    (hc : Concerns i (w, K) ev) (hev : ∀ op, ev ≠ .poll op) (h : step m w ev = some w')
    {x : Hydration} (hx : x ∈ w'.hydrations) (hi : x.inode = i) :
    (∀ e ∈ x.pc.snapshot, e.remotePath = r.remotePath ∧ K.Dated r.remotePath e.etag) ∧
      x.pc.Holds w'.fs (K.Newest r.remotePath) := by
  have hfiles := files_of_concerns hk hc hev h
  cases hydration_of_step h hx with
  | other hx =>
    have hx := mem_of_mem_otherHydrations hx
    exact ⟨hk.snapshot x hx hi, (hk.held x hx hi).of_files hfiles⟩
  | told => exact ⟨fun _ he => (by cases he), trivial⟩
  | @moved k env x₀ pc hx₀ hpc =>
    have hmem := List.mem_of_getElem? hx₀
    obtain rfl : x₀.inode = i := hi
    constructor
    · intro e he
      obtain he | he := snapshot_of_goto hpc he
      · exact hk.snapshot x₀ hmem rfl e he
      · obtain rfl := Option.some.inj (hr.symm.trans he)
        exact ⟨rfl, hk.dated⟩
    · obtain ⟨x₁, hx₁, -, hfs⟩ := eq_of_hydrationStep h
      obtain rfl := Option.some.inj (hx₀.symm.trans hx₁)
      rw [hfs]
      refine holds_of_goto hpc (hk.held x₀ hmem rfl) fun e cp o hpc₀ ho => ?_
      obtain ⟨hpath, -⟩ := hk.snapshot x₀ hmem rfl e (by rw [hpc₀]; rfl)
      rw [hpath] at ho
      refine ⟨_, o, (hu _).getElem? ho, rfl, fun n hn => ?_⟩
      have hlt := hann _ n hn
      omega
  | opened | claimedByRead | entered => exact ⟨fun _ he => (by cases he), trivial⟩
  | prefetched hchild =>
    refine ⟨fun e he => ?_, trivial⟩
    obtain rfl := Option.some.inj he
    obtain rfl : r = _ := Option.some.inj (hr.symm.trans ((congrArg _ hi.symm).trans hchild))
    exact ⟨rfl, hk.dated⟩

/-- The status of the row after the step. -/
theorem status_of_concerns (hk : Kept i w K r) (hr : w.db.getByInode i = some r)
    (hc : Concerns i (w, K) ev) (hg : NotOvertaken m i (w, K) ev) (hev : ∀ op, ev ≠ .poll op)
    (h : step m w ev = some w') (hr' : w'.db.getByInode i = some r') :
    r'.remotePath = r.remotePath ∧ K.Dated r.remotePath r'.etag ∧
      ((r'.status = .cached ∧ K.Shown w'.fs r') ∨ r'.status = .stale ∨ r'.status = .remote ∨
        (r'.status = .hydrating ∧ ∃ x ∈ w'.hydrations, x.inode = i ∧ x.pc.working = true)) := by
  have hfiles := files_of_concerns hk hc hev h
  have hcomplete : ∀ k env, ev = .hydration k env →
      ∀ x ∈ w.hydrations[k]?, x.pc.Completes m w.fs env := by
    rintro k env rfl
    exact hg
  have hstay : ∀ {q : FileEntry}, q.status = r.status → (K.Shown w'.fs r → K.Shown w'.fs q) →
      w'.db.getByInode i = some q →
        (q.status = .cached ∧ K.Shown w'.fs q) ∨ q.status = .stale ∨ q.status = .remote ∨
          (q.status = .hydrating ∧ ∃ x ∈ w'.hydrations, x.inode = i ∧ x.pc.working = true) := by
    intro q hq hshown hrow
    obtain ⟨hs, hsh⟩ | hs | hs | ⟨hs, x, hx, hxi, hxw⟩ := hk.status
    · exact .inl ⟨hq.trans hs, hshown (hsh.of_files hk.dated hfiles)⟩
    · exact .inr (.inl (hq.trans hs))
    · exact .inr (.inr (.inl (hq.trans hs)))
    · exact .inr (.inr (.inr
        ⟨hq.trans hs, working_of_step h hcomplete hx hxi hxw hrow (hq.trans hs)⟩))
  -- a row that is marked now is marked by someone who goes on to hydrate it
  have hmark : ∀ {q : FileEntry}, w'.db.getByInode i = some q → q.status = .hydrating →
      ∃ x ∈ w'.hydrations, x.inode = i ∧ x.pc.working = true := by
    intro q hrow hq
    by_cases hs : r.status = .hydrating
    · obtain ⟨hs', -⟩ | hs' | hs' | ⟨-, x, hx, hxi, hxw⟩ := hk.status
      · rw [hs] at hs'
        cases hs'
      · rw [hs] at hs'
        cases hs'
      · rw [hs] at hs'
        cases hs'
      · exact working_of_step h hcomplete hx hxi hxw hrow hq
    · exact marked_of_step (fetches_of_concerns hc hev) h hr hs hrow hq
  have hrow := hr' ▸ row_of_step h hr
  cases hrow with
  | same => exact ⟨rfl, hk.dated, hstay rfl id hr'⟩
  | opened | claimedByRead | claimed =>
    exact ⟨rfl, hk.dated, .inr (.inr (.inr ⟨rfl, hmark hr' rfl⟩))⟩
  | timedOut | rolledBack => exact ⟨rfl, hk.dated, .inr (.inr (.inl rfl))⟩
  | backfilled => exact ⟨rfl, hk.dated, hstay rfl id hr'⟩
  | @hydrated k env _ _ e cp rd data hh hf =>
    have hmem := List.mem_of_getElem? hh
    obtain ⟨-, hdated⟩ := hk.snapshot _ hmem rfl e rfl
    obtain ⟨data', hdata', hnew⟩ := hk.held _ hmem rfl
    refine ⟨rfl, hdated, .inl ⟨rfl, ?_⟩⟩
    have hshown : ∀ {d}, K.Newest r.remotePath d → w'.fs.files cp = some d →
        K.Shown w'.fs (r.hydrated e cp data.length) := fun hnew hfile =>
      Consumed.Newest.shown (r := r.hydrated e cp data.length) hnew hdated rfl hfile
    obtain hfile | ⟨_, hfile, hnew'⟩ := hfiles cp
    · exact hshown hnew (hfile.trans hdata')
    · exact hshown hnew' hfile
  | refreshed | dropped => exact absurd rfl (hev _)
  | _ => cases hc

end Hydrations

/-! ## An upsert -/

section Upsert

variable {op : RemoteOp}

/-- A row that shows the columns of an upsert was found by it. -/
theorem matches_of_consumedBy {x : Refresh} (hx : x ∈ op.consumedBy r) :
    ∃ u ∈ op.upserts, u.2.1 = x ∧ Matches u r ∧ r.status.refreshed = r.status := by
  obtain ⟨u, hu, rfl⟩ := List.mem_map.1 hx
  obtain ⟨hu, hshows⟩ := List.mem_filter.1 hu
  obtain ⟨hmount, hrow⟩ := of_decide_eq_true hshows
  exact ⟨u, hu, rfl, ⟨hmount.symm, .inl (congrArg FileEntry.remotePath hrow).symm⟩,
    congrArg FileEntry.status hrow⟩

theorem mem_consumedBy_refreshed {u : ℕ × Refresh × Option Str} {id : Option Str}
    (hu : u ∈ op.upserts) (hm : Matches u r) :
    u.2.1 ∈ op.consumedBy { refreshRow u.2.1 r with remoteItemId := id } := by
  refine List.mem_map_of_mem (List.mem_filter.2 ⟨hu, decide_eq_true ⟨hm.1.symm, ?_⟩⟩)
  simp [refreshRow]

/-- The history after an operation that reaches no row of the index with its news. -/
theorem extends_of_not_consumed (hr' : w'.db.getByInode i = some r')
    (hnone : op.consumedBy r' = []) : K.Extends (K.next i w (.poll op) w') := by
  refine ⟨fun path n o h => Consumed.versions_next h, ?_⟩
  simp only [Consumed.next, hr', Option.toList_some, List.flatMap_singleton, hnone,
    List.flatMap_nil, List.append_nil]

theorem mem_announced_next (hr' : w'.db.getByInode i = some r') {x : Refresh}
    (hx : x ∈ op.consumedBy r') {p : Str × ℕ} (hp : p ∈ x.announces K.versions) :
    p ∈ (K.next i w (.poll op) w').announced := by
  refine List.mem_append_right _ ?_
  simp only [hr', Option.toList_some, List.flatMap_singleton]
  exact List.mem_flatMap.2 ⟨x, hx, hp⟩

/-- The columns that a row takes from a truthful upsert have an announced etag. -/
theorem dated_of_consumed (ht : Truthful i w K op)
    (hr' : (w.poll op).db.getByInode i = some r') {x : Refresh} (hx : x ∈ op.consumedBy r') :
    (K.next i w (.poll op) (w.poll op)).Dated x.remotePath x.etag := by
  obtain ⟨⟨path, n⟩, hp⟩ := List.exists_mem_of_ne_nil _ (ht r' hr' x hx)
  obtain ⟨rfl, o, ho, hnames⟩ := Consumed.mem_announces.1 hp
  exact ⟨n, o, mem_announced_next hr' hx hp, Consumed.versions_next ho, hnames.1.symm⟩

/-- What an upsert found has the status an upsert leaves. -/
theorem stale_of_refreshed (hk : Kept i w K r) (hs : r'.status = r.status.refreshed) :
    r'.status = .stale := by
  rw [hs]
  obtain ⟨h, -⟩ | h | h | ⟨h, -⟩ := hk.status <;> rw [h] <;> rfl

/-- The hydrations of a row that an upsert has found. -/
theorem kept_of_found (hk : Kept i w K r) (hg : NotOvertaken m i (w, K) (.poll op))
    (hr : w.db.getByInode i = some r) {u : ℕ × Refresh × Option Str} (hu : u ∈ op.upserts)
    (hm : Matches u r) (hpath : r'.remotePath = u.2.1.remotePath)
    (hs : r'.status = r.status.refreshed)
    (hdated : (K.next i w (.poll op) (w.poll op)).Dated r'.remotePath r'.etag) :
    Kept i (w.poll op) (K.next i w (.poll op) (w.poll op)) r' where
  dated := hdated
  snapshot := by
    intro x hx hi e he
    obtain ⟨-, hsame⟩ := hg r hr u hu hm x hx hi
    obtain ⟨hold, hd⟩ := hk.snapshot x hx hi e he
    have hto : e.remotePath = r'.remotePath := (hsame e he).trans hpath.symm
    rw [← hold, hto] at hd
    exact ⟨hto, hd.next⟩
  held := by
    intro x hx hi
    obtain ⟨hd, -⟩ := hg r hr u hu hm x hx hi
    cases hpc : x.pc with
    | install | record =>
      rw [hpc] at hd
      cases hd
    | _ => trivial
  status := .inr (.inl (stale_of_refreshed hk hs))

theorem poll_fs (hc : Concerns i (w, K) (.poll op)) : (w.poll op).fs = w.fs := by
  cases op with
  | batchUpsert | upsert => rfl
  | _ => cases hc

theorem truthful_of_concerns (hc : Concerns i (w, K) (.poll op)) : Truthful i w K op := by
  cases op with
  | batchUpsert | upsert => exact hc
  | _ => cases hc

theorem Kept.extends {K' : Consumed} (hk : Kept i w K r) (hK : K.Extends K') :
    Kept i w K' r where
  dated := hk.dated.mono (hK.versions _) fun _ h => hK.announced ▸ h
  snapshot := fun x hx hi e he =>
    ⟨(hk.snapshot x hx hi e he).1,
      (hk.snapshot x hx hi e he).2.mono (hK.versions _) fun _ h => hK.announced ▸ h⟩
  held := fun x hx hi => (hk.held x hx hi).imp fun _ h => h.extends hK
  status := hk.status.imp_left fun h => ⟨h.1, h.2.extends hK⟩

/-- **An upsert keeps the invariant of the row.** -/
theorem kept_of_poll (hk : Kept i w K r) (hr : w.db.getByInode i = some r)
    (hc : Concerns i (w, K) (.poll op)) (hg : NotOvertaken m i (w, K) (.poll op))
    (hr' : (w.poll op).db.getByInode i = some r') (hseq : i ≤ w.db.seq) :
    Kept i (w.poll op) (K.next i w (.poll op) (w.poll op)) r' := by
  have ht := truthful_of_concerns hc
  obtain ⟨r₀, hr₀, href⟩ | ⟨-, -, hlt, -⟩ := (rowsRefreshed_applyRemote op w.db).rows i r' hr'
  swap
  · exact absurd hseq hlt.not_ge
  obtain rfl := Option.some.inj (hr.symm.trans hr₀)
  obtain rfl | ⟨u, hu, hm, id, rfl⟩ := href
  · cases hcons : op.consumedBy r' with
    | nil =>
      have hk' := hk.extends (extends_of_not_consumed (w := w) hr' hcons)
      refine ⟨hk'.dated, hk'.snapshot, ?_, ?_⟩
      · rw [poll_fs hc]
        exact hk'.held
      · rw [poll_fs hc]
        exact hk'.status
    | cons x xs =>
      have hx : x ∈ op.consumedBy r' := hcons ▸ List.mem_cons_self
      obtain ⟨u, hu, rfl, hm, hs⟩ := matches_of_consumedBy hx
      have hpath : r'.remotePath = u.2.1.remotePath := by
        obtain ⟨v, hv, hvx⟩ := List.mem_map.1 hx
        obtain ⟨-, hshows⟩ := List.mem_filter.1 hv
        rw [← hvx, ← (of_decide_eq_true hshows).2]
        rfl
      exact kept_of_found hk hg hr hu hm hpath hs.symm hk.dated.next
  · exact kept_of_found hk hg hr hu hm rfl rfl
      (dated_of_consumed ht hr' (mem_consumedBy_refreshed hu hm))

end Upsert

/-! ## The runs -/

theorem Sound.step {s s' : World × Consumed} (hi : Sound i s) (hc : Concerns i s ev)
    (hg : NotOvertaken m i s ev) (h : consumeStep m i s ev = some s') : Sound i s' := by
  obtain ⟨w, K⟩ := s
  obtain ⟨w', K'⟩ := s'
  obtain ⟨hstep, hK⟩ := withHistory_eq_some.1 h
  have hstep : Stratosync.step m w ev = some w' := hstep
  obtain rfl : K' = K.next i w ev w' := hK
  have hlen : ∀ path n, n < (K.versions path).length →
      n < ((K.next i w ev w').versions path).length := fun path n hn =>
    (List.getElem?_eq_some_iff.1 (Consumed.versions_next (List.getElem?_eq_getElem hn))).1
  refine ⟨hi.given.trans (seq_le_of_step hstep), hi.upToDate.next, fun path n hmem => ?_,
    fun r' hr' => ?_⟩
  · obtain hmem | hmem := List.mem_append.1 hmem
    · exact hlen path n (hi.announced path n hmem)
    · cases ev with
      | poll op =>
        obtain ⟨r', -, hmem⟩ := List.mem_flatMap.1 hmem
        obtain ⟨x, -, hmem⟩ := List.mem_flatMap.1 hmem
        obtain ⟨rfl, o, ho, -⟩ := Consumed.mem_announces.1 hmem
        exact hlen _ n (List.getElem?_eq_some_iff.1 ho).1
      | _ => cases hmem
  · obtain ⟨r, hr, -⟩ | ⟨-, hlt⟩ := row_inv_of_step hstep hr'
    swap
    · exact absurd hi.given hlt.not_ge
    have hk := hi.kept r hr
    by_cases hev : ∃ op, ev = .poll op
    · obtain ⟨op, rfl⟩ := hev
      obtain rfl := Option.some.inj hstep
      exact kept_of_poll hk hr hc hg hr' hi.given
    · have hev : ∀ op, ev ≠ .poll op := fun op h => hev ⟨op, h⟩
      obtain ⟨hpath, hdated, hstatus⟩ := status_of_concerns hk hr hc hg hev hstep hr'
      have hhyd := fun x hx hxi =>
        hydration_of_concerns hk hr hi.upToDate hi.announced hc hev hstep (x := x) hx hxi
      have hk' : Kept i w' K r' := by
        refine ⟨hpath ▸ hdated, fun x hx hxi e he => ?_, fun x hx hxi => ?_, hstatus⟩
        · rw [hpath]
          exact (hhyd x hx hxi).1 e he
        · rw [hpath]
          exact (hhyd x hx hxi).2
      exact hk'.extends (Consumed.extends_next hev)

theorem AtRest.sound {s : World × Consumed} (h : AtRest i s) : Sound i s where
  given := h.given
  upToDate := h.upToDate
  announced := h.announced
  kept := fun r hr => {
    dated := h.dated r hr
    snapshot := fun x hx hxi => absurd hxi (h.idle x hx)
    held := fun x hx hxi => absurd hxi (h.idle x hx)
    status := by
      obtain h | h | h := h.noneLost r hr fun x hx hxi => absurd hxi (h.idle x hx)
      · exact .inl h
      · exact .inr (.inl h)
      · exact .inr (.inr (.inl h)) }

theorem Sound.noneLost {s : World × Consumed} (h : Sound i s) : NoneLost i s := by
  intro r hr hdone
  obtain h | h | h | ⟨-, x, hx, hxi, hw⟩ := (h.kept r hr).status
  · exact .inl h
  · exact .inr (.inl h)
  · exact .inr (.inr h)
  · rw [hdone x hx hxi] at hw
    cases hw

/-- **A consumed change is not lost to a hydration**, in every run in which no upsert of the row
overtakes its hydrations. -/
theorem noneLost_of_run {m : Mount} {i : Inode} {s s' : World × Consumed} {evs : List Event}
    (h₀ : AtRest i s)
    (hg : Guarded (consumeStep m i) (fun s ev => Concerns i s ev ∧ NotOvertaken m i s ev) s evs)
    (hr : run (consumeStep m i) s evs = some s') : NoneLost i s' :=
  (inv_of_run (fun _ _ _ hi hg h => hi.step hg.1 hg.2 h) h₀.sound hg hr).noneLost

/-! ## A file that is replaced while it is downloaded -/

section Decidable

instance (i : Inode) (w : World) (K : Consumed) (op : RemoteOp) : Decidable (Truthful i w K op) :=
  inferInstanceAs (Decidable (∀ r ∈ (w.db.applyRemote op).getByInode i,
    ∀ x ∈ op.consumedBy r, x.announces K.versions ≠ []))

instance (i : Inode) : (s : World × Consumed) → (ev : Event) → Decidable (Concerns i s ev)
  | (w, _), .hydration k _ => inferInstanceAs (Decidable (∀ h ∈ w.hydrations[k]?, h.inode = i))
  | (w, K), .poll op =>
    match op with
    | .batchUpsert .. | .upsert .. => inferInstanceAs (Decidable (Truthful i w K _))
    | .deleteByPath .. | .deleteByItemId .. | .deleteStale .. => .isFalse id
  | _, .request (.open_ _) | _, .request (.read ..) | _, .request (.release _) | _, .read ..
  | _, .prefetch _ | _, .foreign _ | _, .clock _ => .isTrue trivial
  | _, .request (.write ..) | _, .request (.setattr ..) | _, .request (.fsync _)
  | _, .request (.create ..) | _, .request (.mkdir ..) | _, .request (.unlink ..)
  | _, .request (.rmdir ..) | _, .request (.rename ..) | _, .fuse _ | _, .launch _ | _, .upload ..
  | _, .startEviction | _, .eviction _ | _, .background .. => .isFalse id

instance (m : Mount) (i : Inode) :
    (s : World × Consumed) → (ev : Event) → Decidable (NotOvertaken m i s ev)
  | (w, _), .poll op => inferInstanceAs (Decidable (∀ r ∈ w.db.getByInode i, ∀ u ∈ op.upserts,
      Matches u r → ∀ h ∈ w.hydrations, h.inode = i → h.pc.downloaded = false ∧
        ∀ e ∈ h.pc.snapshot, e.remotePath = u.2.1.remotePath))
  | (w, _), .hydration k env =>
    inferInstanceAs (Decidable (∀ h ∈ w.hydrations[k]?, h.pc.Completes m w.fs env))
  | _, .request _ | _, .fuse _ | _, .launch _ | _, .upload .. | _, .read .. | _, .startEviction
  | _, .eviction _ | _, .background .. | _, .prefetch _ | _, .foreign _ | _, .clock _ =>
    .isTrue trivial

end Decidable

/-- Another client's file `a`, as the index has listed it. -/
def reportedOnce : World × Consumed where
  fst := { World.init sampleMount 0 with
    db := (World.init sampleMount 0).db.applyRemote (reportedFile ['a'] 1 ['v'])
    remote := (World.init sampleMount 0).remote.put ['a'] ⟨[1], some ['v'], 0, none⟩ }
  snd := {
    versions := fun path => if path = ['a'] then [⟨[1], some ['v'], 0, none⟩] else []
    announced := [(['a'], 0)] }

theorem atRest_reportedOnce : AtRest 2 reportedOnce where
  given := by decide
  idle := fun _ hx => by cases hx
  upToDate := by
    intro path o ho
    rw [reportedOnce, Option.mem_def, Remote.object_put] at ho
    by_cases hpath : path = ['a']
    · rw [if_pos hpath] at ho
      simp only [reportedOnce, if_pos hpath]
      exact congrArg some (Option.some.inj ho)
    · rw [if_neg hpath] at ho
      cases ho
  announced := by
    intro path n hn
    obtain ⟨rfl, rfl⟩ := Prod.mk.inj (List.mem_singleton.1 hn)
    decide
  dated := by
    intro r hr
    have hrow : (reportedOnce.1.db.getByInode 2).map (fun r => (r.remotePath, r.etag)) =
        some (['a'], some ['v']) := by decide
    rw [Option.mem_def.1 hr] at hrow
    obtain ⟨hpath, hetag⟩ := Prod.mk.inj (Option.some.inj hrow)
    rw [hpath, hetag]
    exact ⟨0, _, List.mem_singleton.2 rfl, rfl, rfl⟩
  noneLost := by
    intro r hr _
    have hrow : (reportedOnce.1.db.getByInode 2).map FileEntry.status = some .remote := by decide
    rw [Option.mem_def.1 hr] at hrow
    exact .inr (.inr (Option.some.inj hrow))

/-- The file is replaced, and the poller learns of it. -/
def replaceAndReport : List Event :=
  [foreignVersion ['a'] [2, 2] ['w'], .poll (reportedFile ['a'] 2 ['w'])]

/-- The poller reports the new version after the row was read and before the download. -/
def reportBeforeDownload : List Event :=
  [.request (.open_ 2), .hydration 0 .fine] ++ replaceAndReport ++
    [.hydration 0 .fine, .hydration 0 .fine, .hydration 0 .fine, .hydration 0 .fine,
      .hydration 0 .fine]

theorem noneLost_reportBeforeDownload :
    ∃ s, run (consumeStep sampleMount 2) reportedOnce reportBeforeDownload = some s ∧
      NoneLost 2 s := by
  have hguard : Guarded (consumeStep sampleMount 2)
      (fun s ev => Concerns 2 s ev ∧ NotOvertaken sampleMount 2 s ev) reportedOnce
      reportBeforeDownload := by decide
  exact ⟨_, rfl, noneLost_of_run atRest_reportedOnce hguard rfl⟩

/-- The poller reports the new version while the old one is being installed. -/
def reportAfterDownload : List Event :=
  [.request (.open_ 2), .hydration 0 .fine, .hydration 0 .fine, .hydration 0 .fine] ++
    replaceAndReport ++ [.hydration 0 .fine, .hydration 0 .fine, .hydration 0 .fine]

/-- The old bytes are cached, and nothing will report the new ones again. -/
theorem not_noneLost_reportAfterDownload :
    ¬∀ (m : Mount) (i : Inode) (s s' : World × Consumed) (evs : List Event), AtRest i s →
      Guarded (consumeStep m i) (fun s ev => Concerns i s ev) s evs →
        run (consumeStep m i) s evs = some s' → NoneLost i s' := by
  intro h
  have hguard : Guarded (consumeStep sampleMount 2) (fun s ev => Concerns 2 s ev) reportedOnce
      reportAfterDownload := by decide
  obtain ⟨s, hs⟩ : ∃ s, run (consumeStep sampleMount 2) reportedOnce reportAfterDownload =
    some s := ⟨_, rfl⟩
  have hlost := h _ _ _ s _ atRest_reportedOnce hguard hs
  have hrow : (run (consumeStep sampleMount 2) reportedOnce reportAfterDownload).map (fun s =>
      ((s.1.db.getByInode 2).map fun r => (r.status, r.cachePath, r.remotePath),
        s.1.hydrations.length, s.1.fs.files [['c'], ['a']],
        (s.2.versions ['a']).map RemoteObject.data, s.2.announced)) =
      some (some (.cached, some [['c'], ['a']], ['a']), 0, some [1], [[1], [2, 2]],
        [(['a'], 0), (['a'], 1)]) := rfl
  rw [hs, Option.map_some, Option.some.injEq] at hrow
  simp only [Prod.mk.injEq, Option.map_eq_some_iff] at hrow
  obtain ⟨⟨r, hr, hstatus, hpath, hremote⟩, hidle, hfile, hversions, hann⟩ := hrow
  have hdone : ∀ x ∈ s.1.hydrations, x.inode = 2 → x.pc.working = false := by
    rw [List.length_eq_zero_iff.1 hidle]
    intro x hx
    cases hx
  obtain ⟨-, cp, hcp, data, hdata, v, o, ho, rfl, hnew, -⟩ | hstale | hstale :=
    hlost r hr hdone
  · rw [hremote] at ho hnew
    have hv := hnew 1 (by rw [hann]; decide)
    obtain rfl := Option.some.inj (hpath.symm.trans hcp)
    have hold : o.data = [1] := Option.some.inj (hdata.symm.trans hfile)
    have hmap : ((s.2.versions ['a']).map RemoteObject.data)[v]? = some [1] := by
      rw [List.getElem?_map, ho, Option.map_some, hold]
    rw [hversions] at hmap
    obtain _ | _ | v := v
    · omega
    · exact absurd hmap (by decide)
    · cases hmap
  · rw [hstatus] at hstale
    cases hstale
  · rw [hstatus] at hstale
    cases hstale

end Stratosync

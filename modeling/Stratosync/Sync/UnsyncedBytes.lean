import Stratosync.Daemon.Rows
import Stratosync.Daemon.CacheFiles
import Stratosync.Foundations.Runs

/-!
# Bytes the backend has not accepted

The history variable `AcceptedBytes` records, for each inode, the bytes the backend accepted last.
A row whose cache file holds other bytes is dirty or uploading, unless the request that changed
them has not been answered yet (`Flagged`). `flagged_of_run` proves this of every run in which no
step records an upload, resets a row or accepts older bytes while the file has moved on, no change
fails to be marked, and no request changes the file of another row.

What breaks it: `set_uploaded` marks the row as cached whatever its status is by then.
-/

namespace Stratosync

open Foundations.Runs Foundations.Pool

/-- For each inode, the bytes the backend accepted last. -/
abbrev AcceptedBytes := Inode → Option Bytes

def recordAccepted (w : World) (ev : Event) (_ : World) (g : AcceptedBytes) : AcceptedBytes :=
  match acceptedUpload w ev with
  | some a => Function.update g a.inode (some a.data)
  | none => g

/-- The system with the history of accepted bytes. -/
abbrev acceptStep (m : Mount) :
    World × AcceptedBytes → Event → Option (World × AcceptedBytes) :=
  withHistory (step m) recordAccepted

/-- A request that changed the content of `i` has not been answered yet. -/
def InProgress (w : World) (i : Inode) : Prop := ∃ c ∈ w.fuse, c.inode = i

/-- The bytes in the cache file of `i`. -/
def World.cacheBytes (w : World) (i : Inode) : Option Bytes :=
  ((w.db.getByInode i).bind FileEntry.cachePath).bind w.fs.files

/-- The bytes in the cache file are those the backend accepted last, or are about to be marked. -/
def Settled (x : World × AcceptedBytes) (i : Inode) : Prop :=
  InProgress x.1 i ∨ ∀ b ∈ x.1.cacheBytes i, x.2 i = some b

/-- **Every row is flagged or settled.** -/
def Flagged (x : World × AcceptedBytes) : Prop := ∀ i, RowUnsynced x.1 i ∨ Settled x i

/-- The call may give a row a synced status. -/
def UploadPc.settles : UploadPc → Bool
  | .reset _ | .record _ => true
  | _ => false

def Request.isRename : Request → Bool
  | .rename .. => true
  | _ => false

/-- A step of requests and uploads that leaves no changed bytes unflagged: a change is marked, a
row is given a synced status only when it is settled, and the backend accepts no other bytes than
those in the cache file of a row that has one. -/
def KeepsFlags (m : Mount) (x : World × AcceptedBytes) : Event → Prop
  | .request r => OwnFile m x.1 r ∧ r.isRename = false
  | .fuse env => env.fault = true → ∀ c ∈ x.1.fuse,
      RowUnsynced x.1 c.inode ∨ ∀ r ∈ x.1.db.getByInode c.inode, r.cachePath = none
  | .upload k env =>
    (env.fault = false → ∀ u ∈ x.1.uploads[k]?, u.pc.settles = true → Settled x u.inode) ∧
      ∀ a ∈ acceptedUpload x.1 (.upload k env), RowUnsynced x.1 a.inode ∨
        InProgress x.1 a.inode ∨ ∀ b ∈ x.1.cacheBytes a.inode, b = a.data
  | .read k env => env.fault = false → ∀ rd ∈ x.1.reads[k]?, ∀ f ∈ rd.pc.claimed,
      Settled x f.inode
  | .hydration .. => False
  | _ => True

section Decidable

instance (w : World) (i : Inode) : Decidable (InProgress w i) :=
  inferInstanceAs (Decidable (∃ c ∈ w.fuse, c.inode = i))

instance (x : World × AcceptedBytes) (i : Inode) : Decidable (Settled x i) :=
  inferInstanceAs (Decidable (_ ∨ ∀ b ∈ x.1.cacheBytes i, x.2 i = some b))

instance (m : Mount) (x : World × AcceptedBytes) : (ev : Event) → Decidable (KeepsFlags m x ev)
  | .request r => inferInstanceAs (Decidable (OwnFile m x.1 r ∧ r.isRename = false))
  | .fuse env => inferInstanceAs (Decidable (env.fault = true → ∀ c ∈ x.1.fuse,
      RowUnsynced x.1 c.inode ∨ ∀ r ∈ x.1.db.getByInode c.inode, r.cachePath = none))
  | .upload k env => inferInstanceAs (Decidable (
      (env.fault = false → ∀ u ∈ x.1.uploads[k]?, u.pc.settles = true → Settled x u.inode) ∧
        ∀ a ∈ acceptedUpload x.1 (.upload k env), RowUnsynced x.1 a.inode ∨
          InProgress x.1 a.inode ∨ ∀ b ∈ x.1.cacheBytes a.inode, b = a.data))
  | .read k env => inferInstanceAs (Decidable (env.fault = false →
      ∀ rd ∈ x.1.reads[k]?, ∀ f ∈ rd.pc.claimed, Settled x f.inode))
  | .hydration .. => .isFalse id
  | .launch _ | .startEviction | .eviction _ | .background .. | .prefetch _ | .poll _
  | .foreign _ | .clock _ => .isTrue trivial

end Decidable

variable {m : Mount} {w w' : World} {g : AcceptedBytes} {ev : Event} {i : Inode} {p : PathBuf}

theorem mem_cacheBytes {b : Bytes} :
    b ∈ w.cacheBytes i ↔
      ∃ r, w.db.getByInode i = some r ∧ ∃ p, r.cachePath = some p ∧ w.fs.files p = some b := by
  simp only [World.cacheBytes, Option.mem_def, Option.bind_eq_some_iff]
  exact ⟨fun ⟨p, ⟨r, hr, hp⟩, hb⟩ => ⟨r, hr, p, hp, hb⟩,
    fun ⟨r, hr, p, hp, hb⟩ => ⟨p, ⟨r, hr, hp⟩, hb⟩⟩

/-! ## Requests that change a file -/

theorem inProgress_of_write {fh offset : ℕ} {data : Bytes} {f : OpenFile}
    (hf : w.openFiles fh = some f) (hb : (w.fs.files f.cachePath).isSome = true) :
    InProgress (handleWrite w fh offset data).2 f.inode := by
  obtain ⟨b, hb⟩ := Option.isSome_iff_exists.1 hb
  simp only [handleWrite, hf, CacheFs.write, hb, Option.map_some]
  exact ⟨_, rfl, rfl⟩

theorem inProgress_of_setattr {n : ℕ} {r : FileEntry} (hr : w.db.getByInode i = some r)
    (hp : r.cachePath = some p) (hb : (w.fs.files p).isSome = true) :
    InProgress (handleSetattr m w i n).2 i := by
  obtain ⟨b, hb⟩ := Option.isSome_iff_exists.1 hb
  simp only [handleSetattr, hr, hp, CacheFs.write, hb, Option.map_some]
  exact ⟨_, rfl, rfl⟩

/-- A request in progress ends with its row marked. -/
theorem marked_of_fuse {env : Env} {c : FuseCall} (hc : w.fuse = some c)
    (hg : KeepsFlags m (w, g) (.fuse env)) (h : step m w (.fuse env) = some w') {r' : FileEntry}
    (hr' : w'.db.getByInode c.inode = some r') (hp : r'.cachePath = some p) :
    r'.status.isUnsynced = true := by
  obtain rfl : c.tick w env = w' := by simpa [step, hc] using h
  rcases rows_of_fuseCall w env c with hrows | ⟨hdb, hf⟩
  · rw [hrows.self] at hr'
    obtain ⟨r, -, rfl⟩ := Option.map_eq_some_iff.1 hr'
    rfl
  · rw [hdb] at hr'
    rcases hf with hf | ⟨r, hr, hnone⟩
    · rcases hg hf c hc with ⟨r, hr, hs⟩ | hnone
      · obtain rfl := Option.some.inj (hr'.symm.trans hr)
        exact hs
      · simp [hnone r' hr'] at hp
    · obtain rfl := Option.some.inj (hr'.symm.trans hr)
      simp [hnone] at hp

/-- A request that is not answered in a step is in progress after it. -/
theorem InProgress.of_step (hi : InProgress w i) (h : step m w ev = some w') :
    InProgress w' i ∨ ∃ env c, ev = .fuse env ∧ w.fuse = some c ∧ c.inode = i := by
  obtain ⟨c, hc, hci⟩ := hi
  rcases fuse_of_step h with hf | ⟨env, rfl, -⟩ | ⟨r, -, hf, -⟩
  · exact .inl ⟨c, by rw [hf, hc]; rfl, hci⟩
  · exact .inr ⟨env, c, rfl, hc, hci⟩
  · rw [hf] at hc
    cases hc

/-- The bytes of a row that no request in progress is about did not change. -/
theorem files_of_notInProgress (hg : KeepsFlags m (w, g) ev) (h : step m w ev = some w')
    {r : FileEntry} (hr : w.db.getByInode i = some r) (hp : r.cachePath = some p)
    (hn : ¬InProgress w' i) {b : Bytes} (hb : w'.fs.files p = some b) :
    w.fs.files p = some b := by
  have hmem := Db.mem_rows_of_getByInode hr
  have hri := Db.inode_of_getByInode hr
  have hserve : ∀ req, ev = .request req → w' = serve m w req := by
    rintro req rfl
    exact (step_request h).2
  have hfile := file_of_step h p
  rw [hb] at hfile
  generalize hw : w.fs.files p = o at hfile ⊢
  cases hfile with
  | same => rfl
  | written hf =>
    have hi : i = _ := hri.symm.trans (hg.1 _ hf r hmem hp)
    refine absurd ?_ hn
    rw [hserve _ rfl, hi]
    exact inProgress_of_write hf (by rw [hw]; rfl)
  | @truncated j _ r₀ _ _ hr₀ hp₀ =>
    have hi : r.inode = j := hg.1 r₀ hr₀ r hmem (by rw [hp₀]; exact hp)
    rw [hri] at hi
    subst hi
    refine absurd ?_ hn
    rw [hserve _ rfl]
    exact inProgress_of_setattr hr₀ hp₀ (by rw [hw]; rfl)
  | @derived j _ r₀ _ hr₀ hp₀ =>
    have hi : r.inode = j := hg.1 r₀ hr₀ r hmem (by rw [hp₀]; exact hp)
    rw [hri] at hi
    subst hi
    obtain rfl := Option.some.inj (hr.symm.trans hr₀)
    rw [hp₀] at hp
    cases hp
  | created hq hcp => exact absurd hp (hg.1 _ hq _ hcp r hmem)
  | movedTo => cases hg.2
  | installed => exact hg.elim

/-- The step leaves the row a synced status only when it was settled. -/
theorem settled_of_synced (hi : Flagged (w, g)) (hg : KeepsFlags m (w, g) ev)
    (h : step m w ev = some w') {r' : FileEntry} (hr' : w'.db.getByInode i = some r')
    (hs : r'.status.isUnsynced = false) (hp : r'.cachePath = some p) :
    ∃ r, w.db.getByInode i = some r ∧ r.cachePath = some p ∧ Settled (w, g) i := by
  have hsettled : ∀ r, w.db.getByInode i = some r → r.status.isUnsynced = false →
      Settled (w, g) i := by
    intro r hr hs
    refine (hi i).resolve_left ?_
    rintro ⟨q, hq, hqs⟩
    obtain rfl := Option.some.inj (hr.symm.trans hq)
    rw [hs] at hqs
    cases hqs
  rcases row_inv_of_step h hr' with ⟨r, hr, hstep⟩ | ⟨hnew, -⟩
  · cases hstep with
    | same => exact ⟨r', hr, hp, hsettled r' hr hs⟩
    | opened hneeds =>
      exact ⟨r, hr, hp, hsettled r hr (SyncStatus.isUnsynced_of_needsHydration hneeds)⟩
    | reset hu hf => exact ⟨r, hr, hp, hg.1 hf _ hu rfl⟩
    | uploaded hu hf => exact ⟨r, hr, hp, hg.1 hf _ hu rfl⟩
    | claimedByRead hrd hpc hf => exact ⟨r, hr, hp, hg hf _ hrd _ (by rw [hpc]; rfl)⟩
    | refreshed href =>
      exact ⟨r, hr, href.cachePath_eq ▸ hp, hsettled r hr (href.isUnsynced_eq ▸ hs)⟩
    | dropped ho => simp [(ho r' rfl).1] at hp
    | reverted | evicted => cases hp
    | dirtied | marked | failed => cases hs
    | renamed => cases hg.2
    | claimed | timedOut | rolledBack | hydrated | backfilled => exact hg.elim
  · cases hnew with
    | created _ _ _ _ _ _ _ hdirty =>
      rw [hdirty] at hs
      cases hs
    | made _ _ _ _ hc =>
      rw [hc] at hp
      cases hp
    | listed hc =>
      rw [hc] at hp
      cases hp

/-- The bytes accepted for a row that is settled and not dirty are still those of its file. -/
theorem recordAccepted_eq (hg : KeepsFlags m (w, g) ev) (h : step m w ev = some w')
    {r' : FileEntry} (hr' : w'.db.getByInode i = some r') (hs : r'.status.isUnsynced = false)
    (hn : ¬InProgress w' i) {b : Bytes} (hb : b ∈ w.cacheBytes i) (hacc : g i = some b) :
    recordAccepted w ev w' g i = some b := by
  rw [recordAccepted]
  cases ha : acceptedUpload w ev with
  | none => exact hacc
  | some a =>
    dsimp only
    rw [Function.update_apply]
    split
    · rename_i hi
      subst hi
      obtain ⟨k, env, _, rfl, hu, -⟩ := acceptedUpload_eq_some ha
      rcases hg.2 a ha with ⟨r, hr, hrs⟩ | hp | hbytes
      · -- the call before the backend's answer leaves the row alone
        have hrow := row_of_step h hr
        rw [hr'] at hrow
        cases hrow with
        | same =>
          rw [hrs] at hs
          cases hs
        | reset hu' | reverted hu' | marked hu' | uploaded hu' | failed hu' =>
          cases hu.symm.trans hu'
      · rcases hp.of_step h with hp | ⟨_, _, hev, -⟩
        · exact absurd hp hn
        · cases hev
      · rw [hbytes b hb]
    · exact hacc

theorem flagged_of_step (hi : Flagged (w, g)) (hg : KeepsFlags m (w, g) ev)
    (h : step m w ev = some w') : Flagged (w', recordAccepted w ev w' g) := by
  intro i
  by_cases hs : RowUnsynced w' i
  · exact .inl hs
  by_cases hn : InProgress w' i
  · exact .inr (.inl hn)
  refine .inr (.inr fun b hb => ?_)
  obtain ⟨r', hr', p, hp, hb⟩ := mem_cacheBytes.1 hb
  have hs' : r'.status.isUnsynced = false :=
    Bool.eq_false_iff.2 fun hs' => hs ⟨r', hr', hs'⟩
  obtain ⟨r, hr, hrp, hset⟩ := settled_of_synced hi hg h hr' hs' hp
  have hb' : b ∈ w.cacheBytes i :=
    mem_cacheBytes.2 ⟨r, hr, p, hrp, files_of_notInProgress hg h hr hrp hn hb⟩
  refine recordAccepted_eq hg h hr' hs' hn hb' ?_
  rcases hset with hprog | hacc
  · rcases hprog.of_step h with hprog | ⟨env, c, rfl, hc, rfl⟩
    · exact absurd hprog hn
    · rw [marked_of_fuse hc hg h hr' hp] at hs'
      cases hs'
  · exact hacc b hb'

theorem flagged_init (m : Mount) (now : ℕ) : Flagged (World.init m now, fun _ => none) := by
  refine fun i => .inr (.inr fun b hb => ?_)
  obtain ⟨r, hr, p, hp, -⟩ := mem_cacheBytes.1 hb
  obtain rfl : r = rootEntry m.mountId := List.mem_singleton.1 (Db.mem_rows_of_getByInode hr)
  cases hp

/-- **Un-uploaded bytes are flagged.** In the state a guarded run reaches, a file whose bytes are
not those the backend accepted last, and which no unanswered request is about, is dirty or
uploading, and a restart would upload it. -/
theorem flagged_of_run {x y : World × AcceptedBytes} {evs : List Event} (h₀ : Flagged x)
    (hg : Guarded (acceptStep m) (KeepsFlags m) x evs) (hr : run (acceptStep m) x evs = some y)
    {i : Inode} {r : FileEntry} {p : PathBuf} {b : Bytes} (hrow : y.1.db.getByInode i = some r)
    (hk : r.kind = .file) (hp : r.cachePath = some p) (hb : y.1.fs.files p = some b)
    (hacc : y.2 i ≠ some b) (hn : ¬InProgress y.1 i) :
    r.status.isUnsynced = true ∧ r ∈ y.1.db.getPendingUploads r.mountId := by
  have hstep : ∀ x ev y, Flagged x → KeepsFlags m x ev → acceptStep m x ev = some y →
      Flagged y := by
    rintro ⟨w, g⟩ ev ⟨w', g'⟩ hi hg h
    obtain ⟨hw, hg'⟩ := withHistory_eq_some.1 h
    dsimp only at hw hg'
    subst hg'
    exact flagged_of_step hi hg hw
  have hs : r.status.isUnsynced = true := by
    rcases inv_of_run hstep h₀ hg hr i with ⟨q, hq, hs⟩ | hprog | hbytes
    · obtain rfl := Option.some.inj (hrow.symm.trans hq)
      exact hs
    · exact absurd hprog hn
    · exact absurd (hbytes b (mem_cacheBytes.2 ⟨r, hrow, p, hp, hb⟩)) hacc
  exact ⟨hs, List.mem_filter.2 ⟨Db.mem_rows_of_getByInode hrow, by simp [hs, hk, hp]⟩⟩

/-- A file is written again after its upload. -/
def writeAgain : List Event := uploadFirst ++ [.request (.write 1 0 [8]), .fuse .fine]

theorem flagged_writeAgain :
    ∃ y, run (acceptStep sampleMount) (World.init sampleMount 0, fun _ => none) writeAgain =
        some y ∧
      ∃ r, y.1.db.getByInode 2 = some r ∧
        r.status.isUnsynced = true ∧ r ∈ y.1.db.getPendingUploads r.mountId :=
  have hguard : Guarded (acceptStep sampleMount) (KeepsFlags sampleMount)
      (World.init sampleMount 0, fun _ => none) writeAgain := by decide
  ⟨_, rfl, _, rfl,
    flagged_of_run (i := 2) (b := [8]) (flagged_init sampleMount 0) hguard rfl rfl rfl rfl rfl
      (by decide) (by decide)⟩

/-- The file is written after the backend has read it and before the upload is recorded. -/
def writeDuringUpload : List Event :=
  uploadFirst.take 8 ++ [.request (.write 1 0 [8]), .fuse .fine, .upload 0 (.accepted ['v']),
    .upload 0 .fine, .upload 0 .fine]

theorem not_flagged_writeDuringUpload :
    ¬∀ (m : Mount) (y : World × AcceptedBytes) (evs : List Event),
      run (acceptStep m) (World.init m 0, fun _ => none) evs = some y →
        ∀ i r p b, y.1.db.getByInode i = some r → r.kind = .file → r.cachePath = some p →
          y.1.fs.files p = some b → y.2 i ≠ some b → ¬InProgress y.1 i →
            r.status.isUnsynced = true := by
  intro h
  have hs : SyncStatus.cached.isUnsynced = true :=
    h sampleMount _ writeDuringUpload rfl 2 _ _ [8] rfl rfl rfl rfl (by decide) (by decide)
  cases hs

end Stratosync

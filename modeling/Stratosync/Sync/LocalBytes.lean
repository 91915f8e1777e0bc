import Stratosync.Sync.UnsyncedBytes

/-!
# Local bytes the remote does not have

The history variable `LocalBytes` records what the requests of the user have left in the files,
from the answer of the request until the backend accepts just these bytes or the row is gone.

`HoldsLocal` is what these bytes are due: a row of the file that is dirty or uploading and names a
cache file that holds them. `holdsLocal_of_run` shows it in every run whose steps spare them
(`SparesLocal`): no step marks a row as synced, moves its cache file away or replaces it while its
bytes are due, and a request is answered when its row is marked.
-/

namespace Stratosync

open Foundations.Runs Foundations.Pool

/-- The file a request changes, and whose it is. -/
def changedFile (m : Mount) (w : World) : Request → Option (Inode × PathBuf)
  | .write fh _ _ => (w.openFiles fh).map fun f => (f.inode, f.cachePath)
  | .setattr i _ => (w.db.getByInode i).map fun r => (i, r.cachePath.getD (m.derivedPath r))
  | _ => none

/-- The row is marked when `setattr` answers; a write is answered in any case. -/
def FuseCall.answered (db : Db) (env : Env) : FuseCall → Bool
  | .write .. => true
  | .setattr i n none => (World.tryDb env (db.setDirtySize i n)).isSome
  | .setattr i n (some cp) => (World.tryDb env (db.setDirtyWithCachePath i cp n)).isSome

/-- The bytes of each file that were acknowledged and that the remote has not accepted, and what a
request in progress has left where. -/
structure LocalBytes where
  due : Inode → Option Bytes
  writing : Option (PathBuf × Bytes)

namespace LocalBytes

def none : LocalBytes := ⟨fun _ => .none, .none⟩

variable (g : LocalBytes)

/-- A request is served. -/
def serve (m : Mount) (w w' : World) : Request → LocalBytes
  | .create parent name =>
    match (handleCreate m w parent name).1 with
    | .ok (i, _) => { g with due := Function.update g.due i (some []) }
    | .error _ => g
  | r =>
    match w'.fuse, changedFile m w r with
    | some _, some (i, p) =>
      { due := Function.update g.due i .none, writing := (w'.fs.files p).map fun b => (p, b) }
    | _, _ => g

/-- A request is answered. -/
def answer (db : Db) (env : Env) (c : FuseCall) : LocalBytes :=
  { due := if c.answered db env then
      Function.update g.due c.inode (g.writing.map Prod.snd) else g.due
    writing := .none }

/-- The backend accepts bytes. -/
def accept (a : Accepted) : LocalBytes :=
  if g.due a.inode = some a.data then { g with due := Function.update g.due a.inode .none } else g

/-- Bytes of the files of rows that are left. -/
def restrict (db : Db) : LocalBytes :=
  { g with due := fun i => if (db.getByInode i).isSome then g.due i else .none }

/-- What a step does to the bytes of the rows it leaves. -/
def note (m : Mount) (w w' : World) : Event → LocalBytes
  | .request r => g.serve m w w' r
  | .fuse env => w.fuse.elim g fun c => g.answer w.db env c
  | .upload k env => (acceptedUpload w (.upload k env)).elim g g.accept
  | _ => g

end LocalBytes

def noteLocal (m : Mount) (w : World) (ev : Event) (w' : World) (g : LocalBytes) : LocalBytes :=
  (g.note m w w' ev).restrict w'.db

/-- The system with the history of local bytes. -/
abbrev localStep (m : Mount) : World × LocalBytes → Event → Option (World × LocalBytes) :=
  withHistory (step m) (noteLocal m)

/-- The row of the file is dirty or uploading, and its cache file holds the bytes. -/
structure KeptBy (m : Mount) (fs : CacheFs) (b : Bytes) (r : FileEntry) : Prop where
  isFile : r.kind = .file
  mount : r.mountId = m.mountId
  unsynced : r.status.isUnsynced = true
  bytes : ∃ p, r.cachePath = some p ∧ fs.files p = some b

def HoldsLocal (m : Mount) (db : Db) (fs : CacheFs) (i : Inode) (b : Bytes) : Prop :=
  ∃ r, db.getByInode i = some r ∧ KeptBy m fs b r

/-! ## The condition -/

/-- The file has local bytes the remote does not have. -/
def Due (x : World × LocalBytes) (i : Inode) : Prop := (x.2.due i).isSome = true

/-- The path is not that of such a file other than `i`. -/
def SparesFile (x : World × LocalBytes) (p : PathBuf) (i : Inode) : Prop :=
  ∀ r ∈ x.1.db.fileIndex.rows, r.cachePath = some p → Due x r.inode → r.inode = i

/-- The path is that of no such file. -/
def SparesPath (x : World × LocalBytes) (p : PathBuf) : Prop :=
  ∀ r ∈ x.1.db.fileIndex.rows, r.cachePath = some p → ¬Due x r.inode

/-- The call marks a row as synced without looking at it. -/
def HydrationPc.clears : HydrationPc → Bool
  | .claim _ | .wait _ none | .rollback .. | .record .. => true
  | _ => false

/-- The cache path a hydration is about to write. -/
def HydrationPc.installing : HydrationPc → Option PathBuf
  | .install _ cp _ => some cp
  | _ => none

/-- The cache path an upload has found missing. -/
def UploadPc.missing : UploadPc → Option PathBuf
  | .revert cp => some cp
  | _ => none

/-- The cache file the eviction is about to remove, and the row it is about to mark. -/
def EvictionPc.removing : EvictionPc → Option PathBuf
  | .remove c .. => some c.cachePath
  | _ => none

def EvictionPc.marking : EvictionPc → Option Inode
  | .evicted c .. => some c.inode
  | _ => none

/-- The rename moves the cache file at `cp` of the row `r`, and no other one that has bytes due;
when `r` has, it is entered at its new place. -/
structure SparesRename (m : Mount) (x : World × LocalBytes) (newParent : Inode) (newName : Str)
    (r q : FileEntry) (cp : PathBuf) : Prop where
  source : SparesFile x cp r.inode
  target : ∀ s ∈ x.1.db.fileIndex.rows, s.cachePath = some (movedCachePath cp newName) →
    Due x s.inode → s.inode = r.inode ∨
      ((dropDestination x.1.db m.mountId newParent newName).1.getByInode s.inode).isSome = false
  entered : Due x r.inode → ((dropDestination x.1.db m.mountId newParent newName).1.renameEntry
    r.inode newParent newName (joinRemote q.remotePath newName)
      (moveCacheFile x.1.fs r.cachePath newName).2).isSome = true

/-- The row of a request that is answered is marked, and its cache file has what the request left
there. -/
structure MarksRow (m : Mount) (x : World × LocalBytes) (env : Env) (c : FuseCall) (r : FileEntry)
    (p : PathBuf) (b : Bytes) : Prop where
  isFile : r.kind = .file
  mount : r.mountId = m.mountId
  path : (c.cachePath <|> r.cachePath) = some p
  bytes : x.1.fs.files p = some b
  marked : env.fault = true → r.status.isUnsynced = true ∧ r.cachePath = some p

/-- **The step spares the local bytes the remote does not have.** -/
def SparesLocal (m : Mount) (x : World × LocalBytes) : Event → Prop
  | .request (.write fh _ _) => ∀ f ∈ x.1.openFiles fh, SparesFile x f.cachePath f.inode
  | .request (.setattr i _) => ∀ r ∈ x.1.db.getByInode i,
      SparesFile x (r.cachePath.getD (m.derivedPath r)) i
  | .request (.create parent name) => ∀ q ∈ x.1.db.getByInode parent,
      ∀ cp ∈ safeCachePath x.1.fs m.cacheDir (joinRemote q.remotePath name), SparesPath x cp
  | .request (.unlink parent name) => ∀ r ∈ x.1.db.getByParentName m.mountId parent name,
      (∀ cp ∈ r.cachePath, SparesFile x cp r.inode) ∧
        (Due x r.inode → (x.1.db.deleteEntry r.inode).isSome = true)
  | .request (.rename parent name newParent newName) =>
      ∀ r ∈ x.1.db.getByParentName m.mountId parent name, ∀ q ∈ x.1.db.getByInode newParent,
        ∀ cp ∈ r.cachePath, SparesRename m x newParent newName r q cp
  | .fuse env => ∀ c ∈ x.1.fuse, c.answered x.1.db env = true → ∀ r ∈ x.1.db.getByInode c.inode,
      ∀ pb ∈ x.2.writing, MarksRow m x env c r pb.1 pb.2
  | .upload k env => env.fault = false → ∀ u ∈ x.1.uploads[k]?,
      (u.pc.settles = true → ¬Due x u.inode) ∧ ∀ cp ∈ u.pc.missing, Due x u.inode →
        ∀ r ∈ x.1.db.getByInode u.inode, r.cachePath ≠ some cp
  | .hydration k _ => ∀ h ∈ x.1.hydrations[k]?,
      (h.pc.clears = true → ¬Due x h.inode) ∧ ∀ cp ∈ h.pc.installing, SparesPath x cp
  | .read k env => env.fault = false → ∀ rd ∈ x.1.reads[k]?, ∀ f ∈ rd.pc.claimed, ¬Due x f.inode
  | .eviction _ => ∀ ev ∈ x.1.eviction,
      (∀ cp ∈ ev.pc.removing, SparesPath x cp) ∧ ∀ i ∈ ev.pc.marking, ¬Due x i
  | .poll op => ∀ r ∈ x.1.db.fileIndex.rows, Due x r.inode →
      ∀ r' ∈ (x.1.db.applyRemote op).getByInode r.inode,
        r'.kind = .file ∧ ∀ p ∈ r.cachePath, p ∉ x.1.db.cacheFilesDropped op
  | _ => True

section Decidable

instance (x : World × LocalBytes) (i : Inode) : Decidable (Due x i) :=
  inferInstanceAs (Decidable (_ = true))

instance (x : World × LocalBytes) (p : PathBuf) (i : Inode) : Decidable (SparesFile x p i) :=
  inferInstanceAs (Decidable (∀ r ∈ x.1.db.fileIndex.rows, _ → _ → _))

instance (x : World × LocalBytes) (p : PathBuf) : Decidable (SparesPath x p) :=
  inferInstanceAs (Decidable (∀ r ∈ x.1.db.fileIndex.rows, _ → ¬_))

instance (m : Mount) (x : World × LocalBytes) (newParent : Inode) (newName : Str)
    (r q : FileEntry) (cp : PathBuf) : Decidable (SparesRename m x newParent newName r q cp) :=
  decidable_of_iff (_ ∧ _ ∧ _) ⟨fun ⟨h₁, h₂, h₃⟩ => ⟨h₁, h₂, h₃⟩,
    fun ⟨h₁, h₂, h₃⟩ => ⟨h₁, h₂, h₃⟩⟩

instance (m : Mount) (x : World × LocalBytes) (env : Env) (c : FuseCall) (r : FileEntry)
    (p : PathBuf) (b : Bytes) : Decidable (MarksRow m x env c r p b) :=
  decidable_of_iff (_ ∧ _ ∧ _ ∧ _ ∧ _) ⟨fun ⟨h₁, h₂, h₃, h₄, h₅⟩ => ⟨h₁, h₂, h₃, h₄, h₅⟩,
    fun ⟨h₁, h₂, h₃, h₄, h₅⟩ => ⟨h₁, h₂, h₃, h₄, h₅⟩⟩

instance (m : Mount) (x : World × LocalBytes) : (ev : Event) → Decidable (SparesLocal m x ev)
  | .request (.write ..) => inferInstanceAs (Decidable (∀ f ∈ _, SparesFile x _ _))
  | .request (.setattr ..) => inferInstanceAs (Decidable (∀ r ∈ _, SparesFile x _ _))
  | .request (.create ..) => inferInstanceAs (Decidable (∀ q ∈ _, ∀ cp ∈ _, SparesPath x cp))
  | .request (.unlink ..) => inferInstanceAs (Decidable (∀ r ∈ _,
      (∀ cp ∈ _, SparesFile x cp _) ∧ (Due x _ → _)))
  | .request (.rename ..) => inferInstanceAs (Decidable (∀ r ∈ _, ∀ q ∈ _, ∀ cp ∈ _,
      SparesRename m x _ _ r q cp))
  | .fuse env => inferInstanceAs (Decidable (∀ c ∈ _, _ → ∀ r ∈ _, ∀ pb ∈ _,
      MarksRow m x env c r _ _))
  | .upload .. => inferInstanceAs (Decidable (_ → ∀ u ∈ _,
      (_ → ¬Due x _) ∧ ∀ cp ∈ _, Due x _ → ∀ r ∈ _, _))
  | .hydration .. => inferInstanceAs (Decidable (∀ h ∈ _,
      (_ → ¬Due x _) ∧ ∀ cp ∈ _, SparesPath x cp))
  | .read .. => inferInstanceAs (Decidable (_ → ∀ rd ∈ _, ∀ f ∈ _, ¬Due x _))
  | .eviction _ => inferInstanceAs (Decidable (∀ ev ∈ _,
      (∀ cp ∈ _, SparesPath x cp) ∧ ∀ i ∈ _, ¬Due x i))
  | .poll _ => inferInstanceAs (Decidable (∀ r ∈ _, Due x _ → ∀ r' ∈ _, _ ∧ ∀ p ∈ _, _))
  | .request (.open_ _) | .request (.release _) | .request (.fsync _) | .request (.read ..)
  | .request (.mkdir ..) | .request (.rmdir ..) | .launch _ | .startEviction | .background ..
  | .prefetch _ | .foreign _ | .clock _ => .isTrue trivial

end Decidable

variable {m : Mount} {x x' : World × LocalBytes} {ev : Event} {i : Inode} {b : Bytes}

/-! ## Where bytes that are due come from -/

/-- **The ways in which bytes are due after a step.** -/
inductive DueAfter (m : Mount) (x : World × LocalBytes) (w' : World) (i : Inode) (b : Bytes) :
    Event → Prop
  | before {e : Event} (h : x.2.due i = some b)
      (hreq : ∀ r p, e = .request r → w'.fuse.isSome = true → changedFile m x.1 r ≠ some (i, p))
      (hfuse : ∀ env c, e = .fuse env → x.1.fuse = some c → c.answered x.1.db env = true →
        c.inode ≠ i) : DueAfter m x w' i b e
  | created {parent name fh} (h : (handleCreate m x.1 parent name).1 = .ok (i, fh)) (hb : b = []) :
      DueAfter m x w' i b (.request (.create parent name))
  | answered {env c p} (hc : x.1.fuse = some c) (hi : c.inode = i)
      (ha : c.answered x.1.db env = true) (hw : x.2.writing = some (p, b)) :
      DueAfter m x w' i b (.fuse env)

theorem due_of_update {f : Inode → Option Bytes} {j : Inode} {o : Option Bytes}
    (h : Function.update f j o i = some b) : (j = i ∧ o = some b) ∨ (j ≠ i ∧ f i = some b) := by
  rw [Function.update_apply] at h
  split at h
  · exact .inl ⟨‹i = j›.symm, h⟩
  · exact .inr ⟨fun hj => ‹¬i = j› hj.symm, h⟩

theorem LocalBytes.due_restrict {g : LocalBytes} {db : Db} :
    (g.restrict db).due i = some b ↔ (db.getByInode i).isSome = true ∧ g.due i = some b := by
  rw [restrict]
  dsimp only
  split <;> simp [*]

theorem dueAfter_of_serve {w w' : World} {g : LocalBytes} {r : Request}
    (hb : (g.serve m w w' r).due i = some b) : DueAfter m (w, g) w' i b (.request r) := by
  have hchanged : ∀ r, (match w'.fuse, changedFile m w r with
      | some _, some (i, p) => LocalBytes.mk (Function.update g.due i none)
          ((w'.fs.files p).map fun b => (p, b))
      | _, _ => g).due i = some b → DueAfter m (w, g) w' i b (.request r) := by
    intro r hb
    split at hb
    · rename_i hf hc
      obtain ⟨-, hb⟩ | ⟨hne, hb⟩ := due_of_update hb
      · cases hb
      · refine .before hb (fun r' p hr hs hch => ?_) nofun
        obtain rfl := Event.request.inj hr
        exact hne (Prod.mk.inj (Option.some.inj (hc.symm.trans hch))).1
    · rename_i hnone
      refine .before hb (fun r' p hr hs hch => ?_) nofun
      obtain rfl := Event.request.inj hr
      obtain ⟨c, hc⟩ := Option.isSome_iff_exists.1 hs
      exact hnone c i p hc hch
  cases r with
  | create parent name =>
    rw [LocalBytes.serve] at hb
    split at hb
    · rename_i j fh hok
      obtain ⟨rfl, hnil⟩ | ⟨hne, hb⟩ := due_of_update hb
      · exact .created hok (Option.some.inj hnil).symm
      · exact .before hb (fun r' p hr _ hch => by cases hr; cases hch) nofun
    · exact .before hb (fun r' p hr _ hch => by cases hr; cases hch) nofun
  | _ => exact hchanged _ hb

theorem dueAfter_of_step (h : localStep m x ev = some x') (hb : x'.2.due i = some b) :
    (x'.1.db.getByInode i).isSome = true ∧ DueAfter m x x'.1 i b ev := by
  obtain ⟨w, g⟩ := x
  obtain ⟨-, hg⟩ := withHistory_eq_some.1 h
  rw [hg, noteLocal, LocalBytes.due_restrict] at hb
  refine ⟨hb.1, ?_⟩
  replace hb := hb.2
  cases ev with
  | request r => exact dueAfter_of_serve hb
  | fuse env =>
    rw [LocalBytes.note] at hb
    cases hc : w.fuse with
    | none =>
      rw [hc] at hb
      exact .before hb nofun fun _ c _ hc' => by rw [hc] at hc'; cases hc'
    | some c =>
      rw [hc, Option.elim_some, LocalBytes.answer] at hb
      dsimp only at hb
      split at hb
      · rename_i ha
        obtain ⟨hi, hb⟩ | ⟨hne, hb⟩ := due_of_update hb
        · obtain ⟨⟨p, b'⟩, hw, rfl⟩ := Option.map_eq_some_iff.1 hb
          exact .answered hc hi ha hw
        · refine .before hb nofun fun _ c' _ hc' _ => ?_
          obtain rfl := Option.some.inj (hc.symm.trans hc')
          exact hne
      · rename_i ha
        refine .before hb nofun fun _ c' he hc' ha' => ?_
        cases he
        obtain rfl := Option.some.inj (hc.symm.trans hc')
        exact absurd ha' ha
  | upload k env =>
    refine .before ?_ nofun nofun
    rw [LocalBytes.note] at hb
    cases ha : acceptedUpload w (.upload k env) with
    | none =>
      rw [ha] at hb
      exact hb
    | some a =>
      rw [ha, Option.elim_some, LocalBytes.accept] at hb
      split at hb
      · obtain ⟨-, hb⟩ | ⟨-, hb⟩ := due_of_update hb
        · cases hb
        · exact hb
      · exact hb
  | _ => exact .before hb nofun nofun

/-! ## Bytes that were due before -/

/-- What the steps keep: bytes that are due are held, and none are due to a file that a request in
progress has changed. -/
structure LocalKept (m : Mount) (x : World × LocalBytes) : Prop where
  bounded : InodesBounded x.1
  held : ∀ i b, x.2.due i = some b → HoldsLocal m x.1.db x.1.fs i b
  idle : ∀ c ∈ x.1.fuse, x.2.due c.inode = none

/-- The step is a rename of this row. -/
def Renames (m : Mount) (w : World) (ev : Event) (r : FileEntry) : Prop :=
  ∃ p n p' n', ev = .request (.rename p n p' n') ∧ w.db.getByParentName m.mountId p n = some r

variable {w' : World} {r r' : FileEntry}

theorem due_of_eq (hb : x.2.due i = some b) : Due x i := by
  rw [Due, hb]
  rfl

theorem db_of_revert_fault {w : World} {k : ℕ} {env : Env} {cp : PathBuf}
    (hu : w.uploads[k]? = some ⟨i, .revert cp⟩) (hf : env.fault = true)
    (h : step m w (.upload k env) = some w') : w'.db = w.db := by
  obtain ⟨u, hu', rfl⟩ := Option.map_eq_some_iff.1 h
  obtain rfl := Option.some.inj (hu.symm.trans hu')
  simp [Upload.tick, hf]

/-- The row stays dirty or uploading, and keeps its cache path. -/
theorem row_kept (hx : LocalKept m x) (hg : SparesLocal m x ev) (h : step m x.1 ev = some w')
    (hb : x.2.due i = some b) (hr : x.1.db.getByInode i = some r) (hk : KeptBy m x.1.fs b r)
    (hr' : w'.db.getByInode i = some r') (hn : ¬Renames m x.1 ev r) :
    r'.kind = .file ∧ r'.mountId = m.mountId ∧ r'.status.isUnsynced = true ∧
      r'.cachePath = r.cachePath := by
  have hd := due_of_eq hb
  have hstep := row_of_step h hr
  rw [hr'] at hstep
  cases hstep with
  | same => exact ⟨hk.isFile, hk.mount, hk.unsynced, rfl⟩
  | dirtied hc =>
    rw [hx.idle _ hc] at hb
    cases hb
  | opened hneeds =>
    have := SyncStatus.isUnsynced_of_needsHydration hneeds
    rw [hk.unsynced] at this
    cases this
  | renamed hr₀ hq => exact absurd ⟨_, _, _, _, rfl, hr₀⟩ hn
  | marked => exact ⟨hk.isFile, hk.mount, rfl, rfl⟩
  | failed => exact ⟨hk.isFile, hk.mount, rfl, rfl⟩
  | reset hu hf => exact absurd hd ((hg hf _ hu).1 rfl)
  | uploaded hu hf => exact absurd hd ((hg hf _ hu).1 rfl)
  | @reverted k env _ _ cp hu hat =>
    have hpath : r.cachePath = some cp := by
      rw [Db.isDirtyAt, decide_eq_true_eq] at hat
      exact hat.2.2
    cases hf : env.fault with
    | false => exact absurd hpath ((hg hf _ hu).2 cp rfl hd r hr)
    | true =>
      -- the call fails, and leaves the row
      have hdb := db_of_revert_fault hu hf h
      rw [hdb, hr] at hr'
      rw [← Option.some.inj hr']
      exact ⟨hk.isFile, hk.mount, hk.unsynced, rfl⟩
  | claimed hh => exact absurd hd ((hg _ hh).1 rfl)
  | timedOut hh => exact absurd hd ((hg _ hh).1 rfl)
  | rolledBack hh => exact absurd hd ((hg _ hh).1 rfl)
  | hydrated hh => exact absurd hd ((hg _ hh).1 rfl)
  | backfilled => exact ⟨hk.isFile, hk.mount, hk.unsynced, rfl⟩
  | claimedByRead hrd hpc hf => exact absurd hd (hg hf _ hrd _ (by rw [hpc]; rfl))
  | evicted he hpc => exact absurd hd ((hg _ he).2 _ (by rw [hpc]; rfl))
  | refreshed href =>
    have hri := Db.inode_of_getByInode hr
    obtain rfl := Option.some.inj h
    have hkind := (hg r (Db.mem_rows_of_getByInode hr) (hri ▸ hd) r' (hri ▸ hr')).1
    refine ⟨hkind, ?_, href.isUnsynced_eq.trans hk.unsynced, href.cachePath_eq⟩
    obtain rfl | ⟨_, -, -, _, rfl⟩ := href
    · exact hk.mount
    · exact hk.mount
  | dropped ho => exact absurd (hx.bounded i r hr) (ho r' rfl).2.2.not_ge

/-- What a rename leaves: it does nothing, or drops the row at its destination, moves the cache
file and enters the row at its new place, unless that is refused. -/
theorem handleRename_spec {w : World} {p : Inode} {n : Str} (p' : Inode) (n' : Str)
    (hr : w.db.getByParentName m.mountId p n = some r) :
    ((handleRename m w p n p' n').2.db = w.db ∧ (handleRename m w p n p' n').2.fs = w.fs) ∨
    ∃ q, w.db.getByInode p' = some q ∧
      (handleRename m w p n p' n').2.fs = (moveCacheFile w.fs r.cachePath n').1 ∧
      (((dropDestination w.db m.mountId p' n').1.renameEntry r.inode p' n'
          (joinRemote q.remotePath n') (moveCacheFile w.fs r.cachePath n').2 = none ∧
        (handleRename m w p n p' n').2.db = (dropDestination w.db m.mountId p' n').1) ∨
      ∃ db, (dropDestination w.db m.mountId p' n').1.renameEntry r.inode p' n'
          (joinRemote q.remotePath n') (moveCacheFile w.fs r.cachePath n').2 = some db ∧
        ∀ j, (handleRename m w p n p' n').2.db.getByInode j = db.getByInode j) := by
  simp only [handleRename, hr]
  split
  · exact .inl ⟨rfl, rfl⟩
  split
  · exact .inl ⟨rfl, rfl⟩
  rename_i q hq
  refine .inr ⟨q, hq, ?_⟩
  split
  · rename_i hnone
    exact ⟨rfl, .inl ⟨hnone, rfl⟩⟩
  · rename_i db hdb
    refine ⟨rfl, .inr ⟨db, hdb, fun j => ?_⟩⟩
    dsimp only
    split <;> rfl

/-- The cache file that a renamed row names has the content of the one it named before. -/
theorem file_of_renamed {w : World} {p p' q : Inode} {n n' : Str} {path : Str}
    (h : step m w (.request (.rename p n p' n')) = some w')
    (hsrc : w.db.getByParentName m.mountId p n = some r) (hr : w.db.getByInode i = some r)
    (hr' : w'.db.getByInode i = some { r with
      parent := some q, name := n', remotePath := path
      cachePath := (moveCacheFile w.fs r.cachePath n').2 }) {cp' : PathBuf}
    (hcp' : cp' ∈ (moveCacheFile w.fs r.cachePath n').2) (hb : b ∈ w'.fs.files cp') :
    ∃ cp ∈ r.cachePath, b ∈ w.fs.files cp := by
  have hw : w' = (handleRename m w p n p' n').2 := (step_request h).2
  obtain ⟨hdb, hfs⟩ | ⟨-, -, hfs, -⟩ := handleRename_spec p' n' hsrc
  · -- the row is as it was
    rw [hw, hdb, hr] at hr'
    have hcp := congrArg FileEntry.cachePath (Option.some.inj hr')
    rw [hw, hfs] at hb
    exact ⟨cp', hcp ▸ hcp', hb⟩
  · rw [hw, hfs] at hb
    cases hcp : r.cachePath with
    | none =>
      rw [hcp] at hcp'
      cases hcp'
    | some cp =>
      simp only [hcp, moveCacheFile] at hcp' hb
      split at hcp'
      · rename_i hmove
        simp only [hmove] at hb
        exact ⟨cp', hcp', hb⟩
      · rename_i fs' hmove
        obtain ⟨data, hdata, hfiles⟩ := CacheFs.files_of_rename hmove
        obtain rfl := Option.some.inj hcp'
        simp only [hmove] at hb
        rw [Option.mem_def, hfiles, if_pos rfl] at hb
        exact ⟨cp, rfl, hdata.trans hb⟩

/-- A row that the destination of a rename drops is not there after it. -/
theorem getByInode_of_renamed {db₁ db : Db} {j : Inode} {q : Inode} {n path : Str}
    {c : Option PathBuf} (h : db₁.renameEntry j q n path c = some db)
    (hnone : db₁.getByInode i = none) : db.getByInode i = none := by
  rw [(Db.renameEntry_rows h).rows, hnone]
  split <;> rfl

/-- The poller removes the cache files of the rows it drops. -/
theorem files_of_poll {w : World} {op : RemoteOp} {p : PathBuf}
    (hp : p ∉ w.db.cacheFilesDropped op) : (w.poll op).fs.files p = w.fs.files p := by
  have hkeep : ∀ (l : List PathBuf) (fs : CacheFs), p ∉ l →
      (l.foldl (fun fs q => fs.removeIfPresent (some q)) fs).files p = fs.files p := by
    intro l
    induction l with
    | nil => exact fun _ _ => rfl
    | cons q l ih =>
      intro fs hl
      rw [List.mem_cons, not_or] at hl
      rw [List.foldl_cons, ih _ hl.2]
      obtain hq | ⟨hq, -⟩ := files_removeIfPresent fs (some q) p
      · exact hq
      · exact absurd (Option.some.inj hq).symm hl.1
  exact hkeep _ w.fs hp

/-- The file at the cache path of the row stays as it is. -/
theorem file_kept (hg : SparesLocal m x ev) (h : step m x.1 ev = some w')
    (hb : x.2.due i = some b) (hr : x.1.db.getByInode i = some r)
    (hr' : w'.db.getByInode i = some r') (hn : ¬Renames m x.1 ev r)
    (hreq : ∀ q p, ev = .request q → w'.fuse.isSome = true → changedFile m x.1 q ≠ some (i, p))
    {p : PathBuf} (hp : r.cachePath = some p) : w'.fs.files p = x.1.fs.files p := by
  have hd := due_of_eq hb
  have hmem := Db.mem_rows_of_getByInode hr
  have hri := Db.inode_of_getByInode hr
  have hd' : Due x r.inode := hri.symm ▸ hd
  have hsame : ∀ {r₀}, x.1.db.getByInode r₀.inode = some r₀ → r.inode = r₀.inode → r = r₀ :=
    fun h₀ hi => Option.some.inj (hr.symm.trans (hri.symm.trans hi ▸ h₀))
  have hfile := file_of_step h p
  generalize hold : x.1.fs.files p = o, hnew : w'.fs.files p = o' at hfile ⊢
  cases hfile with
  | same => rfl
  | @written fh _ _ f _ hf =>
    have hi : i = f.inode := hri.symm.trans (hg f hf r hmem hp hd')
    refine absurd ?_ (hreq _ f.cachePath rfl ?_)
    · rw [changedFile, hf, hi]
      rfl
    · rw [(step_request h).2]
      obtain ⟨c, hc, -⟩ := inProgress_of_write (w := x.1) hf (by rw [hold]; rfl)
      exact Option.isSome_iff_exists.2 ⟨c, hc⟩
  | @truncated j n r₀ _ _ hr₀ hp₀ =>
    have hi : i = j := hri.symm.trans (hg r₀ hr₀ r hmem (by rw [hp₀]; exact hp) hd')
    refine absurd ?_ (hreq _ p rfl ?_)
    · rw [changedFile, hr₀, hi, Option.map_some, hp₀]
      rfl
    · rw [(step_request h).2]
      obtain ⟨c, hc, -⟩ := inProgress_of_setattr (m := m) hr₀ hp₀ (by rw [hold]; rfl)
      exact Option.isSome_iff_exists.2 ⟨c, hc⟩
  | @derived j n r₀ _ hr₀ hp₀ =>
    have hj : r.inode = j := hg r₀ hr₀ r hmem (by rw [hp₀]; exact hp) hd'
    obtain rfl := Option.some.inj (hr.symm.trans ((hri.symm.trans hj) ▸ hr₀))
    rw [hp₀] at hp
    cases hp
  | created hq hcp => exact absurd hd' (hg _ hq _ hcp r hmem hp)
  | @unlinked q n r₀ _ _ hr₀ hcp =>
    obtain ⟨hown, hdel⟩ := hg r₀ hr₀
    obtain rfl := hsame (Db.getByParentName_spec hr₀).1 (hown _ hcp r hmem hp hd')
    obtain ⟨db, hdb⟩ := Option.isSome_iff_exists.1 (hdel hd')
    rw [(step_request h).2] at hr'
    simp only [serve, handleUnlink, hr₀, hdb] at hr'
    change db.getByInode i = some r' at hr'
    rw [Db.getByInode_deleteEntry hdb, if_pos hri.symm] at hr'
    cases hr'
  | @movedAway q n q' n' r₀ _ _ hr₀ hcp =>
    have hw : w' = (handleRename m x.1 q n q' n').2 := (step_request h).2
    obtain ⟨-, hfs⟩ | ⟨q₀, hq₀, -⟩ := handleRename_spec q' n' hr₀
    · rw [← hold, ← hnew, hw, hfs]
    · have hs := hg r₀ hr₀ q₀ hq₀ p hcp
      obtain rfl := hsame (Db.getByParentName_spec hr₀).1 (hs.source r hmem hp hd')
      exact absurd ⟨_, _, _, _, rfl, hr₀⟩ hn
  | @movedTo q n q' n' r₀ cp _ data hr₀ hcp hdata =>
    have hw : w' = (handleRename m x.1 q n q' n').2 := (step_request h).2
    obtain ⟨-, hfs⟩ | ⟨q₀, hq₀, -, hdb⟩ := handleRename_spec q' n' hr₀
    · rw [← hold, ← hnew, hw, hfs]
    · have hs := hg r₀ hr₀ q₀ hq₀ cp hcp
      obtain hi | hgone := hs.target r hmem hp hd'
      · obtain rfl := hsame (Db.getByParentName_spec hr₀).1 hi
        exact absurd ⟨_, _, _, _, rfl, hr₀⟩ hn
      · -- the row was at the destination
        rw [hri, Option.isSome_eq_false_iff, Option.isNone_iff_eq_none] at hgone
        rw [hw] at hr'
        obtain ⟨-, hdb⟩ | ⟨db, hre, hdb⟩ := hdb
        · rw [hdb, hgone] at hr'
          cases hr'
        · rw [hdb, getByInode_of_renamed hre hgone] at hr'
          cases hr'
  | installed hh => exact absurd hd' ((hg _ hh).2 _ rfl r hmem hp)
  | evicted he hpc => exact absurd hd' ((hg _ he).1 _ (by rw [hpc]; rfl) r hmem hp)
  | dropped =>
    obtain rfl := Option.some.inj h
    have hnot := (hg r hmem hd' r' (hri.symm ▸ hr')).2 p hp
    rw [← hold, ← hnew, files_of_poll hnot]

/-- The cache file of a renamed row is where the row says it is. -/
theorem files_of_moveCacheFile {fs : CacheFs} {cp : PathBuf} {n : Str}
    (h : fs.files cp = some b) :
    ∃ p, (moveCacheFile fs (some cp) n).2 = some p ∧
      (moveCacheFile fs (some cp) n).1.files p = some b := by
  simp only [moveCacheFile]
  split
  · exact ⟨cp, rfl, h⟩
  · rename_i fs' hfs
    obtain ⟨data, hd, hfiles⟩ := CacheFs.files_of_rename hfs
    obtain rfl := Option.some.inj (h.symm.trans hd)
    exact ⟨_, rfl, (hfiles _).trans (if_pos rfl)⟩

/-- A row with bytes due is renamed together with its cache file. -/
theorem holdsLocal_of_rename (hg : SparesLocal m x ev) (h : step m x.1 ev = some w')
    (hb : x.2.due i = some b) (hr : x.1.db.getByInode i = some r) (hk : KeptBy m x.1.fs b r)
    (hr' : w'.db.getByInode i = some r') (hn : Renames m x.1 ev r) :
    HoldsLocal m w'.db w'.fs i b := by
  obtain ⟨q, n, q', n', rfl, hsrc⟩ := hn
  obtain ⟨cp, hcp, hfile⟩ := hk.bytes
  have hri := Db.inode_of_getByInode hr
  have hd' : Due x r.inode := hri.symm ▸ due_of_eq hb
  have hw : w' = (handleRename m x.1 q n q' n').2 := (step_request h).2
  obtain ⟨hdb, hfs⟩ | ⟨q₀, hq₀, hfs, hdb⟩ := handleRename_spec q' n' hsrc
  · rw [hw, hdb, hfs]
    exact ⟨r, hr, hk⟩
  · have hs := (hg r hsrc q₀ hq₀ cp hcp).entered hd'
    obtain ⟨hnone, -⟩ | ⟨db, hre, hdb⟩ := hdb
    · rw [hnone] at hs
      cases hs
    · have hrow : w'.db.getByInode i = db.getByInode i := hw ▸ hdb i
      rw [hrow, (Db.renameEntry_rows hre).rows, if_pos hri.symm] at hr'
      obtain hsame | ⟨-, -, -, hgone⟩ :=
        getByInode_dropDestination x.1.db m.mountId q' n' i
      · rw [hsame, hr, Option.map_some] at hr'
        have hrow' : w'.db.getByInode i = some r' := by
          rw [hrow, (Db.renameEntry_rows hre).rows, if_pos hri.symm, hsame, hr, ← hr']
          rfl
        refine ⟨r', hrow', ?_⟩
        obtain rfl := Option.some.inj hr'
        refine ⟨hk.isFile, hk.mount, hk.unsynced, ?_⟩
        obtain ⟨p, hp, hfile'⟩ := files_of_moveCacheFile (n := n') hfile
        rw [← hcp] at hp hfile'
        exact ⟨p, hp, by rw [hw, hfs]; exact hfile'⟩
      · rw [hgone] at hr'
        cases hr'

/-! ## Bytes that become due -/

/-- What a creation that succeeds has done. -/
theorem handleCreate_spec {w : World} {parent : Inode} {name : Str} {fh : ℕ}
    (h : (handleCreate m w parent name).1 = .ok (i, fh)) :
    ∃ q cp fs₁ fs₂ db, w.db.getByInode parent = some q ∧
      safeCachePath w.fs m.cacheDir (joinRemote q.remotePath name) = some cp ∧
      w.fs.createDirAll cp.dropLast = some fs₁ ∧ fs₁.create cp = some fs₂ ∧
      w.db.insertFile
        { mountId := m.mountId, parent, name, remotePath := joinRemote q.remotePath name
          kind := .file, size := 0, mtime := w.db.now, etag := none, status := .dirty
          cachePath := some cp, cacheSize := some 0 } = some (i, db) ∧
      (handleCreate m w parent name).2.db = db ∧ (handleCreate m w parent name).2.fs = fs₂ := by
  generalize hres : handleCreate m w parent name = res at h ⊢
  simp only [handleCreate, World.allocFh] at hres
  repeat' split at hres
  all_goals subst hres
  all_goals cases h
  exact ⟨_, _, _, _, _, ‹_›, ‹_›, ‹_›, ‹_›, ‹_›, rfl, rfl⟩

/-- A new file is dirty and empty. -/
theorem holdsLocal_of_create {w : World} {parent : Inode} {name : Str} {fh : ℕ}
    (h : (handleCreate m w parent name).1 = .ok (i, fh)) :
    HoldsLocal m (handleCreate m w parent name).2.db (handleCreate m w parent name).2.fs i [] := by
  obtain ⟨q, cp, fs₁, fs₂, db, -, -, -, hfs, hins, hdb, hfs'⟩ := handleCreate_spec h
  obtain ⟨db₁, h₁, he⟩ := Option.map_eq_some_iff.1 hins
  obtain ⟨hi, rfl⟩ := Prod.mk.inj he
  have hrow := Db.getByInode_insertRow h₁ i
  rw [if_pos hi.symm] at hrow
  rw [hdb, hfs']
  exact ⟨_, hrow, rfl, rfl, rfl, cp, rfl, by rw [CacheFs.files_of_create hfs, if_pos rfl]⟩

/-- A request that is answered has marked its row, unless the call failed. -/
theorem rowMapped_of_answer {w : World} {env : Env} {c : FuseCall} {p : PathBuf}
    (ha : c.answered w.db env = true) (hf : env.fault = false)
    (hr : w.db.getByInode c.inode = some r) (hp : (c.cachePath <|> r.cachePath) = some p) :
    Db.RowMapped w.db (c.tick w env).db c.inode c.mark := by
  obtain hrows | ⟨-, hfault | ⟨r₀, hr₀, hnone⟩⟩ := rows_of_fuseCall w env c
  · exact hrows
  · rw [hf] at hfault
    cases hfault
  · obtain rfl := Option.some.inj (hr.symm.trans hr₀)
    cases hcp : c.cachePath with
    | none =>
      rw [hcp, hnone] at hp
      cases hp
    | some cp =>
      obtain ⟨i, n⟩ | ⟨i, n, _ | cp⟩ := c
      · cases hcp
      · cases hcp
      · obtain ⟨db, hdb⟩ := Option.isSome_iff_exists.1 ha
        simp only [FuseCall.tick, hdb, World.enqueue]
        exact Db.setDirtyWithCachePath_rows (tryDb_eq_some.1 hdb).2

/-- The row of a request that is answered is marked, or was dirty or uploading before. -/
theorem holdsLocal_of_answer {env : Env} {c : FuseCall} {p : PathBuf}
    (ha : c.answered x.1.db env = true) (hr : x.1.db.getByInode c.inode = some r)
    (hm : MarksRow m x env c r p b) :
    HoldsLocal m (c.tick x.1 env).db (c.tick x.1 env).fs c.inode b := by
  have hfs : (c.tick x.1 env).fs = x.1.fs := by
    obtain ⟨_, _, hw⟩ := fuseCall_tick_eq x.1 env c
    rw [hw]
  have hmark : Db.RowMapped x.1.db (c.tick x.1 env).db c.inode c.mark →
      HoldsLocal m (c.tick x.1 env).db (c.tick x.1 env).fs c.inode b := fun hrows =>
    ⟨c.mark r, by rw [hrows.self, hr]; rfl, hm.isFile, hm.mount, rfl, p, hm.path, hfs ▸ hm.bytes⟩
  cases hf : env.fault with
  | false => exact hmark (rowMapped_of_answer ha hf hr hm.path)
  | true =>
    obtain hrows | ⟨hdb, -⟩ := rows_of_fuseCall x.1 env c
    · exact hmark hrows
    · obtain ⟨hu, hp⟩ := hm.marked hf
      exact ⟨r, hdb ▸ hr, hm.isFile, hm.mount, hu, p, hp, hfs ▸ hm.bytes⟩

/-! ## Steps and runs -/

/-- A request that has to be answered later has changed a file of its row. -/
theorem changedFile_of_serve {w : World} {q : Request} {c : FuseCall} (hw : w.fuse = none)
    (hc : (serve m w q).fuse = some c) : ∃ p, changedFile m w q = some (c.inode, p) := by
  cases q with
  | write fh offset data =>
    simp only [serve, handleWrite] at hc
    split at hc
    · rw [hw] at hc
      cases hc
    · rename_i f hf
      split at hc
      · rw [hw] at hc
        cases hc
      · obtain rfl := Option.some.inj hc
        exact ⟨f.cachePath, by rw [changedFile, hf]; rfl⟩
  | setattr i n =>
    cases hr : w.db.getByInode i with
    | none =>
      simp only [serve, handleSetattr, hr, hw] at hc
      cases hc
    | some r =>
      have hi : c.inode = i := by
        simp only [serve, handleSetattr, hr] at hc
        repeat' split at hc
        all_goals first
          | exact (congrArg FuseCall.inode (Option.some.inj hc)).symm
          | cases hw.symm.trans hc
      exact ⟨_, by rw [changedFile, hr, hi]; rfl⟩
  | _ =>
    simp only [serve, handleOpen, handleRelease, handleFsync, handleRead, handleCreate,
      handleMkdir, handleUnlink, handleRmdir, handleRename, World.allocFh, World.enqueue,
      World.logDb] at hc
    repeat' split at hc
    all_goals cases hw.symm.trans hc

/-- After a request, none are due to the file it has changed. -/
theorem idle_of_step (hx : LocalKept m x) (h : localStep m x ev = some x') :
    ∀ c ∈ x'.1.fuse, x'.2.due c.inode = none := by
  intro c hc
  have hstep := (withHistory_eq_some.1 h).1
  rw [Option.eq_none_iff_forall_ne_some]
  intro b hb
  have hserve : ∀ q, ev = .request q → ∃ p, changedFile m x.1 q = some (c.inode, p) := by
    rintro q rfl
    obtain ⟨hnone, hw⟩ := step_request hstep
    exact changedFile_of_serve hnone (hw ▸ hc)
  cases (dueAfter_of_step h hb).2 with
  | before hb₀ hreq hfuse =>
    obtain hf | ⟨env, -, hf⟩ | ⟨q, rfl, -⟩ := fuse_of_step hstep
    · rw [hx.idle c (hf ▸ hc)] at hb₀
      cases hb₀
    · rw [hf] at hc
      cases hc
    · obtain ⟨p, hp⟩ := hserve q rfl
      exact hreq q p rfl (Option.isSome_iff_exists.2 ⟨c, hc⟩) hp
  | created =>
    obtain ⟨p, hp⟩ := hserve _ rfl
    cases hp
  | @answered env c' _ hc' =>
    rw [Stratosync.step, hc', Option.map_some, Option.some.injEq] at hstep
    obtain ⟨_, _, hw⟩ := fuseCall_tick_eq x.1 env c'
    rw [← hstep, hw] at hc
    cases hc

theorem LocalKept.step (hx : LocalKept m x) (hg : SparesLocal m x ev)
    (h : localStep m x ev = some x') : LocalKept m x' := by
  have hstep := (withHistory_eq_some.1 h).1
  refine ⟨hx.bounded.step hstep, fun i b hb => ?_, idle_of_step hx h⟩
  obtain ⟨hrow, hdue⟩ := dueAfter_of_step h hb
  obtain ⟨r', hr'⟩ := Option.isSome_iff_exists.1 hrow
  cases hdue with
  | before hb₀ hreq hfuse =>
    obtain ⟨r, hr, hk⟩ := hx.held i b hb₀
    by_cases hn : Renames m x.1 ev r
    · exact holdsLocal_of_rename hg hstep hb₀ hr hk hr' hn
    · obtain ⟨hkind, hmount, hu, hcp⟩ := row_kept hx hg hstep hb₀ hr hk hr' hn
      obtain ⟨p, hp, hfile⟩ := hk.bytes
      refine ⟨r', hr', hkind, hmount, hu, p, hcp.trans hp, ?_⟩
      rw [file_kept hg hstep hb₀ hr hr' hn hreq hp, hfile]
  | created hok hnil =>
    rw [(step_request hstep).2, hnil]
    exact holdsLocal_of_create hok
  | @answered env c p hc hi ha hw =>
    subst hi
    obtain ⟨r, hr, -⟩ | ⟨hnew, -⟩ := row_inv_of_step hstep hr'
    · have hm := hg c hc ha r hr _ hw
      rw [Stratosync.step, hc, Option.map_some, Option.some.injEq] at hstep
      exact hstep ▸ holdsLocal_of_answer ha hr hm
    · cases hnew

/-- The system starts with no local bytes. -/
theorem localKept_init (m : Mount) (now : ℕ) :
    LocalKept m (World.init m now, LocalBytes.none) where
  bounded := inodesBounded_init m now
  held := nofun
  idle := nofun

/-- **Local bytes are held** in every run whose steps spare them. -/
theorem holdsLocal_of_run {evs : List Event} (hx : LocalKept m x)
    (hg : Guarded (localStep m) (SparesLocal m) x evs) (hr : run (localStep m) x evs = some x') :
    LocalKept m x' :=
  inv_of_run (fun _ _ _ hx hg h => hx.step hg h) hx hg hr

end Stratosync

import Stratosync.Daemon.CacheFiles
import Stratosync.Daemon.RemoteCalls
import Stratosync.Fuse.Headers
import Stratosync.Sync.LocalBytes

/-!
# What the header cache answers

`ServesFresh` is what a read may answer from the header cache: the bytes of the range of what the
file holds now, in its cache file when the row has local data and else in the version of the remote
that the etag of the row names. `servesFresh_of_run` shows it for every run in which a header is
written of the content the row names then, and what the row names is changed only while there is no
header, or into a content that begins with it (`KeepsHeaders`).
-/

namespace Stratosync

open Foundations.Pool Foundations.Runs Foundations.Versions

/-! ## What is to hold -/

/-- The versions of the remote's objects, as a history of the daemon with its headers. -/
def noteObjects (s : HeaderState) (_ : HeaderEvent) (s' : HeaderState) (H : ObjectVersions) :
    ObjectVersions := H.next s.world.remote s'.world.remote

abbrev headerRun (m : Mount) := withHistory (headerStep m) noteObjects

/-- What a file holds: the bytes of its cache file, or of a version its etag names. -/
def Holds (w : World) (H : ObjectVersions) (r : FileEntry) (b : Bytes) : Prop :=
  if r.status.hasLocalData = true then ∃ p, r.cachePath = some p ∧ w.fs.files p = some b
  else ∃ o ∈ H r.remotePath, o.etag.isSome = true ∧ o.etag = r.etag ∧ o.data = b

/-- The reply of a read from the header cache. -/
def headerReply (m : Mount) (w : World) : Event → Option (Read × Inode × Bytes)
  | .read k env =>
    w.reads[k]?.bind fun r =>
      match (r.tick m w env).2 with
      | .reply (.ok (.header i, data)) => some (r, i, data)
      | _ => none
  | _ => none

/-- **What is read from the header cache is in the file.** -/
def ServesFresh (m : Mount) (x : HeaderState × ObjectVersions) : HeaderEvent → Prop
  | .daemon ev => ∀ a ∈ headerReply m x.1.world ev, ∀ r ∈ x.1.world.db.getByInode a.2.1,
      ∀ b, Holds x.1.world x.2 r b → a.2.2 = (b.drop a.1.offset).take a.1.size
  | _ => True

/-! ## The condition -/

/-- The versions that the etag names begin with the header. -/
def BeginsVersion (H : ObjectVersions) (h : Bytes) (path : Str) (etag : Option Str) : Prop :=
  ∀ o ∈ H path, o.etag.isSome = true → o.etag = etag → h <+: o.data

/-- The cache file begins with the header. -/
def BeginsFile (fs : CacheFs) (h : Bytes) (path : Option PathBuf) : Prop :=
  ∀ p ∈ path, ∀ b ∈ fs.files p, h <+: b

/-- What the file holds begins with the header. -/
def Begins (w : World) (H : ObjectVersions) (h : Bytes) (r : FileEntry) : Prop :=
  if r.status.hasLocalData = true then BeginsFile w.fs h r.cachePath
  else BeginsVersion H h r.remotePath r.etag

/-- The cache file at the path is not what the row has. -/
def FileEntry.SparedBy (r : FileEntry) (p : PathBuf) : Prop :=
  r.status.hasLocalData = true → r.cachePath ≠ some p

/-- The row may lose its local data. -/
def LosesLocal (H : ObjectVersions) (h : Bytes) (r : FileEntry) : Prop :=
  r.status.hasLocalData = true → BeginsVersion H h r.remotePath r.etag

/-- A request leaves what the row has. -/
def RequestKeepsHeader (m : Mount) (w : World) (H : ObjectVersions) (h : Bytes) (r : FileEntry) :
    Request → Prop
  | .write fh _ _ => ∀ f ∈ w.openFiles fh, r.SparedBy f.cachePath
  | .setattr i _ => ∀ q ∈ w.db.getByInode i, r.SparedBy (q.cachePath.getD (m.derivedPath q))
  | .create p n => ∀ q ∈ w.db.getByInode p,
      ∀ cp ∈ safeCachePath w.fs m.cacheDir (joinRemote q.remotePath n), r.SparedBy cp
  | .rename p n p' n' => ∀ q ∈ w.db.getByParentName m.mountId p n,
      (q.inode = r.inode → r.status.hasLocalData = false → ∀ d ∈ w.db.getByInode p',
        BeginsVersion H h (joinRemote d.remotePath n') r.etag) ∧
      (q.inode ≠ r.inode → w.db.getByParentName m.mountId p' n' ≠ some r →
        ∀ cp ∈ q.cachePath, r.SparedBy (movedCachePath cp n'))
  | _ => True

/-- An upload leaves what its row has. -/
def UploadKeepsHeader (H : ObjectVersions) (h : Bytes) (r : FileEntry) : UploadPc → Prop
  | .reset s => if s.hasLocalData = true then r.status.hasLocalData = true else LosesLocal H h r
  | .mark .. | .record _ | .finish (.error _) => r.status.hasLocalData = true
  | .revert _ => LosesLocal H h r
  | _ => True

/-- A hydration leaves what its row has, or records a file that begins with the header. -/
def HydrationKeepsHeader (w : World) (H : ObjectVersions) (h : Bytes) (r : FileEntry) :
    HydrationPc → Prop
  | .claim _ | .wait _ none | .rollback .. => LosesLocal H h r
  | .record _ cp => BeginsFile w.fs h (some cp)
  | _ => True

/-- What a hydration is about to put at a path. -/
def HydrationPc.installs : HydrationPc → Option (PathBuf × Bytes)
  | .install _ cp data => some (cp, data)
  | _ => none

/-- **A step of the daemon leaves what the row names, or makes it begin with the header.** -/
def KeepsHeader (m : Mount) (w : World) (H : ObjectVersions) (h : Bytes) (r : FileEntry) :
    Event → Prop
  | .request q => RequestKeepsHeader m w H h r q
  | .fuse _ => ∀ c ∈ w.fuse, c.inode ≠ r.inode
  | .upload k _ => ∀ u ∈ w.uploads[k]?, u.inode = r.inode → UploadKeepsHeader H h r u.pc
  | .hydration k _ => ∀ x ∈ w.hydrations[k]?,
      (x.inode = r.inode → HydrationKeepsHeader w H h r x.pc) ∧
      ∀ a ∈ x.pc.installs, r.status.hasLocalData = true → r.cachePath = some a.1 → h <+: a.2
  | .read k _ => ∀ x ∈ w.reads[k]?, ∀ f ∈ x.pc.claimed, f.inode = r.inode → LosesLocal H h r
  | .eviction _ => ∀ e ∈ w.eviction, ∀ i ∈ e.pc.marking, i = r.inode → LosesLocal H h r
  | .poll op => ∀ u ∈ op.upserts, Matches u r →
      r.status.isUnsynced = true ∨ r.inode ∈ pollDrops w.db op
  | _ => True

/-- A new version does not have the etag of the row, or begins with the header. -/
def NewVersionBegins (w : World) (h : Bytes) (r : FileEntry) (ev : Event) : Prop :=
  ∀ c ∈ ev.remoteCall w, ∀ o ∈ (c.apply w.remote).object r.remotePath,
    o.etag.isSome = true → o.etag = r.etag → r.status.hasLocalData = false → h <+: o.data

/-- The read is about to look at the header. -/
def ReadPc.starts : ReadPc → Bool
  | .start => true
  | _ => false

/-- The read does not look at a header that the poller is about to drop. -/
def ReadsNoneDropped (s : HeaderState) : Event → Prop
  | .read k _ => ∀ r ∈ s.world.reads[k]?, r.pc.starts = true →
      ∀ f ∈ s.world.openFiles r.fh, f.inode ∉ s.drops
  | _ => True

/-- The bytes that the task is about to write. -/
def HeaderPc.writes : HeaderPc → Option Bytes
  | .write data => some data
  | _ => none

/-- **Headers are of what their files hold.** A header is written of what the row names then, no
step makes the row name something else while there is a header, and none is read that the poller
is about to drop. -/
def KeepsHeaders (m : Mount) (x : HeaderState × ObjectVersions) : HeaderEvent → Prop
  | .daemon ev => ReadsNoneDropped x.1 ev ∧
      ∀ r ∈ x.1.world.db.fileIndex.rows, r.inode ∉ x.1.drops → ∀ h ∈ x.1.world.headers r.inode,
        KeepsHeader m x.1.world x.2 h r ev ∧ NewVersionBegins x.1.world h r ev
  | .task k _ => ∀ t ∈ x.1.tasks[k]?, ∀ data ∈ t.pc.writes,
      ∃ r ∈ x.1.world.db.getByInode t.inode, Begins x.1.world x.2 data r
  | _ => True

section Decidable

variable (m : Mount) (w : World) (H : ObjectVersions) (h : Bytes) (r : FileEntry)

instance (path : Str) (etag : Option Str) : Decidable (BeginsVersion H h path etag) :=
  inferInstanceAs (Decidable (∀ o ∈ H path, _ → _ → _ <+: _))

instance (fs : CacheFs) (path : Option PathBuf) : Decidable (BeginsFile fs h path) :=
  inferInstanceAs (Decidable (∀ p ∈ path, ∀ b ∈ fs.files p, _ <+: _))

instance : Decidable (Begins w H h r) :=
  inferInstanceAs (Decidable (if r.status.hasLocalData = true then BeginsFile w.fs h _
    else BeginsVersion H h _ _))

instance (p : PathBuf) : Decidable (r.SparedBy p) := inferInstanceAs (Decidable (_ → _ ≠ _))

instance : Decidable (LosesLocal H h r) := inferInstanceAs (Decidable (_ → BeginsVersion H h _ _))

instance decidableRequestKeepsHeader : (q : Request) → Decidable (RequestKeepsHeader m w H h r q)
  | .write fh _ _ => inferInstanceAs (Decidable (∀ f ∈ w.openFiles fh, _))
  | .setattr i _ => inferInstanceAs (Decidable (∀ q ∈ w.db.getByInode i, _))
  | .create p n => inferInstanceAs (Decidable (∀ q ∈ w.db.getByInode p,
      ∀ cp ∈ safeCachePath w.fs m.cacheDir (joinRemote q.remotePath n), r.SparedBy cp))
  | .rename p n p' n' => inferInstanceAs (Decidable (∀ q ∈ w.db.getByParentName m.mountId p n,
      (_ → _ → ∀ d ∈ w.db.getByInode p', BeginsVersion H h (joinRemote d.remotePath n') r.etag) ∧
      (_ → _ → ∀ cp ∈ q.cachePath, r.SparedBy (movedCachePath cp n'))))
  | .open_ _ | .release _ | .fsync _ | .read .. | .mkdir .. | .unlink .. | .rmdir .. =>
    inferInstanceAs (Decidable True)

instance decidableUploadKeepsHeader : (pc : UploadPc) → Decidable (UploadKeepsHeader H h r pc)
  | .reset s =>
    inferInstanceAs (Decidable (if s.hasLocalData = true then _ = _ else LosesLocal H h r))
  | .mark .. | .record _ | .finish (.error _) => inferInstanceAs (Decidable (_ = _))
  | .revert _ => inferInstanceAs (Decidable (LosesLocal H h r))
  | .load | .check .. | .read .. | .put .. | .stat _ | .finish (.ok _) =>
    inferInstanceAs (Decidable True)

instance decidableHydrationKeepsHeader :
    (pc : HydrationPc) → Decidable (HydrationKeepsHeader w H h r pc)
  | .claim _ | .wait _ none | .rollback .. => inferInstanceAs (Decidable (LosesLocal H h r))
  | .record _ cp => inferInstanceAs (Decidable (BeginsFile w.fs h (some cp)))
  | .enter _ | .register _ | .wait _ (some _) | .reload | .begin_ _ | .download .. | .install ..
  | .verify _ | .prune _ | .backfill .. | .notify _ => inferInstanceAs (Decidable True)

instance decidableKeepsHeader : (ev : Event) → Decidable (KeepsHeader m w H h r ev)
  | .request q => inferInstanceAs (Decidable (RequestKeepsHeader m w H h r q))
  | .fuse _ => inferInstanceAs (Decidable (∀ c ∈ w.fuse, c.inode ≠ r.inode))
  | .upload k _ =>
    inferInstanceAs (Decidable (∀ u ∈ w.uploads[k]?, _ → UploadKeepsHeader H h r u.pc))
  | .hydration k _ => inferInstanceAs (Decidable (∀ x ∈ w.hydrations[k]?,
      (_ → HydrationKeepsHeader w H h r x.pc) ∧ ∀ a ∈ x.pc.installs, _ → _ → h <+: a.2))
  | .read k _ => inferInstanceAs (Decidable (∀ x ∈ w.reads[k]?, ∀ f ∈ x.pc.claimed,
      _ → LosesLocal H h r))
  | .eviction _ => inferInstanceAs (Decidable (∀ e ∈ w.eviction, ∀ i ∈ e.pc.marking,
      _ → LosesLocal H h r))
  | .poll op => inferInstanceAs (Decidable (∀ u ∈ op.upserts, Matches u r → _ ∨ _))
  | .launch _ | .startEviction | .background .. | .prefetch _ | .foreign _ | .clock _ =>
    inferInstanceAs (Decidable True)

instance (ev : Event) : Decidable (NewVersionBegins w h r ev) :=
  inferInstanceAs (Decidable (∀ c ∈ ev.remoteCall w, ∀ o ∈ (c.apply w.remote).object r.remotePath,
    _ → _ → _ → _))

instance (s : HeaderState) : (ev : Event) → Decidable (ReadsNoneDropped s ev)
  | .read k _ => inferInstanceAs (Decidable (∀ r ∈ s.world.reads[k]?, _ →
      ∀ f ∈ s.world.openFiles r.fh, f.inode ∉ s.drops))
  | .request _ | .fuse _ | .launch _ | .upload .. | .hydration .. | .startEviction | .eviction _
  | .background .. | .prefetch _ | .poll _ | .foreign _ | .clock _ =>
    inferInstanceAs (Decidable True)

instance decidableKeepsHeaders (x : HeaderState × ObjectVersions) :
    (e : HeaderEvent) → Decidable (KeepsHeaders m x e)
  | .daemon ev => inferInstanceAs (Decidable (ReadsNoneDropped x.1 ev ∧
      ∀ r ∈ x.1.world.db.fileIndex.rows, r.inode ∉ x.1.drops →
        ∀ h ∈ x.1.world.headers r.inode, _ ∧ NewVersionBegins x.1.world h r ev))
  | .task k _ => inferInstanceAs (Decidable (∀ t ∈ x.1.tasks[k]?, ∀ data ∈ t.pc.writes,
      ∃ r ∈ x.1.world.db.getByInode t.inode, Begins x.1.world x.2 data r))
  | .readdir .. | .drop _ => inferInstanceAs (Decidable True)

end Decidable

/-! ## What a file holds after a step -/

theorem begins_iff {w : World} {H : ObjectVersions} {h : Bytes} {r : FileEntry} :
    Begins w H h r ↔ ∀ b, Holds w H r b → h <+: b := by
  unfold Begins Holds
  split
  · constructor
    · rintro hb b ⟨p, hp, hf⟩
      exact hb p hp b hf
    · exact fun hb p hp b hf => hb b ⟨p, hp, hf⟩
  · constructor
    · rintro hb b ⟨o, ho, hsome, he, rfl⟩
      exact hb o ho hsome he
    · exact fun hb o ho hsome he => hb _ ⟨o, ho, hsome, he, rfl⟩

section Step

variable {m : Mount} {w w' : World} {H : ObjectVersions} {hd : Bytes} {ev : Event} {i : Inode}
  {r r' : FileEntry}

theorem begins_of_local (hl : r.status.hasLocalData = true) (h : BeginsFile w.fs hd r.cachePath) :
    Begins w H hd r := by
  rwa [Begins, if_pos hl]

theorem begins_of_remote (hl : r.status.hasLocalData ≠ true)
    (h : BeginsVersion H hd r.remotePath r.etag) : Begins w H hd r := by
  rwa [Begins, if_neg hl]

/-- A step without a call of the backend makes no version. -/
theorem next_of_step (h : step m w ev = some w') (hc : ev.remoteCall w = none) :
    H.next w.remote w'.remote = H := by
  rw [remote_of_step h, hc]
  exact ObjectVersions.next_self w.remote H

/-- The versions after a step are those before and the one it makes. -/
theorem mem_next_of_step {path : Str} {o : RemoteObject} (h : step m w ev = some w')
    (ho : o ∈ H.next w.remote w'.remote path) :
    o ∈ H path ∨ ∃ c ∈ ev.remoteCall w, o ∈ (c.apply w.remote).object path := by
  cases hc : ev.remoteCall w with
  | none =>
    rw [next_of_step h hc] at ho
    exact .inl ho
  | some c =>
    rw [remote_of_step h, hc, ObjectVersions.next, record] at ho
    split at ho
    · exact .inl ho
    · exact (List.mem_append.1 ho).imp id fun ho => ⟨c, rfl, Option.mem_toList.1 ho⟩

theorem beginsVersion_of_step (h : step m w ev = some w') (hv : NewVersionBegins w hd r ev)
    (hl : r.status.hasLocalData = false) (hb : BeginsVersion H hd r.remotePath r.etag) :
    BeginsVersion (H.next w.remote w'.remote) hd r.remotePath r.etag := by
  intro o ho hsome he
  obtain ho | ⟨c, hc, ho⟩ := mem_next_of_step h ho
  · exact hb o ho hsome he
  · exact hv c hc o ho hsome he hl

/-- The destination of a rename loses its header when files are moved. -/
theorem headers_of_rename {p p' : Inode} {n n' : Str} {d : FileEntry}
    (hdest : w.db.getByParentName m.mountId p' n' = some d) :
    (handleRename m w p n p' n').2.fs = w.fs ∨
      (handleRename m w p n p' n').2.headers d.inode = none := by
  simp only [handleRename, dropDestination, hdest]
  repeat' split
  all_goals first
    | exact .inl rfl
    | exact .inr (Function.update_self ..)

/-- **The cache file of a row that is spared.** -/
theorem beginsFile_of_step (h : step m w ev = some w') (hr : w.db.getByInode i = some r)
    (hl : r.status.hasLocalData = true) (hk : KeepsHeader m w H hd r ev)
    (hhead : headersAfter w w' ev i = some hd) (hb : BeginsFile w.fs hd r.cachePath) :
    BeginsFile w'.fs hd r.cachePath := by
  intro p hp b hbf
  have hri := Db.inode_of_getByInode hr
  have hspare : ∀ {q}, r.SparedBy q → p ≠ q := fun hs hq => hs hl (hq ▸ hp)
  generalize hold : w.fs.files p = old at *
  generalize hnew : w'.fs.files p = new at *
  have hfile := file_of_step h p
  rw [hold, hnew] at hfile
  cases hfile with
  | same => exact hb p hp b (hold.trans hbf)
  | written hf => exact absurd rfl (hspare (hk _ hf))
  | truncated hq hqp =>
    refine absurd rfl (hspare ?_)
    have := hk _ hq
    rwa [hqp, Option.getD_some] at this
  | derived hq hqp =>
    refine absurd rfl (hspare ?_)
    have := hk _ hq
    rwa [hqp, Option.getD_none] at this
  | created hq hcp => exact absurd rfl (hspare (hk _ hq _ hcp))
  | @movedTo q n q' n' src cp _ data hsrc hcp hdata =>
    obtain rfl := Option.some.inj hbf
    by_cases hsame : src.inode = r.inode
    · have hsr := (Db.getByParentName_spec hsrc).1
      rw [hsame, hri, hr] at hsr
      obtain rfl := Option.some.inj hsr
      exact hb cp hcp _ hdata
    · by_cases hdest : w.db.getByParentName m.mountId q' n' = some r
      · rw [(step_request h).2] at hhead hnew
        obtain hfs | hnone := headers_of_rename (n := n) (p := q) hdest
        · refine hb _ hp _ ?_
          change (handleRename m w q n q' n').2.fs.files _ = _ at hnew
          rwa [hfs] at hnew
        · change (handleRename m w q n q' n').2.headers i = some hd at hhead
          rw [← hri, hnone] at hhead
          cases hhead
      · exact absurd rfl (hspare ((hk _ hsrc).2 hsame hdest _ hcp))
  | installed hh =>
    obtain rfl := Option.some.inj hbf
    exact (hk _ hh).2 _ rfl hl hp
  | unlinked | movedAway | evicted | dropped => cases hbf

/-- A row that has what it had. -/
theorem begins_of_same (h : step m w ev = some w') (hr : w.db.getByInode i = some r)
    (hk : KeepsHeader m w H hd r ev) (hv : NewVersionBegins w hd r ev)
    (hhead : headersAfter w w' ev i = some hd) (hb : Begins w H hd r)
    (hs : r'.status.hasLocalData = r.status.hasLocalData) (hc : r'.cachePath = r.cachePath)
    (hp : r'.remotePath = r.remotePath) (he : r'.etag = r.etag) :
    Begins w' (H.next w.remote w'.remote) hd r' := by
  rw [Begins] at hb
  split at hb
  · rename_i hl
    exact begins_of_local (hs.trans hl) (hc ▸ beginsFile_of_step h hr hl hk hhead hb)
  · rename_i hl
    refine begins_of_remote (hs ▸ hl) ?_
    rw [hp, he]
    exact beginsVersion_of_step h hv (Bool.eq_false_of_not_eq_true hl) hb

/-- A row that is left without local data. -/
theorem begins_of_lost (h : step m w ev = some w') (hc : ev.remoteCall w = none)
    (hb : Begins w H hd r) (hl : LosesLocal H hd r) (hs : r'.status.hasLocalData ≠ true)
    (hp : r'.remotePath = r.remotePath) (he : r'.etag = r.etag) :
    Begins w' (H.next w.remote w'.remote) hd r' := by
  refine begins_of_remote hs ?_
  rw [next_of_step h hc, hp, he]
  rw [Begins] at hb
  split at hb
  · exact hl ‹_›
  · exact hb

/-- A row that gets another etag while it has local data. -/
theorem begins_of_kept (h : step m w ev = some w') (hr : w.db.getByInode i = some r)
    (hk : KeepsHeader m w H hd r ev) (hhead : headersAfter w w' ev i = some hd)
    (hb : Begins w H hd r) (hl : r.status.hasLocalData = true)
    (hs : r'.status.hasLocalData = true) (hc : r'.cachePath = r.cachePath) :
    Begins w' (H.next w.remote w'.remote) hd r' := by
  rw [Begins, if_pos hl] at hb
  exact begins_of_local hs (hc ▸ beginsFile_of_step h hr hl hk hhead hb)

theorem hasLocalData_of_isUnsynced {s : SyncStatus} (h : s.isUnsynced = true) :
    s.hasLocalData = true := by
  cases s <;> first | rfl | cases h

/-- The row that a rename leaves. -/
theorem begins_of_renamed {p p' : Inode} {n n' : Str} {q : FileEntry}
    (h : step m w (.request (.rename p n p' n')) = some w')
    (hsrc : w.db.getByParentName m.mountId p n = some r) (hq : w.db.getByInode p' = some q)
    (hr : w.db.getByInode i = some r)
    (hk : KeepsHeader m w H hd r (.request (.rename p n p' n')))
    (hb : Begins w H hd r) (hr' : w'.db.getByInode i = some { r with
      parent := some p', name := n', remotePath := joinRemote q.remotePath n'
      cachePath := (moveCacheFile w.fs r.cachePath n').2 }) :
    Begins w' (H.next w.remote w'.remote) hd { r with
      parent := some p', name := n', remotePath := joinRemote q.remotePath n'
      cachePath := (moveCacheFile w.fs r.cachePath n').2 } := by
  rw [Begins] at hb
  split at hb
  · rename_i hl
    refine begins_of_local hl ?_
    intro p hp b hbf
    obtain ⟨cp, hcp, hold⟩ := file_of_renamed h hsrc hr hr' hp hbf
    exact hb cp hcp b hold
  · rename_i hl
    refine begins_of_remote hl ?_
    rw [next_of_step h rfl]
    exact (hk r hsrc).1 rfl (Bool.eq_false_of_not_eq_true hl) q hq

/-- **What a file holds begins with its header after a step of the daemon.** -/
theorem begins_of_step (h : step m w ev = some w') (hr : w.db.getByInode i = some r)
    (hk : KeepsHeader m w H hd r ev) (hv : NewVersionBegins w hd r ev) (hi : i ≤ w.db.seq)
    (hdrop : i ∉ ev.drops w.db) (hhead : headersAfter w w' ev i = some hd) (hb : Begins w H hd r)
    (hr' : w'.db.getByInode i = some r') : Begins w' (H.next w.remote w'.remote) hd r' := by
  have hri := Db.inode_of_getByInode hr
  have hrow := row_of_step h hr
  generalize hold : w'.db.getByInode i = o at *
  cases hrow with
  | same =>
    obtain rfl := Option.some.inj hr'
    exact begins_of_same h hr hk hv hhead hb rfl rfl rfl rfl
  | dirtied hc => exact absurd hri.symm (hk _ hc)
  | opened hs =>
    obtain rfl := Option.some.inj hr'
    refine begins_of_same h hr hk hv hhead hb ?_ rfl rfl rfl
    revert hs
    cases r.status <;> simp [SyncStatus.needsHydration, SyncStatus.hasLocalData]
  | renamed hsrc hq =>
    obtain rfl := Option.some.inj hr'
    exact begins_of_renamed h hsrc hq hr hk hb hold
  | @reset k env _ _ s hu =>
    obtain rfl := Option.some.inj hr'
    have hk' := hk _ hu hri.symm
    rw [UploadKeepsHeader] at hk'
    split at hk'
    · exact begins_of_kept h hr hk hhead hb hk' ‹_› rfl
    · refine begins_of_lost h ?_ hb hk' ‹_› rfl rfl
      rw [Event.remoteCall, hu]
      exact ite_self _
  | reverted hu hdirty =>
    obtain rfl := Option.some.inj hr'
    refine begins_of_lost h ?_ hb (hk _ hu hri.symm) Bool.false_ne_true rfl rfl
    rw [Event.remoteCall, hu]
    exact ite_self _
  | marked hu =>
    obtain rfl := Option.some.inj hr'
    exact begins_of_kept h hr hk hhead hb (hk _ hu hri.symm) rfl rfl
  | uploaded hu =>
    obtain rfl := Option.some.inj hr'
    exact begins_of_kept h hr hk hhead hb (hk _ hu hri.symm) rfl rfl
  | failed hu =>
    obtain rfl := Option.some.inj hr'
    exact begins_of_kept h hr hk hhead hb (hk _ hu hri.symm) rfl rfl
  | claimed hh =>
    obtain rfl := Option.some.inj hr'
    exact begins_of_lost h rfl hb ((hk _ hh).1 hri.symm) Bool.false_ne_true rfl rfl
  | timedOut hh =>
    obtain rfl := Option.some.inj hr'
    exact begins_of_lost h rfl hb ((hk _ hh).1 hri.symm) Bool.false_ne_true rfl rfl
  | rolledBack hh =>
    obtain rfl := Option.some.inj hr'
    exact begins_of_lost h rfl hb ((hk _ hh).1 hri.symm) Bool.false_ne_true rfl rfl
  | @hydrated k env _ _ e cp rd data hh hf =>
    obtain rfl := Option.some.inj hr'
    refine begins_of_local rfl fun p hp b hbf => ?_
    obtain rfl := Option.some.inj hp
    have hsame : w'.fs.files cp = w.fs.files cp := by
      have hfile := file_of_step h cp
      generalize w'.fs.files cp = new at *
      cases hfile with
      | same => rfl
      | installed hh' => cases hh.symm.trans hh'
    exact (hk _ hh).1 hri.symm cp rfl b (hsame ▸ hbf)
  | backfilled hh =>
    obtain rfl := Option.some.inj hr'
    exact begins_of_same h hr hk hv hhead hb rfl rfl rfl rfl
  | claimedByRead hrd hpc =>
    obtain rfl := Option.some.inj hr'
    refine begins_of_lost h rfl hb (hk _ hrd _ ?_ hri.symm) Bool.false_ne_true rfl rfl
    rw [hpc]
    rfl
  | evicted he hpc =>
    obtain rfl := Option.some.inj hr'
    refine begins_of_lost h rfl hb (hk _ he _ ?_ hri.symm) Bool.false_ne_true rfl rfl
    rw [hpc]
    rfl
  | refreshed href =>
    obtain rfl := Option.some.inj hr'
    obtain rfl | ⟨u, hu, hmatch, id, rfl⟩ := href
    · exact begins_of_same h hr hk hv hhead hb rfl rfl rfl rfl
    · obtain hun | hmem := hk u hu hmatch
      · have hl := hasLocalData_of_isUnsynced hun
        refine begins_of_kept h hr hk hhead hb hl ?_ rfl
        change r.status.refreshed.hasLocalData = true
        rwa [SyncStatus.refreshed, if_pos hun]
      · exact absurd (hri ▸ hmem) hdrop
  | dropped ho =>
    obtain ⟨-, -, hlt⟩ := ho r' hr'
    exact absurd hi (Nat.not_le.2 hlt)
  | replaced | unlinked | removed | pruned => cases hr'

end Step

/-! ## Runs -/

theorem headers_of_serve {m : Mount} {w : World} {q : Request} {i : Inode} {hd : Bytes}
    (h : (serve m w q).headers i = some hd) : w.headers i = some hd := by
  have hupdate : ∀ {j}, Function.update w.headers j none i = some hd → w.headers i = some hd := by
    intro j hj
    rw [Function.update_apply] at hj
    split at hj
    · cases hj
    · exact hj
  cases q with
  | unlink p n =>
    simp only [serve, handleUnlink] at h
    repeat' split at h
    all_goals first
      | exact h
      | exact hupdate h
  | rename p n p' n' =>
    simp only [serve, handleRename] at h
    repeat' split at h
    all_goals first
      | exact h
      | exact hupdate h
  | _ =>
    simp only [serve, handleWrite, handleSetattr, handleOpen, handleRelease, handleFsync,
      handleRead, handleCreate, handleMkdir, handleRmdir, World.allocFh, World.enqueue,
      World.logDb] at h
    repeat' split at h
    all_goals exact h

/-- A step of the daemon makes no header at once. -/
theorem headers_of_step {m : Mount} {w w' : World} {ev : Event} {i : Inode} {hd : Bytes}
    (h : step m w ev = some w') (hh : headersAfter w w' ev i = some hd) :
    w.headers i = some hd := by
  cases ev with
  | request q =>
    rw [(step_request h).2] at hh
    exact headers_of_serve hh
  | fuse env =>
    obtain ⟨c, -, rfl⟩ := Option.map_eq_some_iff.1 h
    obtain ⟨_, _, hw⟩ := fuseCall_tick_eq w env c
    rwa [hw] at hh
  | launch i =>
    obtain rfl := step_launch h
    exact hh
  | upload k env =>
    obtain ⟨u, -, rfl⟩ := Option.map_eq_some_iff.1 h
    obtain ⟨_, _, _, _, hw⟩ := upload_tick_eq w u.inode env u.pc
    simpa only [headersAfter, hw] using hh
  | hydration k env =>
    obtain ⟨x, -, rfl⟩ := Option.map_eq_some_iff.1 h
    obtain ⟨_, _, _, hw⟩ := hydration_tick_eq m w x.inode env x.pc
    simp only [headersAfter, hw] at hh
    split at hh <;> exact hh
  | read k env => exact hh
  | startEviction =>
    obtain ⟨ev, -, rfl⟩ := step_startEviction h
    exact hh
  | eviction env =>
    obtain ⟨x, -, rfl⟩ := Option.map_eq_some_iff.1 h
    obtain ⟨_, _, hw⟩ := eviction_tick_eq m w env x
    simpa only [headersAfter, hw] using hh
  | background k env =>
    obtain ⟨b, -, rfl⟩ := Option.map_eq_some_iff.1 h
    obtain ⟨_, _, hw⟩ := background_tick_eq m w env b
    simpa only [headersAfter, hw] using hh
  | prefetch parent =>
    rw [← Option.some.inj h, prefetchSmallFiles] at hh
    split at hh <;> exact hh
  | poll | foreign | clock => rwa [← Option.some.inj h] at hh

section Run

variable {m : Mount} {x x' : HeaderState × ObjectVersions} {e : HeaderEvent}

/-- The headers that are there to be read are of what their files hold. -/
structure HeadersFresh (x : HeaderState × ObjectVersions) : Prop where
  bounded : InodesBounded x.1.world
  known : ∀ i h, x.1.world.headers i = some h → i ≤ x.1.world.db.seq
  fresh : ∀ i h, x.1.world.headers i = some h → i ∉ x.1.drops →
    ∀ r, x.1.world.db.getByInode i = some r → Begins x.1.world x.2 h r

theorem headersFresh_init (m : Mount) (now : ℕ) :
    HeadersFresh (HeaderState.init m now, fun _ => []) :=
  ⟨inodesBounded_init m now, nofun, nofun⟩

theorem HeadersFresh.daemon {s : HeaderState} {H : ObjectVersions} {ev : Event} {w' : World}
    (hx : HeadersFresh (s, H)) (hg : KeepsHeaders m (s, H) (.daemon ev))
    (h : step m s.world ev = some w') :
    HeadersFresh (s.daemon m ev w', H.next s.world.remote w'.remote) where
  bounded := by
    have hb : InodesBounded w' := hx.bounded.step h
    exact hb
  known i hd hh := by
    have hle : s.world.db.seq ≤ w'.db.seq := seq_le_of_step h
    exact (hx.known i hd (headers_of_step h hh)).trans hle
  fresh i hd hh hdrop r' hr' := by
    have hafter : headersAfter s.world w' ev i = some hd := hh
    have hhead := headers_of_step h hafter
    have hi := hx.known i hd hhead
    change i ∉ s.drops ++ ev.drops s.world.db at hdrop
    rw [List.mem_append, not_or] at hdrop
    cases hr : s.world.db.getByInode i with
    | none =>
      have hnew := ((rowsStep_of_step h).new i r' hr hr').2.1
      exact absurd hi (Nat.not_le.2 hnew)
    | some r =>
      have hri := Db.inode_of_getByInode hr
      obtain ⟨hk, hv⟩ := hg.2 r (Db.mem_rows_of_getByInode hr) (hri.symm ▸ hdrop.1) hd
        (hri.symm ▸ hhead)
      have hb := hx.fresh i hd hhead hdrop.1 r hr
      have hb' := begins_of_step h hr hk hv hi hdrop.2 hafter hb hr'
      exact hb'

theorem HeaderState.tick_eq (m : Mount) (s : HeaderState) (k : ℕ) (t : HeaderTask) (env : Env) :
    (s.tick m k t env).world = { s.world with headers := (t.pc.tick m s t.inode env).1 } ∧
      (s.tick m k t env).drops = s.drops := by
  rw [HeaderState.tick]
  dsimp only
  split <;> exact ⟨rfl, rfl⟩

theorem HeadersFresh.task {s : HeaderState} {H : ObjectVersions} {k : ℕ} {t : HeaderTask}
    {env : Env} (hx : HeadersFresh (s, H)) (hg : KeepsHeaders m (s, H) (.task k env))
    (ht : s.tasks[k]? = some t) : HeadersFresh (s.tick m k t env, H) := by
  obtain ⟨hw, hd⟩ := HeaderState.tick_eq m s k t env
  obtain ⟨i, pc⟩ := t
  have hsame : ∀ f, (s.tick m k ⟨i, pc⟩ env).world = { s.world with headers := f } →
      (∀ j h, f j = some h → s.world.headers j = some h ∨
        j = i ∧ ∃ r, s.world.db.getByInode i = some r ∧ Begins s.world H h r) →
      HeadersFresh (s.tick m k ⟨i, pc⟩ env, H) := by
    intro f hf hold
    refine ⟨?_, fun j h hh => ?_, fun j h hh hdrop r hr => ?_⟩
    · change InodesBounded (s.tick m k ⟨i, pc⟩ env).world
      rw [hf]
      exact hx.bounded
    · change (s.tick m k ⟨i, pc⟩ env).world.headers j = some h at hh
      change j ≤ (s.tick m k ⟨i, pc⟩ env).world.db.seq
      rw [hf] at hh ⊢
      obtain hh | ⟨rfl, r, hr, -⟩ := hold j h hh
      · exact hx.known j h hh
      · exact hx.bounded j r hr
    · change (s.tick m k ⟨i, pc⟩ env).world.headers j = some h at hh
      change j ∉ (s.tick m k ⟨i, pc⟩ env).drops at hdrop
      change (s.tick m k ⟨i, pc⟩ env).world.db.getByInode j = some r at hr
      change Begins (s.tick m k ⟨i, pc⟩ env).world H h r
      rw [hf] at hh hr ⊢
      rw [hd] at hdrop
      obtain hh | ⟨rfl, r', hr', hb⟩ := hold j h hh
      · exact hx.fresh j h hh hdrop r hr
      · obtain rfl := Option.some.inj (hr.symm.trans hr')
        exact hb
  refine hsame _ hw fun j h hh => ?_
  cases pc with
  | acquire | fetch => exact .inl hh
  | write data =>
    simp only [HeaderPc.tick] at hh
    split at hh
    · exact .inl hh
    · rw [Function.update_apply] at hh
      split at hh
      · obtain rfl := Option.some.inj hh
        obtain ⟨r, hr, hb⟩ := hg _ ht data rfl
        exact .inr ⟨‹_›, r, hr, hb⟩
      · exact .inl hh

theorem HeadersFresh.step (hx : HeadersFresh x) (hg : KeepsHeaders m x e)
    (h : headerRun m x e = some x') : HeadersFresh x' := by
  obtain ⟨s, H⟩ := x
  obtain ⟨s', H'⟩ := x'
  obtain ⟨h, hH⟩ := withHistory_eq_some.1 h
  obtain rfl : H' = H.next s.world.remote s'.world.remote := hH
  cases e with
  | daemon ev =>
    obtain ⟨w', hw, rfl⟩ := Option.map_eq_some_iff.1 h
    exact hx.daemon hg hw
  | readdir dir open_ =>
    obtain rfl := Option.some.inj h
    have hsame : (s.readdir m dir open_).world = s.world ∧
        (s.readdir m dir open_).drops = s.drops := by
      rw [HeaderState.readdir]
      split <;> exact ⟨rfl, rfl⟩
    have hx' : HeadersFresh (s, H.next s.world.remote s.world.remote) := by
      rw [ObjectVersions.next_self]
      exact hx
    refine ⟨?_, ?_, ?_⟩ <;> dsimp only <;> rw [hsame.1]
    · exact hx.bounded
    · exact hx.known
    · rw [hsame.2]
      exact hx'.fresh
  | task k env =>
    obtain ⟨t, ht, rfl⟩ := Option.map_eq_some_iff.1 h
    have hremote : (s.tick m k t env).world.remote = s.world.remote := by
      rw [(HeaderState.tick_eq m s k t env).1]
    rw [hremote, ObjectVersions.next_self]
    exact hx.task hg ht
  | drop i =>
    simp only [headerStep] at h
    split at h
    · obtain rfl := Option.some.inj h
      have hold : ∀ j hd, Function.update s.world.headers i none j = some hd →
          j ≠ i ∧ s.world.headers j = some hd := by
        intro j hd hh
        rw [Function.update_apply] at hh
        split at hh
        · cases hh
        · exact ⟨‹_›, hh⟩
      refine ⟨hx.bounded, fun j hd hh => hx.known j hd (hold j hd hh).2,
        fun j hd hh hdrop r hr => ?_⟩
      obtain ⟨hne, hh⟩ := hold j hd hh
      rw [ObjectVersions.next_self]
      exact hx.fresh j hd hh (fun hmem => hdrop ((List.mem_erase_of_ne hne).2 hmem)) r hr
    · cases h

/-- What a read answers from the header cache is the range of a header. -/
theorem headerReply_eq_some {w : World} {ev : Event} {rd : Read} {i : Inode} {data : Bytes}
    (h : headerReply m w ev = some (rd, i, data)) :
    ∃ k env f, ev = .read k env ∧ w.reads[k]? = some rd ∧ rd.pc.starts = true ∧
      w.openFiles rd.fh = some f ∧ f.inode = i ∧ w.readHeader i rd.offset rd.size = some data := by
  cases ev with
  | read k env =>
    obtain ⟨rd', hrd, h⟩ := Option.bind_eq_some_iff.1 h
    split at h
    · rename_i i' data' htick
      obtain ⟨rfl, rfl, rfl⟩ := Prod.mk.inj (Option.some.inj h) |>.imp id Prod.mk.inj
      obtain ⟨id, fh, offset, size, pc⟩ := rd'
      cases pc with
      | start =>
        simp only [Read.tick] at htick
        split at htick
        · cases htick
        · rename_i f hf
          split at htick
          · cases htick
          · split at htick
            · rename_i hread
              cases htick
              rw [Option.ite_none_right_eq_some] at hread
              exact ⟨k, env, f, rfl, hrd, rfl, hf, rfl, hread.2⟩
            · cases htick
      | await f signal =>
        obtain _ | _ | _ := signal
        all_goals
          simp only [Read.tick] at htick
          cases htick
      | _ =>
        simp only [Read.tick] at htick
        repeat' split at htick
        all_goals cases htick
    · cases h
  | _ => cases h

theorem servesFresh_of_fresh (hx : HeadersFresh x) (hg : KeepsHeaders m x e) :
    ServesFresh m x e := by
  cases e with
  | daemon ev =>
    rintro ⟨rd, i, data⟩ hreply r hr b hb
    obtain ⟨k, env, f, rfl, hrd, hstart, hf, rfl, hread⟩ := headerReply_eq_some hreply
    have hdrop := hg.1 rd hrd hstart f hf
    rw [World.readHeader] at hread
    split at hread
    · rename_i hzero
      obtain rfl := Option.some.inj hread
      change [] = (b.drop rd.offset).take rd.size
      rw [hzero, List.take_zero]
    · split at hread
      · rename_i hd hhead
        rw [Option.ite_none_right_eq_some] at hread
        obtain ⟨hle, hdata⟩ := hread
        obtain rfl := Option.some.inj hdata
        obtain ⟨rest, rfl⟩ := begins_iff.1 (hx.fresh f.inode hd hhead hdrop r hr) b hb
        change (hd.drop rd.offset).take rd.size = ((hd ++ rest).drop rd.offset).take rd.size
        rw [List.drop_append_of_le_length (by omega), List.take_append_of_le_length]
        rw [List.length_drop]
        omega
      · cases hread
  | _ => trivial

/-- **The header cache serves what the files hold**, in every run in which the headers are of what
their files hold. -/
theorem servesFresh_of_run {now : ℕ} {es : List HeaderEvent}
    (hg : Guarded (headerRun m) (KeepsHeaders m) (HeaderState.init m now, fun _ => []) es) :
    Along (headerRun m) (fun x e _ => ServesFresh m x e)
      (HeaderState.init m now, fun _ => []) es :=
  along_of_guarded (I := HeadersFresh) (fun _ _ _ hx hg h => hx.step hg h)
    (fun _ _ _ hx hg _ => servesFresh_of_fresh hx hg) (headersFresh_init m now) hg

end Run

/-- A mount that keeps headers of two bytes. -/
def headerMount : Mount := { sampleMount with headerPrefetchSize := 2 }

/-- A file of three bytes is listed and opened, and a read of two bytes keeps them as its header. -/
def sniffOpened : List HeaderEvent :=
  [.daemon (foreignVersion ['a'] [1, 2, 3] ['v']), .daemon (.poll (reportedFile ['a'] 3 ['v'])),
    .drop 2, .daemon (.request (.open_ 2)), .daemon (.request (.read 1 0 2)),
    .daemon (.read 0 .fine), .daemon (.read 0 .fine), .daemon (.read 0 .fine), .task 0 .fine]

/-- The header is read again. -/
theorem servesFresh_sniffOpened :
    ∃ x, run (headerRun headerMount) (.init headerMount 0, fun _ => [])
        (sniffOpened ++ [.daemon (.request (.read 1 0 2))]) = some x ∧
      (headerReply headerMount x.1.world (.read 0 .fine)).map Prod.snd = some (2, [1, 2]) ∧
      Along (headerRun headerMount) (fun x e _ => ServesFresh headerMount x e)
        (.init headerMount 0, fun _ => [])
        (sniffOpened ++ [.daemon (.request (.read 1 0 2)), .daemon (.read 0 .fine)]) :=
  have hguard : Guarded (headerRun headerMount) (KeepsHeaders headerMount)
      (.init headerMount 0, fun _ => [])
      (sniffOpened ++ [.daemon (.request (.read 1 0 2)), .daemon (.read 0 .fine)]) := by decide
  ⟨_, rfl, rfl, servesFresh_of_run hguard⟩

/-- The hydration comes to its end and the file is written to, through the handle that read its
header. -/
def writeSniffed : List HeaderEvent :=
  sniffOpened ++ List.replicate 6 (.daemon (.hydration 0 .fine)) ++
    [.daemon (.request (.write 1 0 [9])), .daemon (.fuse .fine),
      .daemon (.request (.read 1 0 2))]

/-- The bytes that were written are not read. -/
theorem not_servesFresh_writeSniffed :
    ¬∀ (m : Mount) (now : ℕ) (es : List HeaderEvent),
      Along (headerRun m) (fun x e _ => ServesFresh m x e) (.init m now, fun _ => []) es := by
  intro h
  obtain ⟨x, x', a, r, hx, hx', hreply, hdata, hr, hb⟩ : ∃ x x' a r,
      run (headerRun headerMount) (.init headerMount 0, fun _ => []) writeSniffed = some x ∧
        headerRun headerMount x (.daemon (.read 0 .fine)) = some x' ∧
        headerReply headerMount x.1.world (.read 0 .fine) = some a ∧
        (a.1.offset = 0 ∧ a.1.size = 2 ∧ a.2.2 = [1, 2]) ∧
        x.1.world.db.getByInode a.2.1 = some r ∧
        r.status.hasLocalData = true ∧ ∃ p, r.cachePath = some p ∧
          x.1.world.fs.files p = some [9, 2, 3] :=
    ⟨_, _, _, _, rfl, rfl, rfl, ⟨rfl, rfl, rfl⟩, rfl, rfl, _, rfl, rfl⟩
  have hlast := (h headerMount 0 (writeSniffed ++ [.daemon (.read 0 .fine)])).drop hx
  have hserved := (hlast x' hx').1 a hreply r hr [9, 2, 3]
    (by rw [Holds, if_pos hb.1]; exact hb.2)
  rw [hdata.1, hdata.2.1, hdata.2.2] at hserved
  exact absurd hserved (by decide)

end Stratosync

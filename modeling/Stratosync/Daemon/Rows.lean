import Stratosync.Daemon.Frame

/-!
# What a step does to a row

`RowStep` lists every way in which a step of the system changes or drops a row of the index, with
the event and the task that do it; `NewRow` lists the rows a step adds. `row_of_step` and
`newRow_of_step` say that the lists are complete. The invariants about rows are proved from these
lists and do not look at the steps again.
-/

namespace Stratosync

open Db

/-- The size a request in progress reports. -/
def FuseCall.newSize : FuseCall → ℕ
  | write _ n | setattr _ n _ => n

/-- The cache path a request in progress has made for its row. -/
def FuseCall.cachePath : FuseCall → Option PathBuf
  | write .. => none
  | setattr _ _ cp => cp

/-- The row after the database part of a request. -/
def FuseCall.mark (c : FuseCall) (r : FileEntry) : FileEntry :=
  { r with
    status := .dirty, size := c.newSize, cacheSize := some c.newSize
    cachePath := c.cachePath <|> r.cachePath }

/-- The row after an upload was recorded. -/
def FileEntry.uploaded (r : FileEntry) (metadata : RemoteMetadata) : FileEntry :=
  { r with
    status := .cached, cacheSize := some metadata.size, etag := metadata.etag
    mtime := metadata.mtime, size := metadata.size }

/-- The row after the hydration of `entry` was recorded. -/
def FileEntry.hydrated (r entry : FileEntry) (cachePath : PathBuf) (cacheSize : ℕ) : FileEntry :=
  { r with
    status := .cached, cachePath := some cachePath, cacheSize := some cacheSize
    etag := entry.etag, mtime := entry.mtime, size := entry.size }

/-- The row without its cache file. -/
def FileEntry.evicted (r : FileEntry) : FileEntry :=
  { r with status := .remote, cachePath := none, cacheSize := none }

/-- **The ways in which a step changes or drops a row.** -/
inductive RowStep (m : Mount) (w : World) : Event → Inode → FileEntry → Option FileEntry → Prop
  | same {ev i r} : RowStep m w ev i r (some r)
  | dirtied {env c r} (hc : w.fuse = some c) :
      RowStep m w (.fuse env) c.inode r (some (c.mark r))
  | opened {i r} (hr : r.status.needsHydration = true) :
      RowStep m w (.request (.open_ i)) i r (some { r with status := .hydrating })
  | renamed {p n p' n' i r q} (hr : w.db.getByParentName m.mountId p n = some r)
      (hq : w.db.getByInode p' = some q) :
      RowStep m w (.request (.rename p n p' n')) i r
        (some { r with
          parent := some p', name := n', remotePath := joinRemote q.remotePath n'
          cachePath := (moveCacheFile w.fs r.cachePath n').2 })
  | replaced {p n p' n' i r} (hr : w.db.getByParentName m.mountId p' n' = some r) :
      RowStep m w (.request (.rename p n p' n')) i r none
  | unlinked {p n i r} (hr : w.db.getByParentName m.mountId p n = some r) :
      RowStep m w (.request (.unlink p n)) i r none
  | removed {p n i r} (hr : w.db.getByParentName m.mountId p n = some r) :
      RowStep m w (.request (.rmdir p n)) i r none
  | reset {k env i r s} (hu : w.uploads[k]? = some ⟨i, .reset s⟩) (hf : env.fault = false) :
      RowStep m w (.upload k env) i r (some { r with status := s })
  | reverted {k env i r cp} (hu : w.uploads[k]? = some ⟨i, .revert cp⟩)
      (hr : isDirtyAt cp r = true) : RowStep m w (.upload k env) i r (some r.evicted)
  | marked {k env i r e cp} (hu : w.uploads[k]? = some ⟨i, .mark e cp⟩) :
      RowStep m w (.upload k env) i r (some { r with status := .uploading })
  | uploaded {k env i r md} (hu : w.uploads[k]? = some ⟨i, .record md⟩) (hf : env.fault = false) :
      RowStep m w (.upload k env) i r (some (r.uploaded md))
  | failed {k env i r e} (hu : w.uploads[k]? = some ⟨i, .finish (.error e)⟩) :
      RowStep m w (.upload k env) i r (some { r with status := .dirty })
  | claimed {k env i r e rd} (hh : w.hydrations[k]? = some ⟨i, .claim e, rd⟩) :
      RowStep m w (.hydration k env) i r (some { r with status := .hydrating })
  | timedOut {k env i r a rd} (hh : w.hydrations[k]? = some ⟨i, .wait a none, rd⟩) :
      RowStep m w (.hydration k env) i r (some { r with status := .remote })
  | rolledBack {k env i r e er rd} (hh : w.hydrations[k]? = some ⟨i, .rollback e er, rd⟩) :
      RowStep m w (.hydration k env) i r (some { r with status := .remote })
  | hydrated {k env i r e cp rd data} (hh : w.hydrations[k]? = some ⟨i, .record e cp, rd⟩)
      (hf : w.fs.files cp = some data) :
      RowStep m w (.hydration k env) i r (some (r.hydrated e cp data.length))
  | backfilled {k env i r e id rd} (hh : w.hydrations[k]? = some ⟨i, .backfill e id, rd⟩) (id') :
      RowStep m w (.hydration k env) i r (some { r with remoteItemId := id' })
  | pruned {k env i r e rd} (hh : w.hydrations[k]? = some ⟨i, .prune e, rd⟩) :
      RowStep m w (.hydration k env) i r none
  | claimedByRead {k env r rd f} (hrd : w.reads[k]? = some rd) (hpc : rd.pc = .claim f)
      (hf : env.fault = false) :
      RowStep m w (.read k env) f.inode r (some { r with status := .hydrating })
  | evicted {env ev c rest n r} (he : w.eviction = some ev) (hpc : ev.pc = .evicted c rest n) :
      RowStep m w (.eviction env) c.inode r (some r.evicted)
  | refreshed {op i r r'} (hr : Refreshed op r r') : RowStep m w (.poll op) i r (some r')
  | dropped {op i r o}
      (ho : ∀ r' ∈ o, r'.cachePath = none ∧ r'.status.claimsCacheFile = false ∧ w.db.seq < i) :
      RowStep m w (.poll op) i r o

/-- **The rows a step adds.** -/
inductive NewRow (m : Mount) (w : World) : Event → Inode → FileEntry → Prop
  | created {p n i r q cp} (hq : w.db.getByInode p = some q)
      (hcp : safeCachePath w.fs m.cacheDir (joinRemote q.remotePath n) = some cp)
      (hi : i = w.db.nextInode) (hp : r.parent = some p)
      (hrp : r.remotePath = joinRemote q.remotePath n)
      (hk : r.kind = .file) (he : r.etag = none) (hs : r.status = .dirty)
      (hc : r.cachePath = some cp) : NewRow m w (.request (.create p n)) i r
  | made {p n i r} (hi : i = w.db.nextInode) (hk : r.kind = .directory) (he : r.etag = none)
      (hs : r.status = .cached) (hc : r.cachePath = none) : NewRow m w (.request (.mkdir p n)) i r
  | listed {op i r} (hc : r.cachePath = none) (hs : r.status.claimsCacheFile = false) :
      NewRow m w (.poll op) i r

/-- What a step does to the rows of the index. -/
structure RowsStep (m : Mount) (w : World) (ev : Event) (db' : Db) : Prop where
  row : ∀ i r, w.db.getByInode i = some r → RowStep m w ev i r (db'.getByInode i)
  new : ∀ i r', w.db.getByInode i = none → db'.getByInode i = some r' →
    NewRow m w ev i r' ∧ w.db.seq < i ∧ i ≤ db'.seq
  seq : w.db.seq ≤ db'.seq

section Kinds

variable {m : Mount} {w : World} {ev : Event} {db' : Db}

theorem rowsStep_of_same (h : SameRows w.db db') : RowsStep m w ev db' := by
  refine ⟨fun i r hr => ?_, fun i r' hn hr' => ?_, h.seq.ge⟩
  · rw [h.rows i, hr]
    exact .same
  · rw [h.rows i, hn] at hr'
    cases hr'

theorem rowsStep_refl : RowsStep m w ev w.db := rowsStep_of_same ⟨rfl, fun _ => rfl⟩

/-- What a call does to the other tables is of no account. -/
theorem RowsStep.trans_same {db'' : Db} (h : RowsStep m w ev db') (hs : SameRows db' db'') :
    RowsStep m w ev db'' := by
  refine ⟨fun i r hr => ?_, fun i r' hn hr' => ?_, hs.seq ▸ h.seq⟩
  · rw [hs.rows i]
    exact h.row i r hr
  · rw [hs.rows i] at hr'
    rw [hs.seq]
    exact h.new i r' hn hr'

/-- A step that updates one row, in one of the listed ways. -/
theorem rowsStep_of_rowMapped {j : Inode} {f : FileEntry → FileEntry}
    (h : RowMapped w.db db' j f)
    (hf : ∀ r, w.db.getByInode j = some r → RowStep m w ev j r (some (f r))) :
    RowsStep m w ev db' := by
  refine ⟨fun i r hr => ?_, fun i r' hn hr' => ?_, h.seq.ge⟩
  · by_cases hi : i = j
    · subst hi
      rw [h.self, hr]
      exact hf r hr
    · rw [h.of_ne hi, hr]
      exact .same
  · obtain ⟨r, hr, -⟩ := h.inv hr'
    rw [hn] at hr
    cases hr

/-- A step that deletes one row, in one of the listed ways. -/
theorem rowsStep_of_deleteEntry {j : Inode} (h : w.db.deleteEntry j = some db')
    (hd : ∀ r, w.db.getByInode j = some r → RowStep m w ev j r none) : RowsStep m w ev db' := by
  refine ⟨fun i r hr => ?_, fun i r' hn hr' => ?_, (seq_deleteRows h).ge⟩
  · rw [getByInode_deleteEntry h]
    split
    · rename_i hi
      subst hi
      exact hd r hr
    · rw [hr]
      exact .same
  · rw [getByInode_deleteEntry h, hn] at hr'
    split at hr' <;> cases hr'

/-- A database call whose failure leaves the rows alone. -/
theorem rowsStep_logDb {env : Env} {o : Option Db}
    (h : ∀ db, env.fault = false → o = some db → RowsStep m w ev db) :
    RowsStep m w ev (w.logDb env o).db := by
  rw [World.logDb]
  cases ho : World.tryDb env o with
  | none => exact rowsStep_refl
  | some db => exact h db (tryDb_eq_some.1 ho).1 (tryDb_eq_some.1 ho).2

end Kinds

/-! ## The kinds of steps -/

section Steps

variable {m : Mount} {w w' : World} {k : ℕ} {env : Env}

/-- A request in progress ends with its row marked, unless the call fails or the row has no cache
path to go with the mark. -/
theorem rows_of_fuseCall (w : World) (env : Env) (c : FuseCall) :
    RowMapped w.db (c.tick w env).db c.inode c.mark ∨
      ((c.tick w env).db = w.db ∧ (env.fault = true ∨
        ∃ r, w.db.getByInode c.inode = some r ∧ r.cachePath = none)) := by
  have hfail : ∀ {i n}, World.tryDb env (w.db.setDirtySize i n) = none →
      env.fault = true ∨ ∃ r, w.db.getByInode i = some r ∧ r.cachePath = none := by
    intro i n h
    rw [World.tryDb] at h
    split at h
    · exact .inl ‹_›
    · right
      by_contra hc
      push Not at hc
      simpa [h] using
        setDirtySize_isSome (n := n) fun r hr => Option.isSome_iff_ne_none.2 (hc r hr)
  cases c with
  | write i n =>
    simp only [FuseCall.tick, World.logDb, World.enqueue]
    cases h : World.tryDb env (w.db.setDirtySize i n) with
    | none => exact .inr ⟨rfl, hfail h⟩
    | some db => exact .inl (setDirtySize_rows (tryDb_eq_some.1 h).2)
  | setattr i n cp =>
    simp only [FuseCall.tick, World.enqueue]
    cases cp with
    | none =>
      cases h : World.tryDb env (w.db.setDirtySize i n) with
      | none => exact .inr ⟨rfl, hfail h⟩
      | some db => exact .inl (setDirtySize_rows (tryDb_eq_some.1 h).2)
    | some cp =>
      cases h : World.tryDb env (w.db.setDirtyWithCachePath i cp n) with
      | none =>
        refine .inr ⟨rfl, .inl ?_⟩
        rw [World.tryDb] at h
        split at h
        · assumption
        · have hsome : (w.db.setDirtyWithCachePath i cp n).isSome = true :=
            setDirtyWithCachePath_isSome
          simp [h] at hsome
      | some db => exact .inl (setDirtyWithCachePath_rows (tryDb_eq_some.1 h).2)

theorem rowsStep_fuse {c : FuseCall} (hc : w.fuse = some c) :
    RowsStep m w (.fuse env) (c.tick w env).db := by
  rcases rows_of_fuseCall w env c with h | ⟨h, -⟩
  · exact rowsStep_of_rowMapped h fun r _ => .dirtied hc
  · rw [h]
    exact rowsStep_refl

theorem rowsStep_upload {u : Upload} (hu : w.uploads[k]? = some u) :
    RowsStep m w (.upload k env) (Upload.tick w u.inode env u.pc).1.db := by
  obtain ⟨i, pc⟩ := u
  cases pc with
  | load =>
    simp only [Upload.tick]
    repeat' split
    all_goals exact rowsStep_refl
  | reset s =>
    exact rowsStep_logDb fun db hf h =>
      rowsStep_of_rowMapped (setStatus_rows h) fun r _ => .reset hu hf
  | check e cp => exact rowsStep_refl
  | revert cp =>
    simp only [Upload.tick]
    have hrows : ∀ b db, (if env.fault then none else w.db.revertDirtyWithMissingCache i cp) =
        some (b, db) → RowsStep m w (.upload k env) db := by
      intro b db h
      split at h
      · cases h
      · rcases revertDirtyWithMissingCache_rows h with ⟨-, rfl⟩ | ⟨-, hd, hmap⟩
        · exact rowsStep_refl
        · exact rowsStep_of_rowMapped hmap fun r hr =>
            .reverted hu (by simpa [hr] using hd)
    split
    · exact rowsStep_refl
    · exact hrows _ _ ‹_›
    · exact hrows _ _ ‹_›
  | mark e cp =>
    simp only [Upload.tick]
    split
    · exact rowsStep_refl
    · rename_i db h
      exact rowsStep_of_rowMapped (setStatus_rows (tryDb_eq_some.1 h).2) fun r _ => .marked hu
  | read e cp =>
    simp only [Upload.tick]
    split <;> exact rowsStep_refl
  | put e data =>
    simp only [Upload.tick]
    repeat' split
    all_goals exact rowsStep_refl
  | stat e =>
    simp only [Upload.tick]
    split <;> exact rowsStep_refl
  | record md =>
    simp only [Upload.tick]
    split
    · exact rowsStep_refl
    · rename_i db h
      exact rowsStep_of_rowMapped (setUploaded_rows (tryDb_eq_some.1 h).2) fun r _ =>
        .uploaded hu (tryDb_eq_some.1 h).1
  | finish result =>
    have hdirty : ∀ e, result = .error e → ∀ db, w.db.setStatus i .dirty = some db →
        RowsStep m w (.upload k env) db := fun e he db h =>
      rowsStep_of_rowMapped (setStatus_rows h) fun r _ => .failed (he ▸ hu)
    unfold Upload.tick
    split <;> rename_i heq <;> cases heq
    · exact rowsStep_refl
    · split <;> exact rowsStep_refl
    · split
      · exact rowsStep_logDb fun db _ h => hdirty _ rfl db h
      · exact rowsStep_logDb fun db _ h => hdirty _ rfl db h

theorem rowsStep_hydration {h : Hydration} (hh : w.hydrations[k]? = some h) :
    RowsStep m w (.hydration k env) (Hydration.tick m w h.inode env h.pc).1.db := by
  obtain ⟨i, pc, rd⟩ := h
  cases pc with
  | enter a =>
    simp only [Hydration.tick]
    repeat' split
    all_goals exact rowsStep_refl
  | register a => exact rowsStep_refl
  | wait a signal =>
    cases signal with
    | some b => cases b <;> exact rowsStep_refl
    | none =>
      have hrows : RowsStep m w (.hydration k env) (w.logDb env (w.db.setStatus i .remote)).db :=
        rowsStep_logDb fun db _ h =>
          rowsStep_of_rowMapped (setStatus_rows h) fun r _ => .timedOut hh
      simp only [Hydration.tick]
      split <;> exact hrows
  | claim e =>
    simp only [Hydration.tick]
    split
    · exact rowsStep_refl
    · rename_i db h
      exact rowsStep_of_rowMapped (setStatus_rows (tryDb_eq_some.1 h).2) fun r _ => .claimed hh
  | reload =>
    simp only [Hydration.tick]
    repeat' split
    all_goals exact rowsStep_refl
  | begin_ e =>
    simp only [Hydration.tick]
    split <;> exact rowsStep_refl
  | download e cp =>
    simp only [Hydration.tick]
    split <;> exact rowsStep_refl
  | install e cp data =>
    simp only [Hydration.tick]
    repeat' split
    all_goals exact rowsStep_refl
  | record e cp =>
    simp only [Hydration.tick]
    split
    · exact rowsStep_refl
    · rename_i data hdata
      split
      · exact rowsStep_refl
      · rename_i db h
        exact rowsStep_of_rowMapped (setCached_rows (tryDb_eq_some.1 h).2) fun r _ =>
          .hydrated hh hdata
  | verify e =>
    simp only [Hydration.tick]
    split <;> exact rowsStep_refl
  | prune e =>
    simp only [Hydration.tick]
    split
    · exact rowsStep_refl
    · rename_i db h
      exact rowsStep_of_deleteEntry (tryDb_eq_some.1 h).2 fun r _ => .pruned hh
  | backfill e id =>
    refine rowsStep_logDb fun db _ h => ?_
    obtain ⟨id', -, h⟩ := Option.bind_eq_some_iff.1 h
    exact rowsStep_of_rowMapped (setItemIdIfAbsent_rows h) fun r _ => .backfilled hh _
  | rollback e er =>
    exact rowsStep_logDb fun db _ h =>
      rowsStep_of_rowMapped (setStatus_rows h) fun r _ => .rolledBack hh
  | notify result => exact rowsStep_refl

theorem rowsStep_read {r : Read} (hr : w.reads[k]? = some r) :
    RowsStep m w (.read k env) (Read.tick m w env r).1.db := by
  have htouch : ∀ (w₁ : World) (i : Inode), w₁.db = w.db →
      RowsStep m w (.read k env) (w₁.logDb env (w.db.touchLru i)).db := by
    intro w₁ i hw
    rw [World.logDb, hw]
    exact rowsStep_logDb fun db _ h => rowsStep_of_same (sameRows_of_touchLru h)
  simp only [Read.tick]
  split
  case h_3 f hpc =>
    split
    · exact rowsStep_refl
    · rename_i db h
      exact rowsStep_of_rowMapped (setStatus_rows (tryDb_eq_some.1 h).2) fun r _ =>
        .claimedByRead hr hpc (tryDb_eq_some.1 h).1
  all_goals try (repeat' split)
  all_goals first
    | exact rowsStep_refl
    | exact htouch _ _ rfl

theorem rowsStep_eviction {ev : Eviction} (he : w.eviction = some ev) :
    RowsStep m w (.eviction env) (ev.tick m w env).1.db := by
  unfold Eviction.tick
  split
  case h_5 c rest n hpc =>
    split
    · exact rowsStep_refl
    · rename_i db h
      exact rowsStep_of_rowMapped (setEvicted_rows (tryDb_eq_some.1 h).2) fun r _ =>
        .evicted he hpc
  all_goals try (repeat' split)
  all_goals exact rowsStep_refl

theorem rowsStep_background (b : Background) :
    RowsStep m w (.background k env) (Background.tick m w env b).1.db := by
  unfold Background.tick
  split <;> try (repeat' split) <;> exact rowsStep_of_same ⟨rfl, fun _ => rfl⟩

theorem rowsStep_poll (op : RemoteOp) : RowsStep m w (.poll op) (w.poll op).db := by
  have hrows := rowsRefreshed_applyRemote op w.db
  refine ⟨fun i r hr => ?_, fun i r' hn hr' => ?_, hrows.seq⟩
  · cases ho : (w.poll op).db.getByInode i with
    | none => exact .dropped fun r' hr' => nomatch hr'
    | some r' =>
      rcases hrows.rows i r' ho with ⟨r₀, hr₀, h⟩ | ⟨hc, hs, hlt, -⟩
      · rw [hr] at hr₀
        obtain rfl := Option.some.inj hr₀
        exact .refreshed h
      · exact .dropped fun r'' hr'' => Option.some.inj hr'' ▸ ⟨hc, hs, hlt⟩
  · rcases hrows.rows i r' hr' with ⟨r₀, hr₀, -⟩ | ⟨hc, hs, hlt, hle⟩
    · rw [hn] at hr₀
      cases hr₀
    · exact ⟨.listed hc hs, hlt, hle⟩

theorem rowsStep_of_insertFile {ev : Event} {e : NewFileEntry} {i : Inode} {db : Db}
    (h : w.db.insertFile e = some (i, db))
    (hn : ∀ r, i = w.db.nextInode → r.parent = some e.parent → r.remotePath = e.remotePath →
      r.kind = e.kind → r.etag = e.etag → r.status = e.status → r.cachePath = e.cachePath →
      NewRow m w ev i r) : RowsStep m w ev db := by
  obtain ⟨r, hi, hp, hrp, hk, he, hs, hc, hnext, hnone, hseq, hrows⟩ := insertFile_spec h
  have hlt : w.db.seq < i := hnext ▸ w.db.seq_lt_nextInode
  refine ⟨fun j r₀ hr₀ => ?_, fun j r' hj hr' => ?_, hseq ▸ hlt.le⟩
  · rw [hrows j, if_neg, hr₀]
    · exact .same
    · rintro rfl
      rw [hnone] at hr₀
      cases hr₀
  · rw [hrows j] at hr'
    split at hr'
    · rename_i hij
      obtain rfl := Option.some.inj hr'
      subst hij
      exact ⟨hn r hnext hp hrp hk he hs hc, hlt, hseq.ge⟩
    · rw [hj] at hr'
      cases hr'

theorem rowsStep_handleOpen (i : Inode) :
    RowsStep m w (.request (.open_ i)) (handleOpen m w i).2.db := by
  simp only [handleOpen, World.allocFh]
  split
  · exact rowsStep_refl
  · rename_i entry hentry
    split
    · split
      · exact rowsStep_refl
      · rename_i hneeds _ _ h
        refine rowsStep_of_rowMapped (setStatus_rows h) fun r hr => .opened ?_
        obtain rfl := Option.some.inj (hr.symm.trans hentry)
        exact (Bool.and_eq_true_iff.1 hneeds).1
    · split
      · exact rowsStep_refl
      · exact rowsStep_logDb fun db _ h => rowsStep_of_same (sameRows_of_touchLru h)

theorem rowsStep_handleCreate (p : Inode) (n : Str) :
    RowsStep m w (.request (.create p n)) (handleCreate m w p n).2.db := by
  simp only [handleCreate, World.allocFh]
  repeat' split
  any_goals exact rowsStep_refl
  rename_i h
  exact rowsStep_of_insertFile h fun r hi hp hrp hk he hs hc =>
    .created ‹_› ‹_› hi hp hrp hk he hs hc

theorem rowsStep_handleMkdir (p : Inode) (n : Str) :
    RowsStep m w (.request (.mkdir p n)) (handleMkdir m w p n).2.db := by
  simp only [handleMkdir]
  repeat' split
  any_goals exact rowsStep_refl
  rename_i h
  exact rowsStep_of_insertFile h fun r hi _ _ hk he hs hc => .made hi hk he hs hc

theorem rowsStep_handleUnlink (p : Inode) (n : Str) :
    RowsStep m w (.request (.unlink p n)) (handleUnlink m w p n).2.db := by
  simp only [handleUnlink]
  split
  · exact rowsStep_refl
  · rename_i entry hentry
    split
    · exact rowsStep_refl
    · rename_i db h
      have hrows : RowsStep m w (.request (.unlink p n)) db :=
        rowsStep_of_deleteEntry h fun r hr => by
          obtain rfl := Option.some.inj (hr.symm.trans (getByParentName_spec hentry).1)
          exact .unlinked hentry
      exact hrows.trans_same ⟨rfl, fun _ => rfl⟩

theorem rowsStep_handleRmdir (p : Inode) (n : Str) :
    RowsStep m w (.request (.rmdir p n)) (handleRmdir m w p n).2.db := by
  simp only [handleRmdir]
  split
  · exact rowsStep_refl
  · rename_i entry hentry
    repeat' split
    any_goals exact rowsStep_refl
    rename_i db h
    have hrows : RowsStep m w (.request (.rmdir p n)) db :=
      rowsStep_of_deleteEntry h fun r hr => by
        obtain rfl := Option.some.inj (hr.symm.trans (getByParentName_spec hentry).1)
        exact .removed hentry
    exact hrows.trans_same ⟨rfl, fun _ => rfl⟩

theorem getByInode_dropDestination (db : Db) (mountId : ℕ) (p : Inode) (n : Str) (i : Inode) :
    (dropDestination db mountId p n).1.getByInode i = db.getByInode i ∨
      ∃ r, db.getByParentName mountId p n = some r ∧ r.inode = i ∧
        (dropDestination db mountId p n).1.getByInode i = none := by
  rw [dropDestination]
  cases hd : db.getByParentName mountId p n with
  | none => exact .inl rfl
  | some dest =>
    cases h : db.deleteEntry dest.inode with
    | none => exact .inl (by simp [h])
    | some db' =>
      simp only [h, Option.getD_some, getByInode_deleteEntry h]
      split
      · rename_i hi
        exact .inr ⟨dest, rfl, hi.symm, rfl⟩
      · exact .inl rfl

theorem seq_dropDestination {db : Db} {mountId : ℕ} {p : Inode} {n : Str} :
    (dropDestination db mountId p n).1.seq = db.seq := by
  rw [dropDestination]
  cases hd : db.getByParentName mountId p n with
  | none => rfl
  | some dest =>
    cases h : db.deleteEntry dest.inode with
    | none => simp [h]
    | some db' => simpa [h] using seq_deleteRows h

theorem rowsStep_handleRename (p : Inode) (n : Str) (p' : Inode) (n' : Str) :
    RowsStep m w (.request (.rename p n p' n')) (handleRename m w p n p' n').2.db := by
  have hdrop : RowsStep m w (.request (.rename p n p' n'))
      (dropDestination w.db m.mountId p' n').1 := by
    refine ⟨fun i r hr => ?_, fun i r' hn hr' => ?_, seq_dropDestination.ge⟩
    · rcases getByInode_dropDestination _ _ _ _ i with h | ⟨dest, hd, hi, h⟩
      · rw [h, hr]
        exact .same
      · obtain rfl := Option.some.inj (hr.symm.trans (hi ▸ (getByParentName_spec hd).1))
        rw [h]
        exact .replaced hd
    · rcases getByInode_dropDestination _ _ p' n' i with h | ⟨_, _, _, h⟩
      · rw [h, hn] at hr'
        cases hr'
      · rw [h] at hr'
        cases hr'
  simp only [handleRename]
  split
  · exact rowsStep_refl
  split
  · exact rowsStep_refl
  rename_i entry hentry
  split
  · exact rowsStep_refl
  rename_i q hq
  split
  · exact hdrop
  rename_i db h
  have hmap := renameEntry_rows h
  have hrows : RowsStep m w (.request (.rename p n p' n')) db := by
    refine ⟨fun i r hr => ?_, fun i r' hn hr' => ?_, (hmap.seq.trans seq_dropDestination).ge⟩
    · by_cases hi : i = entry.inode
      · subst hi
        obtain rfl := Option.some.inj (hr.symm.trans (getByParentName_spec hentry).1)
        rw [hmap.self]
        rcases getByInode_dropDestination _ _ p' n' r.inode with h | ⟨dest, hd, hi, h⟩
        · rw [h, hr]
          exact .renamed hentry hq
        · obtain rfl := Option.some.inj (hr.symm.trans (hi ▸ (getByParentName_spec hd).1))
          rw [h]
          exact .replaced hd
      · rw [hmap.of_ne hi]
        exact hdrop.row i r hr
    · obtain ⟨r₀, hr₀, -⟩ := hmap.inv hr'
      exact absurd (hdrop.new i r₀ hn hr₀).1 (by rintro ⟨⟩)
  split
  · exact hrows.trans_same ⟨rfl, fun _ => rfl⟩
  · exact hrows

theorem rowsStep_serve (r : Request) : RowsStep m w (.request r) (serve m w r).db := by
  cases r with
  | write fh offset data =>
    simp only [serve, handleWrite]
    repeat' split
    all_goals exact rowsStep_refl
  | setattr i n =>
    simp only [serve, handleSetattr]
    repeat' split
    all_goals exact rowsStep_refl
  | open_ i => exact rowsStep_handleOpen i
  | release fh =>
    simp only [serve, handleRelease]
    repeat' split
    all_goals exact rowsStep_refl
  | fsync fh =>
    simp only [serve, handleFsync]
    split <;> exact rowsStep_refl
  | read fh offset size => exact rowsStep_refl
  | create p n => exact rowsStep_handleCreate p n
  | mkdir p n => exact rowsStep_handleMkdir p n
  | unlink p n => exact rowsStep_handleUnlink p n
  | rmdir p n => exact rowsStep_handleRmdir p n
  | rename p n p' n' => exact rowsStep_handleRename p n p' n'

/-- **What a step does to the rows of the index.** -/
theorem rowsStep_of_step {ev : Event} (h : step m w ev = some w') : RowsStep m w ev w'.db := by
  cases ev with
  | request r =>
    rw [(step_request h).2]
    exact rowsStep_serve r
  | fuse env =>
    obtain ⟨c, hc, rfl⟩ := Option.map_eq_some_iff.1 h
    exact rowsStep_fuse hc
  | launch i =>
    obtain rfl := step_launch h
    exact rowsStep_refl
  | upload k env =>
    obtain ⟨u, hu, rfl⟩ := Option.map_eq_some_iff.1 h
    exact rowsStep_upload hu
  | hydration k env =>
    obtain ⟨x, hx, rfl⟩ := Option.map_eq_some_iff.1 h
    have : RowsStep m w (.hydration k env) (Hydration.tick m w x.inode env x.pc).1.db :=
      rowsStep_hydration hx
    dsimp only
    split <;> exact this
  | read k env =>
    obtain ⟨x, hx, rfl⟩ := Option.map_eq_some_iff.1 h
    have : RowsStep m w (.read k env) (Read.tick m w env x).1.db := rowsStep_read hx
    dsimp only
    split <;> exact this
  | startEviction =>
    obtain ⟨ev, -, rfl⟩ := step_startEviction h
    exact rowsStep_refl
  | eviction env =>
    obtain ⟨x, hx, rfl⟩ := Option.map_eq_some_iff.1 h
    exact rowsStep_eviction hx
  | background k env =>
    obtain ⟨x, -, rfl⟩ := Option.map_eq_some_iff.1 h
    exact rowsStep_background x
  | prefetch parent =>
    rw [← Option.some.inj h, prefetchSmallFiles]
    split <;> exact rowsStep_refl
  | poll op => exact Option.some.inj h ▸ rowsStep_poll op
  | foreign e => exact Option.some.inj h ▸ rowsStep_refl
  | clock n => exact Option.some.inj h ▸ rowsStep_of_same ⟨rfl, fun _ => rfl⟩

/-- The row after a step of a row there was. -/
theorem row_of_step {ev : Event} (h : step m w ev = some w') {i : Inode} {r : FileEntry}
    (hr : w.db.getByInode i = some r) : RowStep m w ev i r (w'.db.getByInode i) :=
  (rowsStep_of_step h).row i r hr

/-- A row after a step was there before, or is new, with an inode never given out before. -/
theorem row_inv_of_step {ev : Event} (h : step m w ev = some w') {i : Inode} {r' : FileEntry}
    (hr' : w'.db.getByInode i = some r') :
    (∃ r, w.db.getByInode i = some r ∧ RowStep m w ev i r (some r')) ∨
      (NewRow m w ev i r' ∧ w.db.seq < i) := by
  cases hr : w.db.getByInode i with
  | none =>
    obtain ⟨hnew, hlt, -⟩ := (rowsStep_of_step h).new i r' hr hr'
    exact .inr ⟨hnew, hlt⟩
  | some r => exact .inl ⟨r, rfl, hr' ▸ row_of_step h hr⟩

/-! ## Inodes are not used twice -/

/-- Every row has an inode that was given out. -/
def InodesBounded (w : World) : Prop := ∀ i r, w.db.getByInode i = some r → i ≤ w.db.seq

theorem seq_le_of_step {ev : Event} (h : step m w ev = some w') : w.db.seq ≤ w'.db.seq :=
  (rowsStep_of_step h).seq

theorem InodesBounded.step {ev : Event} (hi : InodesBounded w) (h : step m w ev = some w') :
    InodesBounded w' := by
  intro i r' hr'
  have hrows := rowsStep_of_step h
  cases hr : w.db.getByInode i with
  | none => exact (hrows.new i r' hr hr').2.2
  | some r => exact (hi i r hr).trans hrows.seq

theorem inodesBounded_init (m : Mount) (now : ℕ) : InodesBounded (World.init m now) := by
  intro i r hr
  obtain rfl : r = rootEntry m.mountId := List.mem_singleton.1 (mem_rows_of_getByInode hr)
  exact (inode_of_getByInode hr).ge

/-! ## Rows that become unsynced -/

/-- The row is dirty or uploading. -/
def RowUnsynced (w : World) (i : Inode) : Prop :=
  ∃ r ∈ w.db.getByInode i, r.status.isUnsynced = true

instance (w : World) (i : Inode) : Decidable (RowUnsynced w i) :=
  inferInstanceAs (Decidable (∃ r ∈ w.db.getByInode i, _ = true))

/-- The call may leave the row dirty or uploading. -/
def UploadPc.flags : UploadPc → Bool
  | .mark .. | .finish (.error _) => true
  | .reset s => s.isUnsynced
  | _ => false

/-- A row becomes unsynced only when a request on it or an upload of it marks it. -/
theorem not_rowUnsynced_of_step {ev : Event} (h : step m w ev = some w') {i : Inode}
    (hi : i ≤ w.db.seq) (hs : ¬RowUnsynced w i)
    (hf : ∀ env c, ev = .fuse env → w.fuse = some c → c.inode ≠ i)
    (hu : ∀ k env u, ev = .upload k env → w.uploads[k]? = some u → u.inode = i →
      u.pc.flags = false) : ¬RowUnsynced w' i := by
  rintro ⟨r', hr', hs'⟩
  rcases row_inv_of_step h hr' with ⟨r, hr, hstep⟩ | ⟨-, hlt⟩
  · cases hstep with
    | same => exact hs ⟨r', hr, hs'⟩
    | dirtied hc => exact hf _ _ rfl hc rfl
    | reset hu' => exact absurd hs' (Bool.eq_false_iff.1 (hu _ _ _ rfl hu' rfl))
    | marked hu' => cases hu _ _ _ rfl hu' rfl
    | failed hu' => cases hu _ _ _ rfl hu' rfl
    | renamed | backfilled => exact hs ⟨r, hr, hs'⟩
    | refreshed href => exact hs ⟨r, hr, href.isUnsynced_eq ▸ hs'⟩
    | dropped ho => exact absurd (ho r' rfl).2.2 hi.not_gt
    | opened | reverted | uploaded | claimedByRead | evicted | claimed | timedOut | rolledBack
    | hydrated => cases hs'
  · exact absurd hlt hi.not_gt

end Steps

end Stratosync

import Stratosync.State.RemoteOps

/-!
# Remote events and local work

What the remote-driven operations do to a file row that is dirty or uploading. The statements
keep the status of such a row and spare it from deletion, with two exceptions: an upsert that
moves a row found by item id deletes whatever row is at the new path, and every upsert writes the
kind the remote reports. `keepsLocalWork_of_run` shows that these are the only ones.
-/

namespace Stratosync

open Foundations Foundations.Runs Relation

/-- A file row with work the remote does not have. -/
def FileEntry.hasLocalWork (r : FileEntry) : Bool := r.kind = .file ∧ r.status.isUnsynced

/-- `r'` is `r` with its local work intact. -/
structure WorkKept (r r' : FileEntry) : Prop where
  kind_eq : r'.kind = r.kind
  cachePath_eq : r'.cachePath = r.cachePath
  unsynced : r'.status.isUnsynced = true

/-- Every row with local work in `db` is still there in `db'`, its work intact. -/
def Db.KeepsLocalWork (db db' : Db) : Prop :=
  ∀ i r, db.getByInode i = some r → r.hasLocalWork = true →
    ∃ r', db'.getByInode i = some r' ∧ WorkKept r r'

/-- An operation that does not run into a row with local work: an upsert that matches one reports
a file, and one that moves a row found by item id finds none at the new path. -/
def RemoteOp.Spares (db : Db) : RemoteOp → Prop
  | .batchUpsert m _ es _ =>
    ∀ e ∈ es, ∀ r ∈ db.getByRemotePath m e.remotePath, r.hasLocalWork = true → e.kind = .file
  | .upsert m x id =>
    (∀ r ∈ id.bind (db.getByItemId m),
      (r.hasLocalWork = true → x.kind = .file) ∧
        (r.remotePath ≠ x.remotePath →
          ∀ q ∈ db.getByRemotePath m x.remotePath, q.hasLocalWork = false)) ∧
      (id.bind (db.getByItemId m) = none →
        ∀ r ∈ db.getByRemotePath m x.remotePath, r.hasLocalWork = true → x.kind = .file)
  | _ => True

instance (db : Db) : (op : RemoteOp) → Decidable (op.Spares db)
  | .batchUpsert m _ es _ => inferInstanceAs (Decidable
      (∀ e ∈ es, ∀ r ∈ db.getByRemotePath m e.remotePath, r.hasLocalWork = true → e.kind = .file))
  | .upsert m _ id =>
    inferInstanceAs (Decidable ((∀ r ∈ id.bind (db.getByItemId m), _) ∧ (_ → _)))
  | .deleteByPath .. | .deleteByItemId .. | .deleteStale .. => .isTrue trivial

theorem hasLocalWork_iff {r : FileEntry} :
    r.hasLocalWork = true ↔ r.kind = .file ∧ r.status.isUnsynced = true := by
  simp [FileEntry.hasLocalWork]

theorem WorkKept.hasLocalWork {r r' : FileEntry} (h : WorkKept r r')
    (hr : r.hasLocalWork = true) : r'.hasLocalWork = true :=
  hasLocalWork_iff.2 ⟨h.kind_eq.trans (hasLocalWork_iff.1 hr).1, h.unsynced⟩

theorem WorkKept.refl {r : FileEntry} (hr : r.hasLocalWork = true) : WorkKept r r :=
  ⟨rfl, rfl, (hasLocalWork_iff.1 hr).2⟩

theorem WorkKept.trans {r r' r'' : FileEntry} (h : WorkKept r r') (h' : WorkKept r' r'') :
    WorkKept r r'' :=
  ⟨h'.kind_eq.trans h.kind_eq, h'.cachePath_eq.trans h.cachePath_eq, h'.unsynced⟩

theorem Db.KeepsLocalWork.trans {db db' db'' : Db} (h : db.KeepsLocalWork db')
    (h' : db'.KeepsLocalWork db'') : db.KeepsLocalWork db'' := by
  intro i r hr hw
  obtain ⟨r', hr', hk⟩ := h i r hr hw
  obtain ⟨r'', hr'', hk'⟩ := h' i r' hr' (hk.hasLocalWork hw)
  exact ⟨r'', hr'', hk.trans hk'⟩

/-- An upsert that reports a file keeps the work of the row it refreshes. -/
theorem WorkKept.refresh {r r' : FileEntry} (h : WorkKept r r') {x : Refresh}
    (hk : x.kind = r.kind) (id : Option Str) :
    WorkKept r { refreshRow x r' with remoteItemId := id } :=
  ⟨hk, h.cachePath_eq, (SyncStatus.isUnsynced_refreshed _).trans h.unsynced⟩

section Statement

variable {op : RemoteOp} {db d d' : Db} {i : Inode} {r : FileEntry}

/-- The row `r` of `db` in a state `d` on the way: its work is intact, and unless the operation
moves rows it is where it was. -/
def Held (op : RemoteOp) (db : Db) (i : Inode) (r : FileEntry) (d : Db) : Prop :=
  ∃ r', d.getByInode i = some r' ∧ WorkKept r r' ∧
    (op.ByPath db → r'.mountId = r.mountId ∧ r'.remotePath = r.remotePath)

/-- The kind an upsert by path reports for the path of a row with local work. -/
theorem kind_of_spares (hs : op.Spares db) (hp : op.ByPath db) {m : ℕ} {x : Refresh}
    {id : Option Str} (hu : (m, x, id) ∈ op.upserts) (hr : db.getByInode i = some r)
    (hw : r.hasLocalWork = true) (hm : r.mountId = m) (hx : r.remotePath = x.remotePath) :
    x.kind = .file := by
  have hfind := Db.getByRemotePath_self hr
  cases op with
  | batchUpsert m' p es g =>
    obtain ⟨e, he, h⟩ := List.mem_map.1 hu
    obtain ⟨rfl, rfl, -⟩ : m' = m ∧ e.toRefresh p g = x ∧ _ := by simpa using h
    have hx : r.remotePath = e.remotePath := hx
    exact hs e he r (hm ▸ hx ▸ hfind) hw
  | upsert m' x' id' =>
    obtain ⟨rfl, rfl, rfl⟩ : m = m' ∧ x = x' ∧ id = id' := by simpa [RemoteOp.upserts] using hu
    subst hm
    exact hs.2 (hp _ x id rfl) r (hx ▸ hfind) hw
  | deleteByPath => cases hu
  | deleteByItemId => cases hu
  | deleteStale => cases hu

theorem held_of_statement (hs : op.Spares db) (hr : db.getByInode i = some r)
    (hw : r.hasLocalWork = true) (h : RemoteStatement op db d d') (hd : Held op db i r d) :
    Held op db i r d' := by
  obtain ⟨r', hr', hk, hin⟩ := hd
  cases h with
  | @upsert _ _ m x id hp hu h =>
    rw [Db.upsertByPath] at h
    split at h
    · rename_i q hq
      have hmap := Db.rowMapped_of_updateRow h fun _ => rfl
      obtain ⟨hqi, hqm, hqp⟩ := Db.getByRemotePath_spec hq
      by_cases hi : i = q.inode
      · obtain rfl : r' = q := Option.some.inj (hr'.symm.trans (hi ▸ hqi))
        have hkind := kind_of_spares hs hp hu hr hw ((hin hp).1.symm.trans hqm)
          ((hin hp).2.symm.trans hqp)
        refine ⟨refreshByPath x id r', ?_, hk.refresh ?_ _, fun _ => ⟨(hin hp).1, ?_⟩⟩
        · rw [hi, hmap.self, ← hi, hr']
          rfl
        · rw [hkind, (hasLocalWork_iff.1 hw).1]
        · exact hqp.symm.trans (hin hp).2
      · exact ⟨r', (hmap.of_ne hi).trans hr', hk, hin⟩
    · rename_i hnone
      refine ⟨r', ?_, hk, hin⟩
      rw [Db.getByInode_insertRow h, if_neg]
      · exact hr'
      · rintro rfl
        rw [Db.getByInode_of_insertRow h] at hr'
        cases hr'
  | @delete _ _ j hj h =>
    refine ⟨r', ?_, hk, hin⟩
    rw [Db.getByInode_deleteEntry h, if_neg]
    · exact hr'
    · rintro rfl
      exact absurd hk.unsynced (by simp [hj r' hr'])
  | @clear d' m x id q hop hid hne h =>
    -- the statement starts in `db` itself, where the row is `r`
    obtain rfl : r' = r := Option.some.inj (hr'.symm.trans hr)
    refine ⟨r', ?_, hk, hin⟩
    rw [Db.getByInode_deleteRows h, hr']
    subst hop
    refine Option.filter_eq_some_iff.2 ⟨rfl, ?_⟩
    by_contra hc
    obtain ⟨rfl, hp, -⟩ : r'.mountId = m ∧ r'.remotePath = x.remotePath ∧ r'.inode ≠ q.inode := by
      simpa using hc
    exact absurd hw (by simp [(hs.1 q hid).2 hne r' (hp ▸ Db.getByRemotePath_self hr)])
  | @move _ d' m x id q hop hid _ h =>
    have hmap := Db.rowMapped_of_updateRow h fun _ => rfl
    have hnot : ¬op.ByPath db := fun hp => by simp [hp m x id hop] at hid
    subst hop
    by_cases hi : i = q.inode
    · obtain ⟨itemId, rfl, hq⟩ := Option.bind_eq_some_iff.1 hid
      have hqi := Db.getByInode_of_mem (List.mem_of_find?_eq_some hq)
      obtain rfl : r = q := Option.some.inj (hr.symm.trans (hi ▸ hqi))
      refine ⟨refreshRow x r', ?_, hk.refresh ?_ r'.remoteItemId, fun hp => absurd hp hnot⟩
      · rw [hi, hmap.self, ← hi, hr']
        rfl
      · rw [(hs.1 r hid).1 hw, (hasLocalWork_iff.1 hw).1]
    · exact ⟨r', (hmap.of_ne hi).trans hr', hk, hin⟩

end Statement

theorem keepsLocalWork_of_spares {op : RemoteOp} {db : Db} (hs : op.Spares db) :
    db.KeepsLocalWork (db.applyRemote op) := by
  intro i r hr hw
  have hsteps := applyRemote_steps op db
  generalize db.applyRemote op = db' at hsteps
  have hheld : Held op db i r db' := by
    induction hsteps with
    | refl => exact ⟨r, hr, .refl hw, fun _ => ⟨rfl, rfl⟩⟩
    | tail _ h ih => exact held_of_statement hs hr hw h ih
  obtain ⟨r', hr', hk, -⟩ := hheld
  exact ⟨r', hr', hk⟩

/-- The index under a sequence of remote-driven operations. -/
def remoteStep (db : Db) (op : RemoteOp) : Option Db := some (db.applyRemote op)

/-- **Remote events keep local work**, in every sequence of operations none of which runs into a
row with local work. -/
theorem keepsLocalWork_of_run {ops : List RemoteOp} {db db' : Db}
    (hg : Guarded remoteStep (fun d op => op.Spares d) db ops)
    (hr : run remoteStep db ops = some db') : db.KeepsLocalWork db' :=
  inv_of_run (I := fun d => db.KeepsLocalWork d)
    (fun _ _ _ hk hs h => hk.trans (Option.some.inj h ▸ keepsLocalWork_of_spares hs))
    (fun _ r hr hw => ⟨r, hr, .refl hw⟩) hg hr

/-! ## A rename on the remote onto a file being created -/

/-- A file `b`, created and written, that waits for its upload. -/
def pendingFile : NewFileEntry :=
  { mountId := 1, parent := fuseRootInode, name := ['b'], remotePath := ['b'], kind := .file
    size := 3, mtime := 0, etag := none, status := .dirty, cachePath := some [['b']]
    cacheSize := some 3 }

/-- A file the remote reports at `path`. -/
def reportedAt (path : Str) : Refresh :=
  { parent := fuseRootInode, name := path, remotePath := path, kind := .file, size := 1, mtime := 0
    etag := some ['v'], pollGeneration := 0 }

def pendingIndex : Db := (((Db.empty 1 0).insertFile pendingFile).map Prod.snd).getD (Db.empty 1 0)

/-- Another client uploads `a`, then renames it to `b`: the row of the local `b` is deleted. -/
def renameOnto : List RemoteOp :=
  [.upsert 1 (reportedAt ['a']) (some ['x']), .upsert 1 (reportedAt ['b']) (some ['x'])]

theorem not_keepsLocalWork_of_rename_onto :
    ¬∀ (db db' : Db) (ops : List RemoteOp), run remoteStep db ops = some db' →
      db.KeepsLocalWork db' := by
  intro h
  have hrow : pendingIndex.getByInode 2 ≠ none := by decide
  obtain ⟨r, hr⟩ := Option.ne_none_iff_exists'.1 hrow
  have hwork : (pendingIndex.getByInode 2).any FileEntry.hasLocalWork = true := by decide
  have hgone : ∀ db', run remoteStep pendingIndex renameOnto = some db' →
      db'.getByInode 2 = none := by
    intro db' hdb
    obtain rfl := Option.some.inj hdb
    decide
  obtain ⟨db', hdb⟩ : ∃ db', run remoteStep pendingIndex renameOnto = some db' := ⟨_, rfl⟩
  obtain ⟨r', hr', -⟩ := h _ _ _ hdb 2 r hr (by simpa [hr] using hwork)
  rw [hgone db' hdb] at hr'
  cases hr'

/-- The same two events with the file renamed to a path that is free keep it. -/
theorem keepsLocalWork_of_rename_elsewhere :
    ∃ db', run remoteStep pendingIndex
        [.upsert 1 (reportedAt ['a']) (some ['x']), .upsert 1 (reportedAt ['c']) (some ['x'])] =
          some db' ∧ pendingIndex.KeepsLocalWork db' :=
  have hguard : Guarded remoteStep (fun d op => op.Spares d) pendingIndex
      [.upsert 1 (reportedAt ['a']) (some ['x']), .upsert 1 (reportedAt ['c']) (some ['x'])] := by
    decide
  ⟨_, rfl, keepsLocalWork_of_run hguard rfl⟩

end Stratosync

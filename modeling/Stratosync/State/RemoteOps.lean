import Stratosync.State.Db
import Stratosync.Foundations.Runs
import Mathlib.Data.List.Defs

/-!
# Applying remote changes to the index

The statements through which the poller and the directory listings write what they learn about
the remote: the two upserts, the two deletions of one entry and the sweep of entries a full poll
did not see. A method that issues several statements without a transaction keeps what the first
ones did when a later one fails, so it returns the state with its result.

Every operation is a sequence of `RemoteStatement`s (`applyRemote_steps`), which is how facts about
all of them are proved.
-/

namespace Stratosync

open Foundations

/-- The columns an upsert writes. -/
structure Refresh where
  parent : Inode
  name : Str
  remotePath : Str
  kind : FileKind
  size : ℕ
  mtime : ℕ
  etag : Option Str
  pollGeneration : ℕ
  deriving DecidableEq, Repr

/-- The status an upsert leaves: an unsynced row keeps its own, any other becomes stale. -/
def SyncStatus.refreshed (s : SyncStatus) : SyncStatus := if s.isUnsynced then s else .stale

@[simp] theorem SyncStatus.refreshed_refreshed (s : SyncStatus) :
    s.refreshed.refreshed = s.refreshed := by
  cases s <;> rfl

@[simp] theorem SyncStatus.isUnsynced_refreshed (s : SyncStatus) :
    s.refreshed.isUnsynced = s.isUnsynced := by
  cases s <;> rfl

/-- The row after an upsert. -/
def refreshRow (x : Refresh) (r : FileEntry) : FileEntry :=
  { r with
    parent := some x.parent, name := x.name, remotePath := x.remotePath, kind := x.kind
    size := x.size, mtime := x.mtime, etag := x.etag, pollGeneration := x.pollGeneration
    status := r.status.refreshed }

/-- The row after an upsert that matched it by path, with the item id filled in. -/
def refreshByPath (x : Refresh) (itemId : Option Str) (r : FileEntry) : FileEntry :=
  { refreshRow x r with remoteItemId := r.remoteItemId <|> itemId }

/-- A child of a listed directory, as `batch_upsert_remote_files` takes it. -/
structure ListedEntry where
  name : Str
  remotePath : Str
  kind : FileKind
  size : ℕ
  mtime : ℕ
  etag : Option Str
  deriving DecidableEq, Repr

def ListedEntry.toRefresh (e : ListedEntry) (parent : Inode) (generation : ℕ) : Refresh :=
  { parent, name := e.name, remotePath := e.remotePath, kind := e.kind, size := e.size
    mtime := e.mtime, etag := e.etag, pollGeneration := generation }

/-- `entries.chunks(size)`. -/
def chunks {α : Type*} (size : ℕ) (l : List α) : List (List α) := (l.toChunksAux (size - 1) 0).2

theorem append_flatten_toChunksAux {α : Type*} (n : ℕ) (l : List α) (i : ℕ) :
    (l.toChunksAux n i).1 ++ (l.toChunksAux n i).2.flatten = l := by
  induction l generalizing i with
  | nil => rfl
  | cons a l ih => cases i <;> simp [List.toChunksAux, ih]

theorem flatten_chunks {α : Type*} (size : ℕ) (l : List α) : (chunks size l).flatten = l := by
  have h := append_flatten_toChunksAux (size - 1) l 0
  rwa [show (l.toChunksAux (size - 1) 0).1 = [] by cases l <;> rfl, List.nil_append] at h

namespace Db

variable (db : Db)

def getByItemId (mountId : ℕ) (itemId : Str) : Option FileEntry :=
  db.fileIndex.rows.find? fun r => r.mountId = mountId ∧ r.remoteItemId = some itemId

/-- `INSERT INTO file_index .. ON CONFLICT(mount_id, remote_path) DO UPDATE`. -/
def upsertByPath (mountId : ℕ) (x : Refresh) (itemId : Option Str) : Option Db :=
  match db.getByRemotePath mountId x.remotePath with
  | some r => db.updateRow r.inode (refreshByPath x itemId)
  | none =>
    db.insertRow
      { inode := db.nextInode, mountId, parent := some x.parent, name := x.name
        remotePath := x.remotePath, kind := x.kind, size := x.size, mtime := x.mtime
        etag := x.etag, status := .remote, cachePath := none, cacheSize := none
        dirListed := none, pollGeneration := x.pollGeneration, remoteItemId := itemId }

/-- One transaction of a batch. -/
def upsertChunk (mountId : ℕ) (parent : Inode) (generation : ℕ) (chunk : List ListedEntry) :
    Option Db :=
  chunk.foldlM (fun d e => d.upsertByPath mountId (e.toRefresh parent generation) none) db

/-- The transactions of a batch; a failed one is rolled back and ends the batch. -/
def upsertChunks (mountId : ℕ) (parent : Inode) (generation : ℕ) :
    Db → List (List ListedEntry) → Bool × Db
  | db, [] => (true, db)
  | db, c :: cs =>
    match db.upsertChunk mountId parent generation c with
    | some db' => upsertChunks mountId parent generation db' cs
    | none => (false, db)

/-- `batch_upsert_remote_files_gen`. Says whether every transaction was committed. -/
def batchUpsertRemoteFilesGen (mountId : ℕ) (parent : Inode) (entries : List ListedEntry)
    (generation : ℕ) : Bool × Db :=
  upsertChunks mountId parent generation db (chunks 1000 entries)

/-- Upsert a remote file by its item id when a row has it, else by its path. A row found by item
id moves to the new path, and the row that was there is deleted first. -/
def upsertRemoteFileByIdOrPath (mountId : ℕ) (x : Refresh) (itemId : Option Str) :
    Option Inode × Db :=
  match itemId.bind (db.getByItemId mountId) with
  | some r =>
    let cleared :=
      if r.remotePath = x.remotePath then some db
      else db.deleteRows fun q =>
        q.mountId = mountId ∧ q.remotePath = x.remotePath ∧ q.inode ≠ r.inode
    match cleared with
    | none => (none, db)
    | some db₁ =>
      match db₁.updateRow r.inode (refreshRow x) with
      | none => (none, db₁)
      | some db₂ => (some r.inode, db₂)
  | none =>
    match db.upsertByPath mountId x itemId with
    | none => (none, db)
    | some db₁ => ((db₁.getByRemotePath mountId x.remotePath).map FileEntry.inode, db₁)

/-- Delete the row a search found, unless it is unsynced. The row's cache file is for the caller
to remove. -/
def deleteRemoteEntry (found : Option FileEntry) : Option (Option (Inode × Option PathBuf) × Db) :=
  match found.filter fun r => !r.status.isUnsynced with
  | some r => (db.deleteEntry r.inode).map fun db' => (some (r.inode, r.cachePath), db')
  | none => some (none, db)

def deleteRemoteEntryByPath (mountId : ℕ) (remotePath : Str) :
    Option (Option (Inode × Option PathBuf) × Db) :=
  db.deleteRemoteEntry (db.getByRemotePath mountId remotePath)

def deleteRemoteEntryByItemId (mountId : ℕ) (itemId : Str) :
    Option (Option (Inode × Option PathBuf) × Db) :=
  db.deleteRemoteEntry (db.getByItemId mountId itemId)

/-- The rows a full poll did not see. -/
def staleEntries (mountId generation : ℕ) : List FileEntry :=
  db.fileIndex.rows.filter fun r =>
    r.mountId = mountId ∧ r.pollGeneration < generation ∧ !r.status.isUnsynced ∧
      r.inode ≠ fuseRootInode

/-- Delete rows one by one, up to the first deletion that fails. -/
def deleteEach : Db → List Inode → Bool × Db
  | db, [] => (true, db)
  | db, i :: is =>
    match db.deleteEntry i with
    | some db' => deleteEach db' is
    | none => (false, db)

/-- Delete the entries with an old generation. Returns them for the removal of their cache
files. -/
def deleteStaleEntries (mountId generation : ℕ) :
    Option (List (Inode × Str × Option PathBuf)) × Db :=
  let stale := db.staleEntries mountId generation
  match deleteEach db (stale.map FileEntry.inode) with
  | (true, db') => (some (stale.map fun r => (r.inode, r.remotePath, r.cachePath)), db')
  | (false, db') => (none, db')

end Db

/-- An operation the remote drives. -/
inductive RemoteOp
  | batchUpsert (mountId : ℕ) (parent : Inode) (entries : List ListedEntry) (generation : ℕ)
  | upsert (mountId : ℕ) (x : Refresh) (itemId : Option Str)
  | deleteByPath (mountId : ℕ) (remotePath : Str)
  | deleteByItemId (mountId : ℕ) (itemId : Str)
  | deleteStale (mountId generation : ℕ)
  deriving DecidableEq, Repr

/-- The state a remote-driven operation leaves, whether it succeeds or not. -/
def Db.applyRemote (db : Db) : RemoteOp → Db
  | .batchUpsert m p es g => (db.batchUpsertRemoteFilesGen m p es g).2
  | .upsert m x id => (db.upsertRemoteFileByIdOrPath m x id).2
  | .deleteByPath m p => ((db.deleteRemoteEntryByPath m p).map Prod.snd).getD db
  | .deleteByItemId m id => ((db.deleteRemoteEntryByItemId m id).map Prod.snd).getD db
  | .deleteStale m g => (db.deleteStaleEntries m g).2

/-! ## What an operation does to the rows -/

/-- The upserts an operation makes: mount, columns and item id. -/
def RemoteOp.upserts : RemoteOp → List (ℕ × Refresh × Option Str)
  | .batchUpsert m p es g => es.map fun e => (m, e.toRefresh p g, none)
  | .upsert m x id => [(m, x, id)]
  | _ => []

/-- The operation is not an upsert that finds its row by item id. -/
def RemoteOp.ByPath (op : RemoteOp) (db : Db) : Prop :=
  ∀ m x id, op = .upsert m x id → id.bind (db.getByItemId m) = none

/-- One statement of an operation that started in `db`. The deletions are of rows that are not
unsynced; `clear` and `move` are the two statements of an upsert that found its row by item id. -/
inductive RemoteStatement (op : RemoteOp) (db : Db) : Db → Db → Prop
  | upsert {d d' : Db} {m : ℕ} {x : Refresh} {id : Option Str} (hp : op.ByPath db)
      (hu : (m, x, id) ∈ op.upserts) (h : d.upsertByPath m x id = some d') :
      RemoteStatement op db d d'
  | delete {d d' : Db} {i : Inode} (hs : ∀ r, d.getByInode i = some r → r.status.isUnsynced = false)
      (h : d.deleteEntry i = some d') : RemoteStatement op db d d'
  | clear {d' : Db} {m : ℕ} {x : Refresh} {id : Option Str} {r : FileEntry}
      (hop : op = .upsert m x id) (hid : id.bind (db.getByItemId m) = some r)
      (hne : r.remotePath ≠ x.remotePath)
      (h : (db.deleteRows fun q =>
        q.mountId = m ∧ q.remotePath = x.remotePath ∧ q.inode ≠ r.inode) = some d') :
      RemoteStatement op db db d'
  | move {d d' : Db} {m : ℕ} {x : Refresh} {id : Option Str} {r : FileEntry}
      (hop : op = .upsert m x id) (hid : id.bind (db.getByItemId m) = some r)
      (hr : d.getByInode r.inode = some r)
      (h : d.updateRow r.inode (refreshRow x) = some d') : RemoteStatement op db d d'

section Steps

open Relation

variable {op : RemoteOp} {db : Db}

theorem upsertChunk_steps (hp : op.ByPath db) {m : ℕ} {p : Inode} {g : ℕ} {c : List ListedEntry}
    (hc : ∀ e ∈ c, (m, e.toRefresh p g, none) ∈ op.upserts) {d d' : Db}
    (h : d.upsertChunk m p g c = some d') : ReflTransGen (RemoteStatement op db) d d' := by
  induction c generalizing d with
  | nil =>
    rw [Db.upsertChunk, List.foldlM_nil] at h
    exact Option.some.inj h ▸ .refl
  | cons e c ih =>
    rw [Db.upsertChunk, List.foldlM_cons] at h
    obtain ⟨d₁, h₁, h₂⟩ := Option.bind_eq_some_iff.1 h
    exact .head (.upsert hp (hc e List.mem_cons_self) h₁)
      (ih (fun e he => hc e (List.mem_cons_of_mem _ he)) h₂)

theorem upsertChunks_steps (hp : op.ByPath db) {m : ℕ} {p : Inode} {g : ℕ}
    {cs : List (List ListedEntry)}
    (hcs : ∀ e ∈ cs.flatten, (m, e.toRefresh p g, none) ∈ op.upserts) (d : Db) :
    ReflTransGen (RemoteStatement op db) d (Db.upsertChunks m p g d cs).2 := by
  induction cs generalizing d with
  | nil => exact .refl
  | cons c cs ih =>
    simp only [List.flatten_cons, List.mem_append] at hcs
    rw [Db.upsertChunks]
    split
    · exact (upsertChunk_steps hp (fun e he => hcs e (.inl he)) ‹_›).trans
        (ih (fun e he => hcs e (.inr he)) _)
    · exact .refl

theorem deleteRemoteEntry_steps {found : Option FileEntry}
    (hfound : ∀ r ∈ found, db.getByInode r.inode = some r) :
    ReflTransGen (RemoteStatement op db) db
      (((db.deleteRemoteEntry found).map Prod.snd).getD db) := by
  rw [Db.deleteRemoteEntry]
  cases hf : found.filter fun r => !r.status.isUnsynced with
  | none => exact .refl
  | some r =>
    obtain ⟨hr, hs⟩ := Option.filter_eq_some_iff.1 hf
    cases hd : db.deleteEntry r.inode with
    | none => simpa [hd] using ReflTransGen.refl
    | some d' =>
      have hrow := hfound r hr
      simpa [hd] using ReflTransGen.single
        (RemoteStatement.delete (fun q hq => by simp_all) hd)

theorem deleteEach_steps (is : List Inode) (d : Db)
    (his : ∀ i ∈ is, ∀ r, d.getByInode i = some r → r.status.isUnsynced = false) :
    ReflTransGen (RemoteStatement op db) d (d.deleteEach is).2 := by
  induction is generalizing d with
  | nil => exact .refl
  | cons i is ih =>
    rw [Db.deleteEach]
    split
    · rename_i d' hd'
      refine .head (.delete (his i List.mem_cons_self) hd') (ih d' fun j hj r hr => ?_)
      rw [Db.getByInode_deleteEntry hd'] at hr
      split at hr
      · cases hr
      · exact his j (List.mem_cons_of_mem _ hj) r hr
    · exact .refl

theorem upsertRemoteFileByIdOrPath_steps {m : ℕ} {x : Refresh} {id : Option Str} :
    ReflTransGen (RemoteStatement (.upsert m x id) db) db
      (db.upsertRemoteFileByIdOrPath m x id).2 := by
  rw [Db.upsertRemoteFileByIdOrPath]
  cases hid : id.bind (db.getByItemId m) with
  | none =>
    dsimp only
    split
    · exact .refl
    · refine .single (.upsert ?_ (List.mem_singleton.2 rfl) ‹_›)
      rintro _ _ _ ⟨⟩
      exact hid
  | some r =>
    have hrow : db.getByInode r.inode = some r := by
      obtain ⟨itemId, -, hq⟩ := Option.bind_eq_some_iff.1 hid
      exact Db.getByInode_of_mem (List.mem_of_find?_eq_some hq)
    have hcleared : ∀ d, (if r.remotePath = x.remotePath then some db
        else db.deleteRows fun q =>
          q.mountId = m ∧ q.remotePath = x.remotePath ∧ q.inode ≠ r.inode) = some d →
        ReflTransGen (RemoteStatement (.upsert m x id) db) db d ∧
          d.getByInode r.inode = some r := by
      intro d hd
      split at hd
      · exact Option.some.inj hd ▸ ⟨.refl, hrow⟩
      · refine ⟨.single (.clear rfl hid ‹_› hd), ?_⟩
        rw [Db.getByInode_deleteRows hd, hrow]
        simp
    dsimp only
    split
    · exact .refl
    · rename_i d hd
      split
      · exact (hcleared d hd).1
      · exact (hcleared d hd).1.tail (.move rfl hid (hcleared d hd).2 ‹_›)

/-- **Every remote-driven operation is a sequence of its statements.** -/
theorem applyRemote_steps (op : RemoteOp) (db : Db) :
    ReflTransGen (RemoteStatement op db) db (db.applyRemote op) := by
  cases op with
  | batchUpsert m p es g =>
    refine upsertChunks_steps (by rintro _ _ _ ⟨⟩) (fun e he => ?_) db
    rw [flatten_chunks] at he
    exact List.mem_map_of_mem he
  | upsert m x id => exact upsertRemoteFileByIdOrPath_steps
  | deleteByPath m p => exact deleteRemoteEntry_steps fun r hr => (Db.getByRemotePath_spec hr).1
  | deleteByItemId m id =>
    exact deleteRemoteEntry_steps fun r hr => Db.getByInode_of_mem (List.mem_of_find?_eq_some hr)
  | deleteStale m g =>
    have hstale : ReflTransGen (RemoteStatement (.deleteStale m g) db) db
        (db.deleteEach ((db.staleEntries m g).map FileEntry.inode)).2 :=
      deleteEach_steps _ db fun i hi r hr => by
        obtain ⟨q, hq, rfl⟩ := List.mem_map.1 hi
        obtain ⟨hq, hs⟩ := List.mem_filter.1 hq
        rw [Db.getByInode_of_mem hq] at hr
        simp_all
    rw [Db.applyRemote, Db.deleteStaleEntries]
    split <;> rename_i h <;> simpa only [h] using hstale

end Steps

/-! ## What an operation makes of a row -/

/-- An upsert finds the row, by its path or by its item id. -/
def Matches (u : ℕ × Refresh × Option Str) (r : FileEntry) : Prop :=
  r.mountId = u.1 ∧
    (r.remotePath = u.2.1.remotePath ∨ (u.2.2.isSome = true ∧ r.remoteItemId = u.2.2))

instance (u : ℕ × Refresh × Option Str) (r : FileEntry) : Decidable (Matches u r) :=
  inferInstanceAs (Decidable (_ ∧ _))

/-- What an operation may make of a row it does not delete. -/
def Refreshed (op : RemoteOp) (r r' : FileEntry) : Prop :=
  r' = r ∨ ∃ u ∈ op.upserts, Matches u r ∧
    ∃ id, r' = { refreshRow u.2.1 r with remoteItemId := id }

/-- A row an operation refreshed was matched by each upsert that matches it afterwards. -/
theorem Matches.of_refreshed {op : RemoteOp} {u u' : ℕ × Refresh × Option Str} {r : FileEntry}
    {id : Option Str} (hu : u ∈ op.upserts) (hu' : u' ∈ op.upserts) (h : Matches u r)
    (h' : Matches u' { refreshRow u.2.1 r with remoteItemId := id }) : Matches u' r := by
  cases op with
  | batchUpsert m p es g =>
    obtain ⟨e, -, rfl⟩ := List.mem_map.1 hu
    obtain ⟨e', -, rfl⟩ := List.mem_map.1 hu'
    have hp : e.remotePath = e'.remotePath := by
      simpa [refreshRow, ListedEntry.toRefresh] using h'.2
    have hr : r.remotePath = e.remotePath := by simpa [ListedEntry.toRefresh] using h.2
    exact ⟨h'.1, .inl (hr.trans hp)⟩
  | upsert m x id =>
    obtain rfl := List.mem_singleton.1 hu
    obtain rfl := List.mem_singleton.1 hu'
    exact h
  | deleteByPath => cases hu
  | deleteByItemId => cases hu
  | deleteStale => cases hu

theorem Refreshed.trans {op : RemoteOp} {r r' r'' : FileEntry} (h : Refreshed op r r')
    (h' : Refreshed op r' r'') : Refreshed op r r'' := by
  rcases h' with rfl | ⟨u', hu', hm', id', rfl⟩
  · exact h
  rcases h with rfl | ⟨u, hu, hm, id, rfl⟩
  · exact .inr ⟨u', hu', hm', id', rfl⟩
  · exact .inr ⟨u', hu', hm.of_refreshed hu hu' hm', id', by simp [refreshRow]⟩

/-- Every row of `d'` is a row of `d`, as the operation may have left it, or one added since,
without content on disk. -/
structure RowsRefreshed (op : RemoteOp) (d d' : Db) : Prop where
  seq : d.seq ≤ d'.seq
  rows : ∀ i r', d'.getByInode i = some r' →
    (∃ r, d.getByInode i = some r ∧ Refreshed op r r') ∨
      (r'.cachePath = none ∧ r'.status.claimsCacheFile = false ∧ d.seq < i ∧ i ≤ d'.seq)

theorem Refreshed.claimsCacheFile {op : RemoteOp} {r r' : FileEntry} (h : Refreshed op r r')
    (hr : r.status.claimsCacheFile = false) : r'.status.claimsCacheFile = false := by
  rcases h with rfl | ⟨u, -, -, id, rfl⟩
  · exact hr
  · change r.status.refreshed.claimsCacheFile = false
    revert hr
    cases r.status <;> decide

theorem Refreshed.cachePath_eq {op : RemoteOp} {r r' : FileEntry} (h : Refreshed op r r') :
    r'.cachePath = r.cachePath := by
  rcases h with rfl | ⟨u, -, -, id, rfl⟩ <;> rfl

/-- A row an operation refreshed is dirty or uploading when it was before. -/
theorem Refreshed.isUnsynced_eq {op : RemoteOp} {r r' : FileEntry} (h : Refreshed op r r') :
    r'.status.isUnsynced = r.status.isUnsynced := by
  rcases h with rfl | ⟨u, -, -, id, rfl⟩
  · rfl
  · exact SyncStatus.isUnsynced_refreshed r.status

/-- The row is as a listing has entered it: without content on disk. -/
structure FileEntry.Listed (r : FileEntry) : Prop where
  cachePath : r.cachePath = none
  cacheSize : r.cacheSize = none
  status : r.status.claimsCacheFile = false

theorem Refreshed.listed {op : RemoteOp} {r r' : FileEntry} (h : Refreshed op r r')
    (hr : r.Listed) : r'.Listed := by
  refine ⟨h.cachePath_eq.trans hr.cachePath, ?_, h.claimsCacheFile hr.status⟩
  rcases h with rfl | ⟨u, -, -, id, rfl⟩ <;> exact hr.cacheSize

/-- `RowsRefreshed`, with what the rows added since are. -/
structure RowsListed (op : RemoteOp) (d d' : Db) : Prop where
  seq : d.seq ≤ d'.seq
  rows : ∀ i r', d'.getByInode i = some r' →
    (∃ r, d.getByInode i = some r ∧ Refreshed op r r') ∨
      (r'.Listed ∧ d.seq < i ∧ i ≤ d'.seq)

theorem rowsListed_of_rowMapped {op : RemoteOp} {d d' : Db} {i : Inode}
    {f : FileEntry → FileEntry} (h : Db.RowMapped d d' i f)
    (hf : ∀ r, d.getByInode i = some r → Refreshed op r (f r)) : RowsListed op d d' := by
  refine ⟨h.seq.ge, fun j r' hr' => ?_⟩
  obtain ⟨r, hr, ⟨rfl, rfl⟩ | ⟨-, rfl⟩⟩ := h.inv hr'
  · exact .inl ⟨r, hr, hf r hr⟩
  · exact .inl ⟨r', hr, .inl rfl⟩

theorem rowsListed_of_deleteRows {op : RemoteOp} {d d' : Db} {p : FileEntry → Bool}
    (h : d.deleteRows p = some d') : RowsListed op d d' := by
  refine ⟨(Db.seq_deleteRows h).ge, fun j r' hr' => ?_⟩
  rw [Db.getByInode_deleteRows h] at hr'
  exact .inl ⟨r', (Option.filter_eq_some_iff.1 hr').1, .inl rfl⟩

theorem rowsListed_of_statement {op : RemoteOp} {db d d' : Db}
    (h : RemoteStatement op db d d') : RowsListed op d d' := by
  cases h with
  | @upsert d d' m x id _ hu h =>
    rw [Db.upsertByPath] at h
    split at h
    · rename_i q hq
      obtain ⟨hqi, hqm, hqp⟩ := Db.getByRemotePath_spec hq
      refine rowsListed_of_rowMapped (Db.rowMapped_of_updateRow h fun _ => rfl) fun r hr => ?_
      obtain rfl := Option.some.inj (hr.symm.trans hqi)
      exact .inr ⟨_, hu, ⟨hqm, .inl hqp⟩, _, rfl⟩
    · have hseq := Db.seq_insertRow h
      have hlt := d.seq_lt_nextInode
      refine ⟨hseq ▸ hlt.le, fun j r' hr' => ?_⟩
      rw [Db.getByInode_insertRow h] at hr'
      split at hr'
      · rename_i hj
        rw [← Option.some.inj hr']
        exact .inr ⟨⟨rfl, rfl, rfl⟩, hj ▸ hlt, (hseq.trans hj.symm).ge⟩
      · exact .inl ⟨r', hr', .inl rfl⟩
  | delete _ h => exact rowsListed_of_deleteRows h
  | clear _ _ _ h => exact rowsListed_of_deleteRows h
  | @move d d' m x id q hop hid hq h =>
    refine rowsListed_of_rowMapped (Db.rowMapped_of_updateRow h fun _ => rfl) fun r hr => ?_
    obtain rfl := Option.some.inj (hr.symm.trans hq)
    obtain ⟨itemId, rfl, hfind⟩ := Option.bind_eq_some_iff.1 hid
    obtain ⟨hm, hitem⟩ : r.mountId = m ∧ r.remoteItemId = some itemId := by
      simpa using List.find?_some hfind
    refine .inr ⟨(m, x, some itemId), ?_, ⟨hm, .inr ⟨rfl, hitem⟩⟩, r.remoteItemId, rfl⟩
    rw [hop]
    exact List.mem_singleton.2 rfl

theorem rowsListed_applyRemote (op : RemoteOp) (db : Db) :
    RowsListed op db (db.applyRemote op) := by
  have h := applyRemote_steps op db
  generalize db.applyRemote op = db' at h
  induction h with
  | refl => exact ⟨le_rfl, fun i r hr => .inl ⟨r, hr, .inl rfl⟩⟩
  | tail _ h ih =>
    have h := rowsListed_of_statement h
    refine ⟨ih.seq.trans h.seq, fun i r'' hr'' => ?_⟩
    rcases h.rows i r'' hr'' with ⟨r', hr', h'⟩ | ⟨hl, hlt, hle⟩
    · rcases ih.rows i r' hr' with ⟨r, hr, hrr⟩ | ⟨hl, hlt, hle⟩
      · exact .inl ⟨r, hr, hrr.trans h'⟩
      · exact .inr ⟨h'.listed hl, hlt, hle.trans h.seq⟩
    · exact .inr ⟨hl, ih.seq.trans_lt hlt, hle⟩

theorem rowsRefreshed_applyRemote (op : RemoteOp) (db : Db) :
    RowsRefreshed op db (db.applyRemote op) := by
  have h := rowsListed_applyRemote op db
  exact ⟨h.seq, fun i r' hr' => (h.rows i r' hr').imp_right fun ⟨hl, hlt, hle⟩ =>
    ⟨hl.cachePath, hl.status, hlt, hle⟩⟩

end Stratosync

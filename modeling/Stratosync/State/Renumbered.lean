import Stratosync.State.Accepts

/-!
# Indexes that differ in their inodes

Two runs of the poller over the same changes can give a row different inodes, and list it a
different number of times: a row is inserted as `remote` and becomes `stale` when it is listed
again. Either way its content has to be fetched. `Db.Renumbered ρ` relates two indexes whose rows
are the same in every other respect, with the inodes of the second those of the first under `ρ`. No
statement of the poller tells such indexes apart: an upsert and a deletion succeed alike and leave
indexes so related (`upsert_renumbered`, `deleteRemoteEntry_renumbered`).
-/

namespace Stratosync

open Foundations

/-- A status with `remote` taken for `stale`. -/
def SyncStatus.relisted : SyncStatus → SyncStatus
  | .remote => .stale
  | s => s

namespace SyncStatus

variable (s : SyncStatus)

@[simp] theorem refreshed_relisted : s.relisted.refreshed = s.refreshed := by
  cases s <;> rfl

@[simp] theorem isUnsynced_relisted : s.relisted.isUnsynced = s.isUnsynced := by
  cases s <;> rfl

@[simp] theorem claimsCacheFile_relisted : s.relisted.claimsCacheFile = s.claimsCacheFile := by
  cases s <;> rfl

end SyncStatus

/-- The row with `remote` taken for `stale`. -/
def FileEntry.relisted (r : FileEntry) : FileEntry := { r with status := r.status.relisted }

/-- The row under other inodes. -/
def FileEntry.renumbered (ρ : Inode → Inode) (r : FileEntry) : FileEntry :=
  { r with inode := ρ r.inode, parent := r.parent.map ρ }

/-- `q` is the row `r` under the inodes `ρ`. -/
def FileEntry.Renumbered (ρ : Inode → Inode) (r q : FileEntry) : Prop :=
  q.relisted = (r.renumbered ρ).relisted

def Refresh.renumbered (ρ : Inode → Inode) (x : Refresh) : Refresh :=
  { x with parent := ρ x.parent }

/-- The rows of `db'` are those of `db` under the inodes `ρ`. -/
def Db.Renumbered (ρ : Inode → Inode) (db db' : Db) : Prop :=
  db'.fileIndex.rows.map FileEntry.relisted =
    db.fileIndex.rows.map fun r => (r.renumbered ρ).relisted

/-- What agrees under two functions is there or not there alike. -/
theorem cases_of_map_eq {α β γ : Type*} {f : α → γ} {g : β → γ} {a : Option α} {b : Option β}
    (h : a.map f = b.map g) :
    (a = none ∧ b = none) ∨ ∃ r q, a = some r ∧ b = some q ∧ f r = g q := by
  cases a with
  | none =>
    cases b with
    | none => exact .inl ⟨rfl, rfl⟩
    | some q => cases h
  | some r =>
    cases b with
    | none => cases h
    | some q => exact .inr ⟨r, q, rfl, rfl, Option.some.inj h⟩

theorem indexConstraints_relisted (l : List FileEntry) :
    IndexConstraints (l.map FileEntry.relisted) ↔ IndexConstraints l := by
  have hinode : (l.map FileEntry.relisted).map FileEntry.inode = l.map FileEntry.inode := by
    rw [List.map_map]
    rfl
  rw [← indexConstraints_iff, ← indexConstraints_iff, hinode]
  simp only [List.pairwise_map, List.mem_map, forall_exists_index, and_imp,
    forall_apply_eq_imp_iff₂, exists_exists_and_eq_and]
  simp only [FileEntry.relisted, SyncStatus.claimsCacheFile_relisted]

section Renumbering

variable {ρ : Inode → Inode} (hρ : ρ.Injective)
include hρ

theorem indexConstraints_renumbered (l : List FileEntry) :
    IndexConstraints (l.map (FileEntry.renumbered ρ)) ↔ IndexConstraints l := by
  have hinode : (l.map (FileEntry.renumbered ρ)).map FileEntry.inode =
      (l.map FileEntry.inode).map ρ := by
    rw [List.map_map, List.map_map]
    rfl
  rw [← indexConstraints_iff, ← indexConstraints_iff, hinode, List.nodup_map_iff hρ]
  simp only [List.pairwise_map, List.mem_map, forall_exists_index, and_imp,
    forall_apply_eq_imp_iff₂, exists_exists_and_eq_and]
  simp only [FileEntry.renumbered, Option.isSome_map, (Option.map_injective hρ).eq_iff,
    Option.mem_def, Option.map_eq_some_iff, forall_exists_index, and_imp,
    forall_apply_eq_imp_iff₂, hρ.eq_iff]

theorem commit_renumbered {l l' : List FileEntry}
    (h : l'.map FileEntry.relisted = l.map fun r => (r.renumbered ρ).relisted) :
    (Table.commit l' : Option (Table FileEntry IndexConstraints)).isSome =
      (Table.commit l : Option (Table FileEntry IndexConstraints)).isSome := by
  have hmap : (l.map fun r => (r.renumbered ρ).relisted) =
      (l.map (FileEntry.renumbered ρ)).map FileEntry.relisted := by
    rw [List.map_map]
    rfl
  rw [Bool.eq_iff_iff, Table.commit_isSome, Table.commit_isSome, ← indexConstraints_relisted, h,
    hmap, indexConstraints_relisted, indexConstraints_renumbered hρ]

end Renumbering

namespace FileEntry.Renumbered

variable {ρ : Inode → Inode} {r q : FileEntry} (h : r.Renumbered ρ q)
include h

theorem columns : q.inode = ρ r.inode ∧ q.mountId = r.mountId ∧ q.parent = r.parent.map ρ ∧
    q.name = r.name ∧ q.remotePath = r.remotePath ∧ q.etag = r.etag ∧
    q.remoteItemId = r.remoteItemId ∧ q.cachePath = r.cachePath ∧
    q.status.isUnsynced = r.status.isUnsynced := by
  simp only [Renumbered, relisted, renumbered, FileEntry.mk.injEq] at h
  obtain ⟨h1, h2, h3, h4, h5, -, -, -, h9, h10, h11, -, -, -, h15⟩ := h
  have hs := congrArg SyncStatus.isUnsynced h10
  rw [SyncStatus.isUnsynced_relisted, SyncStatus.isUnsynced_relisted] at hs
  exact ⟨h1, h2, h3, h4, h5, h9, h15, h11, hs⟩

theorem inode_eq : q.inode = ρ r.inode := (columns h).1

theorem parent_eq : q.parent = r.parent.map ρ := (columns h).2.2.1

theorem remotePath_eq : q.remotePath = r.remotePath := (columns h).2.2.2.2.1

theorem etag_eq : q.etag = r.etag := (columns h).2.2.2.2.2.1

theorem remoteItemId_eq : q.remoteItemId = r.remoteItemId := (columns h).2.2.2.2.2.2.1

theorem cachePath_eq : q.cachePath = r.cachePath := (columns h).2.2.2.2.2.2.2.1

theorem isUnsynced_eq : q.status.isUnsynced = r.status.isUnsynced := (columns h).2.2.2.2.2.2.2.2

theorem refresh (x : Refresh) :
    (refreshRow x r).Renumbered ρ (refreshRow (x.renumbered ρ) q) := by
  simp only [Renumbered, relisted, renumbered, FileEntry.mk.injEq] at h
  obtain ⟨h1, h2, -, -, -, -, -, -, -, h10, h11, h12, h13, -, h15⟩ := h
  have hs := congrArg SyncStatus.refreshed h10
  rw [SyncStatus.refreshed_relisted, SyncStatus.refreshed_relisted] at hs
  simp only [Renumbered, relisted, renumbered, refreshRow, Refresh.renumbered, FileEntry.mk.injEq,
    Option.map_some, true_and]
  exact ⟨h1, h2, congrArg _ hs, h11, h12, h13, h15⟩

theorem refreshByPath (x : Refresh) (itemId : Option Str) :
    (refreshByPath x itemId r).Renumbered ρ (refreshByPath (x.renumbered ρ) itemId q) := by
  have hrow := refresh h x
  have hid : q.remoteItemId = r.remoteItemId := remoteItemId_eq h
  simp only [Renumbered, relisted, renumbered, FileEntry.mk.injEq] at hrow
  obtain ⟨h1, h2, h3, h4, h5, h6, h7, h8, h9, h10, h11, h12, h13, h14, -⟩ := hrow
  simp only [Renumbered, relisted, renumbered, Stratosync.refreshByPath, FileEntry.mk.injEq]
  exact ⟨h1, h2, h3, h4, h5, h6, h7, h8, h9, h10, h11, h12, h13, h14, by rw [hid]⟩

end FileEntry.Renumbered

namespace Db

variable {ρ : Inode → Inode} {db db' : Db}

/-! ## Lookups -/

theorem find?_renumbered {p p' : FileEntry → Bool} (hp : ∀ r, p' (r.renumbered ρ).relisted = p r)
    (hp' : ∀ r, p' r.relisted = p' r) (h : db.Renumbered ρ db') :
    (db'.fileIndex.rows.find? p').map FileEntry.relisted =
      (db.fileIndex.rows.find? p).map fun r => (r.renumbered ρ).relisted := by
  have hleft : (db'.fileIndex.rows.find? p').map FileEntry.relisted =
      (db'.fileIndex.rows.map FileEntry.relisted).find? p' := by
    rw [List.find?_map]
    exact congrArg (fun q => (db'.fileIndex.rows.find? q).map FileEntry.relisted)
      (funext fun r => (hp' r).symm)
  rw [hleft, h, List.find?_map]
  exact congrArg (fun q => (db.fileIndex.rows.find? q).map fun r => (r.renumbered ρ).relisted)
    (funext hp)

theorem cases_of_find {p p' : FileEntry → Bool} (hp : ∀ r, p' (r.renumbered ρ).relisted = p r)
    (hp' : ∀ r, p' r.relisted = p' r) (h : db.Renumbered ρ db') :
    (db.fileIndex.rows.find? p = none ∧ db'.fileIndex.rows.find? p' = none) ∨
      ∃ r q, db.fileIndex.rows.find? p = some r ∧ db'.fileIndex.rows.find? p' = some q ∧
        r.Renumbered ρ q := by
  rcases cases_of_map_eq (find?_renumbered hp hp' h) with ⟨hq, hr⟩ | ⟨q, r, hq, hr, he⟩
  · exact .inl ⟨hr, hq⟩
  · exact .inr ⟨r, q, hr, hq, he⟩

theorem getByRemotePath_renumbered (h : db.Renumbered ρ db') (mountId : ℕ) (path : Str) :
    (db.getByRemotePath mountId path = none ∧ db'.getByRemotePath mountId path = none) ∨
      ∃ r q, db.getByRemotePath mountId path = some r ∧
        db'.getByRemotePath mountId path = some q ∧ r.Renumbered ρ q :=
  cases_of_find (fun _ => rfl) (fun _ => rfl) h

theorem foundById_renumbered (h : db.Renumbered ρ db') (mountId : ℕ) (itemId : Option Str) :
    (itemId.bind (db.getByItemId mountId) = none ∧ itemId.bind (db'.getByItemId mountId) = none) ∨
      ∃ r q, itemId.bind (db.getByItemId mountId) = some r ∧
        itemId.bind (db'.getByItemId mountId) = some q ∧ r.Renumbered ρ q := by
  cases itemId with
  | none => exact .inl ⟨rfl, rfl⟩
  | some id => exact cases_of_find (fun _ => rfl) (fun _ => rfl) h

theorem upsertTarget_renumbered (h : db.Renumbered ρ db') (mountId : ℕ) (x : Refresh)
    (itemId : Option Str) : (db'.upsertTarget mountId (x.renumbered ρ) itemId).isSome =
      (db.upsertTarget mountId x itemId).isSome := by
  rw [upsertTarget, upsertTarget]
  rcases foundById_renumbered h mountId itemId with ⟨ha, hb⟩ | ⟨r, q, ha, hb, -⟩
  · rw [ha, hb, Option.none_or, Option.none_or]
    rcases getByRemotePath_renumbered h mountId x.remotePath with ⟨ha, hb⟩ | ⟨r, q, ha, hb, -⟩
    · rw [ha, show db'.getByRemotePath mountId (x.renumbered ρ).remotePath = none from hb]
    · rw [ha, show db'.getByRemotePath mountId (x.renumbered ρ).remotePath = some q from hb]
      rfl
  · rw [ha, hb]
    rfl

theorem getByInode_renumbered (hρ : ρ.Injective) (h : db.Renumbered ρ db') (i : Inode) :
    (db.getByInode i = none ∧ db'.getByInode (ρ i) = none) ∨
      ∃ r q, db.getByInode i = some r ∧ db'.getByInode (ρ i) = some q ∧ r.Renumbered ρ q := by
  refine cases_of_find (fun r => ?_) (fun _ => rfl) h
  exact decide_eq_decide.2 hρ.eq_iff

/-! ## Statements -/

/-- Statements that compute the same rows succeed alike. -/
theorem map_commit_renumbered (hρ : ρ.Injective) {l l' : List FileEntry}
    {f f' : Table FileEntry IndexConstraints → Db} (hf : ∀ t, (f t).fileIndex = t)
    (hf' : ∀ t, (f' t).fileIndex = t)
    (h : l'.map FileEntry.relisted = l.map fun r => (r.renumbered ρ).relisted) :
    ((Table.commit l).map f = none ∧ (Table.commit l').map f' = none) ∨
      ∃ d d', (Table.commit l).map f = some d ∧ (Table.commit l').map f' = some d' ∧
        d.Renumbered ρ d' := by
  have hsome := commit_renumbered hρ h
  cases hl : (Table.commit l : Option (Table FileEntry IndexConstraints)) with
  | none =>
    rw [hl] at hsome
    rw [Option.isSome_eq_false_iff.1 hsome |> Option.isNone_iff_eq_none.1]
    exact .inl ⟨rfl, rfl⟩
  | some t =>
    rw [hl] at hsome
    obtain ⟨t', ht'⟩ := Option.isSome_iff_exists.1 hsome
    rw [ht']
    refine .inr ⟨f t, f' t', rfl, rfl, ?_⟩
    rw [Renumbered, hf, hf', Table.commit_eq_some.1 hl, Table.commit_eq_some.1 ht']
    exact h

section Statements

variable (hρ : ρ.Injective) (h : db.Renumbered ρ db')
include hρ h

theorem updateRow_renumbered (i : Inode) {f f' : FileEntry → FileEntry}
    (hf : ∀ r q : FileEntry, r.Renumbered ρ q → (f r).Renumbered ρ (f' q)) :
    (db.updateRow i f = none ∧ db'.updateRow (ρ i) f' = none) ∨
      ∃ d d', db.updateRow i f = some d ∧ db'.updateRow (ρ i) f' = some d' ∧
        d.Renumbered ρ d' := by
  refine map_commit_renumbered hρ (fun _ => rfl) (fun _ => rfl) ?_
  have hrows : List.Forall₂ (FileEntry.Renumbered ρ) db.fileIndex.rows db'.fileIndex.rows := by
    have hsymm := Eq.symm h
    rw [← List.forall₂_eq_eq_eq, List.forall₂_map_left_iff, List.forall₂_map_right_iff] at hsymm
    exact hsymm.imp fun _ _ he => Eq.symm he
  rw [← List.forall₂_eq_eq_eq, List.forall₂_map_left_iff, List.forall₂_map_right_iff,
    List.forall₂_map_left_iff, List.forall₂_map_right_iff]
  refine hrows.flip.imp fun q r hrq => ?_
  have hrq : r.Renumbered ρ q := hrq
  simp only [decide_eq_true_eq, hrq.inode_eq, hρ.eq_iff]
  split
  · exact hf r q hrq
  · exact hrq

theorem insertRow_renumbered {r q : FileEntry} (hr : r.Renumbered ρ q) :
    (db.insertRow r = none ∧ db'.insertRow q = none) ∨
      ∃ d d', db.insertRow r = some d ∧ db'.insertRow q = some d' ∧ d.Renumbered ρ d' := by
  refine map_commit_renumbered hρ (fun _ => rfl) (fun _ => rfl) ?_
  rw [List.map_append, List.map_append]
  exact congrArg₂ _ h (congrArg (· :: []) hr)

theorem deleteRows_renumbered {p p' : FileEntry → Bool}
    (hp : ∀ r, p' (r.renumbered ρ).relisted = p r) (hp' : ∀ r, p' r.relisted = p' r) :
    (db.deleteRows p = none ∧ db'.deleteRows p' = none) ∨
      ∃ d d', db.deleteRows p = some d ∧ db'.deleteRows p' = some d' ∧ d.Renumbered ρ d' := by
  refine map_commit_renumbered hρ (fun _ => rfl) (fun _ => rfl) ?_
  have hleft : (db'.fileIndex.rows.filter fun q => !p' q).map FileEntry.relisted =
      (db'.fileIndex.rows.map FileEntry.relisted).filter fun q => !p' q := by
    rw [List.filter_map]
    exact congrArg (fun g => (db'.fileIndex.rows.filter g).map FileEntry.relisted)
      (funext fun r => by rw [Function.comp_apply, hp'])
  have hright : (db.fileIndex.rows.filter fun r => !p r).map
        (fun r => (r.renumbered ρ).relisted) =
      (db.fileIndex.rows.map fun r => (r.renumbered ρ).relisted).filter fun q => !p' q := by
    rw [List.filter_map]
    exact congrArg
      (fun g => (db.fileIndex.rows.filter g).map fun r => (r.renumbered ρ).relisted)
      (funext fun r => congrArg not (hp r).symm)
  rw [hleft, hright, h]

end Statements

/-! ## Operations -/

section Operations

variable (hρ : ρ.Injective) (h : db.Renumbered ρ db') {mountId : ℕ} {x : Refresh}
  {itemId : Option Str}
include hρ h

theorem upsertByPath_renumbered (hnext : db'.nextInode = ρ db.nextInode) :
    (db.upsertByPath mountId x itemId = none ∧
        db'.upsertByPath mountId (x.renumbered ρ) itemId = none) ∨
      ∃ d d', db.upsertByPath mountId x itemId = some d ∧
        db'.upsertByPath mountId (x.renumbered ρ) itemId = some d' ∧ d.Renumbered ρ d' := by
  rw [upsertByPath, upsertByPath]
  rcases getByRemotePath_renumbered h mountId x.remotePath with ⟨hr, hq⟩ | ⟨r, q, hr, hq, he⟩
  · rw [hr, show db'.getByRemotePath mountId (x.renumbered ρ).remotePath = none from hq]
    dsimp only
    refine insertRow_renumbered hρ h ?_
    simp only [FileEntry.Renumbered, FileEntry.relisted, FileEntry.renumbered, hnext,
      Refresh.renumbered, Option.map_some]
  · rw [hr, show db'.getByRemotePath mountId (x.renumbered ρ).remotePath = some q from hq]
    dsimp only
    rw [he.inode_eq]
    exact updateRow_renumbered hρ h _ fun _ _ hrq => hrq.refreshByPath x itemId

/-- **An upsert does not tell renumbered indexes apart.** -/
theorem upsert_renumbered (hnext : db'.nextInode = ρ db.nextInode) :
    (db'.upsertRemoteFileByIdOrPath mountId (x.renumbered ρ) itemId).1 =
        (db.upsertRemoteFileByIdOrPath mountId x itemId).1.map ρ ∧
      (db.upsertRemoteFileByIdOrPath mountId x itemId).2.Renumbered ρ
        (db'.upsertRemoteFileByIdOrPath mountId (x.renumbered ρ) itemId).2 := by
  rw [upsertRemoteFileByIdOrPath, upsertRemoteFileByIdOrPath]
  rcases foundById_renumbered h mountId itemId with ⟨hr, hq⟩ | ⟨r, q, hr, hq, he⟩
  · rw [hr, hq]
    dsimp only
    rcases @upsertByPath_renumbered ρ db db' hρ h mountId x itemId hnext with
      ⟨hd, hd'⟩ | ⟨d, d', hd, hd', hdd⟩
    · rw [hd, hd']
      exact ⟨rfl, h⟩
    · rw [hd, hd']
      refine ⟨?_, hdd⟩
      dsimp only
      rcases getByRemotePath_renumbered hdd mountId x.remotePath with
        ⟨ha, hb⟩ | ⟨a, b, ha, hb, hab⟩
      · rw [ha, show d'.getByRemotePath mountId (x.renumbered ρ).remotePath = none from hb]
        rfl
      · rw [ha, show d'.getByRemotePath mountId (x.renumbered ρ).remotePath = some b from hb,
          Option.map_some, Option.map_some, hab.inode_eq, Option.map_some]
  · rw [hr, hq]
    dsimp only
    rw [he.inode_eq, he.remotePath_eq]
    have hclear : ((if r.remotePath = x.remotePath then some db
          else db.deleteRows fun c =>
            c.mountId = mountId ∧ c.remotePath = x.remotePath ∧ c.inode ≠ r.inode) = none ∧
        (if r.remotePath = (x.renumbered ρ).remotePath then some db'
          else db'.deleteRows fun c =>
            c.mountId = mountId ∧ c.remotePath = (x.renumbered ρ).remotePath ∧
              c.inode ≠ ρ r.inode) = none) ∨
        ∃ d d', (if r.remotePath = x.remotePath then some db
          else db.deleteRows fun c =>
            c.mountId = mountId ∧ c.remotePath = x.remotePath ∧ c.inode ≠ r.inode) = some d ∧
        (if r.remotePath = (x.renumbered ρ).remotePath then some db'
          else db'.deleteRows fun c =>
            c.mountId = mountId ∧ c.remotePath = (x.renumbered ρ).remotePath ∧
              c.inode ≠ ρ r.inode) = some d' ∧ d.Renumbered ρ d' := by
      rw [show (x.renumbered ρ).remotePath = x.remotePath from rfl]
      split
      · exact .inr ⟨db, db', rfl, rfl, h⟩
      · refine deleteRows_renumbered hρ h (fun c => ?_) fun _ => rfl
        refine decide_eq_decide.2 (and_congr_right fun _ => and_congr_right fun _ => ?_)
        exact not_congr hρ.eq_iff
    rcases hclear with ⟨hd, hd'⟩ | ⟨d, d', hd, hd', hdd⟩
    · rw [hd, hd']
      exact ⟨rfl, h⟩
    · rw [hd, hd']
      dsimp only
      rcases updateRow_renumbered hρ hdd r.inode fun _ _ hrq => hrq.refresh x with
        ⟨hu, hu'⟩ | ⟨u, u', hu, hu', huu⟩
      · rw [hu, hu']
        exact ⟨rfl, hdd⟩
      · rw [hu, hu']
        exact ⟨rfl, huu⟩

/-- **A deletion does not tell renumbered indexes apart.** -/
theorem deleteRemoteEntry_renumbered {found found' : Option FileEntry}
    (hf : (found = none ∧ found' = none) ∨
      ∃ r q, found = some r ∧ found' = some q ∧ r.Renumbered ρ q) :
    (db.deleteRemoteEntry found = none ∧ db'.deleteRemoteEntry found' = none) ∨
      ∃ d d', db.deleteRemoteEntry found = some d ∧ db'.deleteRemoteEntry found' = some d' ∧
        d'.1 = d.1.map (Prod.map ρ id) ∧ d.2.Renumbered ρ d'.2 := by
  rw [deleteRemoteEntry, deleteRemoteEntry]
  rcases hf with ⟨rfl, rfl⟩ | ⟨r, q, rfl, rfl, he⟩
  · exact .inr ⟨_, _, rfl, rfl, rfl, h⟩
  · rw [Option.filter_some, Option.filter_some, he.isUnsynced_eq]
    by_cases hu : (!r.status.isUnsynced) = true
    · rw [if_pos hu, if_pos hu]
      dsimp only
      rw [he.inode_eq, he.cachePath_eq]
      have hdel : (db.deleteEntry r.inode = none ∧ db'.deleteEntry (ρ r.inode) = none) ∨
          ∃ d d', db.deleteEntry r.inode = some d ∧ db'.deleteEntry (ρ r.inode) = some d' ∧
            d.Renumbered ρ d' :=
        deleteRows_renumbered hρ h (fun c => decide_eq_decide.2 hρ.eq_iff) fun _ => rfl
      rcases hdel with ⟨hd, hd'⟩ | ⟨d, d', hd, hd', hdd⟩
      · rw [hd, hd']
        exact .inl ⟨rfl, rfl⟩
      · rw [hd, hd']
        exact .inr ⟨_, _, rfl, rfl, rfl, hdd⟩
    · rw [if_neg hu, if_neg hu]
      exact .inr ⟨_, _, rfl, rfl, rfl, h⟩

end Operations

end Db

end Stratosync

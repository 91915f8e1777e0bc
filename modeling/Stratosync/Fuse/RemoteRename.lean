import Stratosync.Daemon.Rows
import Stratosync.Daemon.CacheFiles
import Stratosync.Foundations.Runs

/-!
# Renames on the remote

`handle_rename` changes the index and spawns the operations on the remote, which it chooses by the
status the row had. `RenameKeeps` is what it takes for granted about the remote; `RemoteAt` says
what the tree is while the operation has some of its calls left, and a version of the row that is
accepted meanwhile, where it is put (`RemoteAt.put`, `RemoteAt.tick`).
-/

namespace Stratosync

open Foundations.Runs Foundations.Pool

/-! ## The tree after a rename -/

namespace Remote

/-- The tree in which what was at or below `old` is in the same place under `new`, instead of what
was there. -/
def renamed (r : Remote) (old new : Str) : Remote := fun q =>
  if atOrBelow new q then r (old ++ q.drop new.length)
  else if atOrBelow old q then none else r q

/-- The tree with the object at the path, if there is one. -/
def withLatest (r : Remote) (path : Str) (latest : Option RemoteObject) : Remote :=
  latest.elim r (r.put path)

variable {r r' : Remote} {old new q : Str} {latest : Option RemoteObject}

theorem withLatest_of_ne (hq : q ≠ old) : r.withLatest old latest q = r q := by
  cases latest with
  | none => rfl
  | some o => exact Function.update_of_ne hq ..

theorem put_withLatest (latest : Option RemoteObject) (o : RemoteObject) :
    (r.withLatest old latest).put old o = r.withLatest old (some o) := by
  cases latest with
  | none => rfl
  | some o' => exact Function.update_idem ..

end Remote

theorem append_drop_ne {old new q : Str} (h : atOrBelow new q = true) (hq : q ≠ new) :
    old ++ q.drop new.length ≠ old := by
  rcases atOrBelow_iff.1 h with rfl | ⟨s, rfl⟩
  · exact absurd rfl hq
  · simp

namespace Remote

variable {r r' : Remote} {old new q : Str} {latest : Option RemoteObject}

/-- A new version of the object can as well be put in its new place. -/
theorem renamed_put (o : RemoteObject) :
    (r.put old o).renamed old new = (r.renamed old new).put new o := by
  funext q
  by_cases hq : q = new
  · subst hq
    simp [renamed, put]
  · have hput : (r.renamed old new).put new o q = r.renamed old new q :=
      Function.update_of_ne hq ..
    rw [hput, renamed, renamed]
    split
    · rename_i hnew
      exact Function.update_of_ne (append_drop_ne hnew hq) ..
    · split
      · rfl
      · rename_i hold
        exact Function.update_of_ne (by rintro rfl; simp at hold) ..

/-- What is below the new path is replaced by something below the old one. -/
def Covered (r : Remote) (old new : Str) : Prop :=
  ∀ q, atOrBelow new q = true → q ≠ new → (r q).isSome = true →
    (r (old ++ q.drop new.length)).isSome = true

theorem Covered.withLatest (h : r.Covered old new) (ho : atOrBelow new old = false) :
    (r.withLatest old latest).Covered old new := by
  intro q hnew hq hsome
  have hold : q ≠ old := by
    rintro rfl
    rw [hnew] at ho
    cases ho
  rw [withLatest_of_ne hold] at hsome
  rw [withLatest_of_ne (append_drop_ne hnew hq)]
  exact h q hnew hq hsome

/-- `moveto` gives the renamed tree, whatever is at the new path itself. -/
theorem rename_eq_renamed {b : Remote} (hb : ∀ q, q ≠ new → r q = b q)
    (hold : (r old).isSome = true) (hn : atOrBelow old new = false) (hc : b.Covered old new) :
    r.rename old new = .ok (b.renamed old new) := by
  have hne : old ≠ new := by
    rintro rfl
    simp at hn
  rw [rename, if_neg (by simpa using Option.isSome_iff_ne_none.1 hold)]
  refine congrArg Except.ok (funext fun q => ?_)
  rw [renamed]
  by_cases hnew : atOrBelow new q = true
  · have hmoved : r (old ++ q.drop new.length) = b (old ++ q.drop new.length) := hb _ (by
      intro h
      have hbelow := atOrBelow_append_drop old hnew
      rw [h, hn] at hbelow
      cases hbelow)
    rw [if_pos hnew, if_pos hnew, hmoved]
    cases hsome : b (old ++ q.drop new.length) with
    | some x => rfl
    | none =>
      have hq : q ≠ new := by
        rintro rfl
        rw [List.drop_length, List.append_nil, ← hb old hne] at hsome
        rw [hsome] at hold
        cases hold
      have hnone : b q = none := by
        by_contra hn
        have := hc q hnew hq (Option.isSome_iff_ne_none.2 hn)
        rw [hsome] at this
        cases this
      simp [hb q hq, hnone]
  · have hq : q ≠ new := by
      rintro rfl
      simp at hnew
    simp [hnew, hb q hq]

end Remote

/-! ## What the handler takes for granted -/

/-- The local content of a row. -/
def World.cached (w : World) (r : FileEntry) : Option Bytes := r.cachePath.bind w.fs.files

/-- The path the object is at, by what is left of the remote operation of its rename: none while
the replaced object is still to be deleted and no move follows. -/
def objectPath (old new : Str) : Option Background → Option Str
  | some (.deleteDest _ none) => none
  | some (.deleteDest _ (some _)) | some (.move ..) => some old
  | _ => some new

/-- What the handler takes for granted about a row it renames: the paths are apart, the row it
replaces is that of the object at the new path, nothing is left below the new path, and a row it
moves no object for has none. -/
structure RenameKeeps (w : World) (r : FileEntry) (dest : Option FileEntry) (new : Str) :
    Prop where
  new_apart : atOrBelow r.remotePath new = false
  old_apart : atOrBelow new r.remotePath = false
  dest : ∀ d ∈ dest, d.remotePath = new ∨
    d.remotePath ≠ r.remotePath ∧ w.remote d.remotePath = none
  covered : w.remote.Covered r.remotePath new
  unmoved : needsRemoteRename r.status = false →
    (∀ q, atOrBelow r.remotePath q = true → w.remote q = none) ∧
      (r.status.isUnsynced = false → w.remote new = none)

/-! ## Where the object is in between -/

/-- The remote while the operation has `op` left. -/
def RemoteAt (b : Remote) (r : FileEntry) (new : Str) (latest : Option RemoteObject)
    (remote : Remote) : Option Background → Prop
  | some (.deleteDest d (some p)) => p = (r.remotePath, new) ∧
      (d = new ∨ d ≠ r.remotePath ∧ b d = none) ∧ remote = b.withLatest r.remotePath latest
  | some (.deleteDest d none) => (d = new ∨ b d = none) ∧ latest = none ∧ remote = b ∧
      needsRemoteRename r.status = false
  | some (.move o n) => o = r.remotePath ∧ n = new ∧
      ∀ q, q ≠ new → remote q = b.withLatest r.remotePath latest q
  | some (.removeTombstone _) | none =>
      (∀ q, q ≠ new → remote q = (b.withLatest r.remotePath latest).renamed r.remotePath new q) ∧
        (remote new = b.withLatest r.remotePath latest r.remotePath ∨
          latest = none ∧ b r.remotePath = none ∧ r.status.isUnsynced = true)
  | _ => False

variable {m : Mount} {w w₁ w' : World} {r : FileEntry} {new : Str} {latest : Option RemoteObject}

theorem remoteAt_unmoved {remote : Remote} {dest : Option FileEntry} (hc : RenameKeeps w r dest new)
    (hm : needsRemoteRename r.status = false) (hrem : ∀ q, q ≠ new → remote q = w.remote q)
    (hnew : remote new = none ∨ remote new = w.remote new) :
    RemoteAt w.remote r new none remote none := by
  obtain ⟨hold, hsynced⟩ := hc.unmoved hm
  have hnone := hold r.remotePath (atOrBelow_self _)
  refine ⟨fun q hq => ?_, ?_⟩
  · rw [hrem q hq, Remote.withLatest, Option.elim_none, Remote.renamed]
    split
    · rename_i hbelow
      have hdrop := hold _ (atOrBelow_append_drop _ hbelow)
      rw [hdrop]
      by_contra hsome
      have := hc.covered q hbelow hq (Option.isSome_iff_ne_none.2 hsome)
      rw [hdrop] at this
      cases this
    · split
      · exact hold q ‹_›
      · rfl
  · cases hu : r.status.isUnsynced with
    | true => exact .inr ⟨rfl, hnone, rfl⟩
    | false =>
      left
      rw [Remote.withLatest, Option.elim_none, hnone]
      rcases hnew with hnew | hnew <;> rw [hnew]
      exact hsynced hu

/-! ## Uploads and calls of the operation -/

/-- An upload changes the remote only by a version it has accepted, which it puts at the path of
the row it loaded. -/
theorem remote_of_upload {k : ℕ} {env : Env} (h : step m w (.upload k env) = some w') :
    (acceptedUpload w (.upload k env) = none ∧ w'.remote = w.remote) ∨
      ∃ a o, acceptedUpload w (.upload k env) = some a ∧ o.data = a.data ∧
        w'.remote = w.remote.put a.entry.remotePath o := by
  obtain ⟨⟨i, pc⟩, hu, hw⟩ := Option.map_eq_some_iff.1 h
  have hremote : w'.remote = (Upload.tick w i env pc).1.remote := by rw [← hw]
  rw [hremote]
  cases pc with
  | put e data =>
    simp only [acceptedUpload, hu, Upload.tick]
    cases he : env.error with
    | some e => exact .inl ⟨rfl, rfl⟩
    | none =>
      cases hr : w.remote.upload e.remotePath e.etag data env.etag env.mtime with
      | error e => exact .inl ⟨rfl, rfl⟩
      | ok r =>
        obtain ⟨⟨id, rfl⟩, -⟩ := Remote.upload_ok hr
        exact .inr ⟨_, _, rfl, rfl, rfl⟩
  | finish result =>
    refine .inl ⟨by simp only [acceptedUpload, hu], ?_⟩
    rcases result with e | _
    · cases e <;> simp only [Upload.tick] <;> repeat' split
      all_goals rfl
    · rfl
  | _ =>
    refine .inl ⟨by simp only [acceptedUpload, hu], ?_⟩
    simp only [Upload.tick]
    repeat' split
    all_goals rfl

/-- A version put where the object is leaves the remote as it should be. -/
theorem RemoteAt.put {remote : Remote} {op : Option Background} {path : Str}
    (h : RemoteAt w.remote r new latest remote op)
    (hp : objectPath r.remotePath new op = some path) (o : RemoteObject) :
    RemoteAt w.remote r new (some o) (remote.put path o) op := by
  have hnew : (∀ q, q ≠ new →
      remote q = (w.remote.withLatest r.remotePath latest).renamed r.remotePath new q) →
      (∀ q, q ≠ new → remote.put new o q =
        (w.remote.withLatest r.remotePath (some o)).renamed r.remotePath new q) ∧
      (remote.put new o new = w.remote.withLatest r.remotePath (some o) r.remotePath ∨
        some o = none ∧ w.remote r.remotePath = none ∧ r.status.isUnsynced = true) := by
    refine fun hrem => ⟨fun q hq => ?_, .inl ?_⟩
    · rw [← Remote.put_withLatest latest, Remote.renamed_put, Remote.put, Remote.put,
        Function.update_of_ne hq, Function.update_of_ne hq]
      exact hrem q hq
    · simp [Remote.put, Remote.withLatest]
  cases op with
  | none =>
    obtain rfl := Option.some.inj hp
    exact hnew h.1
  | some b =>
    cases b with
    | deleteDest d p =>
      cases p with
      | none => cases hp
      | some p =>
        obtain rfl := Option.some.inj hp
        obtain ⟨hp, hd, rfl⟩ := h
        exact ⟨hp, hd, Remote.put_withLatest latest o⟩
    | move old n =>
      obtain rfl := Option.some.inj hp
      refine ⟨h.1, h.2.1, fun q hq => ?_⟩
      rw [← Remote.put_withLatest latest, Remote.put, Remote.put]
      simp only [Function.update_apply, h.2.2 q hq]
    | removeTombstone path =>
      obtain rfl := Option.some.inj hp
      exact hnew h.1
    | _ => exact h.elim

/-- The call that deletes the replaced object changes nothing else, and leads to the move. -/
theorem tick_deleteDest (m : Mount) (w : World) (env : Env) (d : Str) (p : Option (Str × Str)) :
    (Background.tick m w env (.deleteDest d p)).2 = p.map (fun p => .move p.1 p.2) ∧
      (∀ q, q ≠ d → (Background.tick m w env (.deleteDest d p)).1.remote q = w.remote q) ∧
      ((Background.tick m w env (.deleteDest d p)).1.remote d = none ∨
        (Background.tick m w env (.deleteDest d p)).1.remote d = w.remote d) := by
  simp only [Background.tick]
  split
  · rename_i r _ hdel
    rw [Remote.delete] at hdel
    split at hdel <;> cases hdel
    exact ⟨rfl, fun q hq => Function.update_of_ne hq .., .inl (Function.update_self ..)⟩
  · exact ⟨rfl, fun _ _ => rfl, .inr rfl⟩

/-- The next call of the operation takes the object where it should be by then. -/
theorem RemoteAt.tick {w₁ : World} {env : Env} {dest : Option FileEntry} {b : Background}
    (h : RemoteAt w.remote r new latest w₁.remote (some b)) (hc : RenameKeeps w r dest new)
    (he : env.error = none)
    (hmove : b = .move r.remotePath new → (w₁.remote r.remotePath).isSome = true) :
    RemoteAt w.remote r new latest (Background.tick m w₁ env b).1.remote
      (Background.tick m w₁ env b).2 := by
  cases b with
  | deleteDest d p =>
    obtain ⟨hnext, hne, hdel⟩ := tick_deleteDest m w₁ env d p
    rw [hnext]
    generalize (Background.tick m w₁ env (.deleteDest d p)).1.remote = remote at hne hdel ⊢
    -- the deletion changes the tree at most at the new path
    have hoff : (d = new ∨ w₁.remote d = none) → ∀ q, q ≠ new → remote q = w₁.remote q := by
      intro hd q hq
      by_cases hqd : q = d
      · subst hqd
        rcases hd with rfl | hnone
        · exact absurd rfl hq
        · rcases hdel with hdel | hdel <;> rw [hdel]
          exact hnone.symm
      · exact hne q hqd
    cases p with
    | some p =>
      obtain ⟨rfl, hd, hrem⟩ := h
      refine ⟨rfl, rfl, fun q hq => ?_⟩
      rw [hoff (hd.imp id fun hd => ?_) q hq, hrem]
      rw [hrem, Remote.withLatest_of_ne hd.1]
      exact hd.2
    | none =>
      obtain ⟨hd, rfl, hrem, hm⟩ := h
      rw [hrem] at hne hdel hoff
      refine remoteAt_unmoved hc hm (hoff hd) ?_
      by_cases hnew : new = d
      · exact hnew ▸ hdel
      · exact .inr (hne new hnew)
  | move old n =>
    obtain ⟨rfl, rfl, hrem⟩ := h
    have hren := Remote.rename_eq_renamed hrem (hmove rfl) hc.new_apart
      (hc.covered.withLatest hc.old_apart)
    simp only [Background.tick, he, hren]
    refine ⟨fun _ _ => rfl, .inl ?_⟩
    simp [Remote.renamed]
  | removeTombstone path =>
    simp only [Background.tick]
    split <;> exact h
  | _ => exact h.elim

end Stratosync

import Stratosync.Daemon.Rows

/-!
# The hydrations after a step

`HydrationStep` lists where a hydration may come from that is under way after a step: it was there
and it was not its turn, it was told the result of the one it waited for, it has made its call, or
the step started it. `hydration_of_step` says that the list is complete, and
`mem_hydrations_of_other` that those whose turn it was not are still there.
-/

namespace Stratosync

open Foundations.Pool

variable {m : Mount} {w w' : World}

/-- The hydrations whose step it is not. -/
def World.otherHydrations (w : World) : Event → List Hydration
  | .hydration k _ => w.hydrations.eraseIdx k
  | _ => w.hydrations

theorem mem_of_mem_otherHydrations {ev : Event} {x : Hydration} (h : x ∈ w.otherHydrations ev) :
    x ∈ w.hydrations := by
  cases ev with
  | hydration => exact List.mem_of_mem_eraseIdx h
  | _ => exact h

/-- **Where a hydration comes from** that is under way after a step. -/
inductive HydrationStep (m : Mount) (w : World) : Event → Hydration → Prop
  | other {ev x} (hx : x ∈ w.otherHydrations ev) : HydrationStep m w ev x
  | told {k env x a x₀ result} (hx : x ∈ w.hydrations.eraseIdx k) (hpc : x.pc = .wait a none)
      (hx₀ : w.hydrations[k]? = some x₀) (hpc₀ : x₀.pc = .notify result)
      (hi : x.inode = x₀.inode) :
      HydrationStep m w (.hydration k env) { x with pc := .wait a (some result.isOk) }
  | moved {k env x pc} (hx : w.hydrations[k]? = some x)
      (hpc : (Hydration.tick m w x.inode env x.pc).2 = .goto pc) :
      HydrationStep m w (.hydration k env) { x with pc }
  | opened {i r} (hr : w.db.getByInode i = some r) (hn : r.status.needsHydration = true) :
      HydrationStep m w (.request (.open_ i)) ⟨i, .reload, none⟩
  | claimedByRead {k env rd f} (hrd : w.reads[k]? = some rd) (hpc : rd.pc = .claim f)
      (hf : env.fault = false) : HydrationStep m w (.read k env) ⟨f.inode, .reload, none⟩
  | entered {k env rd f} (hrd : w.reads[k]? = some rd) (hpc : rd.pc = .range f) :
      HydrationStep m w (.read k env) ⟨f.inode, .enter 0, some rd.id⟩
  | prefetched {parent child} (hc : w.db.getByInode child.inode = some child)
      (hn : child.status.needsHydration = true) :
      HydrationStep m w (.prefetch parent) ⟨child.inode, .claim child, none⟩

/-! ## A call of one of them -/

/-- A waiter that has been told. -/
def Hydration.told (i : Inode) (ok : Bool) (h : Hydration) : Hydration :=
  match h.pc with
  | .wait attempt none => if h.inode = i then { h with pc := .wait attempt (some ok) } else h
  | _ => h

theorem Hydration.told_eq {i : Inode} {ok : Bool} {h : Hydration}
    (hpc : ∀ a, h.pc ≠ .wait a none) : h.told i ok = h := by
  rw [told]
  split
  · exact absurd ‹_› (hpc _)
  · rfl

/-- Only the end of a hydration changes the others. -/
theorem hydrations_of_tick_eq (m : Mount) (w : World) (i : Inode) (env : Env) (pc : HydrationPc) :
    (Hydration.tick m w i env pc).1.hydrations = w.hydrations ∨ ∃ result, pc = .notify result ∧
      (Hydration.tick m w i env pc).1.hydrations =
        w.hydrations.map (Hydration.told i result.isOk) := by
  cases pc with
  | notify result => exact .inr ⟨result, rfl, rfl⟩
  | _ =>
    left
    unfold Hydration.tick
    split <;> try (repeat' split)
    all_goals first
      | rfl
      | contradiction

/-- The others after a call of a hydration: as they were, or told. -/
theorem other_of_tick {k : ℕ} {env : Env} {x₀ x : Hydration} (hx₀ : w.hydrations[k]? = some x₀)
    (hx : x ∈ (Hydration.tick m w x₀.inode env x₀.pc).1.hydrations.eraseIdx k) :
    HydrationStep m w (.hydration k env) x := by
  obtain heq | ⟨result, hpc₀, heq⟩ := hydrations_of_tick_eq m w x₀.inode env x₀.pc
  · rw [heq] at hx
    exact .other hx
  · rw [heq, List.eraseIdx_map] at hx
    obtain ⟨y, hy, rfl⟩ := List.mem_map.1 hx
    rw [Hydration.told]
    split
    · rename_i a hpc
      split
      · rename_i hi
        exact .told hy hpc hx₀ hpc₀ hi
      · exact .other hy
    · exact .other hy

/-! ## Every step -/

theorem hydration_of_step {ev : Event} {x : Hydration} (h : step m w ev = some w')
    (hx : x ∈ w'.hydrations) : HydrationStep m w ev x := by
  cases ev with
  | request r =>
    obtain ⟨-, rfl⟩ := step_request h
    cases r with
    | open_ i =>
      simp only [serve, handleOpen, World.allocFh] at hx
      split at hx
      · exact .other hx
      rename_i entry hentry
      split at hx
      · rename_i hneeds
        split at hx
        · exact .other hx
        · obtain hx | hx := List.mem_append.1 hx
          · exact .other hx
          · rw [List.mem_singleton.1 hx]
            exact .opened hentry (Bool.and_eq_true_iff.1 hneeds).1
      · split at hx <;> exact .other hx
    | _ =>
      simp only [serve, handleWrite, handleSetattr, handleRelease, handleFsync, handleRead,
        handleCreate, handleMkdir, handleUnlink, handleRmdir, handleRename, World.allocFh] at hx
      repeat' split at hx
      all_goals exact .other hx
  | hydration k env =>
    obtain ⟨x₀, hx₀, rfl⟩ := Option.map_eq_some_iff.1 h
    dsimp only at hx
    split at hx
    · rename_i pc hpc
      have hx : x ∈ advance (Hydration.tick m w x₀.inode env x₀.pc).1.hydrations k
          (some { x₀ with pc }) := hx
      obtain hx | hx := mem_others_of_mem_advance hx
      · exact other_of_tick hx₀ hx
      · rw [← Option.some.inj hx]
        exact .moved hx₀ hpc
    · have hx : x ∈ advance (Hydration.tick m w x₀.inode env x₀.pc).1.hydrations k none := hx
      obtain hx | hx := mem_others_of_mem_advance hx
      · exact other_of_tick hx₀ hx
      · cases hx
  | read k env =>
    obtain ⟨rd, hrd, rfl⟩ := Option.map_eq_some_iff.1 h
    have hread : x ∈ (Read.tick m w env rd).1.hydrations := by
      dsimp only at hx
      split at hx <;> exact hx
    simp only [Read.tick] at hread
    split at hread
    case h_3 f hpc =>
      split at hread
      · exact .other hread
      · rename_i db hdb
        obtain hread | hread := List.mem_append.1 hread
        · exact .other hread
        · rw [List.mem_singleton.1 hread]
          exact .claimedByRead hrd hpc (tryDb_eq_some.1 hdb).1
    case h_4 f hpc =>
      split at hread
      · split at hread <;> exact .other hread
      · obtain hread | hread := List.mem_append.1 hread
        · exact .other hread
        · rw [List.mem_singleton.1 hread]
          exact .entered hrd hpc
    all_goals
      repeat' split at hread
      all_goals exact .other hread
  | prefetch parent =>
    obtain rfl := Option.some.inj h
    rw [prefetchSmallFiles] at hx
    split at hx
    · exact .other hx
    · obtain hx | hx := List.mem_append.1 hx
      · exact .other hx
      · obtain ⟨child, hchild, rfl⟩ := List.mem_map.1 hx
        obtain ⟨hchild, hsmall⟩ := List.mem_filter.1 hchild
        have hneeds : child.status.needsHydration = true := by
          simp only [decide_eq_true_eq] at hsmall
          exact hsmall.2.1
        exact .prefetched (Db.getByInode_of_mem (Db.mem_listChildren.1 hchild).1) hneeds
  | _ =>
    rw [(frame_of_step h).hydrations rfl] at hx
    exact .other hx

/-- A hydration whose turn it is not stays as it is, unless it waits. -/
theorem mem_hydrations_of_other {ev : Event} {x : Hydration} (h : step m w ev = some w')
    (hx : x ∈ w.otherHydrations ev) (hpc : ∀ a, x.pc ≠ .wait a none) : x ∈ w'.hydrations := by
  cases ev with
  | request r =>
    obtain ⟨-, rfl⟩ := step_request h
    cases r with
    | open_ i =>
      simp only [serve, handleOpen, World.allocFh]
      repeat' split
      all_goals first
        | exact hx
        | exact List.mem_append_left _ hx
    | _ =>
      simp only [serve, handleWrite, handleSetattr, handleRelease, handleFsync, handleRead,
        handleCreate, handleMkdir, handleUnlink, handleRmdir, handleRename, World.allocFh]
      repeat' split
      all_goals exact hx
  | hydration k env =>
    obtain ⟨x₀, hx₀, rfl⟩ := Option.map_eq_some_iff.1 h
    have hold : x ∈ (Hydration.tick m w x₀.inode env x₀.pc).1.hydrations.eraseIdx k := by
      obtain heq | ⟨result, -, heq⟩ := hydrations_of_tick_eq m w x₀.inode env x₀.pc
      · rw [heq]
        exact hx
      · rw [heq, List.eraseIdx_map]
        exact List.mem_map.2 ⟨x, hx, Hydration.told_eq hpc⟩
    dsimp only
    split
    · rename_i pc _
      change x ∈ advance _ k (some { x₀ with pc })
      exact mem_advance_of_other hold
    · exact hold
  | read k env =>
    obtain ⟨rd, -, rfl⟩ := Option.map_eq_some_iff.1 h
    have hread : x ∈ (Read.tick m w env rd).1.hydrations := by
      simp only [Read.tick]
      repeat' split
      all_goals first
        | exact hx
        | exact List.mem_append_left _ hx
    dsimp only
    split <;> exact hread
  | prefetch parent =>
    obtain rfl := Option.some.inj h
    rw [prefetchSmallFiles]
    split
    · exact hx
    · exact List.mem_append_left _ hx
  | _ =>
    rw [(frame_of_step h).hydrations rfl]
    exact hx

/-- A hydration that goes on is there after its call. -/
theorem mem_hydrations_of_goto {k : ℕ} {env : Env} {x : Hydration} {pc : HydrationPc}
    (h : step m w (.hydration k env) = some w') (hx : w.hydrations[k]? = some x)
    (hpc : (Hydration.tick m w x.inode env x.pc).2 = .goto pc) :
    { x with pc } ∈ w'.hydrations := by
  obtain ⟨x₀, hx₀, rfl⟩ := Option.map_eq_some_iff.1 h
  obtain rfl := Option.some.inj (hx₀.symm.trans hx)
  dsimp only
  rw [hpc]
  have hlen : (Hydration.tick m w x₀.inode env x₀.pc).1.hydrations.length =
      w.hydrations.length := by
    obtain heq | ⟨result, -, heq⟩ := hydrations_of_tick_eq m w x₀.inode env x₀.pc
    · rw [heq]
    · rw [heq, List.length_map]
  have hk := (List.getElem?_eq_some_iff.1 hx).1
  exact List.mem_of_getElem? (i := k) (List.getElem?_set_self (by rw [hlen]; exact hk))

/-- A step of a hydration is its call, but for the list of what is under way. -/
theorem eq_of_hydrationStep {k : ℕ} {env : Env} (h : step m w (.hydration k env) = some w') :
    ∃ x, w.hydrations[k]? = some x ∧ w'.db = (Hydration.tick m w x.inode env x.pc).1.db ∧
      w'.fs = (Hydration.tick m w x.inode env x.pc).1.fs := by
  obtain ⟨x, hx, rfl⟩ := Option.map_eq_some_iff.1 h
  refine ⟨x, hx, ?_⟩
  dsimp only
  split <;> exact ⟨rfl, rfl⟩

/-- The hydrations after a call of one: the others have at most been told. -/
theorem hydrations_of_hydrationStep {k : ℕ} {env : Env}
    (h : step m w (.hydration k env) = some w') : ∃ x g next, w.hydrations[k]? = some x ∧
      w'.hydrations = advance (w.hydrations.map g) k next ∧
      (∀ y, g y = y ∨ ∃ i ok, g y = y.told i ok) ∧
      ∀ y, next = some y →
        ∃ pc, (Hydration.tick m w x.inode env x.pc).2 = .goto pc ∧ y = { x with pc } := by
  obtain ⟨x, hx, rfl⟩ := Option.map_eq_some_iff.1 h
  obtain ⟨g, hg, htold⟩ : ∃ g : Hydration → Hydration,
      (Hydration.tick m w x.inode env x.pc).1.hydrations = w.hydrations.map g ∧
        ∀ y, g y = y ∨ ∃ i ok, g y = y.told i ok := by
    obtain heq | ⟨result, -, heq⟩ := hydrations_of_tick_eq m w x.inode env x.pc
    · exact ⟨id, heq.trans (List.map_id _).symm, fun y => .inl rfl⟩
    · exact ⟨_, heq, fun y => .inr ⟨_, _, rfl⟩⟩
  dsimp only
  split
  · rename_i pc hpc
    refine ⟨x, g, some { x with pc }, hx, hg ▸ rfl, htold, fun y hy => ⟨pc, hpc, ?_⟩⟩
    exact (Option.some.inj hy).symm
  · exact ⟨x, g, none, hx, hg ▸ rfl, htold, fun y hy => by cases hy⟩

/-- A read starts a hydration that it has marked the row for, or one that looks at the row. -/
theorem hydrations_of_readStep {k : ℕ} {env : Env} (h : step m w (.read k env) = some w') :
    (Db.SameRows w.db w'.db ∧ (w'.hydrations = w.hydrations ∨
        ∃ i id, w'.hydrations = w.hydrations ++ [⟨i, .enter 0, some id⟩])) ∨
      ∃ rd f, w.reads[k]? = some rd ∧ rd.pc = .claim f ∧
        w.db.setStatus f.inode .hydrating = some w'.db ∧
          w'.hydrations = w.hydrations ++ [⟨f.inode, .reload, none⟩] := by
  obtain ⟨rd, hrd, hw⟩ := Option.map_eq_some_iff.1 h
  have htick : w'.hydrations = (Read.tick m w env rd).1.hydrations ∧
      w'.db = (Read.tick m w env rd).1.db := by
    rw [← hw]
    dsimp only
    split <;> exact ⟨rfl, rfl⟩
  rw [htick.1, htick.2]
  have hlru : ∀ i, Db.SameRows w.db ((World.tryDb env (w.db.touchLru i)).getD w.db) := by
    intro i
    cases htouch : World.tryDb env (w.db.touchLru i) with
    | none => exact ⟨rfl, fun _ => rfl⟩
    | some db => exact Db.sameRows_of_touchLru (tryDb_eq_some.1 htouch).2
  simp only [Read.tick]
  split
  case h_2 f hpc =>
    repeat' split
    all_goals first
      | exact .inl ⟨⟨rfl, fun _ => rfl⟩, .inl rfl⟩
      | exact .inl ⟨hlru f.inode, .inl rfl⟩
  case h_3 f hpc =>
    split
    · exact .inl ⟨⟨rfl, fun _ => rfl⟩, .inl rfl⟩
    · rename_i db hdb
      exact .inr ⟨rd, f, hrd, hpc, (tryDb_eq_some.1 hdb).2, rfl⟩
  case h_4 f hpc =>
    split
    · split <;> exact .inl ⟨⟨rfl, fun _ => rfl⟩, .inl rfl⟩
    · exact .inl ⟨⟨rfl, fun _ => rfl⟩, .inr ⟨_, _, rfl⟩⟩
  case h_8 f hpc => exact .inl ⟨hlru f.inode, .inl rfl⟩
  all_goals
    repeat' split
    all_goals exact .inl ⟨⟨rfl, fun _ => rfl⟩, .inl rfl⟩

/-! ## Marking a row -/

section Marked

variable {i : Inode} {r r' : FileEntry}

/-- The open that marks a row starts its hydration. -/
theorem reload_of_open (h : step m w (.request (.open_ i)) = some w')
    (hr : w.db.getByInode i = some r) (hs : r.status ≠ .hydrating)
    (hr' : w'.db.getByInode i = some r') (hs' : r'.status = .hydrating) :
    ⟨i, .reload, none⟩ ∈ w'.hydrations := by
  obtain ⟨-, rfl⟩ := step_request h
  simp only [serve, handleOpen, World.allocFh, hr] at hr' ⊢
  by_cases hneeds : (r.status.needsHydration &&
      m.autoHydrateMaxSize.all fun cap => r.size ≤ cap) = true
  · rw [if_pos hneeds] at hr' ⊢
    cases hdb : w.db.setStatus i .hydrating with
    | none =>
      rw [hdb] at hr'
      exact absurd (Option.some.inj (hr.symm.trans hr') ▸ hs') hs
    | some db => exact List.mem_append_right _ (List.mem_singleton.2 rfl)
  · rw [if_neg hneeds] at hr'
    have hsame : w.db.getByInode i = some r' := by
      dsimp only at hr'
      split at hr'
      · exact hr'
      · rw [World.logDb] at hr'
        cases htouch : World.tryDb .fine (w.db.touchLru i) with
        | none => rwa [htouch] at hr'
        | some db =>
          rw [htouch] at hr'
          rwa [← (Db.sameRows_of_touchLru (tryDb_eq_some.1 htouch).2).rows i]
    exact absurd (Option.some.inj (hr.symm.trans hsame) ▸ hs') hs

/-- And so does the read. -/
theorem reload_of_read {k : ℕ} {env : Env} {rd : Read} {f : OpenFile}
    (h : step m w (.read k env) = some w') (hrd : w.reads[k]? = some rd) (hpc : rd.pc = .claim f)
    (hr : w.db.getByInode f.inode = some r) (hs : r.status ≠ .hydrating)
    (hr' : w'.db.getByInode f.inode = some r') (hs' : r'.status = .hydrating) :
    ⟨f.inode, .reload, none⟩ ∈ w'.hydrations := by
  obtain ⟨x, hx, rfl⟩ := Option.map_eq_some_iff.1 h
  obtain rfl := Option.some.inj (hrd.symm.trans hx)
  cases hdb : World.tryDb env (w.db.setStatus f.inode .hydrating) with
  | none =>
    simp only [Read.tick, hpc, hdb] at hr'
    rw [hr] at hr'
    exact absurd (Option.some.inj hr' ▸ hs') hs
  | some db =>
    simp only [Read.tick, hpc, hdb]
    exact List.mem_append_right _ (List.mem_singleton.2 rfl)

/-- A hydration that marks the row goes on. -/
theorem goto_of_claim {env : Env} {e : FileEntry} (hr : w.db.getByInode i = some r)
    (hs : r.status ≠ .hydrating)
    (hr' : (Hydration.tick m w i env (.claim e)).1.db.getByInode i = some r')
    (hs' : r'.status = .hydrating) :
    (Hydration.tick m w i env (.claim e)).2 = .goto (.begin_ e) := by
  simp only [Hydration.tick] at hr' ⊢
  split at hr'
  · rw [hr] at hr'
    exact absurd (Option.some.inj hr' ▸ hs') hs
  · rfl

end Marked

/-! ## Hydrations that have marked their row -/

/-- `do_hydrate` is under way: it has marked the row and has yet to leave its final status. -/
def HydrationPc.working : HydrationPc → Bool
  | .reload | .begin_ _ | .download .. | .install .. | .record .. | .verify _ | .prune _
  | .backfill .. | .rollback .. => true
  | _ => false

/-- A hydration that has marked the row can read it, finds its cache path safe, and can roll the
status back. -/
def HydrationPc.Completes (m : Mount) (fs : CacheFs) (env : Env) : HydrationPc → Prop
  | .reload | .rollback .. => env.fault = false
  | .begin_ e => safeCachePath fs m.cacheDir e.remotePath ≠ none
  | _ => True

instance (m : Mount) (fs : CacheFs) (env : Env) :
    (pc : HydrationPc) → Decidable (pc.Completes m fs env)
  | .reload | .rollback .. => inferInstanceAs (Decidable (env.fault = false))
  | .begin_ e => inferInstanceAs (Decidable (safeCachePath fs m.cacheDir e.remotePath ≠ none))
  | .enter _ | .register _ | .wait .. | .claim _ | .download .. | .install .. | .record ..
  | .verify _ | .prune _ | .backfill .. | .notify _ => .isTrue trivial

section Working

variable {i : Inode} {r r' : FileEntry}

/-- A hydration that has marked the row leaves it another status when it ends. -/
theorem not_hydrating_of_done {env : Env} {pc : HydrationPc} (hw : pc.working = true)
    (hg : pc.Completes m w.fs env)
    (hdone : ∀ pc', (Hydration.tick m w i env pc).2 = .goto pc' → pc'.working = false)
    (hr : (Hydration.tick m w i env pc).1.db.getByInode i = some r) : r.status ≠ .hydrating := by
  cases pc with
  | reload =>
    simp only [Hydration.tick] at hdone hr
    split at hdone
    · rename_i hnone
      rw [if_neg (by rw [hg]; exact Bool.false_ne_true)] at hnone
      split at hr <;> exact absurd hr (by rw [hnone]; exact Option.some_ne_none r |>.symm)
    · cases hdone _ rfl
  | begin_ e =>
    simp only [Hydration.tick] at hdone
    split at hdone
    · exact absurd ‹_› hg
    · cases hdone _ rfl
  | download e cp =>
    simp only [Hydration.tick] at hdone
    split at hdone <;> cases hdone _ rfl
  | install e cp data =>
    simp only [Hydration.tick] at hdone
    repeat' split at hdone
    all_goals cases hdone _ rfl
  | record e cp =>
    simp only [Hydration.tick] at hdone hr
    split at hdone
    · cases hdone _ rfl
    · rename_i hfile
      split at hdone
      · cases hdone _ rfl
      · rename_i hset
        simp only [hfile, hset] at hr
        have hrows := Db.setCached_rows (tryDb_eq_some.1 hset).2
        rw [hrows.self] at hr
        obtain ⟨r₀, -, rfl⟩ := Option.map_eq_some_iff.1 hr
        exact SyncStatus.noConfusion
  | verify e =>
    simp only [Hydration.tick] at hdone
    split at hdone <;> cases hdone _ rfl
  | prune e =>
    simp only [Hydration.tick] at hdone hr
    split at hdone
    · cases hdone _ rfl
    · rename_i hdel
      simp only [hdel] at hr
      rw [Db.getByInode_deleteEntry (tryDb_eq_some.1 hdel).2, if_pos rfl] at hr
      cases hr
  | backfill e id => cases hdone _ rfl
  | rollback e err =>
    simp only [Hydration.tick] at hr
    obtain ⟨db, hdb⟩ := Option.isSome_iff_exists.1 (w.db.setStatus_isSome i (s := .remote) rfl)
    rw [World.logDb, tryDb_eq_some.2 ⟨hg, hdb⟩, Option.getD_some] at hr
    dsimp only at hr
    rw [(Db.setStatus_rows hdb).self] at hr
    obtain ⟨r₀, -, rfl⟩ := Option.map_eq_some_iff.1 hr
    exact SyncStatus.noConfusion
  | _ => cases hw

/-- A row that stays marked still has a hydration that has marked it. -/
theorem working_of_step {ev : Event} {h₀ : Hydration} (h : step m w ev = some w')
    (hg : ∀ k env, ev = .hydration k env → ∀ x ∈ w.hydrations[k]?, x.pc.Completes m w.fs env)
    (hmem : h₀ ∈ w.hydrations) (hi : h₀.inode = i)
    (hw : h₀.pc.working = true) (hr' : w'.db.getByInode i = some r')
    (hs' : r'.status = .hydrating) : ∃ x ∈ w'.hydrations, x.inode = i ∧ x.pc.working = true := by
  have hwait : ∀ a, h₀.pc ≠ .wait a none := by
    intro a ha
    rw [ha] at hw
    cases hw
  by_cases hother : h₀ ∈ w.otherHydrations ev
  · exact ⟨h₀, mem_hydrations_of_other h hother hwait, hi, hw⟩
  cases ev with
  | hydration k env =>
    have hk : w.hydrations[k]? = some h₀ := by
      obtain ⟨j, hj⟩ := List.mem_iff_getElem?.1 hmem
      by_cases hjk : j = k
      · exact hjk ▸ hj
      · exact absurd (List.mem_eraseIdx_iff_getElem?.2 ⟨j, hjk, hj⟩) hother
    obtain ⟨x, hx, hdb, -⟩ := eq_of_hydrationStep h
    obtain rfl := Option.some.inj (hk.symm.trans hx)
    obtain rfl := hi
    by_contra hnone
    refine not_hydrating_of_done hw (hg k env rfl h₀ hk) (fun pc' hpc' => ?_) (hdb ▸ hr') hs'
    by_contra hpc
    exact hnone ⟨_, mem_hydrations_of_goto h hk hpc', rfl, by simpa using hpc⟩
  | _ => exact absurd hmem hother

/-- The events of opens, reads, prefetches and hydrations, and what happens outside. -/
def Event.fetches : Event → Bool
  | .request (.open_ _) | .request (.read ..) | .request (.release _) | .hydration .. | .read ..
  | .prefetch _ | .foreign _ | .clock _ => true
  | _ => false

/-- Who marks a row goes on to hydrate it. -/
theorem marked_of_step {ev : Event} (hev : ev.fetches = true) (h : step m w ev = some w')
    (hr : w.db.getByInode i = some r) (hs : r.status ≠ .hydrating)
    (hr' : w'.db.getByInode i = some r') (hs' : r'.status = .hydrating) :
    ∃ x ∈ w'.hydrations, x.inode = i ∧ x.pc.working = true := by
  have hrow := hr' ▸ row_of_step h hr
  cases hrow with
  | same | backfilled => exact absurd hs' hs
  | opened => exact ⟨_, reload_of_open h hr hs hr' rfl, rfl, rfl⟩
  | claimedByRead hrd hpc => exact ⟨_, reload_of_read h hrd hpc hr hs hr' rfl, rfl, rfl⟩
  | claimed hh =>
    obtain ⟨x, hx, hdb, -⟩ := eq_of_hydrationStep h
    obtain rfl := Option.some.inj (hh.symm.trans hx)
    exact ⟨_, mem_hydrations_of_goto h hh (goto_of_claim hr hs (hdb ▸ hr') rfl), rfl, rfl⟩
  | timedOut | rolledBack | hydrated => cases hs'
  | _ => cases hev

end Working

/-! ## Downloads under way -/

/-- The hydration has downloaded the file and has yet to record it. -/
def HydrationPc.downloaded : HydrationPc → Bool
  | .install .. | .record .. => true
  | _ => false

/-- **Which hydrations hold a download after a step**: others that did, or the one that moved. -/
theorem downloaded_of_step {ev : Event} {x : Hydration} (h : step m w ev = some w')
    (hx : x ∈ w'.hydrations) (hd : x.pc.downloaded = true) :
    x ∈ w.otherHydrations ev ∨ ∃ k env x₀, ev = .hydration k env ∧ w.hydrations[k]? = some x₀ ∧
      x.inode = x₀.inode ∧ (Hydration.tick m w x₀.inode env x₀.pc).2 = .goto x.pc := by
  cases hydration_of_step h hx with
  | other hx => exact .inl hx
  | moved hx₀ hpc => exact .inr ⟨_, _, _, rfl, hx₀, rfl, hpc⟩
  | _ => cases hd

end Stratosync

import Mathlib.Algebra.GroupWithZero.Nat
import Mathlib.Data.List.Forall2
import Mathlib.Data.List.InsertIdx
import Mathlib.Data.List.Nodup

/-!
# Pools of tasks

The tasks of a concurrent program as a list. The scheduler picks a position, the task there takes
a step, and its next state takes its place or, when it has finished, it leaves the list
(`advance`). New tasks are appended.

The rules say what a property of every task needs: `forall_advance` for the task that moved and
`forall_append` for the new ones. The others only have to keep it under the change of the shared
state, which is the premise about interference.
-/

namespace Foundations.Pool

variable {τ : Type*}

/-- The tasks after the one at position `k` moved to `next`. -/
def advance (ts : List τ) (k : ℕ) : Option τ → List τ
  | some t => ts.set k t
  | none => ts.eraseIdx k

theorem mem_of_mem_advance {ts : List τ} {k : ℕ} {next : Option τ} {t : τ}
    (h : t ∈ advance ts k next) : t ∈ ts ∨ next = some t := by
  cases next with
  | none => exact .inl (List.mem_of_mem_eraseIdx h)
  | some u => exact (List.mem_or_eq_of_mem_set h).imp id fun h => congrArg some h.symm

theorem length_advance_le {ts : List τ} {k : ℕ} {next : Option τ} :
    (advance ts k next).length ≤ ts.length := by
  cases next with
  | none => exact List.length_eraseIdx_le ts k
  | some t => exact Nat.le_of_eq (List.length_set ..)

/-- What the tasks add up to after a step. -/
theorem sum_map_advance {f : τ → ℕ} {ts : List τ} {k : ℕ} {t : τ} {next : Option τ}
    (ht : ts[k]? = some t) :
    ((advance ts k next).map f).sum + f t = (ts.map f).sum + (next.map f).getD 0 := by
  induction ts generalizing k with
  | nil => cases ht
  | cons u us ih =>
    cases k with
    | zero =>
      obtain rfl := Option.some.inj ht
      cases next <;> simp [advance] <;> omega
    | succ k =>
      have ih := ih ht
      cases next <;> simp [advance] at ih ⊢ <;> omega

/-- A property of every task holds after a step when the task that moved has it. -/
theorem forall_advance {P : τ → Prop} {ts : List τ} {k : ℕ} {next : Option τ}
    (h : ∀ t ∈ ts, P t) (hn : ∀ t, next = some t → P t) : ∀ t ∈ advance ts k next, P t :=
  fun t ht => (mem_of_mem_advance ht).elim (h t) (hn t)

theorem forall_append {P : τ → Prop} {ts us : List τ} (h : ∀ t ∈ ts, P t) (h' : ∀ t ∈ us, P t) :
    ∀ t ∈ ts ++ us, P t :=
  fun t ht => (List.mem_append.1 ht).elim (h t) (h' t)

/-- A task after a step is one of the others, or what has become of the one that moved. -/
theorem mem_others_of_mem_advance {ts : List τ} {k : ℕ} {next : Option τ} {t : τ}
    (h : t ∈ advance ts k next) : t ∈ ts.eraseIdx k ∨ next = some t := by
  cases next with
  | none => exact .inl h
  | some u =>
    obtain ⟨j, hj⟩ := List.mem_iff_getElem?.1 h
    rw [advance, List.getElem?_set] at hj
    split at hj
    · split at hj
      · exact .inr hj
      · cases hj
    · rename_i hjk
      exact .inl (List.mem_eraseIdx_iff_getElem?.2 ⟨j, fun h => hjk h.symm, hj⟩)

/-- The others are there after a step of one task. -/
theorem mem_advance_of_other {ts : List τ} {k : ℕ} {next : Option τ} {t : τ}
    (h : t ∈ ts.eraseIdx k) : t ∈ advance ts k next := by
  cases next with
  | none => exact h
  | some u =>
    obtain ⟨j, hjk, hj⟩ := List.mem_eraseIdx_iff_getElem?.1 h
    exact List.mem_of_getElem? ((List.getElem?_set_ne hjk.symm).trans hj)

theorem mem_others_or_eq {ts : List τ} {k : ℕ} {t u : τ} (ht : ts[k]? = some t) (hu : u ∈ ts) :
    u ∈ ts.eraseIdx k ∨ u = t := by
  obtain ⟨j, hj⟩ := List.mem_iff_getElem?.1 hu
  by_cases hjk : j = k
  · subst hjk
    exact .inr (Option.some.inj (hj.symm.trans ht))
  · exact .inl (List.mem_eraseIdx_iff_getElem?.2 ⟨j, hjk, hj⟩)

/-- Where no two tasks hold the same thing, the others do not hold what one of them does. -/
theorem ne_of_nodup_filterMap {υ : Type*} {f : τ → Option υ} {ts : List τ} {k : ℕ} {t : τ} {a : υ}
    (h : (ts.filterMap f).Nodup) (ht : ts[k]? = some t) (ha : f t = some a) :
    ∀ u ∈ ts.eraseIdx k, f u ≠ some a := by
  intro u hu hua
  obtain ⟨hk, rfl⟩ := List.getElem?_eq_some_iff.1 ht
  rw [← List.take_append_drop k ts, List.drop_eq_getElem_cons hk, List.filterMap_append,
    List.filterMap_cons_some ha, List.nodup_middle, List.nodup_cons] at h
  rw [List.eraseIdx_eq_take_drop_succ] at hu
  refine h.1 ?_
  rw [← List.filterMap_append]
  exact List.mem_filterMap.2 ⟨u, hu, hua⟩

/-- At most one task holds it. -/
theorem length_filter_le_one {υ : Type*} {f : τ → Option υ} {ts : List τ} {p : τ → Bool} {a : υ}
    (h : (ts.filterMap f).Nodup) (hp : ∀ t, p t = true → f t = some a) :
    (ts.filter p).length ≤ 1 := by
  induction ts with
  | nil => exact Nat.zero_le 1
  | cons t ts ih =>
    by_cases ht : p t = true
    · rw [List.filterMap_cons_some (hp t ht), List.nodup_cons] at h
      have hnone : ts.filter p = [] := by
        refine List.filter_eq_nil_iff.2 fun u hu hpu => h.1 ?_
        exact List.mem_filterMap.2 ⟨u, hu, hp u hpu⟩
      rw [List.filter_cons_of_pos ht, hnone]
      exact Nat.le_refl 1
    · rw [List.filter_cons_of_neg ht]
      exact ih (h.sublist ((List.sublist_cons_self t ts).filterMap f))

/-- No two tasks hold the same thing after a step in which the task that moves takes nothing that
any of them holds. -/
theorem nodup_filterMap_advance {υ : Type*} {f : τ → Option υ} {ts : List τ} {k : ℕ} {t : τ}
    {next : Option τ} (h : (ts.filterMap f).Nodup) (ht : ts[k]? = some t)
    (hn : ∀ u, next = some u → f u = f t ∨ ∀ a ∈ f u, a ∉ ts.filterMap f) :
    ((advance ts k next).filterMap f).Nodup := by
  obtain ⟨hk, rfl⟩ := List.getElem?_eq_some_iff.1 ht
  have hrest : ((ts.eraseIdx k).filterMap f).Nodup :=
    h.sublist ((List.eraseIdx_sublist ts k).filterMap f)
  cases next with
  | none => exact hrest
  | some u =>
    have hset : advance ts k (some u) = ts.take k ++ u :: ts.drop (k + 1) :=
      List.set_eq_take_append_cons_drop.trans (if_pos hk)
    obtain hsame | hnew := hn u rfl
    · have hall : (ts.take k ++ ts[k] :: ts.drop (k + 1)).filterMap f = ts.filterMap f := by
        rw [← List.drop_eq_getElem_cons hk, List.take_append_drop]
      rw [hset, List.filterMap_append, List.filterMap_cons, hsame, ← List.filterMap_cons,
        ← List.filterMap_append, hall]
      exact h
    · rw [hset]
      cases hu : f u with
      | none =>
        rwa [List.filterMap_append, List.filterMap_cons_none hu, ← List.filterMap_append,
          ← List.eraseIdx_eq_take_drop_succ]
      | some a =>
        rw [List.filterMap_append, List.filterMap_cons_some hu, List.nodup_middle,
          List.nodup_cons, ← List.filterMap_append, ← List.eraseIdx_eq_take_drop_succ]
        refine ⟨fun hmem => hnew a hu ?_, hrest⟩
        exact ((List.eraseIdx_sublist ts k).filterMap f).subset hmem

/-- Where the task that moves gives away the first of what it holds, the tasks together hold the
rest. -/
theorem perm_flatMap_advance {υ : Type*} {f : τ → List υ} {ts : List τ} {k : ℕ} {t : τ}
    {next : Option τ} {given : List υ} (ht : ts[k]? = some t)
    (h : given ++ (next.map f).getD [] = f t) :
    (given ++ (advance ts k next).flatMap f).Perm (ts.flatMap f) := by
  obtain ⟨hk, rfl⟩ := List.getElem?_eq_some_iff.1 ht
  have hbefore : ts.flatMap f =
      (ts.take k).flatMap f ++ (f ts[k] ++ (ts.drop (k + 1)).flatMap f) := by
    conv_lhs => rw [← List.take_append_drop k ts, List.drop_eq_getElem_cons hk]
    rw [List.flatMap_append, List.flatMap_cons]
  have hafter : (advance ts k next).flatMap f =
      (ts.take k).flatMap f ++ ((next.map f).getD [] ++ (ts.drop (k + 1)).flatMap f) := by
    cases next with
    | none =>
      rw [advance, List.eraseIdx_eq_take_drop_succ, List.flatMap_append]
      rfl
    | some u =>
      rw [advance, List.set_eq_take_append_cons_drop, if_pos hk, List.flatMap_append,
        List.flatMap_cons]
      rfl
  rw [hbefore, hafter, ← h, List.append_assoc]
  exact List.perm_append_comm_assoc given _ _

/-- The tasks after the one at position `k` became the tasks `next`. -/
def become (ts : List τ) (k : ℕ) (next : List τ) : List τ := ts.take k ++ next ++ ts.drop (k + 1)

/-- **The rule for a step of one task among others**: a property of every task holds after it when
the others keep theirs and what has become of the task has it. -/
theorem forall_become {P : τ → Prop} {ts next : List τ} {k : ℕ}
    (h : ∀ j t, j ≠ k → ts[j]? = some t → P t) (hn : ∀ t ∈ next, P t) :
    ∀ t ∈ become ts k next, P t := by
  intro t ht
  obtain ht | ht := List.mem_append.1 ht
  · obtain ht | ht := List.mem_append.1 ht
    · obtain ⟨j, hj, rfl⟩ := List.mem_take_iff_getElem.1 ht
      exact h j _ (by omega) (List.getElem?_eq_getElem _)
    · exact hn t ht
  · obtain ⟨j, hj, rfl⟩ := List.mem_drop_iff_getElem.1 ht
    exact h (k + 1 + j) _ (by omega) (List.getElem?_eq_getElem _)

/-! ## What is recorded about each task -/

section Forall₂

variable {υ : Type*} {R : τ → υ → Prop} {ts : List τ} {us : List υ}

theorem forall₂_getElem? (h : List.Forall₂ R ts us) {k : ℕ} {t : τ} (ht : ts[k]? = some t) :
    ∃ u, us[k]? = some u ∧ R t u := by
  induction h generalizing k with
  | nil => cases ht
  | cons hr _ ih =>
    cases k with
    | zero => exact ⟨_, rfl, Option.some.inj ht ▸ hr⟩
    | succ k => exact ih ht

/-- A record for each task that moves with it agrees after the step. -/
theorem forall₂_advance (h : List.Forall₂ R ts us) (k : ℕ) {next : Option τ} {next' : Option υ}
    (hn : Option.Rel R next next') : List.Forall₂ R (advance ts k next) (advance us k next') := by
  induction h generalizing k with
  | nil => cases hn <;> exact .nil
  | cons hr h ih =>
    cases k with
    | zero =>
      cases hn with
      | none => exact h
      | some hn => exact .cons hn h
    | succ k =>
      have ih := ih k
      cases hn <;> exact .cons hr ih

theorem forall₂_append {ts' : List τ} {us' : List υ} (h : List.Forall₂ R ts us)
    (h' : List.Forall₂ R ts' us') : List.Forall₂ R (ts ++ ts') (us ++ us') :=
  List.rel_append h h'

end Forall₂

theorem mem_of_getElem? {ts : List τ} {k : ℕ} {t : τ} (h : ts[k]? = some t) : t ∈ ts :=
  List.mem_of_getElem? h

end Foundations.Pool

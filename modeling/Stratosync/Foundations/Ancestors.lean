import Mathlib.Data.List.Basic

/-!
# Climbing to a root

A forest is given by a partial map that sends a node to its label and its parents, of which only
the first counts. `Climbs up root p steps` says that from `p` the first parents lead to `root`,
through the nodes `steps`; `climb` looks for such a chain and gives up after a number of nodes.

* `climb_eq_some_iff`: it finds a chain exactly when there is one that is short enough. Cycles and
  parents that are not known lead nowhere.
* `Climbs.unique`: there is at most one.
* `Climbs.eq_append`: the chains from one node to two roots go the same way as far as the nearer.
* `exists_climbs_iff`: there is one when the root is somewhere on the chain of first parents, and
  `Climbs.get?_steps` is what it goes through.
* `climbs_filter_iff`: what it means that only some of the nodes are known.
-/

namespace Foundations.Ancestors

variable {ι α : Type*} (up : ι → Option (α × List ι)) (root : ι)

/-- The nodes from `p` up to below `root`, with their labels. -/
inductive Climbs : ι → List (ι × α) → Prop
  | arrived : Climbs root []
  | up {p q : ι} {a : α} {qs : List ι} {steps : List (ι × α)} (hp : p ≠ root)
      (h : up p = some (a, q :: qs)) (hq : Climbs q steps) : Climbs p ((p, a) :: steps)

/-- Look for the root among the first `n` nodes from `p` on. -/
def climb [DecidableEq ι] : ℕ → ι → Option (List (ι × α))
  | 0, _ => none
  | n + 1, p =>
    if p = root then some []
    else
      match up p with
      | some (a, q :: _) => (climb n q).map fun steps => (p, a) :: steps
      | _ => none

variable {up root} {p : ι} {steps : List (ι × α)}

/-- **The search is exact.** -/
theorem climb_eq_some_iff [DecidableEq ι] {n : ℕ} :
    climb up root n p = some steps ↔ Climbs up root p steps ∧ steps.length < n := by
  induction n generalizing p steps with
  | zero => simp [climb]
  | succ n ih =>
    rw [climb]
    by_cases hp : p = root
    · subst hp
      rw [if_pos rfl, Option.some.injEq]
      constructor
      · rintro rfl
        exact ⟨.arrived, Nat.succ_pos n⟩
      · rintro ⟨h, -⟩
        cases h with
        | arrived => rfl
        | up hne => exact absurd rfl hne
    · rw [if_neg hp]
      constructor
      · intro h
        split at h
        · rename_i hup
          obtain ⟨rest, hrest, rfl⟩ := Option.map_eq_some_iff.1 h
          obtain ⟨hclimbs, hlt⟩ := ih.1 hrest
          exact ⟨.up hp hup hclimbs, Nat.succ_lt_succ hlt⟩
        · cases h
      · rintro ⟨h, hlt⟩
        cases h with
        | arrived => exact absurd rfl hp
        | up _ hup hq =>
          rw [hup]
          simp only [ih.2 ⟨hq, Nat.lt_of_succ_lt_succ hlt⟩, Option.map_some]

theorem Climbs.unique {steps' : List (ι × α)} (h : Climbs up root p steps)
    (h' : Climbs up root p steps') : steps = steps' := by
  induction h generalizing steps' with
  | arrived =>
    cases h' with
    | arrived => rfl
    | up hp => exact absurd rfl hp
  | up hp hup _ ih =>
    cases h' with
    | arrived => exact absurd rfl hp
    | up _ hup' hq' =>
      obtain ⟨rfl, hqs⟩ := Prod.mk.inj (Option.some.inj (hup.symm.trans hup'))
      obtain ⟨rfl, -⟩ := List.cons.inj hqs
      rw [ih hq']

/-- Of two roots that are reached from one node, one is on the way to the other. -/
theorem Climbs.eq_append {root' : ι} {steps' : List (ι × α)} (h : Climbs up root p steps)
    (h' : Climbs up root' p steps') :
    (∃ rest, steps' = steps ++ rest ∧ (rest = [] → root = root')) ∨
      ∃ rest, steps = steps' ++ rest ∧ (rest = [] → root = root') := by
  induction h generalizing steps' with
  | arrived =>
    refine .inl ⟨steps', rfl, ?_⟩
    rintro rfl
    cases h'
    rfl
  | @up p q a qs steps hp hup hq ih =>
    cases h' with
    | arrived => exact .inr ⟨_, rfl, nofun⟩
    | up _ hup' hq' =>
      obtain ⟨rfl, hqs⟩ := Prod.mk.inj (Option.some.inj (hup.symm.trans hup'))
      obtain ⟨rfl, -⟩ := List.cons.inj hqs
      rcases ih hq' with ⟨rest, rfl, hroot⟩ | ⟨rest, rfl, hroot⟩
      · exact .inl ⟨rest, rfl, hroot⟩
      · exact .inr ⟨rest, rfl, hroot⟩

/-! ## The chain of first parents -/

variable (up) in
/-- The node at place `n` of the chain of first parents that begins with `p`. -/
def chain : ι → ℕ → Option ι
  | p, 0 => some p
  | p, n + 1 => ((up p).bind fun x => x.2.head?).bind fun q => chain q n

theorem chain_succ {q : ι} {a : α} {qs : List ι} (h : up p = some (a, q :: qs)) (n : ℕ) :
    chain up p (n + 1) = chain up q n := by
  rw [chain, h]
  rfl

theorem chain_succ_eq_some {n : ℕ} {r : ι} (h : chain up p (n + 1) = some r) :
    ∃ a q qs, up p = some (a, q :: qs) ∧ chain up q n = some r := by
  obtain ⟨q, hq, hchain⟩ := Option.bind_eq_some_iff.1 h
  obtain ⟨⟨a, qs⟩, hup, hhead⟩ := Option.bind_eq_some_iff.1 hq
  obtain ⟨qs, rfl⟩ := List.head?_eq_some_iff.1 hhead
  exact ⟨a, q, qs, hup, hchain⟩

/-- A climb ends at the first place of the chain where the root is. -/
theorem Climbs.chain_length (h : Climbs up root p steps) :
    chain up p steps.length = some root ∧ ∀ k < steps.length, chain up p k ≠ some root := by
  induction h with
  | arrived => exact ⟨rfl, fun _ hk => absurd hk (Nat.not_lt_zero _)⟩
  | up hp hup _ ih =>
    refine ⟨(chain_succ hup _).trans ih.1, fun k hk => ?_⟩
    cases k with
    | zero => exact fun he => hp (Option.some.inj he)
    | succ k =>
      rw [chain_succ hup]
      exact ih.2 k (Nat.lt_of_succ_lt_succ hk)

/-- A climb goes through the nodes of the chain. -/
theorem Climbs.get?_steps (h : Climbs up root p steps) {k : ℕ} (hk : k < steps.length) :
    steps[k]? = (chain up p k).bind fun q => (up q).map fun x => (q, x.1) := by
  induction h generalizing k with
  | arrived => exact absurd hk (Nat.not_lt_zero k)
  | up _ hup _ ih =>
    cases k with
    | zero => simp [chain, hup]
    | succ k =>
      rw [chain_succ hup, List.getElem?_cons_succ]
      exact ih (Nat.lt_of_succ_lt_succ hk)

/-- **There is a climb when the root is on the chain**, and it is no longer than the way there. -/
theorem exists_climbs_iff {n : ℕ} :
    (∃ steps, Climbs up root p steps ∧ steps.length < n) ↔ ∃ k < n, chain up p k = some root := by
  constructor
  · rintro ⟨steps, h, hlt⟩
    exact ⟨_, hlt, h.chain_length.1⟩
  · rintro ⟨k, hk, hchain⟩
    induction k generalizing p n with
    | zero =>
      obtain rfl := Option.some.inj hchain
      exact ⟨[], .arrived, hk⟩
    | succ k ih =>
      by_cases hp : p = root
      · subst hp
        exact ⟨[], .arrived, Nat.zero_lt_of_lt hk⟩
      · obtain ⟨a, q, qs, hup, hq⟩ := chain_succ_eq_some hchain
        obtain ⟨steps, hsteps, hlt⟩ := ih (n := n - 1) (by omega) hq
        exact ⟨(p, a) :: steps, .up hp hup hsteps, by rw [List.length_cons]; omega⟩

/-- A climb through known nodes only. -/
theorem climbs_filter_iff {known : ι → Prop} {up' : ι → Option (α × List ι)}
    (h' : ∀ q v, up' q = some v ↔ known q ∧ up q = some v) :
    Climbs up' root p steps ↔ Climbs up root p steps ∧ ∀ s ∈ steps, known s.1 := by
  constructor
  · intro h
    induction h with
    | arrived => exact ⟨.arrived, fun _ => nofun⟩
    | up hp hup _ ih =>
      obtain ⟨hknown, hup⟩ := (h' _ _).1 hup
      exact ⟨.up hp hup ih.1, List.forall_mem_cons.2 ⟨hknown, ih.2⟩⟩
  · rintro ⟨h, hknown⟩
    induction h with
    | arrived => exact .arrived
    | up hp hup _ ih =>
      obtain ⟨hp', hknown⟩ := List.forall_mem_cons.1 hknown
      exact .up hp ((h' _ _).2 ⟨hp', hup⟩) (ih hknown)

end Foundations.Ancestors

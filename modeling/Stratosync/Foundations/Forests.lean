import Mathlib.Logic.Relation
import Mathlib.Order.WellFounded
import Mathlib.Logic.Function.Basic
import Mathlib.Data.Option.Basic

/-!
# Forests of named nodes

A forest says of each node that there is in which node it is, under which name, and what it is. It
is `Grounded` when no way up goes on forever.

* `grounded_iff_of_regrown`: when every node stays in place or goes into one node `p`, the forest
  stays grounded exactly if none of the nodes that went there was above `p`.
* `grounded_iff_path`: a forest with one top is grounded exactly if every node has one path of
  names from the top.
* `Does f c f'`: the call `c` turns `f` into `f'`. The calls are those of a file system: add a node,
  remove one that nothing is in, and move one, over what is at its new place.
-/

namespace Foundations.Forests

open Relation

/-- Where a node is, and what it is. -/
structure Node (ι ν κ : Type*) where
  parent : Option ι
  name : ν
  label : κ

/-- The nodes there are. -/
abbrev Forest (ι ν κ : Type*) := ι → Option (Node ι ν κ)

variable {ι ν κ : Type*}

namespace Forest

variable (f f' : Forest ι ν κ)

/-- The node `i` is in `p`. -/
def IsIn (p i : ι) : Prop := ∃ x, f i = some x ∧ x.parent = some p

/-- The node `i` is in `p`, under the name `a`. -/
def Child (p : ι) (a : ν) (i : ι) : Prop := ∃ x, f i = some x ∧ x.parent = some p ∧ x.name = a

/-- The node `i` is `j`, or `j` is in it at some depth. -/
def Above (i j : ι) : Prop := ReflTransGen f.IsIn i j

/-- No other node is in `i`. -/
def Childless (i : ι) : Prop := ∀ j, j ≠ i → ¬f.IsIn i j

/-- What is in a node is in a node that there is. -/
def HasParents : Prop := ∀ p i, f.IsIn p i → (f p).isSome = true

/-- Every way up ends. -/
def Grounded : Prop := WellFounded f.IsIn

/-- Every node stays in place or goes into `p`. -/
def Regrown (p : ι) : Prop := ∀ q i, f'.IsIn q i → f.IsIn q i ∨ q = p

/-- The names that lead from `top` to a node. -/
inductive Path (top : ι) : List ν → ι → Prop
  | top : Path top [] top
  | child {as : List ν} {p : ι} {a : ν} {i : ι} (hp : Path top as p) (ha : f.Child p a i) :
      Path top (as ++ [a]) i

variable {f f'} {p q i j top : ι} {a : ν} {as bs : List ν} {x : Node ι ν κ}

theorem Child.isIn (h : f.Child p a i) : f.IsIn p i := by
  obtain ⟨x, hx, hp, -⟩ := h
  exact ⟨x, hx, hp⟩

/-- A node is in one node. -/
theorem IsIn.unique (h : f.IsIn p i) (h' : f.IsIn q i) : p = q := by
  obtain ⟨x, hx, hp⟩ := h
  obtain ⟨y, hy, hq⟩ := h'
  obtain rfl := Option.some.inj (hx.symm.trans hy)
  exact Option.some.inj (hp.symm.trans hq)

theorem Grounded.not_isIn_self (h : f.Grounded) : ¬f.IsIn i i := fun hi => h.asymmetric _ _ hi hi

/-- What is not there is above nothing but itself. -/
theorem not_above_of_none (hf : f.HasParents) (hi : f i = none) (hij : i ≠ j) : ¬f.Above i j := by
  intro h
  rcases ReflTransGen.cases_head h with rfl | ⟨k, hk, -⟩
  · exact hij rfl
  · have hsome := hf i k hk
    rw [hi] at hsome
    cases hsome

/-! ## Nodes that go into one -/

/-- Where a node stays grounded: nothing above it has gone elsewhere. -/
theorem acc_of_clean (hr : Regrown f f' p) (hf : f.Grounded)
    (hq : ∀ i, f'.IsIn p i → ¬f.IsIn p i → ¬f.Above i q) : Acc f'.IsIn q := by
  induction q using hf.induction with
  | _ q ih =>
    refine ⟨q, fun r hrq => ?_⟩
    have hin : f.IsIn r q := by
      rcases hr r q hrq with h | rfl
      · exact h
      · by_contra hne
        exact hq q hrq hne .refl
    exact ih r hin fun i hi hne hir => hq i hi hne (hir.tail hin)

/-- On the way from a node of `f'` up to a node above it in `f`, all have stayed in place, or one
of them has gone into the node. -/
theorem above_or_cycle (hr : ∀ r s, f.IsIn r s → (f' s).isSome = true → f'.IsIn r s ∨ f'.IsIn p s)
    (hf' : f'.HasParents) (hp : (f' p).isSome = true) (h : f.Above q p) :
    f'.Above q p ∨ TransGen f'.IsIn p p := by
  induction h using ReflTransGen.head_induction_on with
  | refl => exact .inl .refl
  | @head r s hrs _ ih =>
    rcases ih with hs | hcycle
    · have hsome : (f' s).isSome = true := by
        rcases ReflTransGen.cases_head hs with rfl | ⟨k, hk, -⟩
        · exact hp
        · exact hf' s k hk
      rcases hr r s hrs hsome with hrs' | hps
      · exact .inl (.head hrs' hs)
      · exact .inr (.head' hps hs)
    · exact .inr hcycle

/-- **Nodes that go into one** leave the forest grounded exactly if none of them was above it. -/
theorem grounded_iff_of_regrown (hr : Regrown f f' p)
    (hs : ∀ r s, f.IsIn r s → (f' s).isSome = true → f'.IsIn r s ∨ f'.IsIn p s) (hf : f.Grounded)
    (hf' : f'.HasParents) :
    f'.Grounded ↔ ∀ i, f'.IsIn p i → ¬f.IsIn p i → ¬f.Above i p := by
  constructor
  · intro hg i hi _ habove
    have hcycle : TransGen f'.IsIn p p := by
      rcases above_or_cycle hs hf' (hf' p i hi) habove with h | h
      · exact .head' hi h
      · exact h
    have hwf : WellFounded (TransGen f'.IsIn) := hg.transGen
    exact hwf.asymmetric _ _ hcycle hcycle
  · intro hclean
    have hacc : Acc f'.IsIn p := acc_of_clean hr hf hclean
    refine ⟨fun q => ?_⟩
    induction q using hf.induction with
    | _ q ih =>
      refine ⟨q, fun r hrq => ?_⟩
      rcases hr r q hrq with h | rfl
      · exact ih r h
      · exact hacc

/-! ## Paths -/

/-- Nothing but the top is in no node. -/
def OneTop (f : Forest ι ν κ) (top : ι) : Prop := ∀ i x, f i = some x → x.parent = none → i = top

theorem Path.cases_nil (h : f.Path top [] i) : i = top := by
  generalize has : ([] : List ν) = as at h
  cases h with
  | top => rfl
  | child => simp at has

theorem path_concat_iff : f.Path top (as ++ [a]) i ↔ ∃ p, f.Path top as p ∧ f.Child p a i := by
  constructor
  · intro h
    generalize has : as ++ [a] = bs at h
    cases h with
    | top => simp at has
    | child hp ha =>
      obtain ⟨rfl, rfl⟩ := List.append_singleton_inj.1 has
      exact ⟨_, hp, ha⟩
  · rintro ⟨p, hp, ha⟩
    exact .child hp ha

/-- Every node of a grounded forest is below the top. -/
theorem exists_path (hf : f.HasParents) (htop : f.OneTop top) (hg : f.Grounded)
    (hi : (f i).isSome = true) : ∃ as, f.Path top as i := by
  induction i using hg.induction with
  | _ i ih =>
    obtain ⟨x, hx⟩ := Option.isSome_iff_exists.1 hi
    cases hp : x.parent with
    | none =>
      obtain rfl := htop i x hx hp
      exact ⟨[], .top⟩
    | some p =>
      have hin : f.IsIn p i := ⟨x, hx, hp⟩
      obtain ⟨as, has⟩ := ih p hin (hf p i hin)
      exact ⟨as ++ [x.name], .child has ⟨x, hx, hp, rfl⟩⟩

/-- What a path leads to is there only if its top is. -/
theorem Path.isSome_top (hf : f.HasParents) (h : f.Path top as i) (hi : (f i).isSome = true) :
    (f top).isSome = true := by
  induction h with
  | top => exact hi
  | child _ hc ih => exact ih (hf _ _ hc.isIn)

/-- The top is in no node. -/
theorem not_isIn_top (hf : f.HasParents) (htop : f.OneTop top) (hg : f.Grounded) :
    ¬f.IsIn p top := by
  intro h
  obtain ⟨as, has⟩ := exists_path hf htop hg (hf p top h)
  have habove : ∀ {bs j}, f.Path top bs j → f.Above top j := by
    intro bs j hj
    induction hj with
    | top => exact .refl
    | child _ ha ih => exact ih.tail ha.isIn
  have hwf : WellFounded (TransGen f.IsIn) := WellFounded.transGen hg
  have hcycle : TransGen f.IsIn top top := .tail' (habove has) h
  exact hwf.asymmetric _ _ hcycle hcycle

theorem Path.unique (hnot : ∀ p, ¬f.IsIn p top) (h : f.Path top as i) (h' : f.Path top bs i) :
    as = bs := by
  induction h generalizing bs with
  | top =>
    cases h' with
    | top => rfl
    | child _ ha => exact absurd ha.isIn (hnot _)
  | child hp ha ih =>
    cases h' with
    | top => exact absurd ha.isIn (hnot _)
    | child hp' ha' =>
      obtain rfl := ha.isIn.unique ha'.isIn
      obtain ⟨x, hx, -, rfl⟩ := ha
      obtain ⟨y, hy, -, rfl⟩ := ha'
      obtain rfl := Option.some.inj (hx.symm.trans hy)
      rw [ih hp']

/-- **A forest with one top is grounded exactly if every node has one path from the top.** -/
theorem grounded_iff_path (hf : f.HasParents) (htop : f.OneTop top) :
    f.Grounded ↔ ∀ i, (f i).isSome = true → ∃! as, f.Path top as i := by
  constructor
  · intro hg i hi
    obtain ⟨as, has⟩ := exists_path hf htop hg hi
    exact ⟨as, has, fun bs hbs => hbs.unique (fun p => not_isIn_top hf htop hg) has⟩
  · intro h
    -- a path grows on the way down
    have hgrow : ∀ n i as, as.length = n → f.Path top as i → (f i).isSome = true → Acc f.IsIn i := by
      intro n
      induction n with
      | zero =>
        intro i as hlen has hi
        refine ⟨i, fun p hp => ?_⟩
        obtain ⟨bs, hbs, -⟩ := h p (hf p i hp)
        obtain ⟨x, hx, hxp⟩ := hp
        have hlong := (h i hi).unique has (hbs.child ⟨x, hx, hxp, rfl⟩)
        rw [hlong] at hlen
        simp at hlen
      | succ n ih =>
        intro i as hlen has hi
        refine ⟨i, fun p hp => ?_⟩
        have hpsome := hf p i hp
        obtain ⟨bs, hbs, -⟩ := h p hpsome
        obtain ⟨x, hx, hxp⟩ := hp
        have hlong := (h i hi).unique has (hbs.child ⟨x, hx, hxp, rfl⟩)
        rw [hlong, List.length_append, List.length_singleton] at hlen
        exact ih p bs (Nat.succ.inj hlen) hbs hpsome
    refine ⟨fun i => ⟨i, fun p hp => ?_⟩⟩
    have hpsome := hf p i hp
    obtain ⟨as, has, -⟩ := h p hpsome
    exact hgrow as.length p as rfl has hpsome

end Forest

/-! ## The calls of a file system -/

/-- A call on the names of a forest. -/
inductive NameCall (ι ν κ : Type*)
  | add (parent : ι) (name : ν) (label : κ)
  /-- `label` is what the node has to be, if the call cares. -/
  | remove (parent : ι) (name : ν) (label : Option κ)
  | move (parent : ι) (name : ν) (newParent : ι) (newName : ν)

open Classical in
/-- The forest without what is at a place. -/
noncomputable def Forest.clear (f : Forest ι ν κ) (p : ι) (a : ν) : Forest ι ν κ := fun j =>
  if f.Child p a j then none else f j

/-- **What a call does.** -/
inductive Does [DecidableEq ι] (f : Forest ι ν κ) : NameCall ι ν κ → Forest ι ν κ → Prop
  | add {p : ι} {a : ν} {k : κ} {i : ι} (hp : (f p).isSome = true) (ha : ∀ j, ¬f.Child p a j)
      (hi : f i = none) : Does f (.add p a k) (Function.update f i (some ⟨some p, a, k⟩))
  | remove {p : ι} {a : ν} {k : Option κ} {i : ι} {x : Node ι ν κ} (hi : f.Child p a i)
      (hx : f i = some x) (hk : ∀ l ∈ k, x.label = l) (hc : f.Childless i) :
      Does f (.remove p a k) (Function.update f i none)
  | move {p p' : ι} {a a' : ν} {i : ι} {x : Node ι ν κ} (hi : f.Child p a i) (hx : f i = some x)
      (hp' : (f p').isSome = true) (hdest : ∀ j, f.Child p' a' j → f.Childless j) :
      Does f (.move p a p' a')
        (Function.update (f.clear p' a') i (some { x with parent := some p', name := a' }))

end Foundations.Forests

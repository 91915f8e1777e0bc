import Mathlib.Data.List.DropRight

/-!
# Two copies and their common ancestors

A value has a copy at hand and one far away. Both are changed by others, each in place, so that
what a copy is now descends from whatever it was; and versions are transferred from one to the
other, each transfer in two steps, which read one copy and write the other. `Copies` has, for each
copy, versions it descends from, the oldest first.

A version that arrives brings the line of versions it descends from itself (`upTo`), not what the
other copy has become in the meantime. So a version both copies descend from may cease to be one
when transfers overlap, and `Leaving` and `Coming` say what a transfer under way must preserve for
a given one, the base, to stay (`base_put`, `base_save`).
-/

namespace Foundations.Replicas

variable {α : Type*}

/-! ## Lines -/

/-- A line has one more version, or the same. -/
def Extends (line line' : List α) : Prop := line' = line ∨ ∃ a, line' = line ++ [a]

theorem Extends.mem {line line' : List α} {a : α} (h : Extends line line') (ha : a ∈ line) :
    a ∈ line' := by
  obtain rfl | ⟨_, rfl⟩ := h
  · exact ha
  · exact List.mem_append_left _ ha

section UpTo

variable [DecidableEq α] {a b c : α} {line line' : List α}

/-- A line as far as the last occurrence of a version. -/
def upTo (a : α) (line : List α) : List α := line.rdropWhile (· ≠ a)

theorem upTo_concat_self (a : α) (line : List α) : upTo a (line ++ [a]) = line ++ [a] :=
  List.rdropWhile_concat_neg _ _ _ (by simp)

theorem mem_of_mem_upTo (h : b ∈ upTo a line) : b ∈ line :=
  (List.rdropWhile_prefix _ line).subset h

theorem Extends.mem_upTo (h : Extends line line') (hb : b ∈ upTo a line) : b ∈ upTo a line' := by
  obtain rfl | ⟨c, rfl⟩ := h
  · exact hb
  · rw [upTo, List.rdropWhile_concat]
    split
    · exact hb
    · exact List.mem_append_left _ (mem_of_mem_upTo hb)

theorem mem_upTo_self (h : a ∈ line) : a ∈ upTo a line := by
  induction line using List.reverseRecOn with
  | nil => cases h
  | append_singleton line b ih =>
    rw [upTo, List.rdropWhile_concat]
    split
    · rename_i hb
      obtain h | h := List.mem_append.1 h
      · exact ih h
      · obtain rfl := List.mem_singleton.1 h
        simp at hb
    · exact h

end UpTo

/-! ## The copies -/

/-- The two copies: the versions the far one is known to have had, and for each copy versions it
descends from. -/
structure Copies (α : Type*) where
  held : List α
  near : List α
  far : List α

/-- The steps of the transfers: reading the copy at hand and writing the one far away, and the other
way round. -/
inductive Transfer (α : Type*)
  | read (a : α)
  | put (a : α)
  | fetch (a : α)
  | save (a : α)

namespace Copies

/-- The copies of which nothing is known. -/
def unknown : Copies α := ⟨[], [], []⟩

variable {c c' : Copies α} {base : Option α} {a b : α}

/-- The far copy has had this version, and both copies descend from it. -/
structure Common (c : Copies α) (a : α) : Prop where
  held : a ∈ c.held
  near : a ∈ c.near
  far : a ∈ c.far

/-- The copies may have been read. -/
structure Grown (c c' : Copies α) : Prop where
  held : Extends c.held c'.held
  near : Extends c.near c'.near
  far : Extends c.far c'.far

theorem Grown.refl (c : Copies α) : c.Grown c := ⟨.inl rfl, .inl rfl, .inl rfl⟩

theorem Common.grown (h : c.Common a) (hg : c.Grown c') : c'.Common a :=
  ⟨hg.held.mem h.held, hg.near.mem h.near, hg.far.mem h.far⟩

variable [DecidableEq α]

def after (c : Copies α) : Transfer α → Copies α
  | .read a => { c with near := c.near ++ [a] }
  | .put a => { c with held := c.held ++ [a], far := upTo a c.near }
  | .fetch a => { c with held := c.held ++ [a], far := c.far ++ [a] }
  | .save a => { c with near := upTo a c.far }

/-- The copies after a step that may be part of a transfer. -/
def next (c : Copies α) : Option (Transfer α) → Copies α
  | some transfer => c.after transfer
  | none => c

/-- A version that was read and is to be put in the place of the far copy: the base is one it
descends from. -/
structure Leaving (c : Copies α) (base : Option α) (a : α) : Prop where
  near : a ∈ c.near
  base : ∀ b ∈ base, b ∈ upTo a c.near

/-- A version that was fetched and is to be saved. -/
structure Coming (c : Copies α) (base : Option α) (a : α) : Prop where
  held : a ∈ c.held
  far : a ∈ c.far
  base : ∀ b ∈ base, b ∈ upTo a c.far

theorem grown_read (c : Copies α) (a : α) : c.Grown (c.after (.read a)) :=
  ⟨.inl rfl, .inr ⟨a, rfl⟩, .inl rfl⟩

theorem grown_fetch (c : Copies α) (a : α) : c.Grown (c.after (.fetch a)) :=
  ⟨.inr ⟨a, rfl⟩, .inl rfl, .inr ⟨a, rfl⟩⟩

theorem Leaving.grown (h : c.Leaving base a) (hg : c.Grown c') : c'.Leaving base a :=
  ⟨hg.near.mem h.near, fun b hb => hg.near.mem_upTo (h.base b hb)⟩

theorem Coming.grown (h : c.Coming base a) (hg : c.Grown c') : c'.Coming base a :=
  ⟨hg.held.mem h.held, hg.far.mem h.far, fun b hb => hg.far.mem_upTo (h.base b hb)⟩

/-! ## The transfers -/

theorem leaving_read (h : ∀ b ∈ base, c.Common b) : (c.after (.read a)).Leaving base a where
  near := List.mem_append_right _ List.mem_cons_self
  base := by
    intro b hb
    rw [after, upTo_concat_self]
    exact List.mem_append_left _ (h b hb).near

theorem coming_fetch (h : ∀ b ∈ base, c.Common b) : (c.after (.fetch a)).Coming base a where
  held := List.mem_append_right _ List.mem_cons_self
  far := List.mem_append_right _ List.mem_cons_self
  base := by
    intro b hb
    rw [after, upTo_concat_self]
    exact List.mem_append_left _ (h b hb).far

/-- **What was put is common**, and the base stays so. -/
theorem common_put (h : c.Leaving base a) : (c.after (.put a)).Common a :=
  ⟨List.mem_append_right _ List.mem_cons_self, h.near, mem_upTo_self h.near⟩

theorem base_put (h : c.Leaving base a) (hb : ∀ b ∈ base, c.Common b) :
    ∀ b ∈ base, (c.after (.put a)).Common b :=
  fun b hbase => ⟨List.mem_append_left _ (hb b hbase).held, (hb b hbase).near, h.base b hbase⟩

/-- **What was saved is common**, and the base stays so. -/
theorem common_save (h : c.Coming base a) : (c.after (.save a)).Common a :=
  ⟨h.held, mem_upTo_self h.far, h.far⟩

theorem base_save (h : c.Coming base a) (hb : ∀ b ∈ base, c.Common b) :
    ∀ b ∈ base, (c.after (.save a)).Common b :=
  fun b hbase => ⟨(hb b hbase).held, h.base b hbase, (hb b hbase).far⟩

end Copies

end Foundations.Replicas

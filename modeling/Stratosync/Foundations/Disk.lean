import Mathlib.Data.Option.Basic
import Mathlib.Data.Nat.Notation
import Mathlib.Logic.Function.Basic

/-!
# Files that keep their identity

The files of a disk have numbers, and a name leads to a file. A file that is renamed, replaced or
removed is still the file that a program has open, so reads and writes through an open file are by
its number.

A `Disk` carries what a disk without hard links guarantees: no file has two names, and a number
that is given out is new.
-/

namespace Foundations

/-- Files by number and the names that lead to them. -/
structure Disk (ν α : Type*) where
  names : ν → Option ℕ
  data : ℕ → α
  next : ℕ
  bounded : ∀ q f, names q = some f → f < next
  inj : ∀ p q f, names p = some f → names q = some f → p = q

namespace Disk

variable {ν α : Type*} {d : Disk ν α} {p q : ν} {f g : ℕ} {a : α}

/-- The disk without a file. -/
def empty (a : α) : Disk ν α where
  names _ := none
  data _ := a
  next := 0
  bounded := nofun
  inj := nofun

/-- The content at a name. -/
def get (d : Disk ν α) (q : ν) : Option α := (d.names q).map d.data

/-- A file gets another content. -/
def alter (d : Disk ν α) (f : ℕ) (a : α) : Disk ν α :=
  { d with data := Function.update d.data f a }

@[simp] theorem names_alter : (d.alter f a).names = d.names := rfl

theorem data_alter (d : Disk ν α) (f : ℕ) (a : α) (g : ℕ) :
    (d.alter f a).data g = if g = f then a else d.data g := Function.update_apply ..

variable [DecidableEq ν]

/-- The name leads to no file. -/
def unlink (d : Disk ν α) (q : ν) : Disk ν α where
  names := Function.update d.names q none
  data := d.data
  next := d.next
  bounded p f h := by
    rw [Function.update_apply] at h
    split at h
    · cases h
    · exact d.bounded p f h
  inj p p' f h h' := by
    rw [Function.update_apply] at h h'
    split at h
    · cases h
    · split at h'
      · cases h'
      · exact d.inj p p' f h h'

/-- A new file, at a name that leads to no file or to one that it replaces. -/
def create (d : Disk ν α) (q : ν) (a : α) : Disk ν α where
  names := Function.update d.names q (some d.next)
  data := Function.update d.data d.next a
  next := d.next + 1
  bounded p f h := by
    rw [Function.update_apply] at h
    split at h
    · exact Option.some.inj h ▸ Nat.lt_succ_self _
    · exact Nat.lt_succ_of_lt (d.bounded p f h)
  inj p p' f h h' := by
    rw [Function.update_apply] at h h'
    split at h
    · rename_i hp
      split at h'
      · rename_i hp'
        exact hp.trans hp'.symm
      · exact absurd (d.bounded p' f h') (Option.some.inj h ▸ Nat.lt_irrefl _)
    · split at h'
      · exact absurd (d.bounded p f h) (Option.some.inj h' ▸ Nat.lt_irrefl _)
      · exact d.inj p p' f h h'

/-- The file at `p` is renamed to `q`, where it takes the place of what is there. -/
def move (d : Disk ν α) (p q : ν) : Disk ν α where
  names := Function.update (Function.update d.names p none) q (d.names p)
  data := d.data
  next := d.next
  bounded r f h := by
    rw [Function.update_apply] at h
    split at h
    · exact d.bounded p f h
    · exact (d.unlink p).bounded r f h
  inj r r' f h h' := by
    have hne : ∀ r, Function.update d.names p none r = some f → d.names p ≠ some f := by
      intro r hr hp
      rw [Function.update_apply] at hr
      split at hr
      · cases hr
      · exact ‹r ≠ p› (d.inj r p f hr hp)
    rw [Function.update_apply] at h h'
    split at h
    · rename_i hr
      split at h'
      · rename_i hr'
        exact hr.trans hr'.symm
      · exact absurd h (hne r' h')
    · split at h'
      · exact absurd h' (hne r h)
      · exact (d.unlink p).inj r r' f h h'

/-- The file at a name is opened and cut to nothing, or made when there is none. -/
def truncate (d : Disk ν α) (q : ν) (a : α) : ℕ × Disk ν α :=
  match d.names q with
  | some f => (f, d.alter f a)
  | none => (d.next, d.create q a)

/-! ## What an operation changes -/

theorem names_unlink (d : Disk ν α) (q r : ν) :
    (d.unlink q).names r = if r = q then none else d.names r := Function.update_apply ..

theorem names_create (d : Disk ν α) (q r : ν) (a : α) :
    (d.create q a).names r = if r = q then some d.next else d.names r := Function.update_apply ..

theorem names_move (d : Disk ν α) (p q r : ν) :
    (d.move p q).names r = if r = q then d.names p else if r = p then none else d.names r := by
  change Function.update (Function.update d.names p none) q (d.names p) r = _
  rw [Function.update_apply, Function.update_apply]

/-- Files that are there keep their content when one is made. -/
theorem data_create_of_lt (h : f < d.next) : (d.create q a).data f = d.data f :=
  Function.update_of_ne (Nat.ne_of_lt h) ..

theorem names_truncate (d : Disk ν α) (q r : ν) (a : α) :
    (d.truncate q a).2.names r = if r = q then some (d.truncate q a).1 else d.names r := by
  unfold truncate
  split
  · rename_i f hf
    split
    · rename_i hr
      rw [names_alter, hr, hf]
    · rfl
  · exact names_create d q r a

/-- The file that is cut had the name, or is new. -/
theorem truncate_fst (d : Disk ν α) (q : ν) (a : α) :
    d.names q = some (d.truncate q a).1 ∨ (d.truncate q a).1 = d.next := by
  unfold truncate
  split
  · exact .inl ‹_›
  · exact .inr rfl

theorem data_truncate_self (d : Disk ν α) (q : ν) (a : α) :
    (d.truncate q a).2.data (d.truncate q a).1 = a := by
  unfold truncate
  split <;> exact Function.update_self ..

/-- The other files keep their content. -/
theorem data_truncate_of_ne (h : f ≠ (d.truncate q a).1) :
    (d.truncate q a).2.data f = d.data f := by
  unfold truncate at h ⊢
  split at h <;> exact Function.update_of_ne h ..

theorem next_le_truncate (d : Disk ν α) (q : ν) (a : α) : d.next ≤ (d.truncate q a).2.next := by
  unfold truncate
  split
  · exact Nat.le_refl _
  · exact Nat.le_succ _

end Disk

end Foundations

import Mathlib.Data.List.Basic

/-!
# Messages with a head

A message is a head of lines, each with a carriage return and a line feed after it, an empty line,
and a body. `readHead` takes the head off, `readHead_renderHead`: it finds the lines that were
written. A field of the head is a line that begins with its name (`field`).
-/

namespace Foundations.Messages

abbrev Text := List Char

/-- The text up to the end of its first line, and what follows. -/
def cutLine : Text → Option (Text × Text)
  | '\r' :: '\n' :: rest => some ([], rest)
  | c :: s => (cutLine s).map fun x => (c :: x.1, x.2)
  | [] => none

/-- At most `n` lines up to an empty one, and what follows. -/
def readHead : ℕ → Text → Option (List Text × Text)
  | 0, _ => none
  | n + 1, s =>
    (cutLine s).bind fun x =>
      if x.1 = [] then some ([], x.2) else (readHead n x.2).map fun y => (x.1 :: y.1, y.2)

def renderLine (l : Text) : Text := l ++ ['\r', '\n']

def renderHead (ls : List Text) : Text := ls.flatMap renderLine ++ renderLine []

/-- The value of the field with this name. -/
def field (name : Text) (ls : List Text) : Option Text :=
  ls.findSome? fun l =>
    if (name ++ [':', ' ']).isPrefixOf l then some (l.drop (name.length + 2)) else none

variable {l rest name v : Text} {ls : List Text}

theorem cutLine_renderLine (h : '\r' ∉ l) : cutLine (renderLine l ++ rest) = some (l, rest) := by
  induction l with
  | nil => rfl
  | cons c l ih =>
    have hc : c ≠ '\r' := fun hc => h (hc ▸ List.mem_cons_self)
    have hcons : renderLine (c :: l) ++ rest = c :: (renderLine l ++ rest) := rfl
    have hl := ih fun hmem => h (List.mem_cons_of_mem c hmem)
    rw [hcons]
    simp [cutLine, hc, hl]

/-- **The head that is read** is the one that was written. -/
theorem readHead_renderHead (hls : ∀ l ∈ ls, l ≠ [] ∧ '\r' ∉ l) {n : ℕ} (hn : ls.length < n)
    (rest : Text) : readHead n (renderHead ls ++ rest) = some (ls, rest) := by
  induction ls generalizing n with
  | nil =>
    obtain ⟨n, rfl⟩ := Nat.exists_eq_add_of_le' hn
    rfl
  | cons l ls ih =>
    obtain ⟨n, rfl⟩ := Nat.exists_eq_add_of_le' hn
    have hcons : renderHead (l :: ls) ++ rest = renderLine l ++ (renderHead ls ++ rest) := by
      simp [renderHead]
    obtain ⟨hne, hcr⟩ := hls l List.mem_cons_self
    have hrest := ih (n := n + ls.length + 1) (fun x hx => hls x (List.mem_cons_of_mem l hx))
      (by omega)
    rw [hcons, List.length_cons, Nat.succ_eq_add_one, ← Nat.add_assoc, readHead,
      cutLine_renderLine hcr, Option.bind_some, if_neg hne, ← Nat.add_assoc, hrest]
    rfl

theorem length_lt_renderHead (ls : List Text) : ls.length < (renderHead ls).length := by
  induction ls with
  | nil => exact Nat.zero_lt_two
  | cons l ls ih =>
    have hcons : renderHead (l :: ls) = renderLine l ++ renderHead ls := by
      simp [renderHead]
    rw [hcons, List.length_append, renderLine, List.length_append, List.length_cons]
    simp only [List.length_cons, List.length_nil]
    omega

theorem field_cons_self : field name ((name ++ ':' :: ' ' :: v) :: ls) = some v := by
  have hpre : (name ++ [':', ' ']).isPrefixOf (name ++ ':' :: ' ' :: v) = true :=
    List.isPrefixOf_iff_prefix.2 ⟨v, by simp⟩
  have hdrop : (name ++ ':' :: ' ' :: v).drop (name.length + 2) = v := by
    rw [← List.drop_drop, List.drop_left]
    rfl
  rw [field, List.findSome?_cons, if_pos hpre, hdrop]

theorem field_cons_of_ne (h : ¬name ++ [':', ' '] <+: l) :
    field name (l :: ls) = field name ls := by
  rw [field, List.findSome?_cons, if_neg fun hpre => h (List.isPrefixOf_iff_prefix.1 hpre)]
  rfl

end Foundations.Messages

import Mathlib.Data.Set.Disjoint

/-!
# Calls that are carried out of turn

Calls are issued in some order and carried out in another. The log has the calls that were carried
out, in the order of issue: an entry for each ticket, with the calls made for it so far. When each
call is carried out while those of later tickets that have been carried out commute with it, the
state is always the one that the calls of the log leave in their order (`replay_record`).

Calls on a map from places to values commute when they work on different places (`Local.comm`).
-/

namespace Foundations.Serial

section Replay

variable {σ γ : Type*} (apply : γ → σ → σ)

/-- The state after the calls, one after the other. -/
def replay (s : σ) (cs : List γ) : σ := cs.foldl (fun s c => apply c s) s

/-- The order of two calls is of no account. -/
def Commutes (c d : γ) : Prop := ∀ s, apply c (apply d s) = apply d (apply c s)

/-- The log after a call for ticket `n`. -/
def record (log : List (List γ)) (n : ℕ) (c : γ) : List (List γ) := log.modify n (· ++ [c])

variable {apply}

theorem replay_append (s : σ) (cs ds : List γ) :
    replay apply s (cs ++ ds) = replay apply (replay apply s cs) ds :=
  List.foldl_append

/-- A call that commutes with others may as well come after them. -/
theorem replay_apply {c : γ} {cs : List γ} (h : ∀ d ∈ cs, Commutes apply c d) (s : σ) :
    replay apply (apply c s) cs = apply c (replay apply s cs) := by
  induction cs generalizing s with
  | nil => rfl
  | cons d cs ih =>
    obtain ⟨hd, hcs⟩ := List.forall_mem_cons.1 h
    calc replay apply (apply c s) (d :: cs)
        = replay apply (apply c (apply d s)) cs := by
          rw [hd s]
          rfl
      _ = apply c (replay apply s (d :: cs)) := ih hcs (apply d s)

/-- **A call in its turn**: it may be carried out after those of later tickets that commute with
it. -/
theorem replay_record {log : List (List γ)} {n : ℕ} {c : γ} (hn : n < log.length)
    (h : ∀ d ∈ (log.drop (n + 1)).flatten, Commutes apply c d) (s : σ) :
    replay apply s (record log n c).flatten = apply c (replay apply s log.flatten) := by
  have hlog : log.flatten =
      (log.take n).flatten ++ (log[n] ++ (log.drop (n + 1)).flatten) := by
    conv_lhs => rw [← List.take_append_drop n log, List.drop_eq_getElem_cons hn]
    rw [List.flatten_append, List.flatten_cons]
  have hrecord : (record log n c).flatten =
      (log.take n).flatten ++ (log[n] ++ [c] ++ (log.drop (n + 1)).flatten) := by
    rw [record, List.modify_eq_take_cons_drop hn, List.flatten_append, List.flatten_cons]
  rw [hlog, hrecord]
  simp only [replay_append]
  exact replay_apply h _

theorem length_record (log : List (List γ)) (n : ℕ) (c : γ) :
    (record log n c).length = log.length :=
  List.length_modify ..

/-- A ticket without a call. -/
theorem replay_issue (log : List (List γ)) (cs : List γ) (s : σ) :
    replay apply s (log ++ [cs]).flatten = replay apply (replay apply s log.flatten) cs := by
  rw [List.flatten_append, List.flatten_singleton, replay_append]

end Replay

/-! ## Calls on a map -/

section Local

variable {ι α : Type*} {f g : (ι → α) → ι → α} {S T : Set ι}

/-- `f` reads and changes the places `S` only. -/
structure Local (f : (ι → α) → ι → α) (S : Set ι) : Prop where
  frame : ∀ r, ∀ q ∉ S, f r q = r q
  reads : ∀ r r', (∀ q ∈ S, r q = r' q) → ∀ q ∈ S, f r q = f r' q

/-- What works on different places commutes. -/
theorem Local.comm (hf : Local f S) (hg : Local g T) (hne : ∀ q ∈ S, q ∉ T) (r : ι → α) :
    f (g r) = g (f r) := by
  funext q
  by_cases hS : q ∈ S
  · calc f (g r) q = f r q := hf.reads (g r) r (fun p hp => hg.frame r p (hne p hp)) q hS
      _ = g (f r) q := (hg.frame (f r) q (hne q hS)).symm
  · by_cases hT : q ∈ T
    · calc f (g r) q = g r q := hf.frame (g r) q hS
        _ = g (f r) q := hg.reads r (f r)
          (fun p hp => (hf.frame r p fun hpS => hne p hpS hp).symm) q hT
    · rw [hf.frame _ q hS, hg.frame _ q hT, hg.frame _ q hT, hf.frame _ q hS]

end Local

end Foundations.Serial

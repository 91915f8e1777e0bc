import Stratosync.Conflict.Names

/-!
# What `LIKE` matches

A pattern of two parts matches the texts of two parts (`like_append_iff`). `list_file_descendants`
and `is_tombstoned` put `/%` behind a path and take the whole for a pattern: it matches the paths
that read like that path up to some slash (`like_pattern_iff`).
-/

namespace Stratosync

theorem toLower_eq_slash_iff {c : Char} : '/' = c.toLower ↔ c = '/' := by
  constructor
  · intro h
    unfold Char.toLower at h
    split at h
    · rename_i hupper
      have hlow : 65 ≤ c.val.toNat := UInt32.le_iff_toNat_le.1 hupper.1
      have hhigh : c.val.toNat ≤ 90 := UInt32.le_iff_toNat_le.1 hupper.2
      have hval := congrArg (fun c : Char => c.val.toNat) h
      simp only [UInt32.toNat_add] at hval
      have hslash : ('/' : Char).val.toNat = 47 := rfl
      have hshift : ('a'.val - 'A'.val : UInt32).toNat = 32 := rfl
      omega
    · exact h.symm
  · rintro rfl
    rfl

/-- Text that is matched after some other text. -/
theorem like_percent_cons_iff {p text : Str} : like ('%' :: p) text = true ↔
    ∃ a b, text = a ++ b ∧ like p b = true := by
  rw [like, List.any_eq_true]
  constructor
  · rintro ⟨b, hb, hlike⟩
    obtain ⟨a, rfl⟩ := (List.mem_tails _ _).1 hb
    exact ⟨a, b, rfl, hlike⟩
  · rintro ⟨a, b, rfl, hlike⟩
    exact ⟨b, (List.mem_tails _ _).2 (List.suffix_append a b), hlike⟩

/-- A character of a pattern that is not `%` matches one character of the text. -/
theorem like_cons_iff {c : Char} (hc : c ≠ '%') {p text : Str} :
    like (c :: p) text = true ↔
      ∃ d b, text = d :: b ∧ (c = '_' ∨ c.toLower = d.toLower) ∧ like p b = true := by
  cases text with
  | nil =>
    refine iff_of_false (fun h => ?_) (by simp)
    by_cases hunder : c = '_'
    · subst hunder
      simp [like] at h
    · rw [like] at h
      · cases h
      · exact hc
      · exact hunder
  | cons d b =>
    simp only [List.cons.injEq, ↓existsAndEq, true_and]
    by_cases hunder : c = '_'
    · subst hunder
      simp [like]
    · rw [like]
      · simp [hunder]
      · exact hc
      · exact hunder

/-- A pattern of two parts matches the texts of two parts. -/
theorem like_append_iff {p q text : Str} : like (p ++ q) text = true ↔
    ∃ a b, text = a ++ b ∧ like p a = true ∧ like q b = true := by
  induction p generalizing text with
  | nil =>
    constructor
    · exact fun h => ⟨[], text, rfl, rfl, h⟩
    · rintro ⟨a, b, rfl, ha, hb⟩
      obtain rfl : a = [] := of_decide_eq_true ha
      exact hb
  | cons c p ih =>
    rw [List.cons_append]
    by_cases hpercent : c = '%'
    · subst hpercent
      simp only [like_percent_cons_iff, ih]
      constructor
      · rintro ⟨x, -, rfl, a, b, rfl, ha, hb⟩
        exact ⟨x ++ a, b, (List.append_assoc _ _ _).symm, ⟨x, a, rfl, ha⟩, hb⟩
      · rintro ⟨-, b, rfl, ⟨x, a, rfl, ha⟩, hb⟩
        exact ⟨x, a ++ b, List.append_assoc _ _ _, a, b, rfl, ha, hb⟩
    · simp only [like_cons_iff hpercent, ih]
      constructor
      · rintro ⟨d, -, rfl, hd, a, b, rfl, ha, hb⟩
        exact ⟨d :: a, b, rfl, ⟨d, a, rfl, hd, ha⟩, hb⟩
      · rintro ⟨-, b, rfl, ⟨d, a, rfl, hd, ha⟩, hb⟩
        exact ⟨d, a ++ b, rfl, hd, a, b, rfl, ha, hb⟩

theorem like_slash_any_iff {text : Str} : like ['/', '%'] text = true ↔ ∃ b, text = '/' :: b := by
  rw [like_cons_iff (by decide)]
  constructor
  · rintro ⟨d, b, rfl, hd, -⟩
    obtain rfl := toLower_eq_slash_iff.1 (hd.resolve_left (by decide))
    exact ⟨b, rfl⟩
  · rintro ⟨b, rfl⟩
    exact ⟨'/', b, rfl, .inr rfl, like_percent_cons_iff.2 ⟨b, [], (List.append_nil b).symm, rfl⟩⟩

/-- **What the query matches**: the paths that read like the directory's up to some slash. -/
theorem like_pattern_iff {d path : Str} : like (d ++ ['/', '%']) path = true ↔
    ∃ a b, path = a ++ '/' :: b ∧ like d a = true := by
  rw [like_append_iff]
  constructor
  · rintro ⟨a, x, rfl, ha, hx⟩
    obtain ⟨b, rfl⟩ := like_slash_any_iff.1 hx
    exact ⟨a, b, rfl, ha⟩
  · rintro ⟨a, b, rfl, ha⟩
    exact ⟨a, '/' :: b, rfl, ha, like_slash_any_iff.2 ⟨b, rfl⟩⟩

theorem like_self (s : Str) : like s s = true := by
  have h := like_append_self s [] [] rfl
  rwa [List.append_nil] at h

end Stratosync

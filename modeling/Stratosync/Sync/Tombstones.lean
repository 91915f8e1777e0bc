import Stratosync.Fuse.Listing
import Stratosync.State.Patterns

/-!
# The two tests for a tombstone

The pollers and the listings load the active tombstones and compare the texts of the paths.
`is_tombstoned` has the database compare, with the path of each tombstone as a pattern for `LIKE`.
`tombstoneTestsAgree_iff` says for which paths the two come to the same, and
`forall_tombstoneTestsAgree_iff` for which tombstones they do for all paths.
-/

namespace Stratosync

/-- `is_tombstoned`: `?2 = remote_path OR ?2 LIKE remote_path || '/%'`. -/
def Db.isTombstoned (db : Db) (mountId : ℕ) (remotePath : Str) : Bool :=
  db.tombstones.any fun t => t.mountId = mountId && db.now < t.expiresAt &&
    (remotePath = t.remotePath || like (t.remotePath ++ ['/', '%']) remotePath)

/-! ## What holds, and when -/

/-- **The test of the database is the test in memory**: it finds the paths of the active tombstones
and what is below them, as the filters of the pollers and of the listings do. -/
structure TombstoneTestsAgree (db : Db) (mountId : ℕ) (path : Str) : Prop where
  exact : db.isTombstoned mountId path = true ↔
    ∃ t ∈ db.activeTombstones mountId, path = t ∨ t ++ ['/'] <+: path
  polls : db.isTombstoned mountId path = tombstoned (db.activeTombstones mountId) path
  listings : ∀ dir child, joinRemote dir.remotePath child.name = path →
    safeListedName child.name = true →
      (db.isTombstoned mountId path = true ↔
        listedEntries (db.activeTombstones mountId) dir [child] = [])

/-- An active tombstone is at the path or above it. -/
def Covered (db : Db) (mountId : ℕ) (path : Str) : Prop :=
  ∃ t ∈ db.activeTombstones mountId, atOrBelow t path = true

/-- An active tombstone reads like the path up to some slash: letters in either case, `_` any
character and `%` any text. -/
def Resembled (db : Db) (mountId : ℕ) (path : Str) : Prop :=
  ∃ t ∈ db.activeTombstones mountId, ∃ a b, path = a ++ '/' :: b ∧ like t a = true

/-! ## Both tests -/

variable {db : Db} {mountId : ℕ} {path : Str}

theorem mem_activeTombstones {t : Str} : t ∈ db.activeTombstones mountId ↔
    ∃ x ∈ db.tombstones, x.mountId = mountId ∧ db.now < x.expiresAt ∧ x.remotePath = t := by
  simp [Db.activeTombstones, and_assoc]

/-- **What the database finds.** -/
theorem isTombstoned_iff : db.isTombstoned mountId path = true ↔
    path ∈ db.activeTombstones mountId ∨ Resembled db mountId path := by
  simp only [Db.isTombstoned, List.any_eq_true, Bool.and_eq_true, Bool.or_eq_true,
    decide_eq_true_eq, like_pattern_iff, Resembled, mem_activeTombstones]
  constructor
  · rintro ⟨x, hx, ⟨hmount, hnow⟩, rfl | hlike⟩
    · exact .inl ⟨x, hx, hmount, hnow, rfl⟩
    · exact .inr ⟨_, ⟨x, hx, hmount, hnow, rfl⟩, hlike⟩
  · rintro (⟨x, hx, hmount, hnow, rfl⟩ | ⟨_, ⟨x, hx, hmount, hnow, rfl⟩, hlike⟩)
    · exact ⟨x, hx, ⟨hmount, hnow⟩, .inl rfl⟩
    · exact ⟨x, hx, ⟨hmount, hnow⟩, .inr hlike⟩

theorem tombstoned_iff :
    tombstoned (db.activeTombstones mountId) path = true ↔ Covered db mountId path := by
  rw [tombstoned, List.any_eq_true, Covered]

/-- What a tombstone covers the database finds. -/
theorem isTombstoned_of_covered (h : Covered db mountId path) :
    db.isTombstoned mountId path = true := by
  obtain ⟨t, ht, hbelow⟩ := h
  rw [isTombstoned_iff]
  obtain rfl | ⟨b, rfl⟩ := atOrBelow_iff.1 hbelow
  · exact .inl ht
  · exact .inr ⟨t, ht, t, b, (List.append_cons t '/' b).symm, like_self t⟩

theorem covered_of_mem (h : path ∈ db.activeTombstones mountId) : Covered db mountId path :=
  ⟨path, h, atOrBelow_self path⟩

theorem listedEntries_eq_nil_iff {ts : List Str} {dir : FileEntry} {child : RemoteMetadata}
    (h : safeListedName child.name = true) : listedEntries ts dir [child] = [] ↔
      tombstoned ts (joinRemote dir.remotePath child.name) = true := by
  rw [listedEntries, List.map_eq_nil_iff, List.filter_singleton, h, Bool.true_and, tombstoned]
  cases ts.any fun t => atOrBelow t (joinRemote dir.remotePath child.name) <;> simp

/-- **When the tests agree on a path**: an active tombstone covers it, or none resembles it. -/
theorem tombstoneTestsAgree_iff (db : Db) (mountId : ℕ) (path : Str) :
    TombstoneTestsAgree db mountId path ↔
      Covered db mountId path ∨ ¬Resembled db mountId path := by
  constructor
  · intro h
    by_contra hno
    obtain ⟨hcovered, hresembled⟩ := not_or.1 hno
    rw [not_not] at hresembled
    have hfound := isTombstoned_iff.2 (.inr hresembled)
    rw [h.polls, tombstoned_iff] at hfound
    exact hcovered hfound
  · intro h
    have hiff : db.isTombstoned mountId path = true ↔ Covered db mountId path := by
      refine ⟨fun hfound => ?_, isTombstoned_of_covered⟩
      obtain hcovered | hno := h
      · exact hcovered
      · exact covered_of_mem ((isTombstoned_iff.1 hfound).resolve_right hno)
    refine ⟨?_, ?_, ?_⟩
    · simp only [hiff, Covered, atOrBelow_iff]
    · rw [Bool.eq_iff_iff, hiff, tombstoned_iff]
    · rintro dir child rfl hsafe
      rw [hiff, listedEntries_eq_nil_iff hsafe, tombstoned_iff]

/-- A directory in place of another whose name differs in the case of a letter. -/
def deletedLower : Db := (Db.empty 1 0).insertTombstone 1 ['p', '1'] 300

theorem not_tombstoneTestsAgree_otherCase :
    ¬∀ (db : Db) (mountId : ℕ) (path : Str), TombstoneTestsAgree db mountId path := by
  intro h
  have hpolls := (h deletedLower 1 ['P', '1', '/', 'x']).polls
  revert hpolls
  decide

/-! ## All paths -/

/-- A directory that is above a name without a slash, and is not longer than the name, is at the
directory the name is in or above it. -/
theorem atOrBelow_of_atOrBelow_append {t a b : Str} (hb : '/' ∉ b) (hlen : t.length ≤ b.length)
    (h : atOrBelow t (a ++ '/' :: b) = true) : atOrBelow t a = true := by
  rw [atOrBelow_iff] at h ⊢
  obtain rfl | hpre := h
  · rw [List.length_append, List.length_cons] at hlen
    omega
  rw [List.append_cons a '/' b] at hpre
  obtain hle | ⟨c, hc⟩ := List.prefix_or_prefix_of_prefix hpre (List.prefix_append (a ++ ['/']) b)
  · obtain heq | hpre := List.prefix_concat_iff.1 hle
    · exact .inl (List.append_cancel_right heq).symm
    · exact .inr hpre
  · -- what follows the slash after `a` is part of `b`, and ends with a slash if there is something
    obtain rfl | ⟨c, x, rfl⟩ := List.eq_nil_or_concat c
    · rw [List.append_nil] at hc
      exact .inl (List.append_cancel_right hc)
    · rw [← hc, List.prefix_append_right_inj] at hpre
      rw [List.concat_eq_append, ← List.append_assoc] at hc
      obtain ⟨-, hx⟩ := List.append_inj' hc rfl
      refine absurd (hpre.subset ?_) hb
      rw [← List.singleton_inj.1 hx]
      simp

/-- **When the tests agree on all paths**: whatever an active tombstone resembles, an active
tombstone covers. -/
theorem forall_tombstoneTestsAgree_iff (db : Db) (mountId : ℕ) :
    (∀ path, TombstoneTestsAgree db mountId path) ↔
      ∀ t ∈ db.activeTombstones mountId, ∀ a, like t a = true → Covered db mountId a := by
  simp only [tombstoneTestsAgree_iff]
  constructor
  · intro h t ht a hlike
    -- a name in the directory `a` that is longer than every tombstone
    obtain ⟨n, hn⟩ : ∃ n, ∀ t ∈ db.activeTombstones mountId, t.length ≤ n :=
      ⟨_, fun t ht => Db.le_foldl_max_of_mem (List.mem_map_of_mem ht) 0⟩
    have hname : '/' ∉ List.replicate n 'x' := by simp
    have hresembled : Resembled db mountId (a ++ '/' :: List.replicate n 'x') :=
      ⟨t, ht, a, _, rfl, hlike⟩
    obtain ⟨t', ht', hbelow⟩ := (h _).resolve_right (not_not.2 hresembled)
    refine ⟨t', ht', atOrBelow_of_atOrBelow_append hname ?_ hbelow⟩
    rw [List.length_replicate]
    exact hn t' ht'
  · intro h path
    by_cases hresembled : Resembled db mountId path
    · obtain ⟨t, ht, a, b, rfl, hlike⟩ := hresembled
      obtain ⟨t', ht', habove⟩ := h t ht a hlike
      have hbelow : atOrBelow a (a ++ '/' :: b) = true :=
        atOrBelow_iff.2 (.inr ⟨b, (List.append_cons a '/' b).symm⟩)
      exact .inl ⟨t', ht', atOrBelow_trans habove hbelow⟩
    · exact .inr hresembled

end Stratosync

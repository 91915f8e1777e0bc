import Stratosync.State.Dedupe

/-!
# What merging duplicates keeps

Merging two directories brings their children together, and these may have a name in common; the
migration deletes all of them but one, without another look at what is below. So it succeeds, and
loses nothing, only if no row that is to be deleted has children by then.

`merges_iff` says for which contents that is, in whatever order SQLite visits the rows: the
children of a directory decide.
-/

namespace Stratosync

open FileIndex

namespace IndexContent

variable (c : IndexContent)

/-! ## What is promised -/

/-- The rows have the same name, and parents that are one row or namesakes. -/
def Collide (f g : IndexRow) : Prop :=
  g.mountId = f.mountId ∧ g.name = f.name ∧
    ∃ a ∈ c.rows, ∃ b ∈ c.rows, c.parentOf f.inode = some a.inode ∧
      c.parentOf g.inode = some b.inode ∧ (a = b ∨ c.Namesake a b)

def HasChild (p : IndexRow) : Prop := ∃ r ∈ c.rows, c.parentOf r.inode = some p.inode

/-- A file below a duplicate, under a name that the keeper does not have. -/
structure OnlyBelow (d f : IndexRow) : Prop where
  kind : f.kind = .file
  below : c.parentOf f.inode = some d.inode
  duplicate : c.IsDuplicate d
  fresh : ∀ e ∈ c.rows, c.parentOf e.inode = c.keeper d → e.mountId = f.mountId → e.name ≠ f.name

/-- **After the migration** names are unique, each row has its parent, the keepers are there, except
those that met a smaller namesake when their parents were merged, and each name that a file had
below a duplicate only is that of a file below the keeper. -/
structure Merged (y : FileIndex) : Prop where
  unique : y.UniqueNames
  parents : y.ParentsExist
  keepers : ∀ k ∈ c.rows, c.keeper k = some k.inode → k ∈ y.rows ∨
    ∃ z ∈ c.rows, c.Collide k z ∧ z.inode < k.inode ∧ c.parentOf z.inode ≠ c.parentOf k.inode
  files : ∀ d ∈ c.rows, ∀ f ∈ c.rows, c.OnlyBelow d f → ∃ s ∈ y.rows, s.kind = .file ∧
    s.mountId = f.mountId ∧ s.name = f.name ∧ y.parentOf s.inode = c.keeper d

/-- The migration succeeds and keeps what is promised. -/
def Merges (order : List Inode) : Prop := ∃ y, c.migrate order = some y ∧ c.Merged y

/-- A duplicate with children is not below a duplicate, and a row with children, or a namesake of
it, has the least inode of the rows it collides with. -/
structure Orderly : Prop where
  shallow : ∀ p ∈ c.rows, c.HasChild p → c.IsDuplicate p → ∀ q ∈ c.rows,
    c.parentOf p.inode = some q.inode → ¬c.IsDuplicate q
  least : ∀ p ∈ c.rows, c.HasChild p → ∀ z ∈ c.rows, c.Collide p z →
    ∃ k ∈ c.rows, (k = p ∨ c.Namesake p k) ∧ k.inode ≤ z.inode

/-- Moreover the least of the rows that collide with a file is a file, below duplicates whose keeper
lacks the name. -/
structure Mergeable : Prop extends c.Orderly where
  files : ∀ d ∈ c.rows, ∀ f ∈ c.rows, c.OnlyBelow d f → ∀ z ∈ c.rows, c.Collide f z →
    (∀ w ∈ c.rows, c.Collide f w → z.inode ≤ w.inode) → z.kind = .file

variable {c} {p q r f g k z d : IndexRow} {order : List Inode} {y : FileIndex}

/-! ## The rows that are merged -/

theorem exists_parent (hr : r ∈ c.rows) (h : (c.parentOf r.inode).isSome = true) :
    ∃ p ∈ c.rows, c.parentOf r.inode = some p.inode := by
  obtain ⟨i, hi⟩ := Option.isSome_iff_exists.1 h
  obtain ⟨p, hp, rfl⟩ := c.parents_exist r hr i hi
  exact ⟨p, hp, hi⟩

/-- Rows collide if the `UPDATE` would make them namesakes. -/
theorem collide_iff (hf : f ∈ c.rows) (hg : g ∈ c.rows)
    (hsome : (c.parentOf f.inode).isSome = true) :
    c.Collide f g ↔ g.mountId = f.mountId ∧ g.name = f.name ∧
      c.snapshotParent g.inode = c.snapshotParent f.inode := by
  obtain ⟨a, ha, hfa⟩ := exists_parent hf hsome
  refine and_congr_right fun _ => and_congr_right fun _ => ?_
  rw [snapshotParent_eq hf ha hfa]
  constructor
  · rintro ⟨a', ha', b, hb, hfa', hgb, h⟩
    obtain rfl := row_ext ha ha' (Option.some.inj (hfa.symm.trans hfa'))
    rw [snapshotParent_eq hg hb hgb]
    exact ((home_eq_iff ha hb).2 h).symm
  · intro h
    cases hgp : c.parentOf g.inode with
    | none =>
      have hnone : c.snapshotParent g.inode = none := by
        rw [snapshotParent, newParent, hgp]
        simp
      have hhome : c.home a ≠ none := by
        rw [home]
        split
        · rename_i hdup
          obtain ⟨i, hi, -⟩ := hdup
          rw [hi]
          exact Option.some_ne_none i
        · exact Option.some_ne_none _
      exact absurd (h.symm.trans hnone) hhome
    | some i =>
      obtain ⟨b, hb, rfl⟩ := c.parents_exist g hg i hgp
      rw [snapshotParent_eq hg hb hgp] at h
      exact ⟨a, ha, b, hb, hfa, rfl, (home_eq_iff ha hb).1 h.symm⟩

theorem Collide.of_namesake (hf : f ∈ c.rows) (h : c.Namesake f g) : c.Collide f g := by
  obtain ⟨a, ha, hfa⟩ := exists_parent hf h.1
  exact ⟨h.2.1, h.2.2.2, a, ha, a, ha, hfa, h.2.2.1.trans hfa, .inl rfl⟩

/-! ## The rows in any order -/

/-- **Whatever the order, each row that is visited goes to the keeper of its parent.** -/
theorem parentOf_reparentAll (hm : c.Orderly) (hnodup : order.Nodup)
    (hsub : ∀ i ∈ order, i ∈ c.selected) (i : Inode) :
    (c.reparentAll order).parentOf i = if i ∈ order then c.newParent i else c.parentOf i := by
  induction order using List.reverseRecOn generalizing i with
  | nil => rfl
  | append_singleton order j ih =>
    have hsub' : ∀ i ∈ order, i ∈ c.selected := fun i hi => hsub i (List.mem_append_left _ hi)
    have hj : j ∉ order := fun h => by
      rw [List.nodup_append] at hnodup
      exact hnodup.2.2 j h j (List.mem_singleton.2 rfl) rfl
    have ih := ih (List.nodup_append.1 hnodup).1 hsub'
    have hnew : (c.reparentAll order).newParent j = c.newParent j := by
      obtain ⟨r, hr, rfl, q, hq, hdup, hp⟩ := mem_selected.1 (hsub j (by simp))
      have hcur : (c.reparentAll order).parentOf r.inode = some q.inode := by
        rw [ih, if_neg hj, hp]
      rw [newParent_eq (rows_reparentAll order) hq hcur, newParent_eq rfl hq hp]
      have hchild : c.HasChild q := ⟨r, hr, hp⟩
      obtain ⟨g₀, -, hg₀, -⟩ := isDuplicate_iff.1 hdup
      obtain ⟨u, hu, hqu⟩ := exists_parent hq hg₀.1
      have hunot := hm.shallow q hq hchild hdup u hu hqu
      -- the parent of a duplicate with children stays, and so do those of its namesakes
      have hstay : ∀ g ∈ c.rows, c.Namesake q g →
          (c.reparentAll order).parentOf g.inode = some u.inode := by
        intro g hg hqg
        have hgu := hqg.2.2.1.trans hqu
        rw [ih, if_neg, hgu]
        intro hmem
        exact hunot ((mem_selected_iff hg hu hgu).1 (hsub' _ hmem))
      have hqstay := hstay q hq (Namesake.refl hg₀.1)
      obtain ⟨i, hi⟩ := exists_keeper hq hg₀.1
      obtain ⟨k, hk, rfl, hqk, hle⟩ := keeper_eq_some hi
      rw [hi]
      refine FileIndex.keeper_eq_of (by rwa [rows_reparentAll]) ⟨by rw [hqstay]; rfl, hqk.2.1, ?_,
        hqk.2.2.2⟩ fun g hg hqg => ?_
      · rw [hstay k hk hqk, hqstay]
      · rw [rows_reparentAll] at hg
        have hgu : (c.reparentAll order).parentOf g.inode = some u.inode :=
          hqg.2.2.1.trans hqstay
        rw [ih] at hgu
        split at hgu
        · -- a row that came from a duplicate of the parent
          rename_i hmem
          have hcollide : c.Collide q g := by
            rw [collide_iff hq hg hg₀.1]
            refine ⟨hqg.2.1, hqg.2.2.2, ?_⟩
            rw [snapshotParent, if_pos (hsub' _ hmem), hgu, snapshotParent_eq hq hu hqu, home,
              if_neg hunot]
          obtain ⟨k', hk', hkk, hlt⟩ := hm.least q hq hchild g hg hcollide
          refine le_trans ?_ hlt
          rcases hkk with rfl | hkk
          · exact hle k' hk' (Namesake.refl hg₀.1)
          · exact hle k' hk' hkk
        · exact hle g hg ⟨hg₀.1, hqg.2.1, hgu.trans hqu.symm, hqg.2.2.2⟩
    rw [reparentAll_concat, parentOf_reparent, hnew, ih]
    by_cases hij : i = j
    · rw [if_pos hij, if_pos (by simp [hij]), hij]
    · rw [if_neg hij]
      exact if_congr (by simp [hij]) rfl rfl

theorem nodup_selected : c.selected.Nodup :=
  c.inodes_nodup.sublist ((List.filter_sublist (l := c.rows)).map IndexRow.inode)

/-- So after the `UPDATE` each row has the parent it would have had at once. -/
theorem parentOf_of_perm (hm : c.Orderly) (hperm : order.Perm c.selected) (i : Inode) :
    (c.reparentAll order).parentOf i = c.snapshotParent i := by
  rw [parentOf_reparentAll hm (hperm.nodup_iff.2 nodup_selected) (fun i hi => hperm.mem_iff.1 hi),
    snapshotParent]
  exact if_congr hperm.mem_iff rfl rfl

/-! ## What a success comes to -/

section

variable (hs : ∀ i, (c.reparentAll order).parentOf i = c.snapshotParent i)

include hs

/-- The namesakes are then the rows that collide. -/
theorem namesake_iff (hf : f ∈ c.rows) (hg : g ∈ c.rows) :
    (c.reparentAll order).Namesake f g ↔ c.Collide f g := by
  cases hp : c.parentOf f.inode with
  | none =>
    have hnone : (c.reparentAll order).parentOf f.inode = none := by
      rw [hs, snapshotParent, newParent, hp]
      simp
    constructor
    · intro h
      rw [Namesake, hnone] at h
      cases h.1
    · rintro ⟨-, -, a, -, b, -, hfa, -⟩
      rw [hp] at hfa
      cases hfa
  | some i =>
    have hsome : (c.parentOf f.inode).isSome = true := by rw [hp]; rfl
    obtain ⟨a, ha, hfa⟩ := exists_parent hf hsome
    have hsnap : (c.snapshotParent f.inode).isSome = true := by
      rw [snapshotParent_eq hf ha hfa, home]
      split
      · rename_i hdup
        obtain ⟨j, hj, -⟩ := hdup
        rw [hj]
        rfl
      · rfl
    rw [collide_iff hf hg hsome, Namesake, hs, hs]
    exact ⟨fun h => ⟨h.2.1, h.2.2.2, h.2.2.1⟩, fun h => ⟨hsnap, h.1, h.2.2, h.2.1⟩⟩

theorem isDuplicate_settled (hf : f ∈ c.rows) :
    (c.reparentAll order).IsDuplicate f ↔ ∃ g ∈ c.rows, c.Collide f g ∧ g.inode < f.inode := by
  rw [isDuplicate_iff, rows_reparentAll]
  refine exists_congr fun g => and_congr_right fun hg => ?_
  rw [namesake_iff hs hf hg]

theorem parentsExist_settled : (c.reparentAll order).ParentsExist := by
  intro r hr i hi
  rw [rows_reparentAll] at hr ⊢
  rw [hs] at hi
  have hsome : (c.parentOf r.inode).isSome = true := by
    cases hp : c.parentOf r.inode with
    | none =>
      rw [snapshotParent, newParent, hp] at hi
      simp at hi
    | some j => rfl
  obtain ⟨a, ha, hra⟩ := exists_parent hr hsome
  rw [snapshotParent_eq hr ha hra, home] at hi
  split at hi
  · obtain ⟨k, hk, hki, -⟩ := keeper_eq_some hi
    exact ⟨k, hk, hki⟩
  · exact ⟨a, ha, Option.some.inj hi⟩

/-- Where no row with children is a duplicate, the other statements succeed. -/
theorem migrate_of_childless
    (hc : ∀ f ∈ c.rows, (c.reparentAll order).IsDuplicate f →
      ∀ r ∈ c.rows, c.snapshotParent r.inode ≠ some f.inode) :
    c.migrate order = some (c.reparentAll order).dedupe ∧
      (c.reparentAll order).dedupe.UniqueNames ∧
      (c.reparentAll order).dedupe.ParentsExist := by
  have hparents : (c.reparentAll order).dedupe.ParentsExist := by
    intro r hr i hi
    obtain ⟨hr, -⟩ := List.mem_filter.1 hr
    obtain ⟨q, hq, rfl⟩ := parentsExist_settled hs r hr i hi
    refine ⟨q, List.mem_filter.2 ⟨hq, ?_⟩, rfl⟩
    rw [rows_reparentAll] at hq hr
    have hnot : ¬(c.reparentAll order).IsDuplicate q := by
      intro hdup
      have hi : (c.reparentAll order).parentOf r.inode = some q.inode := hi
      rw [hs] at hi
      exact hc q hq hdup r hr hi
    simpa using hnot
  have hunique : (c.reparentAll order).dedupe.UniqueNames := by
    intro f hf g hg hfg
    have hfg : (c.reparentAll order).Namesake f g := hfg
    obtain ⟨hf, hfn⟩ := List.mem_filter.1 hf
    obtain ⟨hg, hgn⟩ := List.mem_filter.1 hg
    have hfn : ¬(c.reparentAll order).IsDuplicate f := by simpa using hfn
    have hgn : ¬(c.reparentAll order).IsDuplicate g := by simpa using hgn
    rw [isDuplicate_iff] at hfn hgn
    have hle : ¬g.inode < f.inode := fun hlt => hfn ⟨g, hg, hfg, hlt⟩
    have hge : ¬f.inode < g.inode := fun hlt => hgn ⟨f, hf, hfg.symm, hlt⟩
    rw [rows_reparentAll] at hf hg
    exact row_ext hg hf (le_antisymm (not_lt.1 hge) (not_lt.1 hle))
  refine ⟨?_, hunique, hparents⟩
  rw [migrate]
  simp [parentsExist_settled hs, hparents, hunique]

/-- Of the rows that collide the least one is kept. -/
theorem mem_dedupe_iff (hf : f ∈ c.rows) :
    f ∈ (c.reparentAll order).dedupe.rows ↔
      ∀ g ∈ c.rows, c.Collide f g → f.inode ≤ g.inode := by
  have hmem : f ∈ (c.reparentAll order).dedupe.rows ↔ ¬(c.reparentAll order).IsDuplicate f := by
    rw [dedupe, List.mem_filter, rows_reparentAll]
    simp [hf]
  rw [hmem, isDuplicate_settled hs hf]
  simp only [not_exists, not_and, not_lt]

/-- A file is kept for each name that only duplicates had exactly when the least row of that name
is a file. -/
theorem files_iff :
    (∀ d ∈ c.rows, ∀ f ∈ c.rows, c.OnlyBelow d f → ∃ s ∈ (c.reparentAll order).dedupe.rows,
      s.kind = .file ∧ s.mountId = f.mountId ∧ s.name = f.name ∧
        (c.reparentAll order).parentOf s.inode = c.keeper d) ↔
      ∀ d ∈ c.rows, ∀ f ∈ c.rows, c.OnlyBelow d f → ∀ z ∈ c.rows, c.Collide f z →
        (∀ w ∈ c.rows, c.Collide f w → z.inode ≤ w.inode) → z.kind = .file := by
  refine forall₂_congr fun d hd => forall₂_congr fun f hf => forall_congr' fun hbelow => ?_
  have hsome : (c.parentOf f.inode).isSome = true := by rw [hbelow.below]; rfl
  have hfd : c.snapshotParent f.inode = c.keeper d := by
    rw [snapshotParent_eq hf hd hbelow.below, home, if_pos hbelow.duplicate]
  have hcollide : ∀ s ∈ c.rows, c.Collide f s ↔ s.mountId = f.mountId ∧ s.name = f.name ∧
      c.snapshotParent s.inode = c.keeper d := fun s hs => by rw [collide_iff hf hs hsome, hfd]
  -- rows that collide with the file collide with the same rows
  have hsame : ∀ s ∈ c.rows, c.Collide f s → ∀ g ∈ c.rows, c.Collide s g ↔ c.Collide f g := by
    intro s hs' hfs g hg
    rw [← namesake_iff hs hs' hg, ← namesake_iff hs hf hg]
    have hfs := (namesake_iff hs hf hs').2 hfs
    exact ⟨hfs.trans, hfs.symm.trans⟩
  constructor
  · rintro ⟨s, hs', hkind, hmount, hname, hp⟩ z hz hfz hleast
    have hs'' : s ∈ c.rows := by
      have := (List.mem_filter.1 hs').1
      rwa [rows_reparentAll] at this
    have hfs : c.Collide f s := (hcollide s hs'').2 ⟨hmount, hname, (hs _).symm.trans hp⟩
    have hle := (mem_dedupe_iff hs hs'').1 hs' z hz ((hsame s hs'' hfs z hz).2 hfz)
    rw [row_ext hz hs'' (le_antisymm (hleast s hs'' hfs) hle)]
    exact hkind
  · intro h
    have hff : (c.reparentAll order).Namesake f f :=
      (namesake_iff hs hf hf).2 ((collide_iff hf hf hsome).2 ⟨rfl, rfl, rfl⟩)
    obtain ⟨i, hi⟩ := exists_keeper (by rwa [rows_reparentAll]) hff.1
    obtain ⟨z, hz, rfl, hfz, hle⟩ := keeper_eq_some hi
    rw [rows_reparentAll] at hz hle
    have hfz' := (namesake_iff hs hf hz).1 hfz
    have hleast : ∀ w ∈ c.rows, c.Collide f w → z.inode ≤ w.inode := fun w hw hfw =>
      hle w hw ((namesake_iff hs hf hw).2 hfw)
    obtain ⟨hmount, hname, hp⟩ := (hcollide z hz).1 hfz'
    refine ⟨z, (mem_dedupe_iff hs hz).2 fun g hg hzg => hleast g hg ?_, h z hz hfz' hleast, hmount,
      hname, (hs _).trans hp⟩
    exact (hsame z hz hfz' g hg).1 hzg

end

/-- **The migration of an orderly content succeeds.** -/
theorem migrate_of_orderly (hm : c.Orderly) (hperm : order.Perm c.selected) :
    c.migrate order = some (c.reparentAll order).dedupe ∧
      (c.reparentAll order).dedupe.UniqueNames ∧
      (c.reparentAll order).dedupe.ParentsExist := by
  have hs := parentOf_of_perm hm hperm
  have hc : ∀ f ∈ c.rows, (c.reparentAll order).IsDuplicate f →
      ∀ r ∈ c.rows, c.snapshotParent r.inode ≠ some f.inode := by
    intro f hf hdup r hr hrf
    obtain ⟨g, hg, hfg, hlt⟩ := (isDuplicate_settled hs hf).1 hdup
    have hsome : (c.parentOf r.inode).isSome = true := by
      cases hp : c.parentOf r.inode with
      | none =>
        rw [snapshotParent, newParent, hp] at hrf
        simp at hrf
      | some j => rfl
    obtain ⟨p, hp, hrp⟩ := exists_parent hr hsome
    rw [snapshotParent_eq hr hp hrp] at hrf
    -- the duplicate is the least of the namesakes of the old parent
    have hleast : (f = p ∨ c.Namesake p f) ∧
        ∀ k ∈ c.rows, (k = p ∨ c.Namesake p k) → f.inode ≤ k.inode := by
      rw [home] at hrf
      split at hrf
      · obtain ⟨k, hk, hkf, hpk, hle⟩ := keeper_eq_some hrf
        obtain rfl := row_ext hk hf hkf
        refine ⟨.inr hpk, fun g hg h => ?_⟩
        rcases h with rfl | h
        · exact hle g hg (Namesake.refl hpk.1)
        · exact hle g hg h
      · rename_i hnot
        obtain rfl := row_ext hp hf (Option.some.inj hrf)
        refine ⟨.inl rfl, fun g hg h => ?_⟩
        rcases h with rfl | h
        · exact le_rfl
        · exact not_lt.1 fun hlt => hnot (isDuplicate_iff.2 ⟨g, hg, h, hlt⟩)
    have hpg : c.Collide p g := by
      rcases hleast.1 with rfl | hpf
      · exact hfg
      · have hpf' := (namesake_iff hs hp hf).2 (Collide.of_namesake hp hpf)
        exact (namesake_iff hs hp hg).1 (hpf'.trans ((namesake_iff hs hf hg).2 hfg))
    obtain ⟨k, hk, hkp, hkg⟩ := hm.least p hp ⟨r, hr, hrp⟩ g hg hpg
    have hfk := hleast.2 k hk hkp
    exact absurd (lt_of_lt_of_le hlt (hfk.trans hkg)) (lt_irrefl _)
  exact migrate_of_childless hs hc

/-- **The migration of a mergeable content succeeds and keeps what is promised.** -/
theorem merges_of_mergeable (hm : c.Mergeable) (hperm : order.Perm c.selected) :
    c.Merges order := by
  have hs := parentOf_of_perm hm.toOrderly hperm
  obtain ⟨hy, hunique, hparents⟩ := migrate_of_orderly hm.toOrderly hperm
  refine ⟨_, hy, hunique, hparents, fun k hk hkeep => ?_, (files_iff hs).2 hm.files⟩
  by_cases hkept : k ∈ (c.reparentAll order).dedupe.rows
  · exact .inl hkept
  · rw [mem_dedupe_iff hs hk] at hkept
    push Not at hkept
    obtain ⟨z, hz, hkz, hlt⟩ := hkept
    refine .inr ⟨z, hz, hkz, hlt, fun hp => ?_⟩
    obtain ⟨k', hk', hkk, -, hle⟩ := keeper_eq_some hkeep
    obtain ⟨hmount, hname, a, -, -, -, hka, -⟩ := hkz
    exact absurd (hle z hz ⟨by rw [hka]; rfl, hmount, hp, hname⟩) (not_le.2 hlt)

/-! ## What a failure takes -/

theorem rank_lt_of (hr : r ∈ c.rows) (h : c.parentOf r.inode = some p.inode) :
    c.rank p.inode < c.rank r.inode := c.rank_lt r hr _ h

/-- Any selected rows can be visited first. -/
theorem perm_front {front : List Inode} (hnodup : front.Nodup)
    (hsub : ∀ i ∈ front, i ∈ c.selected) :
    (front ++ c.selected.filter (· ∉ front)).Perm c.selected := by
  refine (List.perm_ext_iff_of_nodup ?_ nodup_selected).2 fun i => ?_
  · refine List.Nodup.append hnodup (nodup_selected.filter _) fun i hi hi' => ?_
    simpa [hi] using (List.mem_filter.1 hi').2
  · by_cases hi : i ∈ front
    · simp [hi, hsub i hi]
    · simp [hi]

theorem parentOf_front {front rest : List Inode} {i : Inode} (hi : i ∉ rest) :
    (c.reparentAll (front ++ rest)).parentOf i = (c.reparentAll front).parentOf i := by
  rw [reparentAll, List.foldl_append]
  exact parentOf_reparentAll_of_notMem hi

/-- The keeper of a row stays as long as no row comes to its parent or leaves it. -/
theorem keeper_unchanged {x : FileIndex} (hrows : x.rows = c.rows)
    (hq : x.parentOf q.inode = c.parentOf q.inode)
    (hother : ∀ i, x.parentOf i ≠ c.parentOf i →
      x.parentOf i ≠ c.parentOf q.inode ∧ c.parentOf i ≠ c.parentOf q.inode) :
    x.keeper q = c.keeper q := by
  have hiff : ∀ g, x.Namesake q g ↔ c.Namesake q g := by
    intro g
    rw [Namesake, Namesake, hq]
    by_cases hg : x.parentOf g.inode = c.parentOf g.inode
    · rw [hg]
    · obtain ⟨h, h'⟩ := hother g.inode hg
      simp [h, h']
  simp only [keeper, hrows, hiff]

/-- A successful migration leaves no namesakes with a child below the greater one. -/
theorem no_collision (hmig : (c.migrate order).isSome = true) (hk : k ∈ c.rows) (hz : z ∈ c.rows)
    (hr : r ∈ c.rows) (hlt : z.inode < k.inode) (hmount : z.mountId = k.mountId)
    (hname : z.name = k.name)
    (hparent : (c.reparentAll order).parentOf z.inode = (c.reparentAll order).parentOf k.inode)
    (hsome : ((c.reparentAll order).parentOf k.inode).isSome = true) :
    (c.reparentAll order).parentOf r.inode ≠ some k.inode := by
  obtain ⟨y, hy⟩ := Option.isSome_iff_exists.1 hmig
  refine childless_of_migrate hy hk (isDuplicate_iff.2 ⟨z, ?_, ?_, hlt⟩) hr
  · rwa [rows_reparentAll]
  · exact ⟨hsome, hmount, hparent, hname⟩

/-- A duplicate that has children and is below a duplicate: if its keeper goes first and then one
of the children, the child is left below a row that follows the keeper. -/
theorem shallow_of_migrate
    (h : ∀ order, order.Perm c.selected → (c.migrate order).isSome = true) :
    ∀ p ∈ c.rows, c.HasChild p → c.IsDuplicate p → ∀ q ∈ c.rows,
      c.parentOf p.inode = some q.inode → ¬c.IsDuplicate q := by
  rintro p hp ⟨r, hr, hrp⟩ hdup q hq hpq hqdup
  obtain ⟨g₀, -, hg₀, -⟩ := isDuplicate_iff.1 hqdup
  obtain ⟨u, hu, hqu⟩ := exists_parent hq hg₀.1
  obtain ⟨i, hi, hlt⟩ := id hdup
  obtain ⟨k, hk, rfl, hpk, hle⟩ := keeper_eq_some hi
  obtain ⟨j, hj, hwq⟩ := id hqdup
  obtain ⟨w, hw, rfl, hqw, -⟩ := keeper_eq_some hj
  have hkq : c.parentOf k.inode = some q.inode := hpk.2.2.1.trans hpq
  have hwu : c.parentOf w.inode = some u.inode := hqw.2.2.1.trans hqu
  have huq := rank_lt_of hq hqu
  have hqp := rank_lt_of hp hpq
  have hpr := rank_lt_of hr hrp
  have hqk := rank_lt_of hk hkq
  have huw := rank_lt_of hw hwu
  have hne : ∀ {a b : IndexRow}, c.rank a.inode ≠ c.rank b.inode → a.inode ≠ b.inode :=
    fun hab he => hab (congrArg c.rank he)
  have hrk : r.inode ≠ k.inode := by
    intro he
    rw [he, hkq, Option.some_inj] at hrp
    exact hne (by omega) hrp
  -- the keeper of the duplicate goes to the keeper of its parent
  have h₁ : ∀ i, (c.reparent k.inode).parentOf i =
      if i = k.inode then some w.inode else c.parentOf i := by
    intro i
    rw [parentOf_reparent, newParent_eq rfl hq hkq, hj]
  have hpk' : p.inode ≠ k.inode := (Nat.ne_of_lt hlt).symm
  have hp₁ : (c.reparent k.inode).parentOf p.inode = some q.inode := by rw [h₁, if_neg hpk', hpq]
  obtain ⟨i, hi₁⟩ := exists_keeper (x := c.reparent k.inode) hp (by rw [hp₁]; rfl)
  obtain ⟨m, hm, rfl, hpm, -⟩ := keeper_eq_some hi₁
  have hm₁ : (c.reparent k.inode).parentOf m.inode = some q.inode := hpm.2.2.1.trans hp₁
  have hmk : m.inode ≠ k.inode := by
    intro he
    rw [he, h₁, if_pos rfl, Option.some_inj] at hm₁
    exact absurd hm₁ (Nat.ne_of_lt hwq)
  have hmq : c.parentOf m.inode = some q.inode := by rwa [h₁, if_neg hmk] at hm₁
  have hkm : k.inode < m.inode :=
    lt_of_le_of_ne (hle m hm ⟨hpk.1, hpm.2.1, hmq.trans hpq.symm, hpm.2.2.2⟩) (Ne.symm hmk)
  have hqm := rank_lt_of hm hmq
  have hmr : m.inode ≠ r.inode := by
    intro he
    rw [he, hrp, Option.some_inj] at hmq
    exact hne (by omega) hmq
  -- the child goes to the least namesake that is left
  have hr₁ : (c.reparent k.inode).parentOf r.inode = some p.inode := by rw [h₁, if_neg hrk, hrp]
  have h₂ : ∀ i, ((c.reparent k.inode).reparent r.inode).parentOf i =
      if i = r.inode then some m.inode else if i = k.inode then some w.inode
        else c.parentOf i := by
    intro i
    rw [parentOf_reparent, newParent_eq (rows_reparent k.inode) hp hr₁, hi₁, h₁]
  have hqr : q.inode ≠ r.inode := hne (by omega)
  have hqk' : q.inode ≠ k.inode := hne (by omega)
  have hm₂ : ((c.reparent k.inode).reparent r.inode).parentOf m.inode = some q.inode := by
    rw [h₂, if_neg hmr, if_neg hmk, hmq]
  -- and this one follows the keeper
  have hkeep : ((c.reparent k.inode).reparent r.inode).keeper q = c.keeper q := by
    refine keeper_unchanged rfl (by rw [h₂, if_neg hqr, if_neg hqk']) fun i hi => ?_
    rw [h₂] at hi ⊢
    rw [hqu]
    by_cases hir : i = r.inode
    · rw [if_pos hir, hir, hrp, Ne, Option.some_inj, Ne, Option.some_inj]
      exact ⟨hne (by omega), hne (by omega)⟩
    · by_cases hik : i = k.inode
      · rw [if_neg hir, if_pos hik, hik, hkq, Ne, Option.some_inj, Ne, Option.some_inj]
        exact ⟨hne (by omega), hne (by omega)⟩
      · rw [if_neg hir, if_neg hik] at hi
        exact absurd rfl hi
  have hrows₂ : ((c.reparent k.inode).reparent r.inode).rows = c.rows := rfl
  have hfront : ∀ i, (c.reparentAll [k.inode, r.inode, m.inode]).parentOf i =
      if i = m.inode then some w.inode else if i = r.inode then some m.inode
        else if i = k.inode then some w.inode else c.parentOf i := by
    intro i
    change (((c.reparent k.inode).reparent r.inode).reparent m.inode).parentOf i = _
    rw [parentOf_reparent, newParent_eq hrows₂ hq hm₂, hkeep, hj, h₂]
  have hsub : ∀ i ∈ [k.inode, r.inode, m.inode], i ∈ c.selected := by
    intro i hi
    simp only [List.mem_cons, List.not_mem_nil, or_false] at hi
    rcases hi with rfl | rfl | rfl
    · exact (mem_selected_iff hk hq hkq).2 hqdup
    · exact (mem_selected_iff hr hp hrp).2 hdup
    · exact (mem_selected_iff hm hq hmq).2 hqdup
  have hperm := perm_front (by simp [Ne.symm hrk, Ne.symm hmk, Ne.symm hmr]) hsub
  have hend : ∀ i ∈ [k.inode, r.inode, m.inode],
      (c.reparentAll ([k.inode, r.inode, m.inode] ++
        c.selected.filter (· ∉ [k.inode, r.inode, m.inode]))).parentOf i =
      if i = m.inode then some w.inode else if i = r.inode then some m.inode
        else if i = k.inode then some w.inode else c.parentOf i := by
    intro i hi
    rw [parentOf_front, hfront]
    intro hmem
    simpa [hi] using (List.mem_filter.1 hmem).2
  refine no_collision (h _ hperm) hm hk hr hkm ?_ ?_ ?_ ?_ ?_
  · exact hpk.2.1.trans hpm.2.1.symm
  · exact hpk.2.2.2.trans hpm.2.2.2.symm
  · rw [hend _ (by simp), hend _ (by simp), if_pos rfl, if_neg (Ne.symm hmk),
      if_neg (Ne.symm hrk), if_pos rfl]
  · rw [hend _ (by simp), if_pos rfl]
    rfl
  · rw [hend _ (by simp), if_neg (Ne.symm hmr), if_pos rfl]

/-- A row that is visited first goes to the place of its parent, if the place stays. -/
def visit (c : IndexContent) (x : FileIndex) (i : Inode) : FileIndex :=
  if i ∈ c.selected then x.reparent i else x

theorem rows_visit (x : FileIndex) (i : Inode) : (c.visit x i).rows = x.rows := by
  rw [visit]
  split <;> rfl

theorem parentOf_visit {x : FileIndex} (hrows : x.rows = c.rows) (hr : r ∈ c.rows)
    (hq : q ∈ c.rows) (hrq : c.parentOf r.inode = some q.inode)
    (hx : x.parentOf r.inode = some q.inode) (hkeep : x.keeper q = c.keeper q) (i : Inode) :
    (c.visit x r.inode).parentOf i = if i = r.inode then c.home q else x.parentOf i := by
  rw [visit, home]
  by_cases hdup : c.IsDuplicate q
  · rw [if_pos ((mem_selected_iff hr hq hrq).2 hdup), parentOf_reparent, if_pos hdup,
      newParent_eq hrows hq hx, hkeep]
  · rw [if_neg (mt (mem_selected_iff hr hq hrq).1 hdup), if_neg hdup]
    split
    · rename_i hi
      rw [hi, hx]
    · rfl

theorem reparentAll_filter (x : FileIndex) (l : List Inode) :
    x.reparentAll (l.filter (· ∈ c.selected)) = l.foldl c.visit x := by
  induction l generalizing x with
  | nil => rfl
  | cons i l ih =>
    by_cases hi : i ∈ c.selected
    · rw [List.filter_cons_of_pos (by simpa using hi), List.foldl_cons, visit, if_pos hi, ← ih]
      rfl
    · rw [List.filter_cons_of_neg (by simpa using hi), List.foldl_cons, visit, if_neg hi, ih]

/-- A row with children and a smaller row it collides with: if they go first, the `UPDATE` leaves
them namesakes, and a child below the greater one. -/
theorem least_of_migrate
    (h : ∀ order, order.Perm c.selected → (c.migrate order).isSome = true) :
    ∀ p ∈ c.rows, c.HasChild p → ∀ z ∈ c.rows, c.Collide p z →
      ∃ k ∈ c.rows, (k = p ∨ c.Namesake p k) ∧ k.inode ≤ z.inode := by
  rintro p hp ⟨r, hr, hrp⟩ z hz ⟨hmount, hname, a, ha, b, hb, hpa, hzb, hab⟩
  by_contra hnone
  push Not at hnone
  have hab : c.Namesake a b := by
    refine hab.resolve_left ?_
    rintro rfl
    refine absurd (hnone z hz (.inr ⟨?_, hmount, hzb.trans hpa.symm, hname⟩)) (lt_irrefl _)
    rw [hpa]
    rfl
  obtain ⟨u, hu, hau⟩ := exists_parent ha hab.1
  have hbu : c.parentOf b.inode = some u.inode := hab.2.2.1.trans hau
  obtain ⟨i, hi⟩ := exists_keeper hp (by rw [hpa]; rfl)
  obtain ⟨k, hk, rfl, hpk, -⟩ := keeper_eq_some hi
  obtain ⟨j, hj⟩ := exists_keeper ha hab.1
  obtain ⟨w, hw, rfl, haw, -⟩ := keeper_eq_some hj
  have hka : c.parentOf k.inode = some a.inode := hpk.2.2.1.trans hpa
  have hwu : c.parentOf w.inode = some u.inode := haw.2.2.1.trans hau
  have hzk : z.inode < k.inode := hnone k hk (.inr hpk)
  have hua := rank_lt_of ha hau
  have hap := rank_lt_of hp hpa
  have hpr := rank_lt_of hr hrp
  have hak := rank_lt_of hk hka
  have huw := rank_lt_of hw hwu
  have hub := rank_lt_of hb hbu
  have hbz := rank_lt_of hz hzb
  have hne : ∀ {a b : IndexRow}, c.rank a.inode ≠ c.rank b.inode → a.inode ≠ b.inode :=
    fun hab he => hab (congrArg c.rank he)
  have hpu : p.inode ≠ u.inode := hne (by omega)
  have hkr : k.inode ≠ r.inode := by
    intro he
    rw [he, hrp, Option.some_inj] at hka
    exact hne (by omega) hka
  have hzr : z.inode ≠ r.inode := by
    intro he
    rw [he, hrp, Option.some_inj] at hzb
    rw [hzb, hbu, Option.some_inj] at hpa
    exact hne (by omega) hpa
  have hzk' : z.inode ≠ k.inode := Nat.ne_of_lt hzk
  have hhome : c.home p = some k.inode ∧ c.home a = some w.inode ∧ c.home b = some w.inode := by
    refine ⟨(home_eq_keeper hp (by rw [hpa]; rfl)).trans hi, (home_eq_keeper ha hab.1).trans hj, ?_⟩
    exact (home_eq_keeper hb hab.symm.1).trans ((keeper_congr hab).symm.trans hj)
  -- the child goes below the keeper
  have h₁ : ∀ i, (c.visit c.toFileIndex r.inode).parentOf i =
      if i = r.inode then some k.inode else c.parentOf i := by
    intro i
    rw [parentOf_visit rfl hr hp hrp hrp rfl, hhome.1]
  have hrows₁ : (c.visit c.toFileIndex r.inode).rows = c.rows := rows_visit _ _
  -- the keeper goes with its parent
  have har : a.inode ≠ r.inode := hne (by omega)
  have hkeep₁ : (c.visit c.toFileIndex r.inode).keeper a = c.keeper a := by
    refine keeper_unchanged hrows₁ (by rw [h₁, if_neg har]) fun i hi => ?_
    rw [h₁] at hi ⊢
    rw [hau]
    by_cases hir : i = r.inode
    · rw [if_pos hir, hir, hrp, Ne, Option.some_inj, Ne, Option.some_inj]
      exact ⟨hne (by omega), hpu⟩
    · rw [if_neg hir] at hi
      exact absurd rfl hi
  have h₂ : ∀ i, (c.visit (c.visit c.toFileIndex r.inode) k.inode).parentOf i =
      if i = k.inode then some w.inode else if i = r.inode then some k.inode
        else c.parentOf i := by
    intro i
    rw [parentOf_visit hrows₁ hk ha hka (by rw [h₁, if_neg hkr, hka]) hkeep₁, hhome.2.1, h₁]
  have hrows₂ : (c.visit (c.visit c.toFileIndex r.inode) k.inode).rows = c.rows :=
    (rows_visit _ _).trans hrows₁
  -- and so does the smaller row
  have hbr : b.inode ≠ r.inode := by
    intro he
    rw [he, hrp, Option.some_inj] at hbu
    exact hpu hbu
  have hbk : b.inode ≠ k.inode := by
    intro he
    rw [he, hka, Option.some_inj] at hbu
    exact hne (by omega) hbu
  have hkeep₂ : (c.visit (c.visit c.toFileIndex r.inode) k.inode).keeper b = c.keeper b := by
    refine keeper_unchanged hrows₂ (by rw [h₂, if_neg hbk, if_neg hbr]) fun i hi => ?_
    rw [h₂] at hi ⊢
    rw [hbu]
    by_cases hik : i = k.inode
    · rw [if_pos hik, hik, hka, Ne, Option.some_inj, Ne, Option.some_inj]
      exact ⟨hne (by omega), hne (by omega)⟩
    · by_cases hir : i = r.inode
      · rw [if_neg hik, if_pos hir, hir, hrp, Ne, Option.some_inj, Ne, Option.some_inj]
        exact ⟨hne (by omega), hpu⟩
      · rw [if_neg hik, if_neg hir] at hi
        exact absurd rfl hi
  have hfront : ∀ i, ([r.inode, k.inode, z.inode].foldl c.visit c.toFileIndex).parentOf i =
      if i = z.inode then some w.inode else if i = k.inode then some w.inode
        else if i = r.inode then some k.inode else c.parentOf i := by
    intro i
    have hz₂ : (c.visit (c.visit c.toFileIndex r.inode) k.inode).parentOf z.inode =
        some b.inode := by rw [h₂, if_neg hzk', if_neg hzr, hzb]
    change (c.visit (c.visit (c.visit c.toFileIndex r.inode) k.inode) z.inode).parentOf i = _
    rw [parentOf_visit hrows₂ hz hb hzb hz₂ hkeep₂, hhome.2.2, h₂]
  have hnodup : ([r.inode, k.inode, z.inode].filter (· ∈ c.selected)).Nodup :=
    List.Nodup.filter _ (by simp [Ne.symm hkr, Ne.symm hzr, Ne.symm hzk'])
  have hperm := perm_front hnodup fun i hi => by simpa using (List.mem_filter.1 hi).2
  have hend : ∀ i ∈ [r.inode, k.inode, z.inode],
      (c.reparentAll ([r.inode, k.inode, z.inode].filter (· ∈ c.selected) ++
        c.selected.filter (· ∉ [r.inode, k.inode, z.inode].filter (· ∈ c.selected)))).parentOf i =
      if i = z.inode then some w.inode else if i = k.inode then some w.inode
        else if i = r.inode then some k.inode else c.parentOf i := by
    intro i hi
    rw [parentOf_front, reparentAll_filter, hfront]
    intro hmem
    obtain ⟨hsel, hnot⟩ := List.mem_filter.1 hmem
    have hin : i ∈ [r.inode, k.inode, z.inode].filter (· ∈ c.selected) :=
      List.mem_filter.2 ⟨hi, by simpa using hsel⟩
    simp only [hin, not_true_eq_false, decide_false, Bool.false_eq_true] at hnot
  refine no_collision (h _ hperm) hk hz hr hzk (hmount.trans hpk.2.1.symm)
    (hname.trans hpk.2.2.2.symm) ?_ ?_ ?_
  · rw [hend _ (by simp), hend _ (by simp), if_pos rfl, if_neg (Ne.symm hzk'), if_pos rfl]
  · rw [hend _ (by simp), if_neg (Ne.symm hzk'), if_pos rfl]
    rfl
  · rw [hend _ (by simp), if_neg (Ne.symm hzr), if_neg (Ne.symm hkr), if_pos rfl]

/-- **The migration succeeds in every order exactly when the content is orderly.** -/
theorem migrates_iff (c : IndexContent) :
    (∀ order, order.Perm c.selected → (c.migrate order).isSome = true) ↔ c.Orderly := by
  refine ⟨fun h => ⟨shallow_of_migrate h, least_of_migrate h⟩, fun hm order hperm => ?_⟩
  rw [(migrate_of_orderly hm hperm).1]
  rfl

/-- **The migration keeps its promises in every order exactly when the content is mergeable.** -/
theorem merges_iff (c : IndexContent) :
    (∀ order, order.Perm c.selected → c.Merges order) ↔ c.Mergeable := by
  refine ⟨fun h => ?_, fun hm order hperm => merges_of_mergeable hm hperm⟩
  have horderly : c.Orderly := c.migrates_iff.1 fun order hperm => by
    obtain ⟨y, hy, -⟩ := h order hperm
    exact Option.isSome_of_mem hy
  have hs := parentOf_of_perm horderly (List.Perm.refl c.selected)
  obtain ⟨y, hy, hmerged⟩ := h _ (List.Perm.refl c.selected)
  obtain rfl : (c.reparentAll c.selected).dedupe = y := by
    rw [migrate] at hy
    split_ifs at hy
    exact Option.some.inj hy
  exact ⟨horderly, (files_iff hs).1 hmerged.files⟩

/-- Two directories `A`, each with a directory `B`; the second `B` has a file. -/
def nestedDuplicates : IndexContent where
  rows := [⟨1, 1, [], ['/'], .directory⟩, ⟨2, 1, ['A'], ['a'], .directory⟩,
    ⟨3, 1, ['A'], ['b'], .directory⟩, ⟨4, 1, ['B'], ['c'], .directory⟩,
    ⟨5, 1, ['B'], ['d'], .directory⟩, ⟨6, 1, ['c'], ['e'], .file⟩]
  parentOf := fun i => [none, none, some 1, some 1, some 2, some 3, some 5].getD i none
  inodes_nodup := by decide
  parents_exist := by decide
  paths_nodup := by decide
  rank := id
  rank_lt := by decide

/-- The file loses its parent when the second `B` is deleted, so the `DELETE` fails. -/
theorem not_merges_nestedDuplicates : ¬nestedDuplicates.Merges nestedDuplicates.selected := by
  rintro ⟨y, hy, -⟩
  have hnone : (nestedDuplicates.migrate nestedDuplicates.selected).isNone = true := by decide
  rw [hy] at hnone
  cases hnone

end IndexContent

end Stratosync

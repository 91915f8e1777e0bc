import Stratosync.State.Migrations

/-!
# A start that is interrupted

The daemon may stop between any two statements that `run_migrations` sends, at a `Boundary`, and the
next start runs the migrations again. A script that has made a table, an index, a column or a
trigger cannot be run again, since its statement fails where the object exists. What comes before,
the data rewrites of 0006, 0010 and 0011, changes nothing the second time.
-/

namespace Stratosync

open Foundations.Scripts Statement

/-- A database that an earlier release left: the scripts up to `version` were run. -/
structure Installed where
  version : ℕ
  version_le : version ≤ migrations.length
  rows : IndexContent
  content : Content
  index_eq : content.index = rows.toFileIndex

/-- What the statements of the scripts make. -/
def objects (ms : List (Script Statement ℕ)) : List SchemaObject :=
  ms.flatMap fun m => m.statements.filterMap makes

def Installed.database (x : Installed) : Database where
  schema :=
    if x.version = 0 then []
    else .table .schemaMigrations :: objects (migrations.take x.version)
  content := x.content
  versions := (migrations.take x.version).map Script.version

/-- A place between two statements: the scripts `before` are done, and `executed` statements of the
next one, unless it was recorded before the start. -/
structure Boundary where
  before : List (Script Statement ℕ)
  rest : List (Script Statement ℕ)
  split : before ++ rest = migrations
  executed : ℕ

namespace Boundary

/-- The statements of the script under way that have been executed. -/
def statements (b : Boundary) : List Statement :=
  (b.rest.head?.elim [] Script.statements).take b.executed

end Boundary

/-- The database at a boundary. -/
def interrupted (v : Visits) (b : Boundary) (x : Database) : Option Database :=
  (Database.engine v).interrupted b.before b.rest b.executed x.ensureVersions

/-- The start after the interruption succeeds and ends like one that was not interrupted, with each
version recorded once. -/
def Recovers (v : Visits) (b : Boundary) (x : Database) : Prop :=
  ∃ t y, interrupted v b x = some t ∧ x.runMigrations v = some y ∧ t.runMigrations v = some y ∧
    y.versions = migrations.map Script.version

/-! ## Schema and rows -/

section Batch

variable {v : Visits} {is : List Statement} {ms before rest : List (Script Statement ℕ)}
  {x y : Database} {schema schema' : List SchemaObject}

def defineAll (is : List Statement) (schema : List SchemaObject) : Option (List SchemaObject) :=
  is.foldlM (fun schema s => s.define schema) schema

def rewriteAll (v : Visits) (is : List Statement) (d : Content) : Option Content :=
  is.foldlM (fun d s => s.rewrite v d) d

/-- A batch works on the schema and on the rows separately. -/
theorem batch_eq (is : List Statement) (x : Database) :
    (Database.engine v).batch is x = (defineAll is x.schema).bind fun schema =>
      (rewriteAll v is x.content).map fun content => { x with schema, content } := by
  induction is generalizing x with
  | nil => rfl
  | cons s is ih =>
    change ((s.define x.schema).bind fun schema =>
      (s.rewrite v x.content).map fun content => { x with schema, content }).bind
        ((Database.engine v).batch is) = _
    cases hdef : s.define x.schema with
    | none => simp [defineAll, hdef]
    | some schema =>
      cases hrew : s.rewrite v x.content with
      | none =>
        simp only [Option.bind_some, Option.map_none, Option.bind_none, rewriteAll, defineAll,
          List.foldlM_cons, hdef, hrew, bind]
        cases is.foldlM (fun schema s => define s schema) schema <;> rfl
      | some content =>
        simp only [Option.bind_some, Option.map_some, ih]
        simp [defineAll, rewriteAll, hdef, hrew]

theorem define_eq {s : Statement} (h : s.define schema = some schema') :
    schema' = schema ++ s.makes.toList := by
  rw [define] at h
  split at h
  · split at h
    · rw [‹s.makes = none›, Option.toList_none, List.append_nil]
      exact (Option.some.inj h).symm
    · split at h
      · cases h
      · rw [‹s.makes = some _›]
        exact (Option.some.inj h).symm
  · cases h

theorem defineAll_eq (h : defineAll is schema = some schema') :
    schema' = schema ++ is.filterMap makes := by
  induction is generalizing schema with
  | nil =>
    obtain rfl := Option.some.inj h
    simp
  | cons s is ih =>
    obtain ⟨schema₁, hdef, h⟩ := Option.bind_eq_some_iff.1 h
    rw [ih h, define_eq hdef, List.append_assoc]
    cases hmakes : s.makes <;> simp [hmakes]

/-- The objects of a database: the schema only grows. -/
def making (v : Visits) : Engine.Making (Database.engine v) SchemaObject where
  makes := makes
  objects x := { o | o ∈ x.schema }
  mono h o ho := by
    obtain ⟨schema, hdef, h⟩ := Option.bind_eq_some_iff.1 h
    obtain ⟨content, -, rfl⟩ := Option.map_eq_some_iff.1 h
    exact define_eq hdef ▸ List.mem_append_left _ ho
  mono_record := fun ho => ho
  made h hmakes := by
    obtain ⟨schema, hdef, h⟩ := Option.bind_eq_some_iff.1 h
    obtain ⟨content, -, rfl⟩ := Option.map_eq_some_iff.1 h
    rw [define_eq hdef, hmakes]
    exact List.mem_append_right _ List.mem_cons_self
  once {s x o} hmakes ho := by
    have ho : o ∈ x.schema := ho
    have hdef : s.define x.schema = none := by
      rw [define, hmakes]
      simp [ho]
    change (s.define x.schema).bind _ = none
    rw [hdef]
    rfl

def defineScripts (ms : List (Script Statement ℕ)) (schema : List SchemaObject) :
    Option (List SchemaObject) :=
  ms.foldlM (fun schema m => defineAll m.statements schema) schema

def rewriteScripts (v : Visits) (ms : List (Script Statement ℕ)) (d : Content) : Option Content :=
  ms.foldlM (fun d m => rewriteAll v m.statements d) d

theorem defineScripts_append (ms rest : List (Script Statement ℕ)) (schema : List SchemaObject) :
    defineScripts (ms ++ rest) schema = (defineScripts ms schema).bind (defineScripts rest) :=
  List.foldlM_append

theorem rewriteScripts_append (ms rest : List (Script Statement ℕ)) (d : Content) :
    rewriteScripts v (ms ++ rest) d = (rewriteScripts v ms d).bind (rewriteScripts v rest) :=
  List.foldlM_append

theorem defineScripts_eq (h : defineScripts ms schema = some schema') :
    schema' = schema ++ objects ms := by
  induction ms generalizing schema with
  | nil =>
    obtain rfl := Option.some.inj h
    simp [objects]
  | cons m ms ih =>
    obtain ⟨schema₁, hdef, h⟩ := Option.bind_eq_some_iff.1 h
    rw [ih h, defineAll_eq hdef, List.append_assoc]
    rfl

/-- Scripts that are not recorded are run. -/
theorem runAll_pending (hnodup : (ms.map Script.version).Nodup)
    (hnew : ∀ m ∈ ms, m.version ∉ x.versions) :
    (Database.engine v).runAll ms x = (defineScripts ms x.schema).bind fun schema =>
      (rewriteScripts v ms x.content).map fun content =>
        ⟨schema, content, x.versions ++ ms.map Script.version⟩ := by
  induction ms generalizing x with
  | nil =>
    change some x = some ⟨x.schema, x.content, x.versions ++ []⟩
    rw [List.append_nil]
  | cons m ms ih =>
    obtain ⟨hm, hms⟩ := List.forall_mem_cons.1 hnew
    obtain ⟨hnot, hnodup⟩ := List.nodup_cons.1 hnodup
    have hrec : ¬(Database.engine v).recorded m.version x = true := by
      simpa [Database.engine] using hm
    have hdef : defineScripts (m :: ms) x.schema =
        (defineAll m.statements x.schema).bind (defineScripts ms) := rfl
    have hrew : rewriteScripts v (m :: ms) x.content =
        (rewriteAll v m.statements x.content).bind (rewriteScripts v ms) := rfl
    rw [Engine.runAll_cons, Engine.step_of_not_recorded hrec, batch_eq, hdef, hrew]
    cases defineAll m.statements x.schema with
    | none => rfl
    | some schema =>
      cases rewriteAll v m.statements x.content with
      | none =>
        simp only [Option.bind_some, Option.map_none, Option.bind_none]
        cases defineScripts ms schema <;> rfl
      | some content =>
        have hnew : ∀ m' ∈ ms, m'.version ∉ x.versions ++ [m.version] := by
          intro m' hm' hmem
          rcases List.mem_append.1 hmem with hmem | hmem
          · exact hms m' hm' hmem
          · rw [← List.mem_singleton.1 hmem] at hnot
            exact hnot (List.mem_map_of_mem hm')
        simp only [Option.bind_some, Option.map_some]
        refine (ih (x := ⟨schema, content, x.versions ++ [m.version]⟩) hnodup hnew).trans ?_
        simp only [List.append_assoc, List.singleton_append, List.map_cons]

end Batch

/-! ## The scripts -/

/-- The database after the first `n` scripts, with these rows. -/
def afterScripts (n : ℕ) (d : Content) : Database where
  schema := .table .schemaMigrations :: objects (migrations.take n)
  content := d
  versions := (migrations.take n).map Script.version

/-- On the schema that the scripts before them left, scripts succeed. -/
theorem defineScripts_migrations {before ms rest : List (Script Statement ℕ)}
    (h : before ++ ms ++ rest = migrations) :
    defineScripts ms (.table .schemaMigrations :: objects before) =
      some (.table .schemaMigrations :: objects (before ++ ms)) := by
  have hall : defineScripts migrations [.table .schemaMigrations] =
      some (.table .schemaMigrations :: objects migrations) := by decide
  rw [← h, List.append_assoc, defineScripts_append] at hall
  obtain ⟨schema, hbefore, hall⟩ := Option.bind_eq_some_iff.1 hall
  rw [defineScripts_append] at hall
  obtain ⟨schema', hms, -⟩ := Option.bind_eq_some_iff.1 hall
  rw [defineScripts_eq hbefore] at hms
  refine hms.trans (congrArg some ?_)
  rw [defineScripts_eq hms, objects, objects, objects, List.flatMap_append]
  rfl

theorem nodup_versions : (migrations.map Script.version).Nodup := by decide

theorem ensureVersions_database (x : Installed) :
    x.database.ensureVersions = afterScripts x.version x.content := by
  rw [Installed.database, Database.ensureVersions, afterScripts]
  by_cases hv : x.version = 0
  · simp [hv, objects]
  · simp [hv]

section Runs

variable {v : Visits} {n w : ℕ} {d : Content} {m : Script Statement ℕ}

theorem recorded_afterScripts :
    (Database.engine v).recorded m.version (afterScripts n d) = true ↔
      m.version ∈ (migrations.take n).map Script.version := by
  simp [Database.engine, afterScripts]

/-- The scripts up to the `n`th, on a database that has the first `w`. -/
theorem runAll_take (hwn : w ≤ n) :
    (Database.engine v).runAll (migrations.take n) (afterScripts w d) =
      (rewriteScripts v ((migrations.take n).drop w) d).map (afterScripts n) := by
  have hsplit : migrations.take w ++ (migrations.take n).drop w = migrations.take n := by
    conv_rhs => rw [← List.take_append_drop w (migrations.take n), List.take_take, min_eq_left hwn]
  have hnodup : ((migrations.take n).map Script.version).Nodup :=
    nodup_versions.sublist ((List.take_sublist n migrations).map _)
  rw [← hsplit, List.map_append] at hnodup
  have hskip : (Database.engine v).runAll (migrations.take w) (afterScripts w d) =
      some (afterScripts w d) :=
    Engine.runAll_of_recorded fun m hm => recorded_afterScripts.2 (List.mem_map_of_mem hm)
  have hnew : ∀ m ∈ (migrations.take n).drop w, m.version ∉ (afterScripts w d).versions :=
    fun m hm hmem => (List.disjoint_of_nodup_append hnodup) hmem (List.mem_map_of_mem hm)
  have hschema : defineScripts ((migrations.take n).drop w) (afterScripts w d).schema =
      some (afterScripts n d).schema := by
    have hall : migrations.take w ++ (migrations.take n).drop w ++ migrations.drop n =
        migrations := by rw [hsplit, List.take_append_drop]
    have h := defineScripts_migrations hall
    rwa [hsplit] at h
  conv_lhs => rw [← hsplit]
  rw [Engine.runAll_append, hskip, Option.bind_some,
    runAll_pending hnodup.of_append_right hnew, hschema, Option.bind_some]
  refine congrArg (Option.map · _) (funext fun content => ?_)
  simp only [afterScripts, ← List.map_append, hsplit]

/-- Scripts that were run before are skipped. -/
theorem runAll_take_of_le (hnw : n ≤ w) :
    (Database.engine v).runAll (migrations.take n) (afterScripts w d) =
      some (afterScripts w d) := by
  refine Engine.runAll_of_recorded fun m hm => recorded_afterScripts.2 (List.mem_map_of_mem ?_)
  exact (List.take_sublist_take_left hnw).subset hm

/-- A run only rewrites rows. -/
theorem runMigrations_database (x : Installed) :
    x.database.runMigrations v = (rewriteScripts v (migrations.drop x.version) x.content).map
      (afterScripts migrations.length) := by
  have h := runAll_take (v := v) (d := x.content) x.version_le
  rw [List.take_length] at h
  rwa [Database.runMigrations, ensureVersions_database]

end Runs

/-! ## The rows -/

section Rows

variable {v : Visits} {d d' : Content} {x : FileIndex} {c : IndexContent} {k : ℕ}
  {m : Script Statement ℕ} {ms : List (Script Statement ℕ)}

/-- Every script but 0006 succeeds on all rows, and leaves `FileIndex` alone. -/
theorem rewriteAll_of_ne (hm : m ∈ migrations) (hv : m.version ≠ 6) (d : Content) :
    ∃ d', rewriteAll v m.statements d = some d' ∧ d'.index = d.index := by
  simp only [migrations, List.mem_cons, List.not_mem_nil, or_false] at hm
  rcases hm with rfl | rfl | rfl | rfl | rfl | rfl | rfl | rfl | rfl | rfl | rfl
  case inr.inr.inr.inr.inr.inl => exact absurd rfl hv
  case inr.inr.inr.inr.inr.inr.inr.inl =>
    refine ⟨d.addColumn .remoteItemId, ?_, rfl⟩
    have hunique : (d.addColumn .remoteItemId).UniqueItemIds :=
      fun _ _ _ _ _ _ hne => absurd rfl hne
    change ((d.addColumn .remoteItemId).createIndex .fileIndexMountItemId).bind some = _
    rw [Content.createIndex, if_pos hunique]
    rfl
  all_goals exact ⟨_, rfl, rfl⟩

theorem rewriteScripts_of_ne (h : ∀ m ∈ ms, m ∈ migrations ∧ m.version ≠ 6) (d : Content) :
    ∃ d', rewriteScripts v ms d = some d' ∧ d'.index = d.index := by
  induction ms generalizing d with
  | nil => exact ⟨d, rfl, rfl⟩
  | cons m ms ih =>
    obtain ⟨⟨hm, hv⟩, hms⟩ := List.forall_mem_cons.1 h
    obtain ⟨d₁, h₁, hindex⟩ := rewriteAll_of_ne hm hv d
    obtain ⟨d₂, h₂, hindex'⟩ := ih hms d₁
    refine ⟨d₂, ?_, hindex'.trans hindex⟩
    change (rewriteAll v m.statements d).bind (rewriteScripts v ms) = some d₂
    rw [h₁, Option.bind_some, h₂]

/-- The statements of 0006. -/
def dedupeStatements : List Statement :=
  [reparentChildren, deleteDuplicates, createIndex .fileIndexParentNameUnique .fileIndex]

/-- 0006 succeeds when `migrate` does. -/
theorem isSome_rewriteAll_dedupe (d : Content) :
    (rewriteAll v dedupeStatements d).isSome = (d.index.migrate (v.order d.index)).isSome := by
  change (((d.reparentChildren v).bind fun d => (Content.deleteDuplicates d).bind fun d =>
    (d.createIndex .fileIndexParentNameUnique).bind some)).isSome = _
  rw [Content.reparentChildren, FileIndex.migrate]
  by_cases hparents : (d.index.reparentAll (v.order d.index)).ParentsExist
  · rw [if_pos hparents, if_neg (not_not.2 hparents), Option.bind_some, Content.deleteDuplicates]
    by_cases hdelete : (d.index.reparentAll (v.order d.index)).dedupe.ParentsExist
    · rw [if_pos hdelete, if_neg (not_not.2 hdelete), Option.bind_some, Content.createIndex]
      by_cases hunique : (d.index.reparentAll (v.order d.index)).dedupe.UniqueNames
      · rw [if_pos hunique, if_neg (not_not.2 hunique)]
        rfl
      · rw [if_neg hunique, if_pos hunique]
        rfl
    · rw [if_neg hdelete, if_pos hdelete]
      rfl
  · rw [if_neg hparents, if_pos hparents]
    rfl

/-- Where duplicates have no children the `UPDATE` of 0006 changes nothing. -/
theorem reparentChildren_of_childless (hparents : d.index.ParentsExist)
    (h : ∀ f ∈ d.index.rows, d.index.IsDuplicate f →
      ∀ r ∈ d.index.rows, d.index.parentOf r.inode ≠ some f.inode) :
    d.reparentChildren v = some d := by
  have hnil : d.index.selected = [] := by
    refine List.eq_nil_iff_forall_not_mem.2 fun i hi => ?_
    obtain ⟨r, hr, -⟩ := List.mem_map.1 hi
    obtain ⟨hr, hany⟩ := List.mem_filter.1 hr
    obtain ⟨f, hf, hdup⟩ := List.any_eq_true.1 hany
    obtain ⟨hdup, hp⟩ := of_decide_eq_true hdup
    exact h f hf hdup r hr hp
  have horder : v.order d.index = [] := List.perm_nil.1 (hnil ▸ v.perm d.index)
  rw [Content.reparentChildren, horder]
  exact if_pos hparents

theorem not_isDuplicate_of_uniqueNames (h : x.UniqueNames) {f : IndexRow} (hf : f ∈ x.rows) :
    ¬x.IsDuplicate f := by
  intro hdup
  obtain ⟨g, hg, hfg, hlt⟩ := FileIndex.isDuplicate_iff.1 hdup
  obtain rfl := h f hf g hg hfg
  exact lt_irrefl _ hlt

/-- Where there are no duplicates the `DELETE` of 0006 deletes nothing. -/
theorem deleteDuplicates_of_uniqueNames (hparents : d.index.ParentsExist)
    (hunique : d.index.UniqueNames) : d.deleteDuplicates = some d := by
  have hdedupe : d.index.dedupe = d.index := by
    rw [FileIndex.dedupe, List.filter_eq_self.2 fun f hf => by
      simpa using not_isDuplicate_of_uniqueNames hunique hf]
  have hdependents : (d.dependents.filter fun e =>
      d.index.rows.all fun f => ¬(d.index.IsDuplicate f ∧ e.inode = some f.inode)) =
      d.dependents := by
    refine List.filter_eq_self.2 fun e _ => List.all_eq_true.2 fun f hf => ?_
    simp [not_isDuplicate_of_uniqueNames hunique hf]
  rw [Content.deleteDuplicates, hdedupe, hdependents]
  exact if_pos hparents

/-- The content after the `UPDATE` of a run of 0006 that succeeds. -/
theorem childless_of_isSome (hindex : d.index = c.toFileIndex)
    (hsome : (rewriteAll v dedupeStatements d).isSome = true)
    (h : d.reparentChildren v = some d') :
    d'.index.ParentsExist ∧ ∀ f ∈ d'.index.rows, d'.index.IsDuplicate f →
      ∀ r ∈ d'.index.rows, d'.index.parentOf r.inode ≠ some f.inode := by
  rw [isSome_rewriteAll_dedupe, hindex] at hsome
  obtain ⟨y, hy⟩ := Option.isSome_iff_exists.1 hsome
  rw [Content.reparentChildren, hindex] at h
  split at h
  case isTrue hparents =>
    obtain rfl := Option.some.inj h
    refine ⟨hparents, fun f hf hdup r hr => ?_⟩
    rw [FileIndex.rows_reparentAll] at hf hr
    exact IndexContent.childless_of_migrate hy hf hdup hr
  case isFalse => cases h

/-- The content after the `DELETE` of a run of 0006 that succeeds. -/
theorem uniqueNames_of_isSome {d₁ d₂ : Content}
    (hsome : (rewriteAll v dedupeStatements d).isSome = true)
    (h₁ : d.reparentChildren v = some d₁) (h₂ : d₁.deleteDuplicates = some d₂) :
    d₂.index.ParentsExist ∧ d₂.index.UniqueNames := by
  have hrest : rewriteAll v dedupeStatements d =
      (d₂.createIndex .fileIndexParentNameUnique).bind some := by
    change (d.reparentChildren v).bind (fun d => (Content.deleteDuplicates d).bind fun d =>
      (d.createIndex .fileIndexParentNameUnique).bind some) = _
    rw [h₁, Option.bind_some, h₂, Option.bind_some]
  constructor
  · rw [Content.deleteDuplicates] at h₂
    split at h₂
    case isTrue hparents =>
      obtain rfl := Option.some.inj h₂
      exact hparents
    case isFalse => cases h₂
  · by_contra hunique
    rw [hrest, Content.createIndex, if_neg hunique] at hsome
    cases hsome

theorem dedupe_replay (hfree : ∀ s ∈ dedupeStatements.take (k + 1), s.makes = none)
    (hindex : d.index = c.toFileIndex)
    (hsome : (rewriteAll v dedupeStatements d).isSome = true)
    (h : rewriteAll v (dedupeStatements.take (k + 1)) d = some d') :
    rewriteAll v dedupeStatements d' = rewriteAll v dedupeStatements d := by
  obtain ⟨d₁, h₁, h⟩ := Option.bind_eq_some_iff.1 h
  have h₁ : d.reparentChildren v = some d₁ := h₁
  obtain ⟨hparents₁, hchildless⟩ := childless_of_isSome hindex hsome h₁
  have hagain₁ : d₁.reparentChildren v = some d₁ :=
    reparentChildren_of_childless hparents₁ hchildless
  match k with
  | 0 =>
    obtain rfl := Option.some.inj h
    exact congrArg (Option.bind · _) (hagain₁.trans h₁.symm)
  | 1 =>
    obtain ⟨d₂, h₂, h⟩ := Option.bind_eq_some_iff.1 h
    have h₂ : d₁.deleteDuplicates = some d₂ := h₂
    obtain rfl := Option.some.inj h
    obtain ⟨hparents₂, hunique⟩ := uniqueNames_of_isSome hsome h₁ h₂
    have hagain₂ : d₂.reparentChildren v = some d₂ :=
      reparentChildren_of_childless hparents₂ fun f hf hdup =>
        absurd hdup (not_isDuplicate_of_uniqueNames hunique hf)
    have hdelete : d₂.deleteDuplicates = some d₂ :=
      deleteDuplicates_of_uniqueNames hparents₂ hunique
    change (d₂.reparentChildren v).bind (fun d => (Content.deleteDuplicates d).bind _) =
      (d.reparentChildren v).bind fun d => (Content.deleteDuplicates d).bind _
    rw [hagain₂, h₁, Option.bind_some, Option.bind_some, hdelete, h₂]
  | k + 2 => cases hfree _ (List.mem_cons_of_mem _ (List.mem_cons_of_mem _ List.mem_cons_self))

theorem resetUncached_idem (d : Content) : d.resetUncached.resetUncached = d.resetUncached := by
  simp only [Content.resetUncached]
  congr 1
  funext i
  by_cases h : d.index.rows.any (fun f => f.inode = i ∧ f.kind = .file) ∧
      Content.claimsCache (d.statusOf i) ∧ d.cachePathOf i = none
  · simp only [if_pos h, ite_self]
  · simp only [if_neg h]

theorem clearUploadHealth_idem (d : Content) :
    d.clearUploadHealth.clearUploadHealth = d.clearUploadHealth := by
  simp only [Content.clearUploadHealth, List.map_map]
  congr 1
  refine List.map_congr_left fun h _ => ?_
  rw [Function.comp_apply]
  split
  · simp
  · rfl

/-- **What a script has executed can be replayed**, if it has made nothing. -/
theorem rewriteAll_replay (hm : m ∈ migrations)
    (hfree : ∀ s ∈ m.statements.take k, s.makes = none)
    (hindex : m.version = 6 → d.index = c.toFileIndex)
    (hsome : (rewriteAll v m.statements d).isSome = true)
    (h : rewriteAll v (m.statements.take k) d = some d') :
    rewriteAll v m.statements d' = rewriteAll v m.statements d := by
  cases k with
  | zero =>
    obtain rfl := Option.some.inj h
    rfl
  | succ k =>
    simp only [migrations, List.mem_cons, List.not_mem_nil, or_false] at hm
    rcases hm with rfl | rfl | rfl | rfl | rfl | rfl | rfl | rfl | rfl | rfl | rfl
    case inr.inr.inr.inr.inr.inl => exact dedupe_replay hfree (hindex rfl) hsome h
    case inr.inr.inr.inr.inr.inr.inr.inr.inr.inl =>
      cases k with
      | zero =>
        obtain rfl := Option.some.inj h
        change some d.resetUncached.resetUncached = some d.resetUncached
        rw [resetUncached_idem]
      | succ k => cases hfree _ (List.mem_cons_of_mem _ List.mem_cons_self)
    case inr.inr.inr.inr.inr.inr.inr.inr.inr.inr =>
      rw [List.take_succ_cons, List.take_nil] at h
      obtain rfl := Option.some.inj h
      change some d.clearUploadHealth.clearUploadHealth = some d.clearUploadHealth
      rw [clearUploadHealth_idem]
    all_goals cases hfree _ List.mem_cons_self

end Rows

/-! ## Which interruptions a start recovers from -/

section Recovery

variable {v : Visits} {x : Installed} {b : Boundary} {r t y : Database}
  {m : Script Statement ℕ} {after : List (Script Statement ℕ)}

theorem version_ne_of_take (h : m ∈ migrations.take 5) : m.version ≠ 6 := by
  have hall : ∀ n ∈ (migrations.take 5).map Script.version, n ≠ 6 := by decide
  exact hall _ (List.mem_map_of_mem h)

theorem version_ne_of_drop (h : m ∈ migrations.drop 6) : m.version ≠ 6 := by
  have hall : ∀ n ∈ (migrations.drop 6).map Script.version, n ≠ 6 := by decide
  exact hall _ (List.mem_map_of_mem h)

/-- A run succeeds when 0006 does, if it was not run before. -/
theorem isSome_runMigrations (v : Visits) (x : Installed) :
    (x.database.runMigrations v).isSome = true ↔
      (x.version < 6 → (x.rows.migrate (v.order x.rows.toFileIndex)).isSome = true) := by
  rw [runMigrations_database, Option.isSome_map]
  by_cases hv : x.version < 6
  · have hsplit : migrations.drop x.version =
        (migrations.take 5).drop x.version ++ ⟨6, dedupeStatements⟩ :: migrations.drop 6 := by
      conv_lhs => rw [← List.take_append_drop 5 migrations]
      exact List.drop_append_of_le_length (Nat.le_of_lt_succ hv)
    have hbefore : ∀ m ∈ (migrations.take 5).drop x.version, m ∈ migrations ∧ m.version ≠ 6 :=
      fun m hm => ⟨List.mem_of_mem_take (List.mem_of_mem_drop hm),
        version_ne_of_take (List.mem_of_mem_drop hm)⟩
    obtain ⟨d, hd, hindex⟩ := rewriteScripts_of_ne hbefore x.content
    have hafter : ∀ d', (rewriteScripts v (migrations.drop 6) d').isSome = true := fun d' => by
      obtain ⟨d'', hd'', -⟩ := rewriteScripts_of_ne (v := v) (fun m hm =>
        ⟨List.mem_of_mem_drop hm, version_ne_of_drop hm⟩) d'
      exact Option.isSome_of_mem hd''
    have hrest : rewriteScripts v (⟨6, dedupeStatements⟩ :: migrations.drop 6) d =
        (rewriteAll v dedupeStatements d).bind (rewriteScripts v (migrations.drop 6)) := rfl
    rw [hsplit, rewriteScripts_append, hd, Option.bind_some, hrest, ← x.index_eq, ← hindex,
      ← isSome_rewriteAll_dedupe]
    cases rewriteAll v dedupeStatements d with
    | none => simp [hv]
    | some d' => simp [hafter d']
  · have hpending : ∀ m ∈ migrations.drop x.version, m ∈ migrations ∧ m.version ≠ 6 :=
      fun m hm => ⟨List.mem_of_mem_drop hm,
        version_ne_of_drop ((List.drop_sublist_drop_left _ (Nat.not_lt.1 hv)).subset hm)⟩
    obtain ⟨d, hd, -⟩ := rewriteScripts_of_ne (v := v) hpending x.content
    simp [hd, hv]

theorem Boundary.before_eq (b : Boundary) : b.before = migrations.take b.before.length := by
  rw [← b.split, List.take_left]

/-- A second run finds the table of versions. -/
theorem runMigrations_interrupted (h : interrupted v b x.database = some t) :
    t.runMigrations v = (Database.engine v).runAll (b.before ++ b.rest) t := by
  have hmem : SchemaObject.table .schemaMigrations ∈ t.schema := by
    have hsub := Engine.objects_interrupted (making v) h
    rw [ensureVersions_database] at hsub
    have hmem : .table .schemaMigrations ∈ (afterScripts x.version x.content).schema :=
      List.mem_cons_self
    exact hsub hmem
  rw [Database.runMigrations, Database.ensureVersions, if_pos hmem, b.split]

/-- The script after `n` others is the one with version `n + 1`. -/
theorem version_mem_take_iff (hrest : b.rest = m :: after) (j : ℕ) :
    m.version ∈ (migrations.take j).map Script.version ↔ b.before.length < j := by
  have hversions : migrations.map Script.version = List.range' 1 11 := rfl
  have hlen : b.before.length < 11 := by
    have h := congrArg List.length b.split
    rw [hrest, List.length_append, List.length_cons, show migrations.length = 11 from rfl] at h
    omega
  have hm : m.version = b.before.length + 1 := by
    have h : (migrations.map Script.version)[b.before.length]? = some m.version := by
      rw [← b.split, hrest]
      simp
    rw [hversions, List.getElem?_range' hlen, Option.some_inj] at h
    omega
  rw [List.map_take, hversions, hm]
  rcases le_total j 11 with hj | hj
  · rw [List.take_range'_of_length_ge hj, List.mem_range'_1]
    omega
  · rw [List.take_range'_of_length_le hj, List.mem_range'_1]
    omega

/-- Where the script under way was run before the start, the interruption changes nothing. -/
theorem recorded_runAll_before (hrest : b.rest = m :: after)
    (hr : (Database.engine v).runAll b.before x.database.ensureVersions = some r) :
    (Database.engine v).recorded m.version r = true ↔ b.before.length < x.version := by
  rw [ensureVersions_database, b.before_eq] at hr
  rcases le_total b.before.length x.version with hle | hle
  · rw [runAll_take_of_le hle, Option.some_inj] at hr
    rw [← hr, recorded_afterScripts, version_mem_take_iff hrest]
  · rw [runAll_take hle] at hr
    obtain ⟨d, -, rfl⟩ := Option.map_eq_some_iff.1 hr
    rw [recorded_afterScripts, version_mem_take_iff hrest]
    omega

/-- Without 0006 among the scripts that are run, the index stays. -/
theorem index_of_runAll_before (hrest : b.rest = m :: after) (hm : m.version = 6)
    (hr : (Database.engine v).runAll b.before x.database.ensureVersions = some r) :
    r.content.index = x.rows.toFileIndex := by
  rw [ensureVersions_database, b.before_eq] at hr
  have hlt : b.before.length < 6 := by
    rw [← version_mem_take_iff hrest, hm]
    decide
  have hge : ¬b.before.length < 5 := by
    rw [← version_mem_take_iff hrest, hm]
    decide
  have hlen : b.before.length = 5 := by omega
  rw [hlen] at hr
  rcases le_total 5 x.version with hle | hle
  · rw [runAll_take_of_le hle, Option.some_inj] at hr
    rw [← hr]
    exact x.index_eq
  · rw [runAll_take hle] at hr
    obtain ⟨d, hd, rfl⟩ := Option.map_eq_some_iff.1 hr
    obtain ⟨d', hd', hindex⟩ := rewriteScripts_of_ne (v := v) (fun m hm =>
      ⟨List.mem_of_mem_take (List.mem_of_mem_drop hm),
        version_ne_of_take (List.mem_of_mem_drop hm)⟩) x.content
    rw [hd, Option.some_inj] at hd'
    rw [← hd'] at hindex
    exact hindex.trans x.index_eq

/-- **The second run ends like the first one** when nothing was made by the script under way. -/
theorem recovers_of_makes_none (hy : x.database.runMigrations v = some y)
    (hfree : x.version ≤ b.before.length → ∀ s ∈ b.statements, s.makes = none) :
    Recovers v b x.database := by
  have hall : (Database.engine v).runAll (b.before ++ b.rest) x.database.ensureVersions =
      some y := by
    rw [b.split]
    exact hy
  obtain ⟨t, ht⟩ := Engine.exists_interrupted hall b.executed
  refine ⟨t, y, ht, hy, ?_, ?_⟩
  · rw [runMigrations_interrupted ht, ← hall]
    refine Engine.runAll_interrupted ht fun m hm r hr hrec hbatch => ?_
    obtain ⟨after, hrest⟩ : ∃ after, b.rest = m :: after := by
      cases hb : b.rest with
      | nil => rw [hb] at hm; cases hm
      | cons m' after =>
        rw [hb] at hm
        exact ⟨after, by rw [Option.some.inj hm]⟩
    have hle : x.version ≤ b.before.length :=
      not_lt.1 fun hlt => hrec ((recorded_runAll_before hrest hr).2 hlt)
    have hfree' : ∀ s ∈ m.statements.take b.executed, s.makes = none := by
      have h := hfree hle
      rwa [Boundary.statements, hrest] at h
    have hmem : m ∈ migrations := by
      rw [← b.split, hrest]
      exact List.mem_append_right _ List.mem_cons_self
    have hsome : (rewriteAll v m.statements r.content).isSome = true := by
      rw [hrest, Engine.runAll_append, hr, Option.bind_some, Engine.runAll_cons,
        Engine.step_of_not_recorded hrec, batch_eq] at hall
      cases hrew : rewriteAll v m.statements r.content with
      | none =>
        rw [hrew] at hall
        cases hdef : defineAll m.statements r.schema <;> rw [hdef] at hall <;> cases hall
      | some d => rfl
    rw [batch_eq] at hbatch
    obtain ⟨schema, hschema, hbatch⟩ := Option.bind_eq_some_iff.1 hbatch
    obtain ⟨content, hcontent, rfl⟩ := Option.map_eq_some_iff.1 hbatch
    have hkept : schema = r.schema := by
      rw [defineAll_eq hschema, List.filterMap_eq_nil_iff.2 hfree', List.append_nil]
    rw [batch_eq, batch_eq, rewriteAll_replay hmem hfree'
      (fun hm => index_of_runAll_before hrest hm hr) hsome hcontent, hkept]
  · rw [runMigrations_database] at hy
    obtain ⟨d, -, rfl⟩ := Option.map_eq_some_iff.1 hy
    rw [afterScripts, List.take_length]

/-- The second run fails when the script under way has made something. -/
theorem makes_none_of_recovers (h : Recovers v b x.database)
    (hle : x.version ≤ b.before.length) : ∀ s ∈ b.statements, s.makes = none := by
  obtain ⟨t, y, ht, hy, hty, -⟩ := h
  intro s hs
  cases hmakes : s.makes with
  | none => rfl
  | some o =>
    rw [runMigrations_interrupted ht] at hty
    rw [Boundary.statements] at hs
    cases hrest : b.rest with
    | nil =>
      rw [hrest] at hs
      cases List.mem_of_mem_take hs
    | cons m after =>
      rw [hrest] at hs hty
      have ht' := ht
      rw [interrupted, hrest] at ht
      obtain ⟨r, hr, -⟩ := Option.bind_eq_some_iff.1 ht
      have hrec : ¬(Database.engine v).recorded m.version r = true :=
        fun hrec => absurd ((recorded_runAll_before hrest hr).1 hrec) (not_lt.2 hle)
      rw [Engine.runAll_interrupted_eq_none (M := making v) ht hr hrec hs hmakes] at hty
      cases hty

/-- **A start recovers from an interruption exactly when** 0006 succeeds, if it was not run before,
and the script under way has not made a table, an index, a column or a trigger. -/
theorem recovers_iff (x : Installed) (b : Boundary) :
    (∀ v, Recovers v b x.database) ↔
      (x.version < 6 → x.rows.Orderly) ∧
        (x.version ≤ b.before.length → ∀ s ∈ b.statements, s.makes = none) := by
  classical
  constructor
  · intro h
    refine ⟨fun hv => x.rows.migrates_iff.1 fun order hperm => ?_, fun hle => ?_⟩
    · -- the order is that of some visits
      let v : Visits :=
        { order := fun y => if y = x.rows.toFileIndex then order else y.selected
          perm := fun y => by
            split
            · exact ‹y = _› ▸ hperm
            · exact List.Perm.refl _ }
      obtain ⟨t, y, -, hy, -⟩ := h v
      have hsome := (isSome_runMigrations v x).1 (Option.isSome_of_mem hy) hv
      rwa [show v.order x.rows.toFileIndex = order from if_pos rfl] at hsome
    · exact makes_none_of_recovers (h ⟨fun y => y.selected, fun y => List.Perm.refl _⟩) hle
  · rintro ⟨horderly, hfree⟩ v
    have hsome : (x.database.runMigrations v).isSome = true :=
      (isSome_runMigrations v x).2 fun hv => x.rows.migrates_iff.2 (horderly hv) _ (v.perm _)
    obtain ⟨y, hy⟩ := Option.isSome_iff_exists.1 hsome
    exact recovers_of_makes_none hy hfree

/-- A file that was just created. -/
def freshDatabase : Installed where
  version := 0
  version_le := Nat.zero_le _
  rows :=
    { rows := []
      parentOf := fun _ => none
      inodes_nodup := List.nodup_nil
      parents_exist := nofun
      paths_nodup := List.nodup_nil
      rank := id
      rank_lt := nofun }
  content :=
    { index := ⟨[], fun _ => none⟩
      statusOf := fun _ => .remote
      cachePathOf := fun _ => none
      pollGenerationOf := fun _ => 0
      itemIdOf := fun _ => none
      dependents := []
      health := [] }
  index_eq := rfl

/-- After `CREATE TABLE mounts`. -/
def afterMounts : Boundary where
  before := []
  rest := migrations
  split := rfl
  executed := 1

/-- The next start says `CREATE TABLE mounts` again. -/
theorem not_recovers_freshDatabase : ¬∀ v, Recovers v afterMounts freshDatabase.database := by
  intro h
  have hfree := makes_none_of_recovers (h ⟨fun y => y.selected, fun y => List.Perm.refl _⟩)
    (Nat.le_refl 0)
  cases hfree (createTable .mounts) List.mem_cons_self

end Recovery

end Stratosync

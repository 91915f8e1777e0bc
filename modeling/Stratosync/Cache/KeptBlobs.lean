import Stratosync.Foundations.Reclaim
import Stratosync.Foundations.Runs
import Stratosync.Cache.Blobs

/-!
# Blobs that rows name

`keptBlobs_of_run`: the blobs that rows name stay in the store, in every run whose steps heed what
the other tasks are about to do and in which `evict_stale_bases` takes no blob that another row
names (`Heeds`). The tables, the store and the tasks instantiate the rules for reclaiming shared
objects.
-/

namespace Stratosync

open Foundations.Pool Foundations.Reclaim Foundations.Runs

/-- **The blobs that rows name are in the store.** -/
def KeptBlobs (s : BlobState) : Prop :=
  ∀ hash, s.tables.references hash = true → (s.objects hash).isSome = true

/-! ## The condition -/

/-- The blob a row is about to be entered for. -/
def BlobTask.finds : BlobTask → Option Str
  | .capture _ (.insert hash) | .base _ (.record hash) => some hash
  | _ => none

/-- The task is about to remove the blob. -/
def BlobTask.removes (hash : Str) : BlobTask → Bool
  | .capture _ (.sweep orphans) => orphans.contains hash
  | .evict (.dropBase _ h last _) => last && h = hash
  | .evict (.removeObject h _) => h = hash
  | _ => false

/-- No task is about to remove the blob. -/
def BlobState.Uncondemned (s : BlobState) (hash : Str) : Prop :=
  ∀ t ∈ s.tasks, t.removes hash = false

/-- No row is about to be entered for the blob. -/
def BlobState.Unfound (s : BlobState) (hash : Str) : Prop :=
  ∀ t ∈ s.tasks, t.finds ≠ some hash

/-- No row names the blob but the base of this file. -/
def VersionDb.OnlyBase (v : VersionDb) (key : Inode × ℕ) (hash : Str) : Prop :=
  (∀ e ∈ v.history.rows, e.objectHash ≠ hash) ∧
    ∀ b ∈ v.bases.rows, b.objectHash = hash → b.key = key

/-- `store_base` finds no blob and makes none that another task is about to remove. -/
def StorePc.Heeds (s : BlobState) : StorePc → Prop
  | .look hash => (s.objects hash).isSome = true → s.Uncondemned hash
  | .rename hash => s.Uncondemned hash
  | _ => True

/-- **The task heeds the others.** It does not rely on a blob that another is about to remove, and
does not decide to remove one that another has found; an eviction decides only on blobs that no
other row names. -/
def BlobTask.Heeds (c : BlobConfig) (s : BlobState) : BlobTask → Prop
  | .capture _ (.store pc) | .base _ (.store pc) => pc.Heeds s
  | .capture a .prune => ∀ e ∈ s.tables.staleVersions a.inode c.retention,
      (∀ v ∈ s.tables.dropStaleVersions a.inode c.retention, v.references e.objectHash = false) →
        s.Unfound e.objectHash
  | .evict (.count ((i, hash, _) :: _)) => s.tables.baseHashRefCount hash ≤ 1 →
      s.tables.OnlyBase (i, c.mountId) hash ∧ s.Unfound hash
  | _ => True

def Heeds (c : BlobConfig) (s : BlobState) : BlobEvent → Prop
  | .tick k _ => ∀ t ∈ s.tasks[k]?, t.Heeds c s
  | _ => True

section Decidable

variable (s : BlobState) (hash : Str)

instance : Decidable (s.Uncondemned hash) := inferInstanceAs (Decidable (∀ t ∈ s.tasks, _ = _))

instance : Decidable (s.Unfound hash) := inferInstanceAs (Decidable (∀ t ∈ s.tasks, _ ≠ _))

instance (v : VersionDb) (key : Inode × ℕ) : Decidable (v.OnlyBase key hash) :=
  inferInstanceAs (Decidable ((∀ e ∈ v.history.rows, _) ∧ ∀ b ∈ v.bases.rows, _))

instance : (pc : StorePc) → Decidable (pc.Heeds s)
  | .look _ => inferInstanceAs (Decidable (_ → _))
  | .rename hash => inferInstanceAs (Decidable (s.Uncondemned hash))
  | .read | .copy _ => .isTrue trivial

instance (c : BlobConfig) : (t : BlobTask) → Decidable (t.Heeds c s)
  | .capture _ (.store pc) | .base _ (.store pc) => inferInstanceAs (Decidable (pc.Heeds s))
  | .capture _ .prune => inferInstanceAs (Decidable (∀ e ∈ _, (∀ v ∈ _, _ = _) → _))
  | .evict (.count (_ :: _)) => inferInstanceAs (Decidable (_ → _ ∧ _))
  | .evict (.count []) | .evict .query | .evict (.dropBase ..) | .evict (.removeObject ..)
  | .capture _ .check | .capture _ (.insert _) | .capture _ (.sweep _) | .base _ (.record _) =>
    .isTrue trivial

instance (c : BlobConfig) : (e : BlobEvent) → Decidable (Heeds c s e)
  | .tick .. => inferInstanceAs (Decidable (∀ t ∈ _, BlobTask.Heeds c s t))
  | .start _ | .files _ => .isTrue trivial

end Decidable

/-! ## The rules -/

def present (s : BlobState) : Set Str := { hash | (s.objects hash).isSome = true }

def foundBy (ts : List BlobTask) : Set Str := { hash | ∃ t ∈ ts, t.finds = some hash }

/-- The row that the task drops before it removes a blob. -/
def BlobTask.exempt (c : BlobConfig) : BlobTask → Set VersionDb.Row
  | .evict (.dropBase i _ _ _) => {.base (i, c.mountId)}
  | _ => ∅

def condemnedBy (c : BlobConfig) (ts : List BlobTask) : Set (Set VersionDb.Row × Str) :=
  { x | ∃ t ∈ ts, t.removes x.2 = true ∧ x.1 = t.exempt c }

/-- The tables and the tasks keep to the rules. -/
def BlobSafe (c : BlobConfig) (s : BlobState) : Prop :=
  Safe (present s) s.tables.names (foundBy s.tasks) (condemnedBy c s.tasks)

variable {c : BlobConfig} {s s' : BlobState} {hash : Str}

theorem BlobSafe.keptBlobs (h : BlobSafe c s) : KeptBlobs s := fun hash href => by
  obtain ⟨r, hr⟩ := VersionDb.references_iff.1 href
  exact h.named r hash hr

theorem blobSafe_init (c : BlobConfig) (db : Db) : BlobSafe c (.init db) where
  named := by rintro (key | id) a ⟨b, hb, -⟩ <;> cases hb
  kept := by rintro a ⟨t, ht, -⟩; cases ht
  spared := by rintro X a ⟨t, ht, -⟩; cases ht
  apart := by rintro X a ⟨t, ht, -⟩; cases ht

theorem notCondemned_of_uncondemned (h : s.Uncondemned hash) (X : Set VersionDb.Row) :
    (X, hash) ∉ condemnedBy c s.tasks := by
  rintro ⟨t, ht, hrem, -⟩
  exact nomatch (h t ht).symm.trans hrem

theorem notFound_of_unfound (h : s.Unfound hash) : hash ∉ foundBy s.tasks := by
  rintro ⟨t, ht, hf⟩
  exact h t ht hf

/-- What the call of a task keeps, for what the task then is about to do. -/
def CallSafe (c : BlobConfig) (s : BlobState) (r : BlobState × Option BlobTask) : Prop :=
  r.1.tasks = s.tasks ∧ ∃ F C, Safe (present r.1) r.1.tables.names F C ∧
    foundBy s.tasks ⊆ F ∧ condemnedBy c s.tasks ⊆ C ∧
      ∀ t ∈ r.2, (∀ hash, t.finds = some hash → hash ∈ F) ∧
        ∀ hash, t.removes hash = true → (t.exempt c, hash) ∈ C

theorem blobSafe_of_call {r : BlobState × Option BlobTask} (h : CallSafe c s r) (k : ℕ) :
    BlobSafe c { r.1 with tasks := advance r.1.tasks k r.2 } := by
  obtain ⟨htasks, F, C, hsafe, hF, hC, hnext⟩ := h
  refine hsafe.mono subset_rfl subset_rfl ?_ ?_
  · rintro hash ⟨t, ht, hfinds⟩
    obtain ht | ht := mem_of_mem_advance ht
    · exact hF ⟨t, htasks ▸ ht, hfinds⟩
    · exact (hnext t ht).1 hash hfinds
  · rintro ⟨X, hash⟩ ⟨t, ht, hrem, rfl⟩
    obtain ht | ht := mem_of_mem_advance ht
    · exact hC ⟨t, htasks ▸ ht, hrem, rfl⟩
    · exact (hnext t ht).2 hash hrem

/-- A call that changes neither the tables nor the blobs, with nothing to remove or enter after. -/
theorem callSafe_of_same {r : BlobState × Option BlobTask} (h : BlobSafe c s)
    (htasks : r.1.tasks = s.tasks) (htables : r.1.tables = s.tables)
    (hobjects : r.1.objects = s.objects)
    (hnext : ∀ t ∈ r.2, t.finds = none ∧ ∀ hash, t.removes hash = false) : CallSafe c s r := by
  refine ⟨htasks, _, _, ?_, subset_rfl, subset_rfl, fun t ht => ⟨fun hash hf => ?_,
    fun hash hr => ?_⟩⟩
  · rw [present, htables, hobjects]
    exact h
  · exact nomatch (hnext t ht).1.symm.trans hf
  · exact nomatch ((hnext t ht).2 hash).symm.trans hr

/-! ## The calls -/

variable {env : BlobEnv} {t : BlobTask} {k : ℕ}

theorem mem_condemnedBy (ht : t ∈ s.tasks) (h : t.removes hash = true) :
    (t.exempt c, hash) ∈ condemnedBy c s.tasks := ⟨t, ht, h, rfl⟩

/-- `store_base` makes a blob or finds one, and changes nothing else. -/
theorem store_tick_spec (hs : BlobSafe c s) {pc : StorePc} (hg : pc.Heeds s) (env : BlobEnv) :
    (pc.tick c s env).1.tasks = s.tasks ∧ (pc.tick c s env).1.tables = s.tables ∧
      Safe (present (pc.tick c s env).1) s.tables.names
        (foundBy s.tasks ∪ { hash | (pc.tick c s env).2 = .stored hash })
        (condemnedBy c s.tasks) := by
  have hsame : ∀ n : StoreNext, (∀ hash, n ≠ .stored hash) → Safe (present s) s.tables.names
      (foundBy s.tasks ∪ { hash | n = .stored hash }) (condemnedBy c s.tasks) := fun n hn =>
    hs.mono subset_rfl subset_rfl (Set.union_subset subset_rfl fun a ha => absurd ha (hn a))
      subset_rfl
  cases pc with
  | read =>
    simp only [StorePc.tick]
    split <;> exact ⟨rfl, rfl, hsame _ nofun⟩
  | look hash =>
    refine ⟨rfl, rfl, ?_⟩
    simp only [StorePc.tick]
    split
    · rename_i hsome
      refine (hs.find hsome (notCondemned_of_uncondemned (hg hsome))).mono subset_rfl subset_rfl
        ?_ subset_rfl
      rintro a (ha | ha)
      · exact .inr ha
      · exact .inl (StoreNext.stored.inj ha).symm
    · exact hsame _ nofun
  | copy hash =>
    refine ⟨rfl, rfl, hsame _ fun a => ?_⟩
    simp only [StorePc.tick]
    split <;> exact nofun
  | rename hash =>
    simp only [StorePc.tick]
    split
    · exact ⟨rfl, rfl, hsame _ nofun⟩
    · refine ⟨rfl, rfl, (hs.make (notCondemned_of_uncondemned hg)).mono ?_ subset_rfl ?_ subset_rfl⟩
      · rintro a ha
        change (Function.update s.objects hash _ a).isSome = true
        rw [Function.update_apply]
        split
        · rfl
        · exact ha.resolve_left ‹_›
      · rintro a (ha | ha)
        · exact .inr ha
        · exact .inl (StoreNext.stored.inj ha).symm

/-- A task goes on with `store_base`, enters a row for what that has stored, or ends. -/
theorem callSafe_of_store (hs : BlobSafe c s) {pc : StorePc} (hg : pc.Heeds s) (env : BlobEnv)
    (next : StoreNext → Option BlobTask)
    (hnext : ∀ n, ∀ t ∈ next n, (∀ hash, t.removes hash = false) ∧
      ∀ hash, t.finds = some hash → n = .stored hash) :
    CallSafe c s ((pc.tick c s env).1, next (pc.tick c s env).2) := by
  obtain ⟨htasks, htables, hsafe⟩ := store_tick_spec hs hg env
  refine ⟨htasks, _, _, htables ▸ hsafe, Set.subset_union_left, subset_rfl, fun t ht => ?_⟩
  obtain ⟨hrem, hfinds⟩ := hnext _ t ht
  exact ⟨fun hash hf => .inr (hfinds hash hf), fun hash hr => nomatch (hrem hash).symm.trans hr⟩

/-- A condemned blob that no row is to be dropped for is removed from the store. -/
theorem safe_removeObject {n : Set (VersionDb.Row × Str)} {f : Set Str}
    {C : Set (Set VersionDb.Row × Str)} (h : Safe (present s) n f C) (hc : (∅, hash) ∈ C) :
    Safe (present (s.removeObject hash)) n f C := by
  refine h.remove hc ?_
  rintro a ⟨ha, hne⟩
  exact (congrArg Option.isSome (Function.update_of_ne hne none s.objects)).trans ha

/-- What the task on the list condemns, it still does when it has removed some of it. -/
theorem callSafe_of_rest {r : BlobState × Option BlobTask} (htasks : r.1.tasks = s.tasks)
    (h : Safe (present r.1) r.1.tables.names (foundBy s.tasks) (condemnedBy c s.tasks))
    (ht : t ∈ s.tasks) (hnext : ∀ u ∈ r.2, u.finds = none ∧
      ∀ hash, u.removes hash = true → u.exempt c = t.exempt c ∧ t.removes hash = true) :
    CallSafe c s r := by
  refine ⟨htasks, _, _, h, subset_rfl, subset_rfl, fun u hu => ?_⟩
  obtain ⟨hfinds, hrem⟩ := hnext u hu
  refine ⟨fun hash hf => (nomatch hfinds.symm.trans hf), fun hash hr => ?_⟩
  rw [(hrem hash hr).1]
  exact mem_condemnedBy ht (hrem hash hr).2

/-- A row is entered for a blob that the task has found. -/
theorem safe_of_enter (hs : BlobSafe c s) (ht : t ∈ s.tasks) (hf : t.finds = some hash)
    {r : VersionDb.Row} {n : Set (VersionDb.Row × Str)} (hn : n ⊆ insert (r, hash) s.tables.names) :
    Safe (present s) n (foundBy s.tasks) (condemnedBy c s.tasks) :=
  hs.enter ⟨t, ht, hf⟩ hn

theorem callSafe_capture (hs : BlobSafe c s) {a : VersionSnapshot} {pc : CapturePc}
    (ht : .capture a pc ∈ s.tasks) (hg : BlobTask.Heeds c s (.capture a pc)) :
    CallSafe c s (pc.tick c s env a) := by
  cases pc with
  | check =>
    refine callSafe_of_same hs rfl rfl rfl fun t ht => ?_
    simp only [CapturePc.tick] at ht
    split at ht
    · cases ht
    · obtain rfl := Option.some.inj ht
      exact ⟨rfl, fun _ => rfl⟩
  | store pc =>
    refine callSafe_of_store hs hg env (StoreNext.inCapture a) fun n t ht => ?_
    cases n with
    | goto | stored =>
      obtain rfl := Option.some.inj ht
      exact ⟨fun _ => rfl, fun _ hf => by cases hf; try rfl⟩
    | failed => cases ht
  | insert hash =>
    simp only [CapturePc.tick, BlobState.tryTables]
    split
    · exact callSafe_of_same hs rfl rfl rfl nofun
    · rename_i tables htables
      obtain ⟨⟨id, tables'⟩, hrow, rfl⟩ :=
        Option.map_eq_some_iff.1 (Option.ite_none_left_eq_some.1 htables).2
      have hsafe := safe_of_enter hs ht rfl (VersionDb.names_insertVersionHistory hrow)
      refine callSafe_of_rest rfl hsafe ht fun u hu => ?_
      obtain rfl := Option.some.inj hu
      exact ⟨rfl, nofun⟩
  | prune =>
    simp only [CapturePc.tick]
    split
    · exact callSafe_of_same hs rfl rfl rfl nofun
    · rename_i orphans tables hr
      obtain ⟨hnames, horphans⟩ :=
        VersionDb.names_pruneVersionHistory (Option.ite_none_left_eq_some.1 hr).2
      have hsafe := (hs.mono subset_rfl hnames subset_rfl subset_rfl).condemn
        (X := ∅) (A := { hash | hash ∈ orphans }) (fun hash hmem r hr => ?_) fun hash hmem => ?_
      · refine ⟨rfl, _, _, hsafe, subset_rfl, Set.subset_union_left, fun u hu => ?_⟩
        obtain rfl := Option.some.inj hu
        exact ⟨nofun, fun hash hrem => .inr ⟨rfl, List.contains_iff_mem.1 hrem⟩⟩
      · have href := (horphans hash hmem).1
        rw [VersionDb.references_iff.2 ⟨r, hr⟩] at href
        cases href
      · obtain ⟨href, hdrop, e, he, rfl⟩ := horphans hash hmem
        refine notFound_of_unfound (hg e he fun v hv => ?_)
        obtain rfl := Option.some.inj (hdrop.symm.trans hv)
        exact href
  | sweep orphans =>
    cases orphans with
    | nil => exact callSafe_of_same hs rfl rfl rfl nofun
    | cons hash orphans =>
      have hrest : ∀ w : BlobState, w.tasks = s.tasks → w.tables = s.tables →
          Safe (present w) s.tables.names (foundBy s.tasks) (condemnedBy c s.tasks) →
          CallSafe c s (w, some (.capture a (.sweep orphans))) := by
        intro w htasks htables hsafe
        refine callSafe_of_rest htasks (htables ▸ hsafe) ht fun u hu => ?_
        obtain rfl := Option.some.inj hu
        refine ⟨rfl, fun hash' hrem => ⟨rfl, ?_⟩⟩
        exact List.contains_iff_mem.2 (List.mem_cons_of_mem _ (List.contains_iff_mem.1 hrem))
      simp only [CapturePc.tick]
      split
      · exact hrest s rfl rfl hs
      · refine hrest (s.removeObject hash) rfl rfl (safe_removeObject hs ?_)
        exact mem_condemnedBy ht (List.contains_iff_mem.2 List.mem_cons_self)

theorem callSafe_base (hs : BlobSafe c s) {i : Inode} {pc : BasePc} (ht : .base i pc ∈ s.tasks)
    (hg : BlobTask.Heeds c s (.base i pc)) : CallSafe c s (pc.tick c s env i) := by
  cases pc with
  | store pc =>
    refine callSafe_of_store hs hg env (StoreNext.inBase i) fun n t ht => ?_
    cases n with
    | goto | stored =>
      obtain rfl := Option.some.inj ht
      exact ⟨fun _ => rfl, fun _ hf => by cases hf; try rfl⟩
    | failed => cases ht
  | record hash =>
    simp only [BasePc.tick]
    split
    · exact callSafe_of_same hs rfl rfl rfl nofun
    · rename_i tables htables
      have hrow := (Option.ite_none_left_eq_some.1 htables).2
      exact callSafe_of_rest rfl (safe_of_enter hs ht rfl (VersionDb.names_setBaseHash hrow)) ht
        nofun

theorem callSafe_evict (hs : BlobSafe c s) {pc : EvictPc} (ht : .evict pc ∈ s.tasks)
    (hg : BlobTask.Heeds c s (.evict pc)) : CallSafe c s (pc.tick c s env) := by
  cases pc with
  | query =>
    refine callSafe_of_same hs rfl rfl rfl fun u hu => ?_
    simp only [EvictPc.tick] at hu
    split at hu
    · cases hu
    · obtain rfl := Option.some.inj hu
      exact ⟨rfl, fun _ => rfl⟩
  | count left =>
    obtain _ | ⟨⟨i, hash, size⟩, left⟩ := left
    · exact callSafe_of_same hs rfl rfl rfl nofun
    simp only [EvictPc.tick]
    split
    · exact callSafe_of_same hs rfl rfl rfl nofun
    by_cases hlast : s.tables.baseHashRefCount hash ≤ 1
    · -- the blob goes with the base of the file, which is the only row that names it
      obtain ⟨honly, hunfound⟩ := hg hlast
      have hsafe := hs.condemn (X := {.base (i, c.mountId)}) (A := {hash}) (fun a ha r hr => ?_)
        fun a ha => ?_
      · refine ⟨rfl, _, _, hsafe, subset_rfl, Set.subset_union_left, fun u hu => ?_⟩
        obtain rfl := Option.some.inj hu
        refine ⟨nofun, fun a ha => .inr ⟨rfl, ?_⟩⟩
        rw [BlobTask.removes, Bool.and_eq_true] at ha
        exact (of_decide_eq_true ha.2).symm
      · obtain rfl : a = hash := ha
        obtain key | id := r
        · obtain ⟨b, hb, rfl, hh⟩ := hr
          exact congrArg VersionDb.Row.base (honly.2 b hb hh)
        · obtain ⟨e, he, -, hh⟩ := hr
          exact absurd hh (honly.1 e he)
      · obtain rfl : a = hash := ha
        exact notFound_of_unfound hunfound
    · refine callSafe_of_same hs rfl rfl rfl fun u hu => ?_
      obtain rfl := Option.some.inj hu
      refine ⟨rfl, fun a => ?_⟩
      rw [BlobTask.removes, decide_eq_false hlast]
      rfl
  | dropBase i hash last left =>
    simp only [EvictPc.tick, BlobState.tryTables]
    split
    · exact callSafe_of_same hs rfl rfl rfl nofun
    · rename_i tables htables
      obtain ⟨hnames, hdrop⟩ :=
        VersionDb.names_removeBaseHash (Option.ite_none_left_eq_some.1 htables).2
      cases last with
      | false =>
        refine callSafe_of_rest rfl (hs.mono subset_rfl hnames subset_rfl subset_rfl) ht
          fun u hu => ?_
        obtain rfl := Option.some.inj hu
        exact ⟨rfl, nofun⟩
      | true =>
        have hrem : (BlobTask.evict (.dropBase i hash true left)).removes hash = true :=
          decide_eq_true rfl
        have hsafe := hs.drop (mem_condemnedBy ht hrem) hnames fun r hr => ?_
        · refine ⟨rfl, _, _, hsafe, subset_rfl, Set.subset_union_left, fun u hu => ?_⟩
          obtain rfl := Option.some.inj hu
          exact ⟨nofun, fun a ha => .inr ⟨rfl, (of_decide_eq_true ha).symm⟩⟩
        · obtain rfl : r = .base (i, c.mountId) := hr
          exact hdrop hash
  | removeObject hash left =>
    simp only [EvictPc.tick]
    split
    · exact callSafe_of_same hs rfl rfl rfl nofun
    · have hsafe := safe_removeObject hs (mem_condemnedBy (c := c) ht (decide_eq_true rfl))
      refine ⟨rfl, _, _, hsafe, subset_rfl, subset_rfl, fun u hu => ?_⟩
      obtain rfl := Option.some.inj hu
      exact ⟨nofun, nofun⟩

theorem BlobSafe.step {e : BlobEvent} (hs : BlobSafe c s) (hg : Heeds c s e)
    (h : blobStep c s e = some s') : BlobSafe c s' := by
  cases e with
  | start job =>
    obtain rfl := Option.some.inj h
    have hjob : job.task.finds = none ∧ ∀ hash, job.task.removes hash = false := by
      cases job <;> exact ⟨rfl, fun _ => rfl⟩
    refine hs.mono subset_rfl subset_rfl ?_ ?_
    · rintro hash ⟨t, ht, hf⟩
      obtain ht | ht := List.mem_append.1 ht
      · exact ⟨t, ht, hf⟩
      · rw [List.mem_singleton.1 ht, hjob.1] at hf
        cases hf
    · rintro ⟨X, hash⟩ ⟨t, ht, hr, hX⟩
      obtain ht | ht := List.mem_append.1 ht
      · exact ⟨t, ht, hr, hX⟩
      · rw [List.mem_singleton.1 ht, hjob.2] at hr
        cases hr
  | tick k env =>
    obtain ⟨t, ht, rfl⟩ := Option.map_eq_some_iff.1 h
    have hmem := mem_of_getElem? ht
    have htask := hg t ht
    refine blobSafe_of_call (s := s) ?_ k
    cases t with
    | capture a pc => exact callSafe_capture hs hmem htask
    | base i pc => exact callSafe_base hs hmem htask
    | evict pc => exact callSafe_evict hs hmem htask
  | files db =>
    obtain ⟨tables, ht, rfl⟩ := Option.map_eq_some_iff.1 h
    exact hs.mono subset_rfl (VersionDb.names_withFiles ht) subset_rfl subset_rfl

/-- **Blobs that rows name stay in the store**, in every run whose steps heed the other tasks. -/
theorem keptBlobs_of_run (db : Db) {es : List BlobEvent}
    (hg : Guarded (blobStep c) (Heeds c) (.init db) es)
    (hr : run (blobStep c) (.init db) es = some s) : KeptBlobs s :=
  (inv_of_run (fun _ _ _ hs hg h => BlobSafe.step hs hg h) (blobSafe_init c db) hg hr).keptBlobs

/-- One file, at a time. -/
def oneFile (now : ℕ) : Db :=
  (((Db.empty 1 now).insertFile
    { mountId := 1, parent := fuseRootInode, name := ['a'], remotePath := ['a'], kind := .file
      size := 1, mtime := 0, etag := none, status := .cached, cachePath := some [['c'], ['a']]
      cacheSize := some 1 }).map Prod.snd).getD (Db.empty 1 now)

/-- Ten versions are kept, and bases for a day. -/
def sampleBlobs : BlobConfig :=
  { mountId := 1, sha256 := fun data => data.map fun b => Char.ofNat b.toNat, maxSize := 10
    retention := 10, retentionDays := 1 }

def calls (n : ℕ) (content : Bytes) : List BlobEvent :=
  List.replicate n (.tick 0 ⟨false, some content⟩)

/-- A version of a file is recorded, and a base in `n` calls; after two days the base is evicted. -/
def recordThenEvict (version base : Bytes) (n : ℕ) : List BlobEvent :=
  [.files (oneFile 0), .start (.capture ⟨2, 1, none, .afterUpload⟩)] ++ calls 8 version ++
    [.start (.base 2)] ++ calls n base ++ [.files (oneFile 172800), .start .evict] ++ calls 5 []

/-- The base has another content than the version. -/
theorem keptBlobs_recordThenEvict :
    ∃ s, run (blobStep sampleBlobs) (.init (Db.empty 1 0)) (recordThenEvict [7] [8] 5) = some s ∧
      s.tasks = [] ∧ s.tables.bases.rows = [] ∧ KeptBlobs s :=
  have hguard : Guarded (blobStep sampleBlobs) (Heeds sampleBlobs) (.init (Db.empty 1 0))
      (recordThenEvict [7] [8] 5) := by decide
  ⟨_, rfl, rfl, rfl, keptBlobs_of_run (Db.empty 1 0) hguard rfl⟩

/-- The base is the version that was uploaded. -/
theorem not_keptBlobs_recordThenEvict :
    ¬∀ (c : BlobConfig) (db : Db) (es : List BlobEvent) (s : BlobState),
      run (blobStep c) (.init db) es = some s → KeptBlobs s := by
  intro h
  obtain ⟨s, hs, href, hgone⟩ : ∃ s,
      run (blobStep sampleBlobs) (.init (Db.empty 1 0)) (recordThenEvict [7] [7] 3) = some s ∧
        s.tables.references [Char.ofNat 7] = true ∧ (s.objects [Char.ofNat 7]).isSome = false :=
    ⟨_, rfl, rfl, rfl⟩
  exact nomatch hgone.symm.trans (h sampleBlobs (Db.empty 1 0) _ s hs _ href)

end Stratosync

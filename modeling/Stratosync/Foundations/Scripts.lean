import Mathlib.Data.List.Basic
import Mathlib.Data.Option.Basic

/-!
# Scripts that are run once

A script is a list of statements that has a version. `runAll` runs the scripts whose version is not
recorded, and records the version of each after its last statement. A run may stop between two
statements; the state it leaves is `interrupted`. A second run skips the scripts that were completed
and starts the one under way from its first statement: it ends like a run that was not interrupted
when the statements that were already executed can be replayed (`runAll_interrupted`), and fails
when one of them makes something that must not be there yet (`runAll_interrupted_eq_none`).
-/

namespace Foundations.Scripts

/-- A list of statements with its version. -/
structure Script (ι ν : Type*) where
  version : ν
  statements : List ι

/-- What executes statements and keeps the versions. Executing a statement records nothing. -/
structure Engine (σ ι ν : Type*) where
  exec : ι → σ → Option σ
  recorded : ν → σ → Bool
  record : ν → σ → σ
  recorded_exec : ∀ {i s t} (v), exec i s = some t → recorded v t = recorded v s
  recorded_record : ∀ {v w s}, recorded v (record w s) = true ↔ v = w ∨ recorded v s = true

namespace Engine

variable {σ ι ν : Type*} (E : Engine σ ι ν)

/-- The statements, one after the other. -/
def batch (is : List ι) (s : σ) : Option σ := is.foldlM (fun s i => E.exec i s) s

/-- A script is run unless its version is recorded. -/
def step (m : Script ι ν) (s : σ) : Option σ :=
  if E.recorded m.version s then some s else (E.batch m.statements s).map (E.record m.version)

def runAll (ms : List (Script ι ν)) (s : σ) : Option σ := ms.foldlM (fun s m => E.step m s) s

/-- A run of `before ++ rest` that stops after `k` statements of the first script of `rest`. -/
def interrupted (before rest : List (Script ι ν)) (k : ℕ) (s : σ) : Option σ :=
  (E.runAll before s).bind fun t =>
    match rest with
    | [] => some t
    | m :: _ => if E.recorded m.version t then some t else E.batch (m.statements.take k) t

variable {E} {m : Script ι ν} {ms before after rest : List (Script ι ν)} {is js : List ι} {i : ι}
  {s t r : σ} {v : ν} {k : ℕ}

theorem batch_append (is js : List ι) (s : σ) :
    E.batch (is ++ js) s = (E.batch is s).bind (E.batch js) :=
  List.foldlM_append

theorem runAll_cons (m : Script ι ν) (ms : List (Script ι ν)) (s : σ) :
    E.runAll (m :: ms) s = (E.step m s).bind (E.runAll ms) :=
  List.foldlM_cons

theorem runAll_append (ms rest : List (Script ι ν)) (s : σ) :
    E.runAll (ms ++ rest) s = (E.runAll ms s).bind (E.runAll rest) :=
  List.foldlM_append

/-- What each statement keeps, a batch keeps. -/
theorem batch_induction {P : σ → Prop} (h : ∀ i ∈ is, ∀ s t, E.exec i s = some t → P s → P t)
    (hb : E.batch is s = some t) (hs : P s) : P t := by
  induction is generalizing s with
  | nil => exact Option.some.inj hb ▸ hs
  | cons i is ih =>
    obtain ⟨r, hr, hb⟩ := Option.bind_eq_some_iff.1 hb
    exact ih (fun j hj => h j (List.mem_cons_of_mem _ hj)) hb (h i List.mem_cons_self s r hr hs)

/-! ## The versions -/

theorem recorded_batch (h : E.batch is s = some t) (v : ν) : E.recorded v t = E.recorded v s :=
  batch_induction (P := fun r => E.recorded v r = E.recorded v s)
    (fun _ _ _ _ hexec hP => (E.recorded_exec v hexec).trans hP) h rfl

theorem step_of_recorded (h : E.recorded m.version s = true) : E.step m s = some s := if_pos h

theorem step_of_not_recorded (h : ¬E.recorded m.version s = true) :
    E.step m s = (E.batch m.statements s).map (E.record m.version) := if_neg h

/-- A step records its own version, and no other one. -/
theorem recorded_step (h : E.step m s = some t) :
    E.recorded v t = true ↔ v = m.version ∨ E.recorded v s = true := by
  by_cases hrec : E.recorded m.version s = true
  · rw [step_of_recorded hrec, Option.some_inj] at h
    subst h
    exact ⟨.inr, fun h => h.elim (fun h => h ▸ hrec) id⟩
  · rw [step_of_not_recorded hrec] at h
    obtain ⟨r, hr, rfl⟩ := Option.map_eq_some_iff.1 h
    rw [E.recorded_record, recorded_batch hr]

theorem recorded_runAll (h : E.runAll ms s = some t) :
    E.recorded v t = true ↔ v ∈ ms.map Script.version ∨ E.recorded v s = true := by
  induction ms generalizing s with
  | nil =>
    obtain rfl := Option.some.inj h
    simp
  | cons m ms ih =>
    rw [runAll_cons] at h
    obtain ⟨r, hr, h⟩ := Option.bind_eq_some_iff.1 h
    rw [ih h, recorded_step hr, List.map_cons, List.mem_cons]
    tauto

/-- Scripts that are recorded are skipped. -/
theorem runAll_of_recorded (h : ∀ m ∈ ms, E.recorded m.version s = true) :
    E.runAll ms s = some s := by
  induction ms with
  | nil => rfl
  | cons m ms ih =>
    obtain ⟨hm, hms⟩ := List.forall_mem_cons.1 h
    rw [runAll_cons, step_of_recorded hm, Option.bind_some, ih hms]

/-- Where a state has the versions of `before`, a run goes on with `rest`. -/
theorem runAll_resume (hbefore : E.runAll before s = some r)
    (h : ∀ v, E.recorded v r = true → E.recorded v t = true) :
    E.runAll (before ++ rest) t = E.runAll rest t := by
  have hskip : E.runAll before t = some t := runAll_of_recorded fun m hm =>
    h _ ((recorded_runAll hbefore).2 (.inl (List.mem_map_of_mem hm)))
  rw [runAll_append, hskip, Option.bind_some]

/-! ## The second run -/

theorem interrupted_of_recorded (hr : E.runAll before s = some r)
    (hrec : E.recorded m.version r = true) :
    E.interrupted before (m :: after) k s = some r := by
  rw [interrupted, hr]
  exact if_pos hrec

theorem interrupted_of_not_recorded (hr : E.runAll before s = some r)
    (hrec : ¬E.recorded m.version r = true) :
    E.interrupted before (m :: after) k s = E.batch (m.statements.take k) r := by
  rw [interrupted, hr]
  exact if_neg hrec

/-- A run that succeeds gets to each place where it may stop. -/
theorem exists_interrupted (h : E.runAll (before ++ rest) s = some t) (k : ℕ) :
    ∃ r, E.interrupted before rest k s = some r := by
  rw [runAll_append] at h
  obtain ⟨r, hr, h⟩ := Option.bind_eq_some_iff.1 h
  cases rest with
  | nil => exact ⟨r, by rw [interrupted, hr]; rfl⟩
  | cons m after =>
    by_cases hrec : E.recorded m.version r = true
    · exact ⟨r, interrupted_of_recorded hr hrec⟩
    · rw [runAll_cons, step_of_not_recorded hrec] at h
      obtain ⟨q, hq, -⟩ := Option.bind_eq_some_iff.1 h
      obtain ⟨q, hq, -⟩ := Option.map_eq_some_iff.1 hq
      rw [← List.take_append_drop k m.statements, batch_append] at hq
      obtain ⟨q', hq', -⟩ := Option.bind_eq_some_iff.1 hq
      exact ⟨q', (interrupted_of_not_recorded hr hrec).trans hq'⟩

/-- **A run that is started again ends like one that was not interrupted**, when the script under
way ends in the same state from where it stopped as from its start. -/
theorem runAll_interrupted (h : E.interrupted before rest k s = some t)
    (hreplay : ∀ m ∈ rest.head?, ∀ r, E.runAll before s = some r →
      ¬E.recorded m.version r = true → E.batch (m.statements.take k) r = some t →
        E.batch m.statements t = E.batch m.statements r) :
    E.runAll (before ++ rest) t = E.runAll (before ++ rest) s := by
  obtain ⟨r, hr, h'⟩ := Option.bind_eq_some_iff.1 h
  have hs : E.runAll (before ++ rest) s = E.runAll rest r := by
    rw [runAll_append, hr, Option.bind_some]
  rw [hs]
  cases rest with
  | nil =>
    obtain rfl := Option.some.inj h'
    exact runAll_resume hr fun _ => id
  | cons m after =>
    by_cases hrec : E.recorded m.version r = true
    · rw [interrupted_of_recorded hr hrec, Option.some_inj] at h
      subst h
      exact runAll_resume hr fun _ => id
    · rw [interrupted_of_not_recorded hr hrec] at h
      have hv := recorded_batch h
      rw [runAll_resume hr fun v hrv => (hv v).trans hrv, runAll_cons, runAll_cons,
        step_of_not_recorded (hv _ ▸ hrec), step_of_not_recorded hrec,
        hreplay m (by simp) r hr hrec h]

/-! ## What may be made only once -/

/-- Statements may make an object. Objects stay, and none is made twice. -/
structure Making (E : Engine σ ι ν) (ο : Type*) where
  makes : ι → Option ο
  objects : σ → Set ο
  mono : ∀ {i s t}, E.exec i s = some t → objects s ⊆ objects t
  mono_record : ∀ {v s}, objects s ⊆ objects (E.record v s)
  made : ∀ {i s t o}, E.exec i s = some t → makes i = some o → o ∈ objects t
  once : ∀ {i s o}, makes i = some o → o ∈ objects s → E.exec i s = none

variable {ο : Type*} {M : Making E ο} {o : ο}

theorem objects_batch (M : Making E ο) (h : E.batch is s = some t) : M.objects s ⊆ M.objects t :=
  batch_induction (P := fun r => M.objects s ⊆ M.objects r)
    (fun _ _ _ _ hexec hP _ ho => M.mono hexec (hP ho)) h fun _ ho => ho

theorem objects_step (M : Making E ο) (h : E.step m s = some t) : M.objects s ⊆ M.objects t := by
  by_cases hrec : E.recorded m.version s = true
  · rw [step_of_recorded hrec, Option.some_inj] at h
    exact h ▸ fun _ ho => ho
  · rw [step_of_not_recorded hrec] at h
    obtain ⟨r, hr, rfl⟩ := Option.map_eq_some_iff.1 h
    exact fun o ho => M.mono_record (objects_batch M hr ho)

theorem objects_runAll (M : Making E ο) (h : E.runAll ms s = some t) :
    M.objects s ⊆ M.objects t := by
  induction ms generalizing s with
  | nil => exact Option.some.inj h ▸ fun _ ho => ho
  | cons m ms ih =>
    obtain ⟨r, hr, h⟩ := Option.bind_eq_some_iff.1 h
    exact fun o ho => ih h (objects_step M hr ho)

theorem objects_interrupted (M : Making E ο) (h : E.interrupted before rest k s = some t) :
    M.objects s ⊆ M.objects t := by
  obtain ⟨r, hr, h⟩ := Option.bind_eq_some_iff.1 h
  refine fun o ho => ?_
  have hor := objects_runAll M hr ho
  split at h
  · exact Option.some.inj h ▸ hor
  · split at h
    · exact Option.some.inj h ▸ hor
    · exact objects_batch M h hor

/-- A batch that makes an object that is there fails. -/
theorem batch_eq_none (hi : i ∈ is) (hmakes : M.makes i = some o) (ho : o ∈ M.objects s) :
    E.batch is s = none := by
  obtain ⟨js, ks, rfl⟩ := List.append_of_mem hi
  rw [batch_append, Option.bind_eq_none_iff]
  intro r hr
  have hexec : E.exec i r = none := M.once hmakes (objects_batch M hr ho)
  rw [batch, List.foldlM_cons, hexec]
  rfl

/-- What a batch makes is there after it. -/
theorem made_batch (h : E.batch is s = some t) (hi : i ∈ is) (hmakes : M.makes i = some o) :
    o ∈ M.objects t := by
  obtain ⟨js, ks, rfl⟩ := List.append_of_mem hi
  rw [batch_append] at h
  obtain ⟨r, -, h⟩ := Option.bind_eq_some_iff.1 h
  obtain ⟨q, hq, h⟩ := Option.bind_eq_some_iff.1 h
  exact objects_batch M h (M.made hq hmakes)

/-- **A run that is started again fails** when the script under way has made an object. -/
theorem runAll_interrupted_eq_none (h : E.interrupted before (m :: after) k s = some t)
    (hr : E.runAll before s = some r) (hrec : ¬E.recorded m.version r = true)
    (hi : i ∈ m.statements.take k) (hmakes : M.makes i = some o) :
    E.runAll (before ++ m :: after) t = none := by
  rw [interrupted_of_not_recorded hr hrec] at h
  have hv := recorded_batch h
  rw [runAll_resume hr fun v hrv => (hv v).trans hrv, runAll_cons,
    step_of_not_recorded (hv _ ▸ hrec),
    batch_eq_none (List.mem_of_mem_take hi) hmakes (made_batch h hi hmakes)]
  rfl

end Engine

end Foundations.Scripts

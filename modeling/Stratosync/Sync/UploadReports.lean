import Stratosync.Foundations.Since
import Stratosync.Sync.OneUpload

/-!
# What the dashboard is told of the uploads

The loop of the upload queue keeps four maps for the dashboard: when the current attempt of an
upload began, when its first attempt began, how many attempts there have been, and how many bytes
have gone over. `build_queue_snapshot` lists the uploads from the first of these maps, and not from
the set of tasks.

`reports_of_run` says what the numbers of a listed upload are: those of the attempts since the inode
last left the queue for good. `listsInFlight_iff` says when the list itself is right: as long as no
task has panicked, whose inode the loop is not told, and no second upload of an inode is launched.
-/

namespace Stratosync

open Foundations.Runs Foundations.Since

/-! ## The maps of the dashboard -/

/-- `in_flight_started`, `in_flight_first_started`, `attempts` and `in_flight_progress`. -/
structure UploadRecords where
  started : AList fun _ : Inode => ℕ
  firstStarted : AList fun _ : Inode => ℕ
  attempts : AList fun _ : Inode => ℕ
  progress : AList fun _ : Inode => ℕ

namespace UploadRecords

def empty : UploadRecords := ⟨∅, ∅, ∅, ∅⟩

/-- An upload is launched. The counter is a `u32`. -/
def launch (r : UploadRecords) (now : ℕ) (i : Inode) : UploadRecords :=
  { started := r.started.insert i now
    firstStarted :=
      match r.firstStarted.lookup i with
      | some _ => r.firstStarted
      | none => r.firstStarted.insert i now
    attempts := r.attempts.insert i (((r.attempts.lookup i).getD 0 + 1) % 2 ^ 32)
    progress := r.progress.insert i 0 }

/-- An upload will be tried again. -/
def retry (r : UploadRecords) (i : Inode) : UploadRecords :=
  { r with started := r.started.erase i, progress := r.progress.erase i }

/-- `clear_all`: the inode has left the queue. -/
def clearAll (r : UploadRecords) (i : Inode) : UploadRecords :=
  { started := r.started.erase i
    firstStarted := r.firstStarted.erase i
    attempts := r.attempts.erase i
    progress := r.progress.erase i }

/-- What an event of the loop does to the maps. -/
def next (cfg : UploadConfig) (s : UploadLoop) (r : UploadRecords) : LoopEvent → UploadRecords
  | .timer order => (s.launched cfg (.timer order)).foldl (fun r i => r.launch s.now i) r
  | .completed k result =>
    match s.inFlight[k]?, result with
    | none, _ => r
    | some i, .ok () => r.clearAll i
    | some i, .error .conflict => r.clearAll i
    | some i, .error e => if e.isRetryable then r.retry i else r.clearAll i
  -- the error of a task that panicked does not say which upload it was
  | .panicked _ => r
  | _ => r

end UploadRecords

/-- The loop with its maps. -/
structure ReportingLoop where
  queue : UploadLoop
  records : UploadRecords

/-- An event of the loop, or the progress of an upload. A task of its own forwards the progress,
which may be late and arrive when the upload is over. -/
inductive ReportingEvent
  | loop (e : LoopEvent)
  | progress (i : Inode) (bytes : ℕ)

namespace ReportingLoop

def start (cfg : UploadConfig) (now : ℕ) (t : TimeOfDay) : ReportingLoop :=
  ⟨.start cfg now t, .empty⟩

def step (cfg : UploadConfig) (s : ReportingLoop) : ReportingEvent → Option ReportingLoop
  | .loop e => (s.queue.step cfg e).map fun q => ⟨q, s.records.next cfg s.queue e⟩
  | .progress i bytes =>
    some { s with records := { s.records with progress := s.records.progress.insert i bytes } }

end ReportingLoop

/-! ## The snapshot -/

structure ActiveUpload where
  inode : Inode
  path : Str
  sizeBytes : ℕ
  startedAtUnix : ℤ
  firstStartedUnix : ℤ
  attempt : ℕ
  bytesUploaded : Option ℕ
  deriving DecidableEq, Repr

/-- The fields of the mount's health are filled in by `collect_mount_status`. -/
structure QueueStatus where
  pending : ℕ
  inFlight : List ActiveUpload
  deriving DecidableEq, Repr

/-- The seconds since an instant. -/
def elapsedSecs (now since : ℕ) : ℤ := ((now - since) / 1000000000 : ℕ)

namespace ReportingLoop

/-- The line of an upload. `unix` is what the clock on the wall shows. -/
def activeUpload (s : ReportingLoop) (db : Db) (unix : ℤ) (i : Inode) (started : ℕ) :
    ActiveUpload :=
  let elapsed := elapsedSecs s.queue.now started
  { inode := i
    path := ((db.getByInode i).map FileEntry.remotePath).getD "(unknown)".toList
    sizeBytes := ((db.getByInode i).map FileEntry.size).getD 0
    startedAtUnix := unix - elapsed
    firstStartedUnix := unix -
      ((s.records.firstStarted.lookup i).map (elapsedSecs s.queue.now)).getD elapsed
    attempt := (s.records.attempts.lookup i).getD 1
    bytesUploaded := s.records.progress.lookup i }

/-- `build_queue_snapshot`. -/
def buildQueueSnapshot (s : ReportingLoop) (db : Db) (unix : ℤ) : QueueStatus :=
  { pending := s.queue.pending.entries.length
    inFlight := s.records.started.entries.map fun x => s.activeUpload db unix x.1 x.2 }

end ReportingLoop

/-! ## What the numbers mean -/

/-- What happens to an inode in the queue. -/
inductive UploadMark
  | launched (at_ : ℕ)
  | progress (bytes : ℕ)
  | retried
  | left
  deriving DecidableEq, Repr

namespace UploadMark

/-- The attempt is over. -/
def isEnd : UploadMark → Bool
  | retried | left => true
  | _ => false

/-- The inode has left the queue for good. -/
def isLeft : UploadMark → Bool
  | left => true
  | _ => false

def launchTime : UploadMark → Option ℕ
  | launched t => some t
  | _ => none

/-- The bytes reported. -/
def bytes : UploadMark → Option ℕ
  | launched _ => some 0
  | progress b => some b
  | _ => none

end UploadMark

/-- The marks of all inodes, in the order of their events. -/
abbrev UploadLog := List (Inode × UploadMark)

/-- What has happened to one inode. -/
def UploadLog.own (log : UploadLog) (i : Inode) : List UploadMark :=
  log.filterMap fun x => if x.1 = i then some x.2 else none

/-- The times of the attempts since the inode has last left the queue. -/
def UploadLog.tries (log : UploadLog) (i : Inode) : List ℕ :=
  (since UploadMark.isLeft (log.own i)).filterMap UploadMark.launchTime

/-- What was reported since the last attempt was over. -/
def UploadLog.reported (log : UploadLog) (i : Inode) : List ℕ :=
  (since UploadMark.isEnd (log.own i)).filterMap UploadMark.bytes

namespace ReportingLoop

/-- The marks of an event. -/
def marks (cfg : UploadConfig) (s : ReportingLoop) : ReportingEvent → UploadLog
  | .loop (.timer order) =>
    (s.queue.launched cfg (.timer order)).map fun i => (i, .launched s.queue.now)
  | .loop (.completed k result) =>
    (s.queue.inFlight[k]?.map fun i =>
      (i, if result = .error .transient then .retried else .left)).toList
  | .loop _ => []
  | .progress i bytes => [(i, .progress bytes)]

/-- The runs with their log. -/
abbrev loggedStep (cfg : UploadConfig) :
    ReportingLoop × UploadLog → ReportingEvent → Option (ReportingLoop × UploadLog) :=
  withHistory (step cfg) fun s e _ log => log ++ s.marks cfg e

end ReportingLoop

/-- What a mark does to the maps. -/
def UploadRecords.mark (r : UploadRecords) : Inode × UploadMark → UploadRecords
  | (i, .launched t) => r.launch t i
  | (i, .progress bytes) => { r with progress := r.progress.insert i bytes }
  | (i, .retried) => r.retry i
  | (i, .left) => r.clearAll i

section Registers

variable {cfg : UploadConfig} {s s' : ReportingLoop} {e : ReportingEvent} {i : Inode}

/-- The maps follow the marks. -/
theorem records_of_step (h : s.step cfg e = some s') :
    s'.records = (s.marks cfg e).foldl UploadRecords.mark s.records := by
  cases e with
  | progress i bytes =>
    obtain rfl := Option.some.inj h
    rfl
  | loop e =>
    obtain ⟨q, -, rfl⟩ := Option.map_eq_some_iff.1 h
    cases e with
    | timer order =>
      rw [ReportingLoop.marks, List.foldl_map]
      rfl
    | completed k result =>
      simp only [UploadRecords.next, ReportingLoop.marks]
      cases s.queue.inFlight[k]? with
      | none => rfl
      | some i =>
        obtain error | _ := result
        · cases error <;> rfl
        · rfl
    | _ => rfl

/-- A register of one inode, over the log of all. -/
theorem register_foldl (g : UploadRecords → Option ℕ) (reset : UploadMark → Bool)
    (f : Option ℕ → UploadMark → Option ℕ) (hempty : g .empty = none)
    (h : ∀ r x, g (r.mark x) =
      if x.1 = i then if reset x.2 then none else f (g r) x.2 else g r) (log : UploadLog) :
    g (log.foldl UploadRecords.mark .empty) = (since reset (log.own i)).foldl f none := by
  rw [← foldl_reset]
  induction log using List.reverseRecOn with
  | nil => exact hempty
  | append_singleton log x ih =>
    rw [List.foldl_concat, h, ih, UploadLog.own, UploadLog.own, List.filterMap_append,
      List.foldl_append, List.filterMap_cons, List.filterMap_nil]
    by_cases hx : x.1 = i
    · rw [if_pos hx, if_pos hx]
      rfl
    · rw [if_neg hx, if_neg hx]
      rfl

theorem lookup_insert_ite (m : AList fun _ : Inode => ℕ) (j : Inode) (n : ℕ) :
    (m.insert j n).lookup i = if j = i then some n else m.lookup i := by
  by_cases hji : j = i
  · rw [hji, AList.lookup_insert, if_pos rfl]
  · rw [AList.lookup_insert_ne (Ne.symm hji), if_neg hji]

theorem lookup_erase_ite (m : AList fun _ : Inode => ℕ) (j : Inode) :
    (m.erase j).lookup i = if j = i then none else m.lookup i := by
  by_cases hji : j = i
  · rw [hji, AList.lookup_erase, if_pos rfl]
  · rw [AList.lookup_erase_ne (Ne.symm hji), if_neg hji]

theorem started_mark (r : UploadRecords) (x : Inode × UploadMark) :
    (r.mark x).started.lookup i =
      if x.1 = i then
        if x.2.isEnd then none else x.2.launchTime.or (r.started.lookup i)
      else r.started.lookup i := by
  obtain ⟨j, m⟩ := x
  cases m with
  | launched t => exact lookup_insert_ite r.started j t
  | progress b => exact (ite_self _).symm
  | retried => exact lookup_erase_ite r.started j
  | left => exact lookup_erase_ite r.started j

theorem progress_mark (r : UploadRecords) (x : Inode × UploadMark) :
    (r.mark x).progress.lookup i =
      if x.1 = i then
        if x.2.isEnd then none else x.2.bytes.or (r.progress.lookup i)
      else r.progress.lookup i := by
  obtain ⟨j, m⟩ := x
  cases m with
  | launched t => exact lookup_insert_ite r.progress j 0
  | progress b => exact lookup_insert_ite r.progress j b
  | retried => exact lookup_erase_ite r.progress j
  | left => exact lookup_erase_ite r.progress j

theorem firstStarted_mark (r : UploadRecords) (x : Inode × UploadMark) :
    (r.mark x).firstStarted.lookup i =
      if x.1 = i then
        if x.2.isLeft then none else (r.firstStarted.lookup i).or x.2.launchTime
      else r.firstStarted.lookup i := by
  obtain ⟨j, m⟩ := x
  cases m with
  | launched t =>
    simp only [UploadRecords.mark, UploadRecords.launch]
    cases hfirst : r.firstStarted.lookup j with
    | none =>
      dsimp only
      rw [lookup_insert_ite]
      by_cases hji : j = i
      · rw [if_pos hji, if_pos hji, ← hji, hfirst]
        rfl
      · rw [if_neg hji, if_neg hji]
    | some t' =>
      dsimp only
      by_cases hji : j = i
      · rw [if_pos hji, ← hji, hfirst]
        rfl
      · rw [if_neg hji]
  | progress b =>
    refine (ite_eq_right_iff.2 fun _ => ?_).symm
    exact Option.or_none
  | retried =>
    refine (ite_eq_right_iff.2 fun _ => ?_).symm
    exact Option.or_none
  | left => exact lookup_erase_ite r.firstStarted j

theorem attempts_mark (r : UploadRecords) (x : Inode × UploadMark) :
    (r.mark x).attempts.lookup i =
      if x.1 = i then
        if x.2.isLeft then none
        else if x.2.launchTime.isSome then
          some (((r.attempts.lookup i).getD 0 + 1) % 2 ^ 32)
        else r.attempts.lookup i
      else r.attempts.lookup i := by
  obtain ⟨j, m⟩ := x
  cases m with
  | launched t =>
    refine (lookup_insert_ite r.attempts j _).trans ?_
    by_cases hji : j = i
    · rw [if_pos hji, if_pos hji, hji]
      rfl
    · rw [if_neg hji, if_neg hji]
  | progress b => exact (ite_self _).symm
  | retried => exact (ite_self _).symm
  | left => exact lookup_erase_ite r.attempts j

/-- **What the maps hold**, read off the log. -/
theorem lookups_of_log (log : UploadLog) (i : Inode) :
    let r := log.foldl UploadRecords.mark .empty
    r.started.lookup i =
        ((since UploadMark.isEnd (log.own i)).filterMap UploadMark.launchTime).getLast? ∧
      r.firstStarted.lookup i = (log.tries i).head? ∧
      r.attempts.lookup i =
        (if (log.tries i).length = 0 then none else some ((log.tries i).length % 2 ^ 32)) ∧
      r.progress.lookup i = (log.reported i).getLast? := by
  refine ⟨?_, ?_, ?_, ?_⟩
  · refine (register_foldl (fun r => r.started.lookup i) UploadMark.isEnd
      (fun c x => x.launchTime.or c) rfl started_mark log).trans ?_
    rw [foldl_last, Option.or_none]
  · exact (register_foldl (fun r => r.firstStarted.lookup i) UploadMark.isLeft
      (fun c x => c.or x.launchTime) rfl firstStarted_mark log).trans (foldl_first _ _ none)
  · refine (register_foldl (fun r => r.attempts.lookup i) UploadMark.isLeft
      (fun c x => if x.launchTime.isSome then some ((c.getD 0 + 1) % 2 ^ 32) else c) rfl
      attempts_mark log).trans ?_
    rw [foldl_tally, UploadLog.tries, List.length_filterMap_eq_countP]
  · refine (register_foldl (fun r => r.progress.lookup i) UploadMark.isEnd
      (fun c x => x.bytes.or c) rfl progress_mark log).trans ?_
    rw [foldl_last, Option.or_none]
    rfl

end Registers

namespace ReportingLoop

variable {cfg : UploadConfig} {s s' : ReportingLoop} {e : ReportingEvent}

theorem records_of_run {now : ℕ} {t : TimeOfDay} {es : List ReportingEvent} {log : UploadLog}
    (h : run (loggedStep cfg) (start cfg now t, []) es = some (s, log)) :
    s.records = log.foldl UploadRecords.mark .empty := by
  refine inv_of_run (I := fun x : ReportingLoop × UploadLog =>
    x.1.records = x.2.foldl UploadRecords.mark .empty) ?_ rfl
    (Guarded.of_forall (G := fun _ _ => True) (fun _ _ _ => trivial) _) h
  rintro ⟨s, log⟩ e ⟨s', log'⟩ hlog - hs
  obtain ⟨hstep, hnext⟩ := withHistory_eq_some.1 hs
  dsimp only at hstep hnext hlog ⊢
  rw [hnext, List.foldl_append, ← hlog]
  exact records_of_step hstep

/-- **What a line of the snapshot says.** The attempt and the first start count from when the inode
last left the queue for good: over the retries, and over nothing else. The bytes are those last
reported since an attempt was over. -/
theorem reports_of_run {now : ℕ} {t : TimeOfDay} {es : List ReportingEvent} {log : UploadLog}
    (h : run (loggedStep cfg) (start cfg now t, []) es = some (s, log)) {db : Db} {unix : ℤ}
    {u : ActiveUpload} (hu : u ∈ (s.buildQueueSnapshot db unix).inFlight) :
    ∃ first last bytes, (log.tries u.inode).head? = some first ∧
      (log.tries u.inode).getLast? = some last ∧ (log.reported u.inode).getLast? = some bytes ∧
      u.firstStartedUnix = unix - elapsedSecs s.queue.now first ∧
      u.startedAtUnix = unix - elapsedSecs s.queue.now last ∧
      u.attempt = (log.tries u.inode).length % 2 ^ 32 ∧ u.bytesUploaded = some bytes := by
  obtain ⟨⟨i, started⟩, hmem, rfl⟩ := List.mem_map.1 hu
  have hlookup : s.records.started.lookup i = some started := AList.mem_lookup_iff.2 hmem
  obtain ⟨hstarted, hfirst, hattempts, hprogress⟩ := lookups_of_log log i
  rw [← records_of_run h] at hstarted hfirst hattempts hprogress
  rw [hlookup] at hstarted
  -- the attempts since the last is over are the last of those since the inode has left
  have hsuffix : (since UploadMark.isEnd (log.own i)).filterMap UploadMark.launchTime <:+
      log.tries i := by
    refine List.IsSuffix.filterMap _ (since_suffix_since fun m hm => ?_)
    cases m <;> first | rfl | cases hm
  have hlast : (log.tries i).getLast? = some started := by
    obtain ⟨ts, hts⟩ := hsuffix
    rw [← hts, List.getLast?_append, ← hstarted]
    rfl
  have hne : (log.tries i).length ≠ 0 := by
    intro hnil
    rw [List.length_eq_zero_iff.1 hnil] at hlast
    cases hlast
  obtain ⟨first, htries⟩ : ∃ first, (log.tries i).head? = some first :=
    Option.isSome_iff_exists.1 (List.isSome_head?.2 fun hnil => hne (by rw [hnil]; rfl))
  rw [htries] at hfirst
  rw [if_neg hne] at hattempts
  obtain ⟨bytes, hbytes⟩ : ∃ bytes, (log.reported i).getLast? = some bytes := by
    obtain ⟨m, hm, htime⟩ := List.mem_filterMap.1 (List.mem_of_getLast? hstarted.symm)
    refine Option.isSome_iff_exists.1 (List.getLast?_isSome.2 (List.ne_nil_of_mem (a := 0) ?_))
    cases m with
    | launched t => exact List.mem_filterMap.2 ⟨_, hm, rfl⟩
    | _ => cases htime
  rw [hbytes] at hprogress
  refine ⟨first, started, bytes, htries, hlast, hbytes, ?_, rfl, ?_, hprogress⟩
  · simp only [activeUpload, hfirst, Option.map_some, Option.getD_some]
  · simp only [activeUpload, hattempts, Option.getD_some]

/-! ## The list of the uploads in flight -/

/-- No task panics, and no second upload of an inode is launched. -/
def KeepsCount (cfg : UploadConfig) (s : ReportingLoop) : ReportingEvent → Prop
  | .loop (.panicked _) => False
  | .loop e => UploadLoop.Spaced cfg s.queue e
  | .progress _ _ => True

/-- The snapshot lists the uploads in flight, each once. -/
def ListsInFlight (s : ReportingLoop) : Prop :=
  ∀ db unix, ((s.buildQueueSnapshot db unix).inFlight.map ActiveUpload.inode).Perm s.queue.inFlight

theorem inodes_buildQueueSnapshot (db : Db) (unix : ℤ) :
    (s.buildQueueSnapshot db unix).inFlight.map ActiveUpload.inode = s.records.started.keys := by
  rw [buildQueueSnapshot, List.map_map]
  rfl

theorem mem_started_foldl_launch (now : ℕ) (is : List Inode) (r : UploadRecords) (i : Inode) :
    i ∈ (is.foldl (fun r i => r.launch now i) r).started ↔ i ∈ r.started ∨ i ∈ is := by
  induction is generalizing r with
  | nil => simp
  | cons j is ih =>
    rw [List.foldl_cons, ih, UploadRecords.launch, AList.mem_insert, List.mem_cons]
    tauto

/-- **The step**: the list stays right exactly when the step keeps count. -/
theorem listsInFlight_iff_of_step (hs : s.records.started.keys.Perm s.queue.inFlight)
    (h : s.step cfg e = some s') :
    s'.records.started.keys.Perm s'.queue.inFlight ↔ KeepsCount cfg s e := by
  have hnodup : s.queue.inFlight.Nodup := hs.nodup_iff.1 s.records.started.keys_nodup
  cases e with
  | progress i bytes =>
    obtain rfl := Option.some.inj h
    exact iff_of_true hs trivial
  | loop e =>
    obtain ⟨q, hq, rfl⟩ := Option.map_eq_some_iff.1 h
    have hflight := UploadLoop.inFlight_of_step hq
    cases e with
    | elapse nanos localTime | trigger t =>
      refine iff_of_true ?_ fun i hi => absurd hi List.not_mem_nil
      rw [hflight]
      exact (List.append_nil _).symm ▸ hs
    | timer order =>
      have hspaced := UploadLoop.nodup_inFlight_iff hnodup hq
      constructor
      · intro hperm
        exact hspaced.1 (hperm.nodup_iff.1 (AList.keys_nodup _))
      · intro hkeeps
        refine (List.perm_ext_iff_of_nodup (AList.keys_nodup _) (hspaced.2 hkeeps)).2 fun i => ?_
        rw [hflight, List.mem_append, ← AList.mem_keys]
        exact (mem_started_foldl_launch _ _ _ i).trans (or_congr_left hs.mem_iff)
    | completed k result =>
      refine iff_of_true ?_ fun i hi => absurd hi List.not_mem_nil
      obtain ⟨t, ht, -⟩ := Option.map_eq_some_iff.1 hq
      obtain ⟨i, hi, -⟩ := Option.map_eq_some_iff.1 ht
      obtain ⟨hk, hget⟩ := List.getElem?_eq_some_iff.1 hi
      have hkeys : (s.records.next cfg s.queue (.completed k result)).started.keys =
          s.records.started.keys.erase i := by
        rw [← AList.keys_erase]
        simp only [UploadRecords.next, hi]
        obtain error | _ := result
        · cases error <;> rfl
        · rfl
      have hrest : s.queue.inFlight.eraseIdx k = s.queue.inFlight.erase i := by
        rw [← hget, hnodup.erase_getElem]
      rw [hkeys, hflight, show s.queue.launched cfg (.completed k result) = [] from rfl,
        List.append_nil, show s.queue.unfinished (.completed k result) = _ from hrest]
      exact hs.erase i
    | panicked k =>
      refine iff_of_false (fun hperm => ?_) id
      obtain ⟨i, hi, -⟩ := Option.map_eq_some_iff.1 hq
      obtain ⟨hk, -⟩ := List.getElem?_eq_some_iff.1 hi
      have hlen := hperm.length_eq
      rw [hflight, show s.queue.launched cfg (.panicked k) = [] from rfl, List.append_nil,
        show s.queue.unfinished (.panicked k) = s.queue.inFlight.eraseIdx k from rfl,
        List.length_eraseIdx_of_lt hk] at hlen
      have hbefore : s.records.started.keys.length = s.queue.inFlight.length := hs.length_eq
      have hkeys : s.records.started.keys.length = s.queue.inFlight.length - 1 := hlen
      omega

/-- **The dashboard lists just the uploads in flight**, in exactly the runs in which no task panics
and no upload is launched over another of its inode. -/
theorem listsInFlight_iff (cfg : UploadConfig) (now : ℕ) (t : TimeOfDay)
    (es : List ReportingEvent) :
    Along (step cfg) (fun _ _ s' => s'.ListsInFlight) (start cfg now t) es ↔
      Along (step cfg) (fun s e _ => KeepsCount cfg s e) (start cfg now t) es := by
  have hlists : ∀ s : ReportingLoop,
      s.ListsInFlight ↔ s.records.started.keys.Perm s.queue.inFlight := by
    intro s
    constructor
    · intro h
      exact inodes_buildQueueSnapshot (Db.empty 1 0) 0 ▸ h (Db.empty 1 0) 0
    · intro h db unix
      exact (inodes_buildQueueSnapshot db unix).symm ▸ h
  refine along_congr_of_inv
    (I := fun s : ReportingLoop => s.records.started.keys.Perm s.queue.inFlight) ?_ ?_ es
    (List.Perm.refl _)
  · intro s e s' hs h
    rw [hlists, listsInFlight_iff_of_step hs h]
  · intro s e s' _ _ hs'
    exact (hlists s').1 hs'

/-- An upload fails for a while and is tried again; the time of day plays no part. -/
def retriedUpload (t : TimeOfDay) : List ReportingEvent :=
  [.loop (.trigger (.fsync 2)), .loop (.timer [2]), .progress 2 7,
    .loop (.elapse 5000000000 t), .loop (.completed 0 (.error .transient)),
    .loop (.elapse 1000000000 t), .loop (.timer [2])]

theorem reports_of_retriedUpload : ∃ s log u,
    run (loggedStep UploadLoop.twoSlots)
      (start UploadLoop.twoSlots 0 ⟨0, 0⟩, []) (retriedUpload ⟨0, 0⟩) = some (s, log) ∧
    (s.buildQueueSnapshot (Db.empty 1 0) 1000).inFlight = [u] ∧
    u.inode = 2 ∧ u.attempt = 2 ∧ u.firstStartedUnix = 994 ∧ u.startedAtUnix = 1000 ∧
    ∃ first last bytes, (log.tries u.inode).head? = some first ∧
      (log.tries u.inode).getLast? = some last ∧ (log.reported u.inode).getLast? = some bytes ∧
      u.firstStartedUnix = 1000 - elapsedSecs s.queue.now first ∧
      u.startedAtUnix = 1000 - elapsedSecs s.queue.now last ∧
      u.attempt = (log.tries u.inode).length % 2 ^ 32 ∧ u.bytesUploaded = some bytes := by
  have hsnapshot : (run (loggedStep UploadLoop.twoSlots)
      (start UploadLoop.twoSlots 0 ⟨0, 0⟩, []) (retriedUpload ⟨0, 0⟩)).map
        (fun x => (x.1.buildQueueSnapshot (Db.empty 1 0) 1000).inFlight) =
      some [⟨2, "(unknown)".toList, 0, 1000, 994, 2, some 0⟩] := by decide +kernel
  obtain ⟨⟨s, log⟩, hrun, hlines⟩ := Option.map_eq_some_iff.1 hsnapshot
  dsimp only at hlines
  refine ⟨s, log, _, hrun, hlines, rfl, rfl, rfl, rfl, ?_⟩
  exact reports_of_run hrun (hlines ▸ List.mem_singleton_self _)

end ReportingLoop

end Stratosync

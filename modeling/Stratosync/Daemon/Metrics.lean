import Stratosync.Backend.RcloneStderr
import Stratosync.Foundations.Exposition
import Stratosync.Foundations.Messages
import Stratosync.Sync.PollLoop
import Stratosync.Sync.UploadReports

/-!
# The metrics endpoint

The status of the daemon as text, and the small server that hands it out. `scrape_reads_status`:
whoever asks for the metrics reads back, for every mount whatever its name, the values of the
status, and no others.
-/

namespace Stratosync

open Foundations Foundations.Exposition Rclone

/-! ## The status -/

structure CacheStatus where
  usedBytes : ℕ
  quotaBytes : ℕ
  pinnedCount : ℕ
  deriving DecidableEq, Repr

/-- The queue with the health of the uploads of the mount. -/
structure MountQueueStatus extends QueueStatus where
  consecutiveFailures : ℕ
  busy : Bool
  deriving DecidableEq, Repr

structure HydrationStatus where
  active : ℕ
  waiters : ℕ
  consecutiveFailures : ℕ
  deriving DecidableEq, Repr

structure MountStatus where
  name : Str
  cache : CacheStatus
  queue : MountQueueStatus
  poller : PollerStatus
  hydration : HydrationStatus
  conflicts : ℕ
  deriving DecidableEq, Repr

structure DaemonStatus where
  version : Str
  pid : ℕ
  uptimeSecs : ℕ
  mounts : List MountStatus
  deriving DecidableEq, Repr

/-! ## The text -/

def natText (n : ℕ) : Str := Nat.toDigits 10 n

def intText : ℤ → Str
  | .ofNat n => natText n
  | .negSucc n => '-' :: natText (n + 1)

/-- `escape_label`. -/
def escapeLabel (s : Str) : Str :=
  s.flatMap fun c =>
    if c = '\\' then ['\\', '\\']
    else if c = '"' then ['\\', '"']
    else if c = '\n' then ['\\', 'n']
    else [c]

def escapeHelp (s : Str) : Str :=
  s.flatMap fun c =>
    if c = '\\' then ['\\', '\\'] else if c = '\n' then ['\\', 'n'] else [c]

def helpBegin : Str := "# HELP ".toList
def typeBegin : Str := "# TYPE ".toList
def gauge : Str := "gauge".toList

def metricHelp (name help : Str) : Str :=
  helpBegin ++ name ++ [' '] ++ escapeHelp help ++ ['\n']

def metricType (name ty : Str) : Str := typeBegin ++ name ++ [' '] ++ ty ++ ['\n']

/-- A gauge with a value for each mount. -/
structure MountGauge where
  name : String
  help : String
  value : MountStatus → ℕ

def mountBegin : Str := "\x7bmount=\"".toList
def versionBegin : Str := "\x7bversion=\"".toList
def labelEnd : Str := "\"\x7d ".toList

/-- The line of a mount. -/
def mountLine (name : Str) (m : MountStatus) (value : Str) : Str :=
  name ++ mountBegin ++ escapeLabel m.name ++ labelEnd ++ value ++ ['\n']

def emitMountGauge (s : DaemonStatus) (g : MountGauge) : Str :=
  metricHelp g.name.toList g.help.toList ++ metricType g.name.toList gauge ++
    s.mounts.flatMap fun m => mountLine g.name.toList m (natText (g.value m))

/-- The gauges of the mounts, in the order in which they are emitted. -/
def mountGauges : List MountGauge :=
  [⟨"stratosync_mount_cache_used_bytes",
      "Bytes currently held in the local cache for this mount.", fun m => m.cache.usedBytes⟩,
    ⟨"stratosync_mount_cache_quota_bytes",
      "Configured cache quota for this mount in bytes.", fun m => m.cache.quotaBytes⟩,
    ⟨"stratosync_mount_pinned_files",
      "Number of files pinned for offline availability.", fun m => m.cache.pinnedCount⟩,
    ⟨"stratosync_mount_upload_queue_pending",
      "Files waiting to be uploaded.", fun m => m.queue.pending⟩,
    ⟨"stratosync_mount_upload_queue_in_flight",
      "Files currently being uploaded.", fun m => m.queue.inFlight.length⟩,
    ⟨"stratosync_mount_upload_queue_busy",
      "1 when the upload loop did not answer the status snapshot in time; " ++
        "pending/in_flight are then unknown, not zero.",
      fun m => m.queue.busy.toNat⟩,
    ⟨"stratosync_mount_upload_consecutive_failures",
      "Upload failures since the last success. Non-zero means uploads are stalling.",
      fun m => m.queue.consecutiveFailures⟩,
    ⟨"stratosync_mount_hydration_active",
      "Files currently downloading from the remote.", fun m => m.hydration.active⟩,
    ⟨"stratosync_mount_hydration_waiters",
      "Total open() callers blocked on a hydration.", fun m => m.hydration.waiters⟩,
    ⟨"stratosync_mount_hydration_consecutive_failures",
      "Hydration failures since the last success. Non-zero means downloads are stalling.",
      fun m => m.hydration.consecutiveFailures⟩,
    ⟨"stratosync_mount_conflicts",
      "Number of conflict files present for this mount.", fun m => m.conflicts⟩,
    ⟨"stratosync_mount_poller_consecutive_failures",
      "Poll failures since the last success. Zero means the last poll succeeded.",
      fun m => m.poller.consecutiveFailures⟩,
    ⟨"stratosync_mount_poller_interval_seconds",
      "Current polling interval. May exceed the configured value during backoff.",
      fun m => m.poller.currentIntervalSecs⟩]

def buildInfo : Str := "stratosync_build_info".toList
def daemonUptime : Str := "stratosync_daemon_uptime_seconds".toList
def daemonPid : Str := "stratosync_daemon_pid".toList
def mountsTotal : Str := "stratosync_mounts_total".toList
def lastPoll : Str := "stratosync_mount_poller_last_poll_timestamp_seconds".toList

def buildInfoHelp : Str := "Build information about the daemon. Always 1.".toList
def daemonUptimeHelp : Str := "Seconds since the daemon started.".toList
def daemonPidHelp : Str := "Process ID of the daemon.".toList
def mountsTotalHelp : Str := "Number of configured mounts in the daemon.".toList
def lastPollHelp : Str :=
  ("Unix timestamp of the most recent successful poll. " ++
    "Absent if the mount has not polled yet.").toList

/-- `render_prometheus`. -/
def renderPrometheus (s : DaemonStatus) : Str :=
  (metricHelp buildInfo buildInfoHelp ++ metricType buildInfo gauge ++
    (buildInfo ++ versionBegin ++ escapeLabel s.version ++ labelEnd ++ ['1'] ++ ['\n'])) ++
  (metricHelp daemonUptime daemonUptimeHelp ++ metricType daemonUptime gauge ++
    (daemonUptime ++ [' '] ++ natText s.uptimeSecs ++ ['\n'])) ++
  (metricHelp daemonPid daemonPidHelp ++ metricType daemonPid gauge ++
    (daemonPid ++ [' '] ++ natText s.pid ++ ['\n'])) ++
  (metricHelp mountsTotal mountsTotalHelp ++ metricType mountsTotal gauge ++
    (mountsTotal ++ [' '] ++ natText s.mounts.length ++ ['\n'])) ++
  mountGauges.flatMap (emitMountGauge s) ++
  (metricHelp lastPoll lastPollHelp ++ metricType lastPoll gauge ++
    s.mounts.flatMap fun m =>
      match m.poller.lastPollUnix with
      | some ts => mountLine lastPoll m (intText ts)
      | none => [])

/-! ## The families -/

def mountLabel : Str := "mount".toList
def versionLabel : Str := "version".toList

def infoFamily (s : DaemonStatus) : Family :=
  ⟨buildInfo, buildInfoHelp, gauge, [⟨[(versionLabel, s.version)], ['1']⟩]⟩

/-- A gauge without labels. -/
def plainFamily (name help : Str) (n : ℕ) : Family := ⟨name, help, gauge, [⟨[], natText n⟩]⟩

/-- The series of a mount. -/
def mountSample (m : MountStatus) (value : Str) : Sample := ⟨[(mountLabel, m.name)], value⟩

def mountFamily (s : DaemonStatus) (g : MountGauge) : Family :=
  ⟨g.name.toList, g.help.toList, gauge,
    s.mounts.map fun m => mountSample m (natText (g.value m))⟩

def lastPollFamily (s : DaemonStatus) : Family :=
  ⟨lastPoll, lastPollHelp, gauge,
    s.mounts.filterMap fun m => m.poller.lastPollUnix.map fun ts => mountSample m (intText ts)⟩

/-- What there is to be read. -/
def families (s : DaemonStatus) : List Family :=
  [infoFamily s,
    plainFamily daemonUptime daemonUptimeHelp s.uptimeSecs,
    plainFamily daemonPid daemonPidHelp s.pid,
    plainFamily mountsTotal mountsTotalHelp s.mounts.length] ++
  mountGauges.map (mountFamily s) ++ [lastPollFamily s]

theorem escapeLabel_eq (s : Str) : escapeLabel s = escape true s := by
  rw [escapeLabel, escape]
  refine congrArg (List.flatMap · s) (funext fun c => ?_)
  rw [escapeChar]
  by_cases hb : c = '\\'
  · rw [if_pos hb, if_pos hb]
  rw [if_neg hb, if_neg hb]
  by_cases hq : c = '"'
  · rw [hq]
    rfl
  · simp [hq]

theorem escapeHelp_eq (s : Str) : escapeHelp s = escape false s := by
  rw [escapeHelp, escape]
  refine congrArg (List.flatMap · s) (funext fun c => ?_)
  rw [escapeChar, Bool.false_and, if_neg Bool.false_ne_true]

theorem helpBegin_eq : helpBegin = helpMark := by decide

theorem typeBegin_eq : typeBegin = typeMark := by decide

theorem mountBegin_eq : mountBegin = '{' :: (mountLabel ++ ['=', '"']) := by decide

theorem versionBegin_eq : versionBegin = '{' :: (versionLabel ++ ['=', '"']) := by decide

theorem labelEnd_eq : labelEnd = ['"', '}', ' '] := by decide

/-- The lines before the samples of a family. -/
theorem metric_eq (name help ty : Str) : metricHelp name help ++ metricType name ty =
    renderLines [.help name help, .type name ty] := by
  rw [metricHelp, metricType, escapeHelp_eq, helpBegin_eq, typeBegin_eq]
  simp only [renderLines, Line.render, List.flatMap_cons, List.flatMap_nil, List.append_assoc,
    List.cons_append, List.nil_append, List.append_nil]

/-- A line with a label. -/
theorem labelled_eq (name label text value : Str) :
    name ++ '{' :: (label ++ ['=', '"']) ++ escapeLabel text ++ labelEnd ++ value ++ ['\n'] =
      renderLines [.sample name ⟨[(label, text)], value⟩] := by
  rw [escapeLabel_eq, labelEnd_eq]
  simp only [renderLines, Line.render, renderLabels, renderLabel, List.flatMap_cons,
    List.flatMap_nil, List.append_assoc, List.cons_append, List.nil_append, List.append_nil,
    reduceCtorEq, if_false]

theorem mountLine_eq (name : Str) (m : MountStatus) (value : Str) :
    mountLine name m value = renderLines [.sample name (mountSample m value)] := by
  rw [mountLine, mountBegin_eq, labelled_eq, mountSample]

theorem family_eq {name help ty body : Str} {samples : List Sample}
    (h : body = samples.flatMap fun s => renderLines [.sample name s]) :
    metricHelp name help ++ metricType name ty ++ body =
      (⟨name, help, ty, samples⟩ : Family).text := by
  rw [metric_eq, Family.text_eq, h]

theorem plainFamily_eq (name help : Str) (n : ℕ) :
    metricHelp name help ++ metricType name gauge ++ (name ++ [' '] ++ natText n ++ ['\n']) =
      (plainFamily name help n).text := by
  refine family_eq ?_
  simp only [renderLines, Line.render, List.flatMap_cons, List.flatMap_nil, List.append_assoc,
    List.cons_append, List.nil_append, List.append_nil, if_true]

theorem mountFamily_eq (s : DaemonStatus) (g : MountGauge) :
    emitMountGauge s g = (mountFamily s g).text := by
  rw [emitMountGauge]
  refine family_eq ?_
  rw [List.flatMap_map]
  exact congrArg (List.flatMap · s.mounts) (funext fun m => mountLine_eq _ m _)

/-- The text is that of the families. -/
theorem renderPrometheus_eq (s : DaemonStatus) : renderPrometheus s = render (families s) := by
  have hinfo : metricHelp buildInfo buildInfoHelp ++ metricType buildInfo gauge ++
      (buildInfo ++ versionBegin ++ escapeLabel s.version ++ labelEnd ++ ['1'] ++ ['\n']) =
        (infoFamily s).text := by
    refine family_eq ?_
    rw [versionBegin_eq, labelled_eq, List.flatMap_cons, List.flatMap_nil, List.append_nil]
  have hlast : (metricHelp lastPoll lastPollHelp ++ metricType lastPoll gauge ++
      s.mounts.flatMap fun m =>
        match m.poller.lastPollUnix with
        | some ts => mountLine lastPoll m (intText ts)
        | none => []) = (lastPollFamily s).text := by
    refine family_eq ?_
    induction s.mounts with
    | nil => rfl
    | cons m ms ih =>
      rw [List.flatMap_cons, ih, List.filterMap_cons]
      cases m.poller.lastPollUnix with
      | none => rfl
      | some ts =>
        rw [Option.map_some, List.flatMap_cons, ← mountLine_eq]
  have hgauges : mountGauges.flatMap (emitMountGauge s) =
      (mountGauges.map (mountFamily s)).flatMap Family.text := by
    rw [List.flatMap_map]
    exact congrArg (List.flatMap · mountGauges) (funext (mountFamily_eq s))
  rw [renderPrometheus, hinfo, hlast, hgauges, plainFamily_eq, plainFamily_eq, plainFamily_eq,
    render_eq, families]
  simp only [List.flatMap_append, List.flatMap_cons, List.flatMap_nil, List.append_nil,
    List.append_assoc]

/-! ## Reading it back -/

theorem not_mem_natText (n : ℕ) : '\n' ∉ natText n := by
  intro h
  have hdigit := Nat.isDigit_of_mem_toDigits (by decide) (by decide) h
  revert hdigit
  decide

theorem not_mem_intText (n : ℤ) : '\n' ∉ intText n := by
  cases n with
  | ofNat n => exact not_mem_natText n
  | negSucc n =>
    rw [intText, List.mem_cons, not_or]
    exact ⟨by decide, not_mem_natText _⟩

theorem plain_names : ∀ name ∈ [buildInfo, daemonUptime, daemonPid, mountsTotal, lastPoll],
    Plain name := by
  decide

theorem plain_mountGauges : ∀ g ∈ mountGauges, Plain g.name.toList := by
  decide

theorem not_mem_labels : ('=' ∉ mountLabel ∧ '\n' ∉ mountLabel) ∧
    '=' ∉ versionLabel ∧ '\n' ∉ versionLabel := by
  decide

theorem mem_families {s : DaemonStatus} {f : Family} : f ∈ families s ↔
    f = infoFamily s ∨ f = plainFamily daemonUptime daemonUptimeHelp s.uptimeSecs ∨
      f = plainFamily daemonPid daemonPidHelp s.pid ∨
      f = plainFamily mountsTotal mountsTotalHelp s.mounts.length ∨
      (∃ g ∈ mountGauges, f = mountFamily s g) ∨ f = lastPollFamily s := by
  simp only [families, List.mem_append, List.mem_cons, List.not_mem_nil, or_false, List.mem_map,
    or_assoc, eq_comm]

/-- What is written can be read, whatever the names of the mounts. -/
theorem writable_families (s : DaemonStatus) : ∀ f ∈ families s, f.Writable := by
  have hgauge : '\n' ∉ gauge := by decide
  have hone : '\n' ∉ ['1'] := by decide
  have hplain : ∀ name help n, Plain name → (plainFamily name help n).Writable := by
    intro name help n hname
    refine Family.writable hname hgauge fun x hx => ?_
    obtain rfl := List.mem_singleton.1 hx
    exact ⟨fun l hl => absurd hl List.not_mem_nil, not_mem_natText n⟩
  have hlabel : ∀ {label text : Str}, '=' ∉ label ∧ '\n' ∉ label →
      ∀ l ∈ [(label, text)], '=' ∉ l.1 ∧ '\n' ∉ l.1 := by
    intro label text h l hl
    obtain rfl := List.mem_singleton.1 hl
    exact h
  intro f hf
  rcases mem_families.1 hf with rfl | rfl | rfl | rfl | ⟨g, hg, rfl⟩ | rfl
  · refine Family.writable (f := infoFamily s) (plain_names buildInfo (by simp)) hgauge
      fun x hx => ?_
    obtain rfl := List.mem_singleton.1 hx
    exact ⟨hlabel not_mem_labels.2, hone⟩
  · exact hplain _ _ _ (plain_names daemonUptime (by simp))
  · exact hplain _ _ _ (plain_names daemonPid (by simp))
  · exact hplain _ _ _ (plain_names mountsTotal (by simp))
  · refine Family.writable (plain_mountGauges g hg) hgauge fun x hx => ?_
    obtain ⟨m, -, rfl⟩ := List.mem_map.1 hx
    exact ⟨hlabel not_mem_labels.1, not_mem_natText _⟩
  · refine Family.writable (f := lastPollFamily s) (plain_names lastPoll (by simp)) hgauge
      fun x hx => ?_
    obtain ⟨m, -, hm⟩ := List.mem_filterMap.1 hx
    obtain ⟨ts, -, rfl⟩ := Option.map_eq_some_iff.1 hm
    exact ⟨hlabel not_mem_labels.1, not_mem_intText ts⟩

theorem nodup_names (s : DaemonStatus) : ((families s).map Family.name).Nodup := by
  have hnames : (families s).map Family.name = [buildInfo, daemonUptime, daemonPid, mountsTotal] ++
      mountGauges.map (fun g => g.name.toList) ++ [lastPoll] := by
    rw [families, List.map_append, List.map_append, List.map_map]
    rfl
  rw [hnames]
  decide

/-- No two series are the same when no two mounts have one name. -/
theorem valid_families_iff (s : DaemonStatus) :
    Valid (families s) ↔ (s.mounts.map MountStatus.name).Nodup := by
  have hlabels : ∀ (ms : List MountStatus) (value : MountStatus → Str),
      (ms.map fun m => mountSample m (value m)).map Sample.labels =
        (ms.map MountStatus.name).map fun name => [(mountLabel, name)] := by
    intro ms value
    rw [List.map_map, List.map_map]
    rfl
  have hinj : Function.Injective fun name : Str => [(mountLabel, name)] := by
    intro a b h
    simpa using h
  constructor
  · intro h
    have hhead : mountGauges.head (by simp [mountGauges]) ∈ mountGauges := List.head_mem _
    have hfirst := h.2 _ (mem_families.2 (.inr (.inr (.inr (.inr (.inl ⟨_, hhead, rfl⟩))))))
    rw [mountFamily, hlabels] at hfirst
    exact hfirst.of_map _
  · intro h
    refine ⟨nodup_names s, fun f hf => ?_⟩
    rcases mem_families.1 hf with rfl | rfl | rfl | rfl | ⟨g, hg, rfl⟩ | rfl
    · exact List.nodup_singleton _
    · exact List.nodup_singleton _
    · exact List.nodup_singleton _
    · exact List.nodup_singleton _
    · rw [mountFamily, hlabels]
      exact h.map hinj
    · have hsub : ((s.mounts.filterMap fun m =>
          m.poller.lastPollUnix.map fun ts => mountSample m (intText ts)).map Sample.labels).Sublist
            ((s.mounts.map MountStatus.name).map fun name => [(mountLabel, name)]) := by
        induction s.mounts with
        | nil => exact List.Sublist.refl _
        | cons m ms ih =>
          rw [List.filterMap_cons]
          cases m.poller.lastPollUnix with
          | none => exact ih.cons _
          | some ts => exact ih.cons_cons _
      exact (h.map hinj).sublist hsub

/-- **The series of a status.** -/
inductive Exported (s : DaemonStatus) : Str → List (Str × Str) → Str → Prop
  | buildInfo : Exported s buildInfo [(versionLabel, s.version)] ['1']
  | uptime : Exported s daemonUptime [] (natText s.uptimeSecs)
  | pid : Exported s daemonPid [] (natText s.pid)
  | mounts : Exported s mountsTotal [] (natText s.mounts.length)
  | gauge {g : MountGauge} {m : MountStatus} (hg : g ∈ mountGauges) (hm : m ∈ s.mounts) :
      Exported s g.name.toList [(mountLabel, m.name)] (natText (g.value m))
  | lastPoll {m : MountStatus} {ts : ℤ} (hm : m ∈ s.mounts)
      (hts : m.poller.lastPollUnix = some ts) :
      Exported s lastPoll [(mountLabel, m.name)] (intText ts)

theorem exported_iff {s : DaemonStatus} {name v : Str} {labels : List (Str × Str)} :
    Exported s name labels v ↔
      ∃ f ∈ families s, f.name = name ∧ (⟨labels, v⟩ : Sample) ∈ f.samples := by
  constructor
  · intro h
    cases h with
    | buildInfo => exact ⟨infoFamily s, mem_families.2 (by simp), rfl, List.mem_singleton_self _⟩
    | uptime =>
      exact ⟨plainFamily _ _ _, mem_families.2 (.inr (.inl rfl)), rfl, List.mem_singleton_self _⟩
    | pid =>
      exact ⟨plainFamily _ _ _, mem_families.2 (.inr (.inr (.inl rfl))), rfl,
        List.mem_singleton_self _⟩
    | mounts =>
      exact ⟨plainFamily _ _ _, mem_families.2 (.inr (.inr (.inr (.inl rfl)))), rfl,
        List.mem_singleton_self _⟩
    | @gauge g m hg hm =>
      exact ⟨mountFamily s g, mem_families.2 (.inr (.inr (.inr (.inr (.inl ⟨g, hg, rfl⟩))))), rfl,
        List.mem_map_of_mem (f := fun m => mountSample m (natText (g.value m))) hm⟩
    | lastPoll hm hts =>
      refine ⟨lastPollFamily s, mem_families.2 (.inr (.inr (.inr (.inr (.inr rfl))))), rfl,
        List.mem_filterMap.2 ⟨_, hm, ?_⟩⟩
      rw [hts]
      rfl
  · rintro ⟨f, hf, rfl, hv⟩
    rcases mem_families.1 hf with rfl | rfl | rfl | rfl | ⟨g, hg, rfl⟩ | rfl
    · cases List.mem_singleton.1 hv
      exact .buildInfo
    · cases List.mem_singleton.1 hv
      exact .uptime
    · cases List.mem_singleton.1 hv
      exact .pid
    · cases List.mem_singleton.1 hv
      exact .mounts
    · obtain ⟨m, hm, he⟩ := List.mem_map.1 hv
      cases he
      exact .gauge hg hm
    · obtain ⟨m, hm, he⟩ := List.mem_filterMap.1 hv
      obtain ⟨ts, hts, he⟩ := Option.map_eq_some_iff.1 he
      cases he
      exact .lastPoll hm hts

/-- **What is read of the text** is the status. -/
theorem value_families {s : DaemonStatus} (h : (s.mounts.map MountStatus.name).Nodup)
    {name v : Str} {labels : List (Str × Str)} :
    value (families s) name labels = some v ↔ Exported s name labels v := by
  rw [value_eq_some ((valid_families_iff s).2 h), exported_iff]

theorem parse_renderPrometheus (s : DaemonStatus) :
    parse (renderPrometheus s) = some (families s) := by
  rw [renderPrometheus_eq, parse_render (writable_families s)]

/-! ## The server -/

/-- `s.split_whitespace()`. -/
def splitWhitespace (s : Str) : List Str := (s.splitOnP isWhitespace).filter (· ≠ [])

/-- The method and the path of a request line. -/
def parseRequestLine (line : Str) : Option (Str × Str) :=
  match splitWhitespace line with
  | method :: path :: _ :: _ => some (method, path)
  | _ => none

structure HttpAnswer where
  status : ℕ
  contentType : Str
  body : Str
  deriving DecidableEq, Repr

def methodGet : Str := "GET".toList
def metricsPath : Str := "/metrics".toList
def rootPath : Str := "/".toList
def exposition : Str := "text/plain; version=0.0.4; charset=utf-8".toList
def plainText : Str := "text/plain; charset=utf-8".toList

/-- What a request asks for. `head` is what has been read of it, if that is UTF-8. -/
def requested (head : Option Str) : Option (Str × Str) :=
  parseRequestLine (((lines (head.getD [])).head?).getD [])

/-- The answer to a request. -/
def answer (head : Option Str) (s : DaemonStatus) : HttpAnswer :=
  match requested head with
  | some (method, path) =>
    if method = methodGet ∧ path = metricsPath then ⟨200, exposition, renderPrometheus s⟩
    else if method = methodGet ∧ path = rootPath then
      ⟨200, plainText, "stratosync metrics — try /metrics\n".toList⟩
    else ⟨404, plainText, "not found\n".toList⟩
  | none => ⟨400, plainText, "bad request\n".toList⟩

def badRequest : Str := "Bad Request".toList
def notFound : Str := "Not Found".toList
def ok : Str := "OK".toList

def httpReason (status : ℕ) : Str :=
  if status = 400 then badRequest else if status = 404 then notFound else ok

def httpVersion : Str := "HTTP/1.1".toList
def contentTypeName : Str := "Content-Type".toList
def contentLengthName : Str := "Content-Length".toList
def connectionClose : Str := "Connection: close".toList

/-- The lines of the head of an answer. -/
def headLines (a : HttpAnswer) : List Str :=
  [httpVersion ++ ' ' :: (natText a.status ++ ' ' :: httpReason a.status),
    contentTypeName ++ ':' :: ' ' :: a.contentType,
    contentLengthName ++ ':' :: ' ' :: natText (utf8Length a.body), connectionClose]

/-- `handle_conn`: what is written to the socket. -/
def handleConn (head : Option Str) (s : DaemonStatus) : Str :=
  let a := answer head s
  (headLines a).flatMap (fun l => l ++ ['\r', '\n']) ++ ['\r', '\n'] ++ a.body

/-! ## Reading the answer -/

/-- A decimal number. -/
def readNat (s : Str) : Option ℕ :=
  if s ≠ [] ∧ s.all Char.isDigit then some (Nat.ofDigitChars 10 s 0) else none

/-- The answer as it is read: the body has as many bytes as the head says, and nothing follows. -/
def readAnswer (s : Str) : Option HttpAnswer :=
  (Messages.readHead s.length s).bind fun x =>
    match x.1 with
    | [] => none
    | first :: fields =>
      ((readWord first).bind fun y => (readWord y.2).bind fun z => readNat z.1).bind fun status =>
        (Messages.field contentTypeName fields).bind fun contentType =>
          ((Messages.field contentLengthName fields).bind readNat).bind fun length =>
            if utf8Length x.2 = length then some ⟨status, contentType, x.2⟩ else none

theorem readNat_natText (n : ℕ) : readNat (natText n) = some n := by
  have hall : (natText n).all Char.isDigit = true :=
    List.all_eq_true.2 fun c hc => Nat.isDigit_of_mem_toDigits (by decide) (by decide) hc
  rw [readNat, if_pos ⟨Nat.toDigits_ne_nil, hall⟩, natText, Nat.ofDigitChars_ten_toDigits]

theorem natText_of_mem {n : ℕ} {c : Char} (hc : c ∈ natText n) :
    c ≠ ' ' ∧ c ≠ '{' ∧ c ≠ '#' ∧ c ≠ '\n' ∧ c ≠ '\r' := by
  have hdigit : c.isDigit = true := Nat.isDigit_of_mem_toDigits (by decide) (by decide) hc
  refine ⟨?_, ?_, ?_, ?_, ?_⟩ <;> rintro rfl <;> revert hdigit <;> decide

theorem plain_natText (n : ℕ) : Plain (natText n) := fun _ hc =>
  have h := natText_of_mem hc
  ⟨h.1, h.2.1, h.2.2.1, h.2.2.2.1⟩

/-- The lengths are not taken for the type. -/
theorem contentLength_not_at_head (v : Str) :
    ¬contentLengthName ++ [':', ' '] <+: contentTypeName ++ ':' :: ' ' :: v := by
  have hlength : contentLengthName = ['C', 'o', 'n', 't', 'e', 'n', 't', '-'] ++
      ['L', 'e', 'n', 'g', 't', 'h'] := by decide
  have htype : contentTypeName = ['C', 'o', 'n', 't', 'e', 'n', 't', '-'] ++
      ['T', 'y', 'p', 'e'] := by decide
  rw [hlength, htype, List.append_assoc, List.append_assoc, List.prefix_append_right_inj]
  exact fun h => absurd (List.cons_prefix_cons.1 h).1 (by decide)

theorem not_mem_httpReason (status : ℕ) : '\r' ∉ httpReason status := by
  have hreasons : '\r' ∉ badRequest ∧ '\r' ∉ notFound ∧ '\r' ∉ ok := by decide
  rw [httpReason]
  split_ifs
  · exact hreasons.1
  · exact hreasons.2.1
  · exact hreasons.2.2

theorem not_mem_headNames : '\r' ∉ httpVersion ∧ '\r' ∉ contentTypeName ∧
    '\r' ∉ contentLengthName ∧ '\r' ∉ connectionClose := by
  decide

/-- The head of an answer is made of lines. -/
theorem headLines_ok {a : HttpAnswer} (h : '\r' ∉ a.contentType) :
    ∀ l ∈ headLines a, l ≠ [] ∧ '\r' ∉ l := by
  have hnat : ∀ n, '\r' ∉ natText n := fun n hc => (natText_of_mem hc).2.2.2.2 rfl
  have hjoin : ∀ {x y : Str} {c : Char}, '\r' ∉ x → '\r' ≠ c → '\r' ∉ y →
      x ++ c :: y ≠ [] ∧ '\r' ∉ x ++ c :: y := by
    intro x y c hx hc hy
    rw [List.mem_append, List.mem_cons]
    exact ⟨by simp, fun h => h.elim hx fun h => h.elim hc hy⟩
  obtain ⟨hversion, htype, hlength, hclose⟩ := not_mem_headNames
  have hblank : ∀ {y : Str}, '\r' ∉ y → '\r' ∉ ' ' :: y := fun hy h =>
    (List.mem_cons.1 h).elim (fun h => absurd h (by decide)) hy
  intro l hl
  rw [headLines, List.mem_cons, List.mem_cons, List.mem_cons, List.mem_singleton] at hl
  rcases hl with rfl | rfl | rfl | rfl
  · exact hjoin hversion (by decide) (hjoin (hnat _) (by decide) (not_mem_httpReason _)).2
  · exact hjoin htype (by decide) (hblank h)
  · exact hjoin hlength (by decide) (hblank (hnat _))
  · exact ⟨by decide, hclose⟩

/-- **An answer is read as it was given.** -/
theorem readAnswer_head {a : HttpAnswer} (h : '\r' ∉ a.contentType) :
    readAnswer ((headLines a).flatMap (fun l => l ++ ['\r', '\n']) ++ ['\r', '\n'] ++ a.body) =
      some a := by
  have htext : (headLines a).flatMap (fun l => l ++ ['\r', '\n']) ++ ['\r', '\n'] ++ a.body =
      Messages.renderHead (headLines a) ++ a.body := rfl
  have hhead := Messages.readHead_renderHead (headLines_ok h)
    (n := (Messages.renderHead (headLines a) ++ a.body).length) ?_ a.body
  · have hversion : Plain httpVersion := by decide
    rw [readAnswer, htext, hhead, Option.bind_some, headLines]
    dsimp only
    rw [readWord_append hversion, Option.bind_some, readWord_append (plain_natText _),
      Option.bind_some, readNat_natText, Option.bind_some, Messages.field_cons_self,
      Option.bind_some, Messages.field_cons_of_ne (contentLength_not_at_head _),
      Messages.field_cons_self, Option.bind_some, readNat_natText, Option.bind_some, if_pos rfl]
  · have hfour : (headLines a).length = 4 := rfl
    have hlong : (headLines a).length < (Messages.renderHead (headLines a)).length :=
      Messages.length_lt_renderHead (headLines a)
    rw [List.length_append]
    omega

/-- **Every request is answered** with a message that can be read. -/
theorem readAnswer_handleConn (head : Option Str) (s : DaemonStatus) :
    readAnswer (handleConn head s) = some (answer head s) := by
  refine readAnswer_head ?_
  have hexposition : '\r' ∉ exposition := by decide
  have hplain : '\r' ∉ plainText := by decide
  rw [answer]
  split
  · split
    · exact hexposition
    · split
      · exact hplain
      · exact hplain
  · exact hplain

/-- **A scrape reads the status.** Whoever asks for the metrics reads back the series of the status
and no others, and none twice when no two mounts have one name. -/
theorem scrape_reads_status {head : Option Str} {s : DaemonStatus}
    (h : requested head = some (methodGet, metricsPath)) : ∃ body fs,
      readAnswer (handleConn head s) = some ⟨200, exposition, body⟩ ∧ parse body = some fs ∧
      (Valid fs ↔ (s.mounts.map MountStatus.name).Nodup) ∧
      ((s.mounts.map MountStatus.name).Nodup → ∀ name labels v,
        value fs name labels = some v ↔ Exported s name labels v) := by
  refine ⟨renderPrometheus s, families s, ?_, parse_renderPrometheus s, valid_families_iff s,
    fun hnames name labels v => value_families hnames⟩
  rw [readAnswer_handleConn, answer, h]
  exact congrArg some (if_pos ⟨rfl, rfl⟩)

def scrapeRequest : Str := "GET /metrics HTTP/1.1\r\nHost: localhost\r\n\r\n".toList

/-- A mount whose name has all that is escaped in it. -/
def oddStatus : DaemonStatus :=
  { version := ['0'], pid := 7, uptimeSecs := 12
    mounts := [{ name := ['"', '\\', '\n'], cache := ⟨3, 4, 0⟩, queue := ⟨⟨0, []⟩, 0, true⟩
                 poller := ⟨[], some (-5), none, 0, 60, none⟩, hydration := ⟨0, 0, 2⟩
                 conflicts := 1 }] }

theorem scrape_reads_oddStatus : ∃ body fs,
    readAnswer (handleConn (some scrapeRequest) oddStatus) = some ⟨200, exposition, body⟩ ∧
      parse body = some fs ∧
      value fs lastPoll [(mountLabel, ['"', '\\', '\n'])] = some (intText (-5)) := by
  have hrequest : requested (some scrapeRequest) = some (methodGet, metricsPath) := by decide
  obtain ⟨body, fs, hread, hparse, -, hvalue⟩ := scrape_reads_status hrequest
  have hlast := Exported.lastPoll (s := oddStatus) (List.mem_singleton_self _) rfl
  exact ⟨body, fs, hread, hparse, (hvalue (by decide) _ _ _).2 hlast⟩

end Stratosync

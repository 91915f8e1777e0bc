import Stratosync.Daemon.Step

/-!
# The watcher of the cache directory

The file system reports what happens in the cache directory; `handle_event` goes through the paths
of an event and hands the upload queue the row of each that is dirty. Looking a row up and handing
it on are two steps, and others come between them.
-/

namespace Stratosync

inductive FsEventKind
  | access
  | create
  | modify
  | remove
  | other
  deriving DecidableEq, Repr

structure FsEvent where
  kind : FsEventKind
  paths : List PathBuf
  deriving DecidableEq, Repr

def FsEventKind.isWrite : FsEventKind → Bool
  | .create | .modify => true
  | _ => false

/-- The file system reports a file that is renamed, at its new path at least. -/
structure Notify where
  copied : PathBuf → List FsEvent
  renamed : PathBuf → PathBuf → List FsEvent
  arrives : ∀ src dst, ∃ e ∈ renamed src dst, e.kind.isWrite = true ∧ dst ∈ e.paths

/-- What the kernel reports on a file that is copied, and on one that is renamed. -/
def Notify.inotify : Notify where
  copied p := [⟨.create, [p]⟩, ⟨.modify, [p]⟩, ⟨.access, [p]⟩]
  renamed src dst := [⟨.modify, [src]⟩, ⟨.modify, [dst]⟩, ⟨.modify, [src, dst]⟩]
  arrives src dst := ⟨⟨.modify, [dst]⟩, by simp, rfl, by simp⟩

/-- `path.file_name()`. -/
def PathBuf.fileName (p : PathBuf) : Option Str := p.getLast?.filter fun c => c ≠ ['.', '.']

/-- Partial and temporary files. -/
def skipsName (name : Str) : Bool := ".tmp".toList.isSuffixOf name || ['.'].isPrefixOf name

/-- The remote path under which the watcher looks for the row of a file, unless it skips it. -/
def Mount.watchedPath (m : Mount) (path : PathBuf) : Option Str :=
  if skipsName (path.fileName.getD []) then none
  else if !m.cacheDir.isPrefixOf path then none
  else
    let remotePath := ['/'].intercalate (path.drop m.cacheDir.length)
    if m.ignore remotePath then none else some remotePath

/-- The row the watcher hands on for a path. -/
def handlePath (m : Mount) (db : Db) (fault : Bool) (path : PathBuf) : Option Inode :=
  (m.watchedPath path).bind fun remotePath =>
    if fault then none
    else
      (db.getByRemotePath m.mountId remotePath).bind fun entry =>
        -- conflict files are not uploaded again; a cached row has no edit
        if entry.status = .conflict then none
        else if entry.status = .dirty then some entry.inode else none

/-- Where the handling of an event is. -/
inductive WatchPc
  /-- About to look at these paths. -/
  | paths (left : List PathBuf)
  /-- About to hand a row to the queue, before it looks at the other paths. -/
  | send (inode : Inode) (left : List PathBuf)
  deriving DecidableEq, Repr

structure Watcher where
  channel : List FsEvent
  pc : WatchPc
  deriving DecidableEq, Repr

def Watcher.notify (g : Watcher) (events : List FsEvent) : Watcher :=
  { g with channel := g.channel ++ events }

/-- No event waits or is being handled. -/
def Watcher.Idle (g : Watcher) : Prop := g.channel = [] ∧ g.pc = .paths []

instance (g : Watcher) : Decidable g.Idle := inferInstanceAs (Decidable (_ ∧ _))

/-- The next step of the watcher; `none` when it waits for an event. -/
def Watcher.step (m : Mount) (w : World) (g : Watcher) (fault : Bool) : Option (World × Watcher) :=
  match g.pc with
  | .send i left => some (w.enqueue i, { g with pc := .paths left })
  | .paths (p :: left) =>
    some (w, { g with pc :=
      match handlePath m w.db fault p with
      | some i => .send i left
      | none => .paths left })
  | .paths [] =>
    match g.channel with
    | [] => none
    | e :: rest => some (w, ⟨rest, .paths (if e.kind.isWrite then e.paths else [])⟩)

/-- **The watcher hands on the dirty row whose remote path is that of the file**, and no other. -/
theorem handlePath_eq_some_iff {m : Mount} {db : Db} {fault : Bool} {path : PathBuf} {i : Inode} :
    handlePath m db fault path = some i ↔ fault = false ∧ ∃ r, db.getByInode i = some r ∧
      r.mountId = m.mountId ∧ r.status = .dirty ∧ m.watchedPath path = some r.remotePath := by
  rw [handlePath]
  constructor
  · intro h
    obtain ⟨remotePath, hpath, h⟩ := Option.bind_eq_some_iff.1 h
    split at h
    · cases h
    rename_i hf
    obtain ⟨r, hr, h⟩ := Option.bind_eq_some_iff.1 h
    obtain ⟨hrow, hm, hp⟩ := Db.getByRemotePath_spec hr
    split at h
    · cases h
    split at h
    · rename_i hs
      obtain rfl := Option.some.inj h
      exact ⟨Bool.eq_false_iff.2 hf, r, hrow, hm, hs, hp ▸ hpath⟩
    · cases h
  · rintro ⟨rfl, r, hr, hm, hs, hp⟩
    have hrow := Db.getByRemotePath_self hr
    rw [hm] at hrow
    rw [hp, Option.bind_some, if_neg Bool.false_ne_true, hrow, Option.bind_some, hs,
      if_neg nofun, if_pos rfl, Db.inode_of_getByInode hr]

end Stratosync

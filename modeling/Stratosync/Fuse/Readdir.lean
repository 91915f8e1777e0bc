import Stratosync.Daemon.Step
import Stratosync.Foundations.Paging

/-!
# Enumerating a directory

The kernel enumerates a directory by calls of `readdir`: each asks for as many entries as fit in
its buffer, from the offset of the last entry returned. An offset is a place in the list of the
children, and every call makes this list anew. An entry that is there throughout is to be returned
exactly once, whatever happens to the others between the calls. `enumerated_iff` says when this
holds: at no call has such an entry come before the offset from behind the entries returned, as it
does when one before it is deleted; and at no call has an entry that was returned come behind the
offset again, as it does when an older file is moved into the directory.
-/

namespace Stratosync

open Foundations Foundations.Runs

/-! ## A call -/

/-- An entry of the reply. The offset is where the next call is to go on. -/
structure Dirent where
  inode : Inode
  offset : ℕ
  kind : FileKind
  name : Str
  deriving DecidableEq, Repr

/-- The rows that are the first of their name. -/
def firstOfName : List Str → List FileEntry → List FileEntry
  | _, [] => []
  | seen, e :: es =>
    if e.name ∈ seen then firstOfName seen es else e :: firstOfName (e.name :: seen) es

/-- The loop that fills the reply, at the place `i` of the list, with `room` for entries. -/
def fillReply (offset : ℕ) : ℕ → ℕ → List (Inode × FileKind × Str) → List Dirent
  | _, _, [] => []
  | i, room, e :: es =>
    if offset ≤ i then
      match room with
      | 0 => []
      | room + 1 => ⟨e.1, i + 1, e.2.1, e.2.2⟩ :: fillReply offset (i + 1) room es
    else fillReply offset (i + 1) room es

/-- The entries every directory has. -/
def dots (ino : Inode) : List (Inode × FileKind × Str) :=
  [(ino, .directory, ['.']), (ino, .directory, ['.', '.'])]

def readdirReply (ino : Inode) (offset room : ℕ) (children : List FileEntry) : List Dirent :=
  let unique := (firstOfName [] children).map fun e => (e.inode, e.kind, e.name)
  fillReply offset 0 room (dots ino ++ unique)

/-- `readdir`, once the directory has been listed. -/
def handleReaddir (m : Mount) (w : World) (env : Env) (ino : Inode) (offset room : ℕ) :
    Except Errno (List Dirent) :=
  if env.fault then .error Errno.EIO
  else
    match w.db.getByInode ino with
    | none => .error Errno.EIO
    | some _ => .ok (readdirReply ino offset room (w.db.listChildren m.mountId ino))

/-! ## An enumeration -/

/-- An enumeration of the directory `dir`: where it goes on, the children returned, and the
children that were there all the time. -/
structure Enumeration where
  dir : Inode
  offset : ℕ
  returned : List Inode
  present : List Inode
  ended : Bool
  deriving DecidableEq, Repr

def childInodes (m : Mount) (w : World) (dir : Inode) : List Inode :=
  (w.db.listChildren m.mountId dir).map FileEntry.inode

namespace Enumeration

variable (e : Enumeration)

def opened (m : Mount) (w : World) (dir : Inode) : Enumeration :=
  { dir, offset := 0, returned := [], present := childInodes m w dir, ended := false }

/-- The enumeration after a step of the daemon. -/
def see (m : Mount) (w : World) : Enumeration :=
  { e with present := e.present.filter (· ∈ childInodes m w e.dir) }

/-- The enumeration after a reply. The kernel goes on until a reply is empty; the first two entries
are no children. -/
def replied (reply : List Dirent) : Enumeration :=
  { e with
    offset := (reply.getLast?.map Dirent.offset).getD e.offset
    returned := e.returned ++ (reply.filter (2 < ·.offset)).map Dirent.inode
    ended := reply.isEmpty }

end Enumeration

/-- The daemon and an enumeration the kernel is in. -/
structure EnumState where
  world : World
  enumeration : Option Enumeration

/-- The buffer of a `readdir` has room for `room + 1` entries. -/
inductive EnumEvent
  | daemon (ev : Event)
  | opendir (dir : Inode)
  | readdir (room : ℕ) (env : Env)
  deriving DecidableEq, Repr

/-- A step. A `readdir` that fails returns no entries, and is none; nor is one after the end. The
listing of a directory that has not been listed before is among the steps of the daemon. -/
def enumStep (m : Mount) (s : EnumState) : EnumEvent → Option EnumState
  | .daemon ev =>
    (step m s.world ev).map fun w => ⟨w, s.enumeration.map fun e => e.see m w⟩
  | .opendir dir => some { s with enumeration := some (.opened m s.world dir) }
  | .readdir room env =>
    s.enumeration.bind fun e =>
      if e.ended then none
      else
        match handleReaddir m s.world env e.dir e.offset (room + 1) with
        | .error _ => none
        | .ok reply => some { s with enumeration := some (e.replied reply) }

/-- No child has been returned twice, and those that were there all the time have been returned
when the enumeration has come past them. At its end it has come past all. -/
structure Enumeration.Complete (e : Enumeration) (children : List Inode) : Prop where
  nodup : e.returned.Nodup
  passed : ∀ i ∈ children.take (e.offset - 2), i ∈ e.present → i ∈ e.returned
  whole : e.ended = true → ∀ i ∈ e.present, i ∈ e.returned

/-- **What is to hold after every call**: nothing was returned twice, nothing left out. -/
def Enumerated (m : Mount) (_ : EnumState) (ev : EnumEvent) (s : EnumState) : Prop :=
  match ev with
  | .readdir .. => ∀ e ∈ s.enumeration, e.Complete (childInodes m s.world e.dir)
  | _ => True

/-- The list has not moved under the offset: no child that was there all the time has come before
it from behind those returned, and none that was returned is among the next `room`. -/
structure Enumeration.InPlace (e : Enumeration) (children : List Inode) (room : ℕ) : Prop where
  before : ∀ i ∈ children.take (e.offset - 2), i ∈ e.present → ∃ j ∈ e.returned, i ≤ j
  fresh : ∀ i ∈ (children.drop (e.offset - 2)).take room, i ∉ e.returned

/-- **The condition**: at every call the list has not moved under the offset. -/
def ReadInPlace (m : Mount) (s : EnumState) (ev : EnumEvent) (_ : EnumState) : Prop :=
  match ev with
  | .readdir room _ =>
    ∀ e ∈ s.enumeration,
      -- a call from the start also returns the two entries that are no children
      e.InPlace (childInodes m s.world e.dir) (room + 1 - (2 - e.offset))
  | _ => True

/-! ## What a call returns -/

section Reply

variable {offset i room : ℕ} {es fs : List (Inode × FileKind × Str)} {d : Dirent}

@[simp] theorem fillReply_zero : fillReply offset i 0 es = [] := by
  induction es generalizing i with
  | nil => rfl
  | cons e es ih =>
    unfold fillReply
    split
    · rfl
    · exact ih

theorem fillReply_of_lt {e : Inode × FileKind × Str} (h : i < offset) :
    fillReply offset i room (e :: es) = fillReply offset (i + 1) room es := by
  rw [fillReply.eq_def]
  exact if_neg h.not_ge

theorem fillReply_of_le {e : Inode × FileKind × Str} (h : offset ≤ i) :
    fillReply offset i (room + 1) (e :: es) =
      ⟨e.1, i + 1, e.2.1, e.2.2⟩ :: fillReply offset (i + 1) room es := by
  rw [fillReply, if_pos h]

theorem map_inode_fillReply :
    (fillReply offset i room es).map Dirent.inode =
      ((es.map Prod.fst).drop (offset - i)).take room := by
  induction es generalizing i room with
  | nil => simp [fillReply]
  | cons e es ih =>
    cases room with
    | zero => simp
    | succ room =>
      obtain h | h := Nat.lt_or_ge i offset
      · have hsub : offset - i = (offset - (i + 1)) + 1 := by omega
        rw [fillReply_of_lt h, ih, hsub, List.map_cons, List.drop_succ_cons]
      · simp [fillReply_of_le h, ih, Nat.sub_eq_zero_of_le h,
          Nat.sub_eq_zero_of_le (h.trans i.le_succ)]

theorem length_fillReply :
    (fillReply offset i room es).length = min room (es.length - (offset - i)) := by
  rw [← List.length_map (f := Dirent.inode), map_inode_fillReply]
  simp

/-- The offsets of the entries of a reply are their places, counted from one. -/
theorem map_offset_fillReply :
    (fillReply offset i room es).map Dirent.offset =
      List.range' (max offset i + 1) (fillReply offset i room es).length := by
  induction es generalizing i room with
  | nil => rfl
  | cons e es ih =>
    cases room with
    | zero => simp
    | succ room =>
      obtain h | h := Nat.lt_or_ge i offset
      · rw [fillReply_of_lt h, ih, max_eq_left h, max_eq_left h.le]
      · rw [fillReply_of_le h, List.map_cons, List.length_cons, List.range'_succ, ih,
          max_eq_right h, max_eq_right (h.trans i.le_succ)]

theorem offset_of_mem_fillReply (h : d ∈ fillReply offset i room es) :
    i < d.offset ∧ d.offset ≤ i + es.length := by
  have hmem := List.mem_map_of_mem (f := Dirent.offset) h
  rw [map_offset_fillReply, List.mem_range'_1] at hmem
  have hlen : (fillReply offset i room es).length = min room (es.length - (offset - i)) :=
    length_fillReply
  omega

theorem fillReply_append :
    fillReply offset i room (es ++ fs) =
      fillReply offset i room es ++
        fillReply offset (i + es.length) (room - (fillReply offset i room es).length) fs := by
  induction es generalizing i room with
  | nil => simp [fillReply]
  | cons e es ih =>
    have hplace : i + (es.length + 1) = i + 1 + es.length := by omega
    cases room with
    | zero => simp
    | succ room =>
      rw [List.cons_append, List.length_cons, hplace]
      obtain h | h := Nat.lt_or_ge i offset
      · rw [fillReply_of_lt h, fillReply_of_lt h, ih]
      · rw [fillReply_of_le h, fillReply_of_le h, ih, List.cons_append, List.length_cons,
          Nat.add_sub_add_right]

/-- The kernel goes on behind the entries it was given. -/
theorem getLast_offset_fillReply :
    ((fillReply offset 0 room es).getLast?.map Dirent.offset).getD offset =
      offset + (fillReply offset 0 room es).length := by
  rw [← List.getLast?_map, map_offset_fillReply, List.getLast?_range', Nat.max_zero]
  split
  · rename_i h
    rw [h]
    rfl
  · rw [Option.getD_some]
    omega

end Reply

theorem firstOfName_eq_self {seen : List Str} {es : List FileEntry}
    (hes : es.Pairwise fun a b => a.name ≠ b.name) (hseen : ∀ e ∈ es, e.name ∉ seen) :
    firstOfName seen es = es := by
  induction es generalizing seen with
  | nil => rfl
  | cons e es ih =>
    obtain ⟨he, hes⟩ := List.pairwise_cons.1 hes
    rw [firstOfName, if_neg (hseen e List.mem_cons_self), ih hes]
    intro f hf hmem
    obtain h | h := List.mem_cons.1 hmem
    · exact he f hf h.symm
    · exact hseen f (List.mem_cons_of_mem _ hf) h

variable {m : Mount} {w : World} {dir : Inode}

/-- The index has no two rows of one name in a directory. -/
theorem firstOfName_listChildren (db : Db) (mountId : ℕ) (dir : Inode) :
    firstOfName [] (db.listChildren mountId dir) = db.listChildren mountId dir := by
  refine firstOfName_eq_self ?_ fun e _ => List.not_mem_nil
  have hperm := List.perm_insertionSort (fun a b : FileEntry => a.inode ≤ b.inode)
    (db.fileIndex.rows.filter fun r => r.mountId = mountId ∧ r.parent = some dir)
  refine (hperm.pairwise_iff fun {a b} h => Ne.symm h).2 ?_
  refine (db.fileIndex.ok.nameUnique.filter _).imp_of_mem fun {a b} ha hb h hname => ?_
  simp only [List.mem_filter, decide_eq_true_eq] at ha hb
  refine h ⟨ha.2.1.trans hb.2.1.symm, ?_, ha.2.2.trans hb.2.2.symm, hname⟩
  rw [ha.2.2]
  rfl

/-- The children come in the order of their inodes. -/
theorem pairwise_childInodes : (childInodes m w dir).Pairwise (· < ·) := by
  have hsorted := List.pairwise_insertionSort (fun a b : FileEntry => a.inode ≤ b.inode)
    (w.db.fileIndex.rows.filter fun r => r.mountId = m.mountId ∧ r.parent = some dir)
  have hperm := List.perm_insertionSort (fun a b : FileEntry => a.inode ≤ b.inode)
    (w.db.fileIndex.rows.filter fun r => r.mountId = m.mountId ∧ r.parent = some dir)
  have hnodup : (childInodes m w dir).Nodup :=
    (hperm.map FileEntry.inode).nodup_iff.2
      (w.db.fileIndex.ok.inodeUnique.sublist (List.filter_sublist.map _))
  have hle : (childInodes m w dir).Pairwise (· ≤ ·) := List.pairwise_map.2 hsorted
  exact (hle.and hnodup).imp fun h => lt_of_le_of_ne h.1 h.2

/-! ## An enumeration as a client that pages through the children -/

namespace Enumeration

variable {e : Enumeration} {reply : List Dirent} {offset room : ℕ} {env : Env}

def client (e : Enumeration) : Paging.Client Inode where
  pos := e.offset - 2
  returned := e.returned
  present := {i | i ∈ e.present}

theorem client_see : (e.see m w).client = e.client.see (childInodes m w e.dir) := by
  unfold see client Paging.Client.see
  congr 1
  ext i
  simp

theorem inPlace_iff {children : List Inode} :
    e.InPlace children room ↔ e.client.Aligned children room :=
  ⟨fun h => ⟨h.before, h.fresh⟩, fun h => ⟨h.before, h.fresh⟩⟩

theorem handleReaddir_eq_ok (h : handleReaddir m w env dir offset room = .ok reply) :
    ∃ es : List (Inode × FileKind × Str), es.map Prod.fst = childInodes m w dir ∧
      reply = fillReply offset 0 room (dots dir ++ es) := by
  refine ⟨(w.db.listChildren m.mountId dir).map fun e => (e.inode, e.kind, e.name), ?_, ?_⟩
  · rw [List.map_map]
    rfl
  · rw [handleReaddir] at h
    split at h
    · cases h
    · split at h
      · cases h
      · cases h
        rw [readdirReply, firstOfName_listChildren]

/-- A reply is a page of the children. -/
theorem client_replied (h : handleReaddir m w env e.dir e.offset room = .ok reply) :
    (e.replied reply).client =
      e.client.turn (childInodes m w e.dir) (room - (2 - e.offset)) := by
  obtain ⟨es, hes, rfl⟩ := handleReaddir_eq_ok h
  have hdots : (fillReply e.offset 0 room (dots e.dir)).length = min room (2 - e.offset) := by
    rw [length_fillReply]
    rfl
  have hnone : (fillReply e.offset 0 room (dots e.dir)).filter (2 < ·.offset) = [] := by
    refine List.filter_eq_nil_iff.2 fun d hd => ?_
    have hle := (offset_of_mem_fillReply hd).2
    simpa [dots] using hle
  have hall : ∀ n, (fillReply e.offset 2 n es).filter (2 < ·.offset) = fillReply e.offset 2 n es :=
    fun n => List.filter_eq_self.2 fun d hd => by simpa using (offset_of_mem_fillReply hd).1
  have hroom : room - min room (2 - e.offset) = room - (2 - e.offset) := by omega
  have hpage : (fillReply e.offset 2 (room - (2 - e.offset)) es).map Dirent.inode =
      e.client.page (childInodes m w e.dir) (room - (2 - e.offset)) := by
    rw [map_inode_fillReply, hes]
    rfl
  have hsplit : fillReply e.offset 0 room (dots e.dir ++ es) =
      fillReply e.offset 0 room (dots e.dir) ++
        fillReply e.offset 2 (room - (2 - e.offset)) es := by
    rw [fillReply_append, hdots, hroom]
    rfl
  have hlen := congrArg List.length hpage
  rw [List.length_map] at hlen
  unfold replied client Paging.Client.turn
  congr 1
  · -- where the enumeration goes on
    change _ - 2 = e.offset - 2 + _
    rw [getLast_offset_fillReply, hsplit, List.length_append, hdots, hlen]
    change e.offset + (_ + (e.client.page _ _).length) - 2 = _ + (e.client.page _ _).length
    have : (e.client.page (childInodes m w e.dir) (room - (2 - e.offset))).length ≤
        room - (2 - e.offset) := by
      rw [Paging.Client.page]
      exact List.length_take_le _ _
    omega
  · change e.returned ++ _ = e.returned ++ _
    rw [hsplit, List.filter_append, hnone, hall, List.nil_append, hpage]
    rfl

/-- An empty reply comes from the end of the list. -/
theorem length_le_of_isEmpty (h : handleReaddir m w env e.dir e.offset (room + 1) = .ok reply)
    (hover : reply.isEmpty = true) :
    (childInodes m w e.dir).length ≤ (e.replied reply).client.pos := by
  obtain ⟨es, hes, hreply⟩ := handleReaddir_eq_ok h
  have hlen := congrArg List.length hreply
  rw [List.isEmpty_iff.1 hover, length_fillReply, List.length_append] at hlen
  change 0 = min _ (2 + es.length - _) at hlen
  rw [← hes, List.length_map, List.isEmpty_iff.1 hover]
  change _ ≤ e.offset - 2
  omega

end Enumeration

/-! ## Enumerations in a run -/

/-- What an enumeration that was complete so far knows of the children. -/
def EnumInv (m : Mount) (s : EnumState) : Prop :=
  ∀ e ∈ s.enumeration, e.client.Inv ∧ ∀ i ∈ e.present, i ∈ childInodes m s.world e.dir

section Run

variable {s s' : EnumState} {ev : EnumEvent}

/-- What a step can do. -/
theorem enumStep_cases (h : enumStep m s ev = some s') :
    (∃ dev w, ev = .daemon dev ∧ s' = ⟨w, s.enumeration.map fun e => e.see m w⟩) ∨
    (∃ dir, ev = .opendir dir ∧ s' = { s with enumeration := some (.opened m s.world dir) }) ∨
    (∃ room env e reply, ev = .readdir room env ∧ s.enumeration = some e ∧
      handleReaddir m s.world env e.dir e.offset (room + 1) = .ok reply ∧
      s' = { s with enumeration := some (e.replied reply) }) := by
  cases ev with
  | daemon dev =>
    obtain ⟨w, -, rfl⟩ := Option.map_eq_some_iff.1 h
    exact .inl ⟨dev, w, rfl, rfl⟩
  | opendir dir => exact .inr (.inl ⟨dir, rfl, (Option.some.inj h).symm⟩)
  | readdir room env =>
    obtain ⟨e, he, h⟩ := Option.bind_eq_some_iff.1 h
    split at h
    · cases h
    · split at h
      · cases h
      · rename_i reply hreply
        exact .inr (.inr ⟨room, env, e, reply, rfl, he, hreply, (Option.some.inj h).symm⟩)

/-- After a reply the enumeration is complete exactly when the page was clean. -/
theorem complete_replied_iff {e : Enumeration} {reply : List Dirent} {room : ℕ} {env : Env}
    (hp : ∀ i ∈ e.present, i ∈ childInodes m w e.dir)
    (h : handleReaddir m w env e.dir e.offset (room + 1) = .ok reply) :
    (e.replied reply).Complete (childInodes m w e.dir) ↔
      (e.client.turn (childInodes m w e.dir) (room + 1 - (2 - e.offset))).Clean
        (childInodes m w e.dir) := by
  rw [← Enumeration.client_replied h]
  constructor
  · intro hc
    exact ⟨hc.nodup, hc.passed⟩
  · intro hc
    refine ⟨hc.nodup, hc.passed, fun hover i hi => ?_⟩
    exact hc.complete (Enumeration.length_le_of_isEmpty h hover) hi (hp i hi)

theorem enumInv_of_step (hI : EnumInv m s) (h : enumStep m s ev = some s')
    (hdone : Enumerated m s ev s') : EnumInv m s' := by
  obtain ⟨dev, w, rfl, rfl⟩ | ⟨dir, rfl, rfl⟩ | ⟨room, env, e, reply, rfl, he, hreply, rfl⟩ :=
    enumStep_cases h
  · intro e' he'
    obtain ⟨e, he, rfl⟩ := Option.map_eq_some_iff.1 he'
    refine ⟨?_, fun i hi => of_decide_eq_true (List.mem_filter.1 hi).2⟩
    rw [Enumeration.client_see]
    exact (hI e he).1.see
  · rintro e' ⟨⟩
    exact ⟨⟨List.nodup_nil, fun _ _ _ hb => absurd hb List.not_mem_nil⟩, fun i hi => hi⟩
  · rintro e' ⟨⟩
    obtain ⟨hinv, hp⟩ := hI e he
    refine ⟨?_, hp⟩
    have hclean := (complete_replied_iff hp hreply).1 (hdone _ rfl)
    rw [Enumeration.client_replied hreply]
    exact hinv.turn pairwise_childInodes hp hclean

theorem enumerated_iff_readInPlace (hI : EnumInv m s) (h : enumStep m s ev = some s') :
    Enumerated m s ev s' ↔ ReadInPlace m s ev s' := by
  obtain ⟨dev, w, rfl, rfl⟩ | ⟨dir, rfl, rfl⟩ | ⟨room, env, e, reply, rfl, he, hreply, rfl⟩ :=
    enumStep_cases h
  · exact .rfl
  · exact .rfl
  · obtain ⟨hinv, hp⟩ := hI e he
    have hsorted : (childInodes m s.world e.dir).Pairwise (· < ·) := pairwise_childInodes
    have hpage := Paging.Client.clean_page_iff (n := room + 1 - (2 - e.offset)) hsorted hinv
    have hdone : Enumerated m s (.readdir room env)
          { s with enumeration := some (e.replied reply) } ↔
        (e.replied reply).Complete (childInodes m s.world e.dir) := by
      simp only [Enumerated, Option.mem_some, forall_eq']
      exact .rfl
    have hplace : ReadInPlace m s (.readdir room env)
          { s with enumeration := some (e.replied reply) } ↔
        e.InPlace (childInodes m s.world e.dir) (room + 1 - (2 - e.offset)) := by
      simp only [ReadInPlace, he, Option.mem_some, forall_eq']
    rw [hdone, complete_replied_iff hp hreply, hpage, hplace, Enumeration.inPlace_iff]

end Run

/-- **An enumeration is complete at all its calls** exactly when at no call the list has moved
under the offset. -/
theorem enumerated_iff (m : Mount) (w : World) (evs : List EnumEvent) :
    Along (enumStep m) (Enumerated m) ⟨w, none⟩ evs ↔
      Along (enumStep m) (ReadInPlace m) ⟨w, none⟩ evs := by
  have hstart : EnumInv m ⟨w, none⟩ := fun e he => absurd he (Option.not_mem_none e)
  refine along_congr_of_inv ?_ ?_ evs hstart
  · intro s ev s' hI h
    exact enumerated_iff_readInPlace hI h
  · intro s ev s' hI h hdone
    exact enumInv_of_step hI h hdone

/-- Two files; the first has been returned when it is deleted. The second is never returned. -/
def deleteWhileEnumerating : List EnumEvent :=
  [.daemon (.poll (reportedFile ['a'] 1 ['v'])), .daemon (.poll (reportedFile ['b'] 1 ['v'])),
    .opendir fuseRootInode, .readdir 2 .fine, .daemon (.request (.unlink fuseRootInode ['a'])),
    .readdir 2 .fine]

theorem not_enumerated_deleteWhileEnumerating :
    ¬∀ (m : Mount) (evs : List EnumEvent),
      Along (enumStep m) (Enumerated m) ⟨.init m 0, none⟩ evs := by
  intro h
  have hrun : Along _ _ _ (deleteWhileEnumerating.take 5 ++ [.readdir 2 .fine]) :=
    h sampleMount deleteWhileEnumerating
  obtain ⟨hlast, -⟩ := hrun.drop rfl _ rfl
  exact absurd ((hlast _ rfl).whole rfl 3 (by decide)) (by decide)

end Stratosync

import Stratosync.Cache.Files
import Stratosync.Foundations.Disk
import Stratosync.Foundations.Pool
import Stratosync.Foundations.Runs

/-!
# Storing a blob, read by read

`store_base` reads a file to its end for the hash, and where there is no blob of that hash it opens
the file again and copies it, by way of a temporary file that is named by the hash. Each read is a
step here, where `Cache.Blobs` has one for each of the two readings, and calls run beside each other
and beside changes of the files.

`blobsNamed_of_run`: a blob has the content it is named for, and a hash that is returned is that of
a content the file had during the call, in every run in which no change takes away what a call has
read, a call copies what it has hashed, and no two calls copy to one temporary file (`Unmixed`).
-/

namespace Stratosync

open Foundations Foundations.Pool Foundations.Runs

/-! ## The program -/

/-- The files that snapshots are taken of, and those of the base store. -/
inductive StorePath
  | source (p : PathBuf)
  | object (hash : Str)
  | temp (hash : Str)
  deriving DecidableEq

/-- The buffer of the reads for the hash. -/
def hashBuffer : ℕ := 64 * 1024

/-- Where a call of `store_base` is. -/
inductive BlobPc
  | open
  /-- The file is open and some of it has been read. -/
  | hashing (file : ℕ) (got : Bytes)
  /-- About to look whether there is a blob of that hash. -/
  | look (hash : Str)
  /-- About to open the file again. -/
  | copy (hash : Str)
  /-- About to open the temporary file. -/
  | create (hash : Str) (file : ℕ)
  /-- So many bytes of the file have been copied. -/
  | copying (hash : Str) (file temp done : ℕ)
  | rename (hash : Str)
  | returned (hash : Str)
  | failed
  deriving DecidableEq

/-- What a call meets: whether it fails, and how many bytes a read gives after the first. -/
structure ReadEnv where
  fault : Bool
  count : ℕ

/-- The next call of a `store_base` of the file at `p`. -/
def BlobPc.tick (sha256 : Bytes → Str) (p : PathBuf) (d : Disk StorePath Bytes)
    (env : ReadEnv) : BlobPc → Disk StorePath Bytes × BlobPc
  | .open =>
    match (if env.fault then none else d.names (.source p)) with
    | none => (d, .failed)
    | some f => (d, .hashing f [])
  | .hashing f got =>
    if env.fault then (d, .failed)
    else
      match ((d.data f).drop got.length).take (min (env.count + 1) hashBuffer) with
      | [] => (d, .look (sha256 got))
      | b :: more => (d, .hashing f (got ++ b :: more))
  | .look hash =>
    (d, if !env.fault && (d.names (.object hash)).isSome then .returned hash else .copy hash)
  | .copy hash =>
    match (if env.fault then none else d.names (.source p)) with
    | none => (d, .failed)
    | some f => (d, .create hash f)
  | .create hash f =>
    if env.fault then (d, .failed)
    else
      let t := d.truncate (.temp hash) []
      (t.2, .copying hash f t.1 0)
  | .copying hash f t n =>
    if env.fault then (d, .failed)
    else
      match ((d.data f).drop n).take (env.count + 1) with
      | [] => (d, .rename hash)
      | b :: more =>
        (d.alter t (writeAt (d.data t) n (b :: more)), .copying hash f t (n + (more.length + 1)))
  | .rename hash =>
    if env.fault || (d.names (.temp hash)).isNone then (d, .failed)
    else (d.move (.temp hash) (.object hash), .returned hash)
  | .returned hash => (d, .returned hash)
  | .failed => (d, .failed)

structure SnapshotCall where
  path : PathBuf
  pc : BlobPc

structure SnapshotState where
  disk : Disk StorePath Bytes
  calls : List SnapshotCall

/-- No file. -/
def SnapshotState.init : SnapshotState := ⟨.empty [], []⟩

inductive SnapshotEvent
  /-- `store_base` is called. -/
  | start (p : PathBuf)
  | tick (k : ℕ) (env : ReadEnv)
  /-- A file is written to, cut or extended in place. -/
  | edit (p : PathBuf) (data : Bytes)
  /-- A file is made, or takes the place of another. -/
  | replace (p : PathBuf) (data : Bytes)
  | rename (p q : PathBuf)
  | remove (p : PathBuf)
  /-- `remove_object`. -/
  | removeObject (hash : Str)

/-- Call `k` goes on. -/
def SnapshotState.tick (sha256 : Bytes → Str) (s : SnapshotState) (k : ℕ) (call : SnapshotCall)
    (env : ReadEnv) : SnapshotState where
  disk := (call.pc.tick sha256 call.path s.disk env).1
  calls := advance s.calls k
    (some { call with pc := (call.pc.tick sha256 call.path s.disk env).2 })

def snapshotStep (sha256 : Bytes → Str) (s : SnapshotState) :
    SnapshotEvent → Option SnapshotState
  | .start p => some { s with calls := s.calls ++ [⟨p, .open⟩] }
  | .tick k env => s.calls[k]?.map fun call => s.tick sha256 k call env
  | .edit p data => (s.disk.names (.source p)).map fun f => { s with disk := s.disk.alter f data }
  | .replace p data => some { s with disk := s.disk.create (.source p) data }
  | .rename p q => some { s with disk := s.disk.move (.source p) (.source q) }
  | .remove p => some { s with disk := s.disk.unlink (.source p) }
  | .removeObject hash => some { s with disk := s.disk.unlink (.object hash) }

/-! ## What is to hold -/

/-- The file a call has open for the hash. -/
def BlobPc.hashes : BlobPc → Option ℕ
  | .hashing f _ => some f
  | _ => none

/-- What call `k` could read now of the file it has open for the hash. -/
def SnapshotState.visible (s : SnapshotState) (k : ℕ) : Option Bytes :=
  (s.calls[k]?.bind fun call => call.pc.hashes).map s.disk.data

/-- The contents the file of each call has had while the call had it open for the hash. -/
def seenAfter (_ : SnapshotState) (_ : SnapshotEvent) (s' : SnapshotState)
    (seen : ℕ → List Bytes) (k : ℕ) : List Bytes := seen k ++ (s'.visible k).toList

/-- The store, and what its calls have been able to read. -/
def snapshotStep' (sha256 : Bytes → Str) :=
  withHistory (snapshotStep sha256) seenAfter

/-- **A blob has the content it is named for, and a hash that is returned is that of a content its
file had.** -/
structure BlobsNamed (sha256 : Bytes → Str) (x : SnapshotState × (ℕ → List Bytes)) : Prop where
  object : ∀ hash data, x.1.disk.get (.object hash) = some data → sha256 data = hash
  returned : ∀ (k : ℕ) call hash, x.1.calls[k]? = some call → call.pc = .returned hash →
    ∃ data ∈ x.2 k, sha256 data = hash

/-! ## The condition -/

/-- The file is given another content without loss of what the call relies on. -/
def BlobPc.Spares (sha256 : Bytes → Str) (d : Disk StorePath Bytes) (f : ℕ) (data : Bytes) :
    BlobPc → Prop
  | .hashing g got => g = f → got <+: data
  | .create hash g => g = f → sha256 data = hash
  | .copying _ g _ _ => g = f → data = d.data f
  | _ => True

/-- The blob whose temporary file the call writes to, or is about to rename. -/
def BlobPc.writes : BlobPc → Option Str
  | .copying hash _ _ _ | .rename hash => some hash
  | _ => none

/-- The copy is of what was hashed, and does not go to the temporary file of another call. -/
def BlobPc.Unmixed (sha256 : Bytes → Str) (s : SnapshotState) (p : PathBuf) : BlobPc → Prop
  | .copy hash => ∀ data ∈ s.disk.get (.source p), sha256 data = hash
  | .create hash _ => some hash ∉ s.calls.map (·.pc.writes)
  | _ => True

/-- **The step mixes no contents.** A change in place leaves what a call has read of the file, a
file that is opened for a copy has the content that was hashed, and the temporary file that is
opened is not that of another call. -/
def Unmixed (sha256 : Bytes → Str) (s : SnapshotState) : SnapshotEvent → Prop
  | .edit p data => ∀ f ∈ s.disk.names (.source p), ∀ call ∈ s.calls,
      call.pc.Spares sha256 s.disk f data
  | .tick k _ => ∀ call ∈ s.calls[k]?, call.pc.Unmixed sha256 s call.path
  | _ => True

section Decidable

variable (sha256 : Bytes → Str)

instance BlobPc.decidableSpares (d : Disk StorePath Bytes) (f : ℕ) (data : Bytes) :
    (pc : BlobPc) → Decidable (pc.Spares sha256 d f data)
  | .hashing _ _ => inferInstanceAs (Decidable (_ = _ → _ <+: _))
  | .create _ _ | .copying _ _ _ _ => inferInstanceAs (Decidable (_ = _ → _ = _))
  | .open | .look _ | .copy _ | .rename _ | .returned _ | .failed =>
    inferInstanceAs (Decidable True)

instance BlobPc.decidableUnmixed (s : SnapshotState) (p : PathBuf) :
    (pc : BlobPc) → Decidable (pc.Unmixed sha256 s p)
  | .copy _ => inferInstanceAs (Decidable (∀ data ∈ s.disk.get _, _ = _))
  | .create _ _ => inferInstanceAs (Decidable (_ ∉ _))
  | .open | .hashing _ _ | .look _ | .copying _ _ _ _ | .rename _ | .returned _ | .failed =>
    inferInstanceAs (Decidable True)

instance decidableUnmixed (s : SnapshotState) :
    (e : SnapshotEvent) → Decidable (Unmixed sha256 s e)
  | .edit _ _ => inferInstanceAs (Decidable (∀ f ∈ s.disk.names _, ∀ call ∈ s.calls, _))
  | .tick k _ => inferInstanceAs (Decidable (∀ call ∈ s.calls[k]?, _))
  | .start _ | .replace _ _ | .rename _ _ | .remove _ | .removeObject _ =>
    inferInstanceAs (Decidable True)

end Decidable

/-! ## What a call can do -/

section Moves

variable (sha256 : Bytes → Str) (p : PathBuf) (d : Disk StorePath Bytes)

inductive BlobPc.Moves : BlobPc → Disk StorePath Bytes → BlobPc → Prop
  | failed {pc} : Moves pc d .failed
  | opened {f} (h : d.names (.source p) = some f) : Moves .open d (.hashing f [])
  | read {f got bs} (h : bs <+: (d.data f).drop got.length) :
      Moves (.hashing f got) d (.hashing f (got ++ bs))
  | hashed {f got} (h : (d.data f).length ≤ got.length) :
      Moves (.hashing f got) d (.look (sha256 got))
  | found {hash} : Moves (.look hash) d (.returned hash)
  | missing {hash} : Moves (.look hash) d (.copy hash)
  | reopened {hash f} (h : d.names (.source p) = some f) : Moves (.copy hash) d (.create hash f)
  | created {hash f} : Moves (.create hash f) (d.truncate (.temp hash) []).2
      (.copying hash f (d.truncate (.temp hash) []).1 0)
  | copied {hash f t n bs} (h : bs <+: (d.data f).drop n) :
      Moves (.copying hash f t n) (d.alter t (writeAt (d.data t) n bs))
        (.copying hash f t (n + bs.length))
  | ended {hash f t n} (h : (d.data f).length ≤ n) :
      Moves (.copying hash f t n) d (.rename hash)
  | renamed {hash} : Moves (.rename hash) (d.move (.temp hash) (.object hash)) (.returned hash)
  | stayed {hash} : Moves (.returned hash) d (.returned hash)

variable {sha256 p d}

theorem BlobPc.moves_of_tick (env : ReadEnv) (pc : BlobPc) :
    pc.Moves sha256 p d (pc.tick sha256 p d env).1 (pc.tick sha256 p d env).2 := by
  have hread : ∀ {l bs : Bytes} {n : ℕ}, l.take n = bs → bs <+: l :=
    fun h => h ▸ List.take_prefix ..
  cases pc with
  | «open» =>
    simp only [tick]
    split
    · exact .failed
    · exact .opened (Option.ite_none_left_eq_some.1 ‹_›).2
  | hashing f got =>
    simp only [tick]
    split
    · exact .failed
    · split
      · rename_i hnil
        refine .hashed ?_
        rw [List.take_eq_nil_iff, List.drop_eq_nil_iff] at hnil
        exact hnil.resolve_left (Nat.ne_of_gt (Nat.lt_min.2 ⟨Nat.succ_pos _, by decide⟩))
      · rename_i hbs
        exact .read (hread hbs)
  | look hash =>
    simp only [tick]
    split
    · exact .found
    · exact .missing
  | copy hash =>
    simp only [tick]
    split
    · exact .failed
    · exact .reopened (Option.ite_none_left_eq_some.1 ‹_›).2
  | create hash f =>
    simp only [tick]
    split
    · exact .failed
    · exact .created
  | copying hash f t n =>
    simp only [tick]
    split
    · exact .failed
    · split
      · rename_i hnil
        refine .ended ?_
        rw [List.take_eq_nil_iff, List.drop_eq_nil_iff] at hnil
        exact hnil.resolve_left (Nat.succ_ne_zero _)
      · rename_i hbs
        exact .copied (hread hbs)
  | rename hash =>
    simp only [tick]
    split
    · exact .failed
    · exact .renamed
  | returned hash => exact .stayed
  | failed => exact .failed

end Moves

/-! ## The invariant -/

/-- What a file gives after what has been read of it. -/
theorem append_prefix_of_drop {data got bs : Bytes} (h : got <+: data)
    (hbs : bs <+: data.drop got.length) : got ++ bs <+: data := by
  obtain ⟨rest, rfl⟩ := h
  rw [List.drop_left] at hbs
  exact (List.prefix_append_right_inj got).2 hbs

/-- A copy grows by what is written at its end. -/
theorem writeAt_take {data bs : Bytes} {n : ℕ} (hn : n ≤ data.length)
    (hbs : bs <+: data.drop n) : writeAt (data.take n) n bs = data.take (n + bs.length) := by
  have htake : data.take (n + bs.length) = data.take n ++ bs := by
    rw [List.take_add, ← List.prefix_iff_eq_take.1 hbs]
  have hlen : (data.take n).length = n := List.length_take_of_le hn
  rw [htake, writeAt]
  split
  · rw [‹bs = []›, List.append_nil]
  · rw [setLen, hlen, Nat.sub_self, List.replicate_zero, List.append_nil, List.take_take,
      Nat.min_self, List.drop_eq_nil_of_le (hlen.trans_le (Nat.le_add_right ..)), List.append_nil]

/-- The file is there, and is no temporary file. -/
def Apart (d : Disk StorePath Bytes) (f : ℕ) : Prop :=
  f < d.next ∧ ∀ hash, d.names (.temp hash) ≠ some f

/-- What a call relies on is so. -/
def BlobPc.Sound (sha256 : Bytes → Str) (d : Disk StorePath Bytes) : BlobPc → Prop
  | .hashing f got => Apart d f ∧ got <+: d.data f
  | .create hash f => Apart d f ∧ sha256 (d.data f) = hash
  | .copying hash f t n => (Apart d f ∧ sha256 (d.data f) = hash) ∧
      d.names (.temp hash) = some t ∧ n ≤ (d.data f).length ∧ d.data t = (d.data f).take n
  | .rename hash => ∃ t, d.names (.temp hash) = some t ∧ sha256 (d.data t) = hash
  | _ => True

/-- The file a call has open to read. -/
def BlobPc.reads : BlobPc → Option ℕ
  | .hashing f _ | .create _ f | .copying _ f _ _ => some f
  | _ => none

/-- The hash a call has come to. -/
def BlobPc.named : BlobPc → Option Str
  | .look hash | .copy hash | .create hash _ | .copying hash _ _ _ | .rename hash
  | .returned hash => some hash
  | _ => none

/-- The call has been able to read what it takes the hash of. -/
structure BlobPc.Read (sha256 : Bytes → Str) (d : Disk StorePath Bytes) (seen : List Bytes)
    (pc : BlobPc) : Prop where
  file : ∀ f ∈ pc.hashes, d.data f ∈ seen
  hash : ∀ hash ∈ pc.named, ∃ data ∈ seen, sha256 data = hash

structure SnapshotSafe (sha256 : Bytes → Str) (x : SnapshotState × (ℕ → List Bytes)) : Prop where
  object : ∀ hash f, x.1.disk.names (.object hash) = some f → sha256 (x.1.disk.data f) = hash
  sound : ∀ call ∈ x.1.calls, call.pc.Sound sha256 x.1.disk
  writers : (x.1.calls.filterMap (·.pc.writes)).Nodup
  read : ∀ (k : ℕ) call, x.1.calls[k]? = some call → call.pc.Read sha256 x.1.disk (x.2 k)

theorem SnapshotSafe.blobsNamed {sha256 : Bytes → Str} {x : SnapshotState × (ℕ → List Bytes)}
    (hx : SnapshotSafe sha256 x) : BlobsNamed sha256 x where
  object hash data h := by
    obtain ⟨f, hf, rfl⟩ := Option.map_eq_some_iff.1 h
    exact hx.object hash f hf
  returned k call hash hcall hpc := (hx.read k call hcall).hash hash (by rw [hpc]; rfl)

theorem snapshotSafe_init (sha256 : Bytes → Str) : SnapshotSafe sha256 (.init, fun _ => []) where
  object := nofun
  sound := nofun
  writers := List.nodup_nil
  read := nofun

section Keep

variable {sha256 : Bytes → Str} {d d' : Disk StorePath Bytes} {pc : BlobPc} {f : ℕ}

/-- Files do not become temporary files. -/
theorem Apart.mono (hf : Apart d f) (hnext : d.next ≤ d'.next)
    (htemp : ∀ hash t, d'.names (.temp hash) = some t →
      d.names (.temp hash) = some t ∨ d.next ≤ t) : Apart d' f :=
  ⟨hf.1.trans_le hnext, fun hash h => (htemp hash f h).elim (hf.2 hash) (Nat.not_le.2 hf.1)⟩

/-- A change of the disk that leaves the file a call reads and the one it writes. -/
theorem BlobPc.Sound.keep (hs : pc.Sound sha256 d) (hnext : d.next ≤ d'.next)
    (htemp : ∀ hash t, d'.names (.temp hash) = some t →
      d.names (.temp hash) = some t ∨ d.next ≤ t)
    (hread : ∀ f ∈ pc.reads, Apart d f → d'.data f = d.data f)
    (hwrite : ∀ hash ∈ pc.writes, ∀ t, d.names (.temp hash) = some t →
      d'.names (.temp hash) = some t ∧ d'.data t = d.data t) : pc.Sound sha256 d' := by
  cases pc with
  | hashing f got =>
    obtain ⟨hf, hgot⟩ := hs
    exact ⟨hf.mono hnext htemp, hread f rfl hf ▸ hgot⟩
  | create hash f =>
    obtain ⟨hf, hsha⟩ := hs
    exact ⟨hf.mono hnext htemp, hread f rfl hf ▸ hsha⟩
  | copying hash f t n =>
    obtain ⟨⟨hf, hsha⟩, ht, hn, hdata⟩ := hs
    obtain ⟨ht', hdata'⟩ := hwrite hash rfl t ht
    rw [BlobPc.Sound, hread f rfl hf, hdata']
    exact ⟨⟨hf.mono hnext htemp, hsha⟩, ht', hn, hdata⟩
  | rename hash =>
    obtain ⟨t, ht, hsha⟩ := hs
    obtain ⟨ht', hdata'⟩ := hwrite hash rfl t ht
    exact ⟨t, ht', hdata' ▸ hsha⟩
  | «open» | look | copy | returned | failed => trivial

end Keep

section Step

variable {sha256 : Bytes → Str} {s s' : SnapshotState} {seen : ℕ → List Bytes} {k : ℕ}
  {call : SnapshotCall} {d' : Disk StorePath Bytes} {pc' : BlobPc}

theorem sound_of_moves (hs : call.pc.Sound sha256 s.disk)
    (hg : call.pc.Unmixed sha256 s call.path)
    (hm : call.pc.Moves sha256 call.path s.disk d' pc') : pc'.Sound sha256 d' := by
  have happart : ∀ {f}, s.disk.names (.source call.path) = some f → Apart s.disk f :=
    fun hf => ⟨s.disk.bounded _ _ hf, fun _ h => nomatch s.disk.inj _ _ _ hf h⟩
  obtain ⟨p, pc⟩ := call
  cases hm with
  | opened hf => exact ⟨happart hf, List.nil_prefix⟩
  | read hbs => exact ⟨hs.1, append_prefix_of_drop hs.2 hbs⟩
  | @reopened hash f hf =>
    refine ⟨happart hf, hg _ ?_⟩
    rw [Disk.get, hf]
    rfl
  | @created hash f =>
    obtain ⟨⟨hlt, htemp⟩, hsha⟩ := hs
    have hne : f ≠ (s.disk.truncate (.temp hash) []).1 := by
      rintro rfl
      obtain h | h := s.disk.truncate_fst (.temp hash) []
      · exact htemp hash h
      · exact Nat.ne_of_lt hlt h
    have hnames : ∀ q, (s.disk.truncate (.temp hash) []).2.names (.temp q) = _ :=
      fun q => s.disk.names_truncate (.temp hash) (.temp q) []
    refine ⟨⟨⟨hlt.trans_le (s.disk.next_le_truncate ..), fun q h => ?_⟩, ?_⟩, ?_, Nat.zero_le _, ?_⟩
    · rw [hnames] at h
      split at h
      · exact hne (Option.some.inj h).symm
      · exact htemp q h
    · rw [Disk.data_truncate_of_ne hne, hsha]
    · rw [hnames, if_pos rfl]
    · rw [Disk.data_truncate_self, List.take_zero]
  | @copied hash f t n bs hbs =>
    obtain ⟨⟨hf, hsha⟩, ht, hn, hdata⟩ := hs
    have hne : f ≠ t := fun h => hf.2 hash (h ▸ ht)
    have hle : n + bs.length ≤ (s.disk.data f).length := by
      have hlen := hbs.length_le
      rw [List.length_drop] at hlen
      omega
    rw [BlobPc.Sound, Disk.data_alter, Disk.data_alter, if_neg hne, if_pos rfl, hdata,
      writeAt_take hn hbs]
    exact ⟨⟨hf, hsha⟩, ht, hle, rfl⟩
  | @ended hash f t n hend =>
    obtain ⟨⟨-, hsha⟩, ht, -, hdata⟩ := hs
    exact ⟨t, ht, by rw [hdata, List.take_of_length_le hend, hsha]⟩
  | failed | hashed | found | missing | renamed | stayed => trivial

/-- The other calls do not notice. -/
theorem sound_others_of_moves (hx : SnapshotSafe sha256 (s, seen)) (hk : s.calls[k]? = some call)
    (hg : call.pc.Unmixed sha256 s call.path)
    (hm : call.pc.Moves sha256 call.path s.disk d' pc') :
    ∀ other ∈ s.calls.eraseIdx k, other.pc.Sound sha256 d' := by
  intro other hother
  have hs := hx.sound other (List.mem_of_mem_eraseIdx hother)
  have hsame : ∀ {hash}, call.pc.writes = some hash → hash ∉ other.pc.writes := fun hw =>
    ne_of_nodup_filterMap hx.writers hk hw other hother
  have hcall := hx.sound call (mem_of_getElem? hk)
  obtain ⟨p, pc⟩ := call
  cases hm with
  | @created hash f =>
    have hfst := s.disk.truncate_fst (.temp hash) []
    have hnames := s.disk.names_truncate (.temp hash)
    have hne : ∀ g, Apart s.disk g → g ≠ (s.disk.truncate (.temp hash) []).1 := by
      rintro g ⟨hlt, htemp⟩ rfl
      exact hfst.elim (htemp hash) (Nat.ne_of_lt hlt)
    refine hs.keep (s.disk.next_le_truncate ..) (fun q t ht => ?_)
      (fun g _ hapart => Disk.data_truncate_of_ne (hne g hapart)) fun q hq t ht => ?_
    · rw [hnames] at ht
      split at ht
      · rename_i hq
        obtain rfl := Option.some.inj ht
        rw [hq]
        exact hfst.imp id fun h => Nat.le_of_eq h.symm
      · exact .inl ht
    · have hqh : q ≠ hash := by
        rintro rfl
        exact hg (List.mem_map.2 ⟨other, List.mem_of_mem_eraseIdx hother, hq⟩)
      refine ⟨by rw [hnames, if_neg (hqh <| StorePath.temp.inj ·), ht], ?_⟩
      refine Disk.data_truncate_of_ne ?_
      rintro rfl
      obtain h | h := hfst
      · exact hqh (StorePath.temp.inj (s.disk.inj _ _ _ ht h))
      · exact Nat.ne_of_lt (s.disk.bounded _ _ ht) h
  | @copied hash f t n bs hbs =>
    have ht := hcall.2.1
    refine hs.keep (Nat.le_refl _) (fun _ _ => .inl) (fun g _ hapart => ?_) fun q hq u hu => ?_
    · rw [Disk.data_alter, if_neg]
      rintro rfl
      exact hapart.2 hash ht
    · refine ⟨hu, ?_⟩
      rw [Disk.data_alter, if_neg]
      rintro rfl
      exact hsame rfl (StorePath.temp.inj (s.disk.inj _ _ _ hu ht) ▸ hq)
  | @renamed hash =>
    have hnames : ∀ q, (s.disk.move (.temp hash) (.object hash)).names (.temp q) =
        if q = hash then none else s.disk.names (.temp q) := by
      intro q
      rw [Disk.names_move, if_neg nofun]
      simp only [StorePath.temp.injEq]
    refine hs.keep (Nat.le_refl _) (fun q t ht => ?_) (fun _ _ _ => rfl) fun q hq t ht => ?_
    · rw [hnames] at ht
      split at ht
      · cases ht
      · exact .inl ht
    · refine ⟨?_, rfl⟩
      rw [hnames, if_neg, ht]
      rintro rfl
      exact hsame rfl hq
  | failed | opened | read | hashed | found | missing | reopened | ended | stayed => exact hs

/-- The blobs after a call are those before, and the one it has made. -/
theorem object_of_moves (hx : SnapshotSafe sha256 (s, seen)) (hk : s.calls[k]? = some call)
    (hm : call.pc.Moves sha256 call.path s.disk d' pc') {hash : Str} {f : ℕ}
    (h : d'.names (.object hash) = some f) : sha256 (d'.data f) = hash := by
  have hs := hx.sound call (mem_of_getElem? hk)
  have hold : ∀ f, s.disk.names (.object hash) = some f → sha256 (s.disk.data f) = hash :=
    hx.object hash
  obtain ⟨p, pc⟩ := call
  cases hm with
  | @created h' g =>
    rw [Disk.names_truncate, if_neg nofun] at h
    rw [Disk.data_truncate_of_ne, hold f h]
    rintro rfl
    obtain hf | hf := s.disk.truncate_fst (.temp h') []
    · exact nomatch s.disk.inj _ _ _ h hf
    · exact Nat.ne_of_lt (s.disk.bounded _ _ h) hf
  | @copied h' g t n bs hbs =>
    rw [Disk.data_alter, if_neg, hold f h]
    rintro rfl
    exact nomatch s.disk.inj _ _ _ h hs.2.1
  | @renamed h' =>
    rw [Disk.names_move] at h
    split at h
    · obtain ⟨t, ht, hsha⟩ := hs
      obtain rfl := Option.some.inj (h.symm.trans ht)
      exact hsha.trans (StorePath.object.inj ‹_›).symm
    · rw [if_neg nofun] at h
      exact hold f h
  | failed | opened | read | hashed | found | missing | reopened | ended | stayed =>
    exact hold f h

/-- A call takes up a temporary file when it creates it, and one that no other has taken up. -/
theorem writes_of_moves (hg : call.pc.Unmixed sha256 s call.path)
    (hm : call.pc.Moves sha256 call.path s.disk d' pc') :
    pc'.writes = call.pc.writes ∨
      ∀ hash ∈ pc'.writes, hash ∉ s.calls.filterMap (·.pc.writes) := by
  obtain ⟨p, pc⟩ := call
  cases hm with
  | @created hash f =>
    refine .inr fun q hq hmem => ?_
    obtain rfl := Option.some.inj hq
    obtain ⟨other, hother, hw⟩ := List.mem_filterMap.1 hmem
    exact hg (List.mem_map.2 ⟨other, hother, hw⟩)
  | opened | read | hashed | found | missing | reopened | copied | ended | stayed => exact .inl rfl
  | failed | renamed => exact .inr nofun

/-- A call comes to the hash of what it has been able to read. -/
theorem named_of_moves {contents : List Bytes} (hs : call.pc.Sound sha256 s.disk)
    (hr : call.pc.Read sha256 s.disk contents)
    (hm : call.pc.Moves sha256 call.path s.disk d' pc') :
    ∀ hash ∈ pc'.named, ∃ data ∈ contents, sha256 data = hash := by
  have hsame := hr.hash
  obtain ⟨p, pc⟩ := call
  cases hm with
  | @hashed f got hend =>
    intro hash hh
    obtain rfl := Option.some.inj hh
    exact ⟨_, hr.file f rfl, congrArg sha256 (hs.2.eq_of_length_le hend).symm⟩
  | opened | read | failed => exact nofun
  | found | missing | reopened | created | copied | ended | renamed | stayed => exact hsame

/-- What the calls could read is recorded after each step. -/
theorem read_seenAfter (s : SnapshotState) (e : SnapshotEvent)
    (h : ∀ (k : ℕ) call, s'.calls[k]? = some call → ∀ hash ∈ call.pc.named,
      ∃ data ∈ seen k, sha256 data = hash) (hcall : s'.calls[k]? = some call) :
    call.pc.Read sha256 s'.disk (seenAfter s e s' seen k) where
  file f hf := by
    refine List.mem_append_right _ ?_
    rw [SnapshotState.visible, hcall, Option.bind_some, hf]
    exact List.mem_singleton_self _
  hash hash hh := by
    obtain ⟨data, hdata, hsha⟩ := h k call hcall hash hh
    exact ⟨data, List.mem_append_left _ hdata, hsha⟩

/-- A step that leaves the calls as they are. -/
theorem SnapshotSafe.of_disk (hx : SnapshotSafe sha256 (s, seen)) (e : SnapshotEvent)
    (hobject : ∀ hash f, d'.names (.object hash) = some f →
      s.disk.names (.object hash) = some f ∧ d'.data f = s.disk.data f)
    (hsound : ∀ call ∈ s.calls, call.pc.Sound sha256 d') :
    SnapshotSafe sha256 ({ s with disk := d' },
      seenAfter s e { s with disk := d' } seen) where
  object hash f h := by
    obtain ⟨hf, hdata⟩ := hobject hash f h
    exact hdata ▸ hx.object hash f hf
  sound := hsound
  writers := hx.writers
  read k call hcall := read_seenAfter s e (fun k call h => (hx.read k call h).hash) hcall

/-- A step that leaves the calls, the files and the temporary files as they are. -/
theorem SnapshotSafe.of_names (hx : SnapshotSafe sha256 (s, seen)) (e : SnapshotEvent)
    (hnext : s.disk.next ≤ d'.next) (hdata : ∀ f < s.disk.next, d'.data f = s.disk.data f)
    (htemp : ∀ hash, d'.names (.temp hash) = s.disk.names (.temp hash))
    (hobject : ∀ hash f, d'.names (.object hash) = some f → s.disk.names (.object hash) = some f) :
    SnapshotSafe sha256 ({ s with disk := d' }, seenAfter s e { s with disk := d' } seen) := by
  refine hx.of_disk e (fun hash f h => ?_) fun call hcall => ?_
  · have hf := hobject hash f h
    exact ⟨hf, hdata f (s.disk.bounded _ _ hf)⟩
  · refine (hx.sound call hcall).keep hnext (fun hash t ht => .inl (htemp hash ▸ ht))
      (fun f _ hf => hdata f hf.1) fun hash _ t ht => ?_
    exact ⟨(htemp hash).trans ht, hdata t (s.disk.bounded _ _ ht)⟩

/-- A change in place that leaves the calls what they rely on. -/
theorem sound_of_edit {pc : BlobPc} {p : PathBuf} {f : ℕ} {data : Bytes}
    (hs : pc.Sound sha256 s.disk) (hf : s.disk.names (.source p) = some f)
    (hg : pc.Spares sha256 s.disk f data) : pc.Sound sha256 (s.disk.alter f data) := by
  cases pc with
  | hashing g got =>
    refine ⟨hs.1, ?_⟩
    rw [Disk.data_alter]
    split
    · exact hg ‹_›
    · exact hs.2
  | create hash g =>
    refine ⟨hs.1, ?_⟩
    rw [Disk.data_alter]
    split
    · exact hg ‹_›
    · exact hs.2
  | copying hash g t n =>
    have hsame : ∀ u, u = t ∨ u = g → (s.disk.alter f data).data u = s.disk.data u := by
      rintro u hu
      rw [Disk.data_alter]
      split
      · obtain rfl | rfl := hu
        · obtain rfl := ‹u = f›
          exact nomatch s.disk.inj _ _ _ hf hs.2.1
        · rw [hg ‹_›, ‹u = f›]
      · rfl
    rw [BlobPc.Sound, hsame g (.inr rfl), hsame t (.inl rfl)]
    exact hs
  | rename hash =>
    obtain ⟨t, ht, hsha⟩ := hs
    refine ⟨t, ht, ?_⟩
    rw [Disk.data_alter, if_neg, hsha]
    rintro rfl
    exact nomatch s.disk.inj _ _ _ hf ht
  | «open» | look | copy | returned | failed => trivial

theorem SnapshotSafe.tick {env : ReadEnv} (hx : SnapshotSafe sha256 (s, seen))
    (hg : call.pc.Unmixed sha256 s call.path) (hk : s.calls[k]? = some call) :
    SnapshotSafe sha256 (s.tick sha256 k call env,
      seenAfter s (.tick k env) (s.tick sha256 k call env) seen) := by
  have hmem := mem_of_getElem? hk
  have hm : call.pc.Moves sha256 call.path s.disk _ _ := BlobPc.moves_of_tick env call.pc
  have hcalls : (s.tick sha256 k call env).calls = advance s.calls k
      (some { call with pc := (call.pc.tick sha256 call.path s.disk env).2 }) := rfl
  refine ⟨fun hash f => object_of_moves hx hk hm, fun other hother => ?_, ?_, fun j other hj =>
    read_seenAfter s (.tick k env) (fun j other hj => ?_) hj⟩
  · obtain hother | hother := mem_others_of_mem_advance (hcalls ▸ hother)
    · exact sound_others_of_moves hx hk hg hm other hother
    · obtain rfl := Option.some.inj hother
      exact sound_of_moves (hx.sound call hmem) hg hm
  · rw [hcalls]
    refine nodup_filterMap_advance hx.writers hk fun u hu => ?_
    obtain rfl := Option.some.inj hu
    exact writes_of_moves hg hm
  · rw [hcalls, advance, List.getElem?_set] at hj
    split at hj
    · split at hj
      · obtain rfl := Option.some.inj hj
        exact ‹k = j› ▸ named_of_moves (hx.sound call hmem) (hx.read k call hk) hm
      · cases hj
    · exact (hx.read j other hj).hash

theorem SnapshotSafe.step {x x' : SnapshotState × (ℕ → List Bytes)} {e : SnapshotEvent}
    (hx : SnapshotSafe sha256 x) (hg : Unmixed sha256 x.1 e)
    (h : snapshotStep' sha256 x e = some x') : SnapshotSafe sha256 x' := by
  obtain ⟨s, seen⟩ := x
  obtain ⟨s', seen'⟩ := x'
  obtain ⟨h, hseen⟩ := withHistory_eq_some.1 h
  obtain rfl : seen' = seenAfter s e s' seen := hseen
  cases e with
  | start p =>
    obtain rfl := Option.some.inj h
    refine ⟨hx.object, forall_append hx.sound ?_, ?_, fun k call hcall => ?_⟩
    · rintro call hcall
      rw [List.mem_singleton.1 hcall]
      trivial
    · change ((s.calls ++ [_]).filterMap _).Nodup
      rw [List.filterMap_append]
      exact (List.append_nil _).symm ▸ hx.writers
    · refine read_seenAfter s (.start p) (fun k call hcall => ?_) hcall
      rw [List.getElem?_append] at hcall
      split at hcall
      · exact (hx.read k call hcall).hash
      · rw [List.mem_singleton.1 (mem_of_getElem? hcall)]
        exact nofun
  | tick k env =>
    obtain ⟨call, hk, rfl⟩ := Option.map_eq_some_iff.1 h
    exact hx.tick (hg call hk) hk
  | edit p data =>
    obtain ⟨f, hf, rfl⟩ := Option.map_eq_some_iff.1 h
    refine hx.of_disk _ (fun hash g hobj => ⟨hobj, ?_⟩) fun call hcall =>
      sound_of_edit (hx.sound call hcall) hf (hg f hf call hcall)
    rw [Disk.data_alter, if_neg]
    rintro rfl
    exact nomatch s.disk.inj _ _ _ hobj hf
  | replace p data =>
    obtain rfl := Option.some.inj h
    refine hx.of_names _ (Nat.le_succ _) (fun f hf => Disk.data_create_of_lt hf)
      (fun hash => ?_) fun hash f hobj => ?_
    · rw [Disk.names_create, if_neg nofun]
    · rwa [Disk.names_create, if_neg nofun] at hobj
  | rename p q =>
    obtain rfl := Option.some.inj h
    refine hx.of_names _ (Nat.le_refl _) (fun _ _ => rfl) (fun hash => ?_) fun hash f hobj => ?_
    · rw [Disk.names_move, if_neg nofun, if_neg nofun]
    · rwa [Disk.names_move, if_neg nofun, if_neg nofun] at hobj
  | remove p =>
    obtain rfl := Option.some.inj h
    refine hx.of_names _ (Nat.le_refl _) (fun _ _ => rfl) (fun hash => ?_) fun hash f hobj => ?_
    · rw [Disk.names_unlink, if_neg nofun]
    · rwa [Disk.names_unlink, if_neg nofun] at hobj
  | removeObject q =>
    obtain rfl := Option.some.inj h
    refine hx.of_names _ (Nat.le_refl _) (fun _ _ => rfl) (fun hash => ?_) fun hash f hobj => ?_
    · rw [Disk.names_unlink, if_neg nofun]
    · rw [Disk.names_unlink] at hobj
      split at hobj
      · cases hobj
      · exact hobj

end Step

/-- **Blobs have the content they are named for**, in every run whose steps mix no contents. -/
theorem blobsNamed_of_run (sha256 : Bytes → Str) {es : List SnapshotEvent}
    {x : SnapshotState × (ℕ → List Bytes)}
    (hg : Guarded (snapshotStep' sha256) (fun y => Unmixed sha256 y.1) (.init, fun _ => []) es)
    (hr : run (snapshotStep' sha256) (.init, fun _ => []) es = some x) : BlobsNamed sha256 x :=
  (inv_of_run (fun _ _ _ hx hg h => hx.step hg h) (snapshotSafe_init sha256) hg hr).blobsNamed

/-- A hash for tests. -/
def bytesAsText (data : Bytes) : Str := data.map fun b => Char.ofNat b.toNat

/-- `n` calls of the `store_base` at position `k`. -/
def storeCalls (k n : ℕ) : List SnapshotEvent := List.replicate n (.tick k ⟨false, 0⟩)

/-- A file of one byte is stored, and written to when the copy is about to be made, or has been. -/
def storeWhileWritten (before after : ℕ) : List SnapshotEvent :=
  [.replace [['a']] [1], .start [['a']]] ++ storeCalls 0 before ++ [.edit [['a']] [2]] ++
    storeCalls 0 after

/-- The file is written to after the copy. -/
theorem blobsNamed_storeWhileWritten :
    ∃ x, run (snapshotStep' bytesAsText) (.init, fun _ => []) (storeWhileWritten 8 1) = some x ∧
      x.1.disk.get (.object [Char.ofNat 1]) = some [1] ∧ BlobsNamed bytesAsText x :=
  have hguard : Guarded (snapshotStep' bytesAsText) (fun y => Unmixed bytesAsText y.1)
      (.init, fun _ => []) (storeWhileWritten 8 1) := by decide
  ⟨_, rfl, rfl, blobsNamed_of_run bytesAsText hguard rfl⟩

/-- The file is written to between the hash and the copy: the blob that is named for the old
content has the new one. -/
theorem not_blobsNamed_storeWhileWritten :
    ¬∀ (sha256 : Bytes → Str) (es : List SnapshotEvent) (x : SnapshotState × (ℕ → List Bytes)),
      run (snapshotStep' sha256) (.init, fun _ => []) es = some x → BlobsNamed sha256 x := by
  intro h
  obtain ⟨x, hx, hget⟩ : ∃ x,
      run (snapshotStep' bytesAsText) (.init, fun _ => []) (storeWhileWritten 4 5) = some x ∧
        x.1.disk.get (.object [Char.ofNat 1]) = some [2] :=
    ⟨_, rfl, rfl⟩
  exact absurd ((h bytesAsText _ x hx).object _ _ hget) (by decide)

end Stratosync

import Stratosync.Delta.GoogleDrive
import Stratosync.Delta.OneDrive
import Stratosync.Sync.Refreshers

/-!
# The precondition of an upload

`check_if_match` lists the object that an upload would replace and compares the etag the row has
with every hash listed, whatever its spelling, or, where none is listed, with the etag of the
listing.
-/

namespace Stratosync

/-- How a call of `check_if_match` ends. -/
inductive IfMatchReply
  | ok
  | conflict (loc : Str) (remote : Option Str)
  | failed (error : SyncError)
  deriving DecidableEq, Repr

section

variable (decode : Base64Engine → Str → Option Bytes)

/-- The two texts spell one hash. -/
def Spells (a b : Str) : Prop :=
  (hashToHex decode a).isSome = true ∧ hashToHex decode a = hashToHex decode b

instance instDecidableSpells (a b : Str) : Decidable (Spells decode a b) :=
  inferInstanceAs (Decidable (_ ∧ _))

def etagMatchesHashes (stored : Str) (hashes : List (Str × Str)) : Bool :=
  match hashToHex decode stored with
  | none => false
  | some stored => (hashes.filterMap fun h => hashToHex decode h.2).any (· = stored)

/-- `check_if_match`, given the reply of `lsjson`. -/
def checkIfMatch (listing : Except SyncError (List RcloneLsJsonEntry)) (expected : Str) :
    IfMatchReply :=
  match listing with
  -- the object does not exist yet
  | .error .notFound => .ok
  | .error e => .failed e
  | .ok [] => .ok
  | .ok (entry :: _) =>
    let hashes := entry.hashes.getD []
    let etag := entry.toMetadata.etag
    if hashes.isEmpty then
      if etag.all (· = expected) then .ok else .conflict expected etag
    else if etagMatchesHashes decode expected hashes then .ok
    else .conflict expected etag

end

/-! ## What passes -/

section

variable {decode : Base64Engine → Str → Option Bytes}

theorem etagMatchesHashes_iff {stored : Str} {hashes : List (Str × Str)} :
    etagMatchesHashes decode stored hashes = true ↔ ∃ h ∈ hashes, Spells decode stored h.2 := by
  rw [etagMatchesHashes]
  cases hs : hashToHex decode stored with
  | none => simp [Spells, hs]
  | some x =>
    simp only [List.any_filterMap, List.any_eq_true, Spells, hs, Option.isSome_some, true_and]
    refine exists_congr fun h => and_congr_right fun _ => ?_
    cases hashToHex decode h.2 with
    | none => simp
    | some y => simp [eq_comm]

/-- An object that lists hashes passes when the etag spells one of them. -/
theorem checkIfMatch_of_hashes {entry : RcloneLsJsonEntry} {expected : Str}
    (hne : entry.hashes.getD [] ≠ []) :
    checkIfMatch decode (.ok [entry]) expected =
      if ∃ h ∈ entry.hashes.getD [], Spells decode expected h.2 then .ok
      else .conflict expected entry.toMetadata.etag := by
  have hempty : (entry.hashes.getD []).isEmpty = false := by simp [hne]
  simp only [checkIfMatch, hempty, Bool.false_eq_true, if_false, etagMatchesHashes_iff]

/-- One that lists none passes when it has the very etag, or none. -/
theorem checkIfMatch_of_no_hashes {entry : RcloneLsJsonEntry} {expected : Str}
    (he : entry.hashes.getD [] = []) :
    checkIfMatch decode (.ok [entry]) expected =
      if ∀ v ∈ entry.toMetadata.etag, v = expected then .ok
      else .conflict expected entry.toMetadata.etag := by
  simp only [checkIfMatch, he, List.isEmpty_nil, if_true, Option.all_eq_true, decide_eq_true_eq,
    Option.mem_def]

/-- Without hashes the etag of a listing is the id. -/
theorem RcloneLsJsonEntry.etag_of_no_hashes {entry : RcloneLsJsonEntry}
    (he : entry.hashes.getD [] = []) : entry.toMetadata.etag = entry.id := by
  have hnone : entry.contentHash = none := by
    cases hh : entry.hashes with
    | none => simp [RcloneLsJsonEntry.contentHash, hh]
    | some l =>
      rw [hh, Option.getD_some] at he
      simp [RcloneLsJsonEntry.contentHash, hh, he]
  simp [RcloneLsJsonEntry.toMetadata, hnone]

theorem mem_of_lookup {kind v : Str} {l : List (Str × Str)} (h : l.lookup kind = some v) :
    (kind, v) ∈ l := by
  obtain ⟨l₁, l₂, rfl, -⟩ := List.lookup_eq_some_iff.1 h
  simp

/-- The content hash is one of the hashes. -/
theorem RcloneLsJsonEntry.contentHash_mem {entry : RcloneLsJsonEntry} {v : Str}
    (hv : entry.contentHash = some v) : ∃ h ∈ entry.hashes.getD [], h.2 = v := by
  have hlookup : ∃ kind, (entry.hashes.getD []).lookup kind = some v := by
    cases hh : entry.hashes with
    | none => simp [RcloneLsJsonEntry.contentHash, hh] at hv
    | some l =>
      simp only [RcloneLsJsonEntry.contentHash, hh, Option.bind_some, Option.orElse_eq_orElse,
        Option.orElse_eq_or, Option.or_eq_some_iff] at hv
      grind
  obtain ⟨kind, hkind⟩ := hlookup
  exact ⟨(kind, v), mem_of_lookup hkind, rfl⟩

end

end Stratosync

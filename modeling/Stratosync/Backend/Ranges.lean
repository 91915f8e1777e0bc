import Stratosync.State.Types
import Mathlib.Algebra.GroupWithZero.Nat
import Mathlib.Data.List.Basic

/-!
# Ranged downloads over WebDAV

`WebDavBackend::download_range` asks for the bytes `offset` to `offset + len - 1`, both inclusive,
and returns the body of any reply that is a success. `downloadsSlice_iff`: this is the requested
slice, and formed without overflow, exactly when the end fits, the range is not an empty one at the
start, and the server replies with the slice, or with a whole object that is the slice.
-/

namespace Stratosync

/-- The header `bytes={first}-{last}` of a request; both ends are included. -/
structure ByteRange where
  first : UInt64
  last : UInt64
  deriving DecidableEq, Repr

structure HttpResponse where
  status : ℕ
  body : Bytes
  deriving DecidableEq, Repr

namespace HttpResponse

/-- `resp.status().is_success()`. -/
def isSuccess (resp : HttpResponse) : Bool := 200 ≤ resp.status && resp.status < 300

end HttpResponse

/-- `offset + len - 1`; with overflow checks, `none` is a panic. -/
def rangeEnd (overflowChecks : Bool) (offset len : UInt64) : Option UInt64 :=
  let sum := offset.toNat + len.toNat
  if overflowChecks && (2 ^ 64 ≤ sum || sum = 0) then none else some (offset + len - 1)

/-- `WebDavBackend::download_range`, given what the server replies to a `GET` with a range. -/
def webDavDownloadRange (overflowChecks : Bool) (send : ByteRange → Except SyncError HttpResponse)
    (offset len : UInt64) : Option (Except SyncError Bytes) :=
  (rangeEnd overflowChecks offset len).map fun last =>
    match send ⟨offset, last⟩ with
    | .error e => .error e
    | .ok resp =>
      if resp.status = 404 then .error .notFound
      -- 206 is a part of the object, 200 all of it from a server that ignores the range
      else if resp.isSuccess then .ok resp.body
      else .error .fatal

/-! ## Servers -/

/-- The legal replies to a `GET` of an object with a range. -/
inductive RangeReply (content : Bytes) (range : ByteRange) : HttpResponse → Prop
  | slice : range.first ≤ range.last → range.first.toNat < content.length →
      RangeReply content range
        ⟨206, (content.drop range.first.toNat).take (range.last.toNat + 1 - range.first.toNat)⟩
  | whole : RangeReply content range ⟨200, content⟩
  | unsatisfiable (body : Bytes) : content.length ≤ range.first.toNat →
      RangeReply content range ⟨416, body⟩

/-- A server that has the object. -/
structure RangeServer (content : Bytes) where
  get : ByteRange → HttpResponse
  legal : ∀ range, RangeReply content range (get range)

/-- `content[min(offset, size) .. min(offset + len, size)]`. -/
def requestedSlice (content : Bytes) (offset len : UInt64) : Bytes :=
  (content.take (min (offset.toNat + len.toNat) content.length)).drop
    (min offset.toNat content.length)

/-- **A ranged download returns the slice**, and its header is formed without overflow. -/
structure DownloadsSlice (overflowChecks : Bool) (content : Bytes) (server : RangeServer content)
    (offset len : UInt64) : Prop where
  slice : webDavDownloadRange overflowChecks (fun range => .ok (server.get range)) offset len =
    some (.ok (requestedSlice content offset len))
  noUnderflow : 0 < offset.toNat + len.toNat
  noOverflow : offset.toNat + len.toNat < 2 ^ 64

/-- The end of the range is a number of 64 bits. The server answers the range with a part of the
object, or else with all of it when all of it is asked for or it is empty. -/
def Answered {content : Bytes} (server : RangeServer content) (offset len : UInt64) : Prop :=
  (0 < offset.toNat + len.toNat ∧ offset.toNat + len.toNat < 2 ^ 64) ∧
    ((server.get ⟨offset, offset + len - 1⟩).status = 206 ∨
      (server.get ⟨offset, offset + len - 1⟩).status = 200 ∧
        (content = [] ∨ offset = 0 ∧ content.length ≤ len.toNat))

section

variable {content : Bytes} {offset len : UInt64}

theorem requestedSlice_eq (content : Bytes) (offset len : UInt64) :
    requestedSlice content offset len = (content.drop offset.toNat).take len.toNat := by
  rw [requestedSlice, ← List.take_eq_take_min]
  rcases Nat.le_total offset.toNat content.length with hle | hle
  · rw [Nat.min_eq_left hle, List.drop_take, Nat.add_sub_cancel_left]
  · rw [Nat.min_eq_right hle, List.drop_eq_nil_of_le (List.length_take_le' _ _),
      List.drop_eq_nil_of_le hle, List.take_nil]

/-- The object is the slice when it is empty or all of it is asked for. -/
theorem eq_requestedSlice_iff :
    content = requestedSlice content offset len ↔
      content = [] ∨ offset = 0 ∧ content.length ≤ len.toNat := by
  rw [requestedSlice_eq]
  constructor
  · intro h
    have hlength := congrArg List.length h
    rw [List.length_take, List.length_drop] at hlength
    by_cases hempty : content.length = 0
    · exact .inl (List.length_eq_zero_iff.1 hempty)
    · have hzero : offset.toNat = 0 := by omega
      exact .inr ⟨UInt64.toNat_inj.1 hzero, by omega⟩
  · rintro (rfl | ⟨rfl, hle⟩)
    · rw [List.drop_nil, List.take_nil]
    · exact (List.take_of_length_le hle).symm

theorem toNat_rangeEnd (hpos : 0 < offset.toNat + len.toNat)
    (hlt : offset.toNat + len.toNat < 2 ^ 64) :
    (offset + len - 1).toNat = offset.toNat + len.toNat - 1 := by
  have hsum : (offset + len).toNat = offset.toNat + len.toNat := by
    rw [UInt64.toNat_add, Nat.mod_eq_of_lt hlt]
  rw [UInt64.toNat_sub_of_le, hsum]
  · rfl
  · rw [UInt64.le_iff_toNat_le, hsum]
    exact hpos

/-- Without overflow the header is sent, in every build. -/
theorem rangeEnd_eq_some (overflowChecks : Bool) (hpos : 0 < offset.toNat + len.toNat)
    (hlt : offset.toNat + len.toNat < 2 ^ 64) :
    rangeEnd overflowChecks offset len = some (offset + len - 1) := by
  simp only [rangeEnd]
  rw [if_neg]
  simp only [Bool.and_eq_true, Bool.or_eq_true, decide_eq_true_eq, not_and, not_or]
  omega

/-- A part of the object that answers the range is the slice. -/
theorem partial_eq_requestedSlice (hpos : 0 < offset.toNat + len.toNat)
    (hlt : offset.toNat + len.toNat < 2 ^ 64) :
    (content.drop offset.toNat).take ((offset + len - 1).toNat + 1 - offset.toNat) =
      requestedSlice content offset len := by
  rw [requestedSlice_eq, toNat_rangeEnd hpos hlt]
  congr 1
  omega

/-- What is downloaded is the body of a reply with a part of the object, or with all of it. -/
theorem webDavDownloadRange_eq_ok_iff {overflowChecks : Bool} {server : RangeServer content}
    {bytes : Bytes} (hpos : 0 < offset.toNat + len.toNat)
    (hlt : offset.toNat + len.toNat < 2 ^ 64) :
    webDavDownloadRange overflowChecks (fun range => .ok (server.get range)) offset len =
        some (.ok bytes) ↔
      ((server.get ⟨offset, offset + len - 1⟩).status = 206 ∧
          bytes = requestedSlice content offset len) ∨
        ((server.get ⟨offset, offset + len - 1⟩).status = 200 ∧ bytes = content) := by
  rw [webDavDownloadRange, rangeEnd_eq_some overflowChecks hpos hlt, Option.map_some]
  dsimp only
  generalize hresp : server.get ⟨offset, offset + len - 1⟩ = resp
  have hlegal := server.legal ⟨offset, offset + len - 1⟩
  rw [hresp] at hlegal
  cases hlegal with
  | slice hle hin =>
    rw [partial_eq_requestedSlice hpos hlt]
    simp [HttpResponse.isSuccess, eq_comm]
  | whole => simp [HttpResponse.isSuccess, eq_comm]
  | unsatisfiable body hpast => simp [HttpResponse.isSuccess]

/-- **A ranged download returns the slice** exactly when the range is one and the server answers it
with the slice, or with a whole object that is the slice. -/
theorem downloadsSlice_iff (overflowChecks : Bool) (content : Bytes) (server : RangeServer content)
    (offset len : UInt64) :
    DownloadsSlice overflowChecks content server offset len ↔ Answered server offset len := by
  constructor
  · rintro ⟨hslice, hpos, hlt⟩
    refine ⟨⟨hpos, hlt⟩, ?_⟩
    rw [webDavDownloadRange_eq_ok_iff hpos hlt] at hslice
    exact hslice.imp And.left fun h => ⟨h.1, eq_requestedSlice_iff.1 h.2.symm⟩
  · rintro ⟨⟨hpos, hlt⟩, hreply⟩
    refine ⟨(webDavDownloadRange_eq_ok_iff hpos hlt).2 ?_, hpos, hlt⟩
    exact hreply.imp (fun h => ⟨h, rfl⟩) fun h => ⟨h.1, (eq_requestedSlice_iff.2 h.2).symm⟩

/-- A server that ignores ranges. -/
def wholeServer (content : Bytes) : RangeServer content := ⟨fun _ => ⟨200, content⟩, fun _ => .whole⟩

/-- The second of three bytes is asked for, and all three are returned. -/
theorem not_downloadsSlice_whole : ¬∀ (overflowChecks : Bool) (content : Bytes)
    (server : RangeServer content) (offset len : UInt64),
    DownloadsSlice overflowChecks content server offset len := by
  intro h
  have hslice := (h false [97, 98, 99] (wholeServer _) 1 1).slice
  exact absurd hslice (by decide)

end

end Stratosync

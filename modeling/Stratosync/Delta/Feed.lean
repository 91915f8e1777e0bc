import Stratosync.Sync.Changes
import Mathlib.Algebra.Group.Int.Defs

/-!
# Fetching a change feed

What the two delta providers of `backend/delta.rs` share: the loop of `changes_since`, which follows
the pages of a feed to the one with the next token, and what the caller wants of the changes it
returns. A session lists how the requests of one call end, in order; the call has no result yet when
the list is too short.

`fetchPages_ok`: a call that returns a token has read every page up to the one that carries it.
`Reflected` says what a change record owes the caller.
-/

namespace Stratosync

/-- The errors of a delta provider, without their texts. -/
inductive FeedError
  | tokenExpired
  | permissionDenied
  | transient
  | network
  | fatal
  deriving DecidableEq, Repr

/-- How one request for a page ends. -/
inductive PageReply (π : Type*)
  | noAnswer
  | status (code : ℕ) (body : Str)
  | unreadable
  | unparsable
  | page (p : π)

/-- What one call meets: whether there is an access token, whether a forced refresh brings one,
and the ends of its requests. -/
structure FeedSession (π : Type*) where
  authorized : Bool
  refreshed : Bool
  replies : List (PageReply π)

/-- What the providers do differently with a reply. -/
structure FeedFormat (π : Type*) where
  mapHttpError : ℕ → Str → FeedError
  unreadable : FeedError
  endToken : π → Option Str
  nextLink : π → Option Str

/-- `text.contains(needle)`. -/
def containsText (text needle : Str) : Bool := text.tails.any (needle.isPrefixOf ·)

/-- `n as u64`. -/
def asU64 (n : ℤ) : ℕ := (n % 2 ^ 64).toNat

/-- The arms of `map_http_error` that do not read the body. -/
def mapStatus (code : ℕ) : FeedError :=
  if code = 410 then .tokenExpired
  else if code = 401 ∨ code = 403 then .permissionDenied
  else if code = 429 ∨ 500 ≤ code ∧ code ≤ 599 then .transient
  else .fatal

namespace FeedFormat

variable {π : Type*} (fmt : FeedFormat π)

/-- The loop of `changes_since`: the pages and the token they end with. The first 401 is answered
with a forced refresh of the access token and the same request again. -/
def fetchPages (refreshed : Bool) :
    Bool → List (PageReply π) → Option (Except FeedError (List π × Str))
  | _, [] => none
  | _, .noAnswer :: _ => some (.error .network)
  | retriedAuth, .status code body :: replies =>
    if code = 401 ∧ retriedAuth = false then
      if refreshed then fetchPages refreshed true replies else some (.error .transient)
    else some (.error (fmt.mapHttpError code body))
  | _, .unreadable :: _ => some (.error fmt.unreadable)
  | _, .unparsable :: _ => some (.error .fatal)
  | retriedAuth, .page p :: replies =>
    match fmt.endToken p, fmt.nextLink p with
    | some token, _ => some (.ok ([p], token))
    | none, some _ =>
      (fetchPages refreshed retriedAuth replies).map (Except.map fun x => (p :: x.1, x.2))
    | none, none => some (.error .fatal)

/-- `changes_since`, for what the provider makes of the pages. -/
def changesSince (session : FeedSession π) (convert : List π → List RemoteChange) :
    Option (Except FeedError (List RemoteChange × Str)) :=
  if session.authorized then
    (fmt.fetchPages session.refreshed false session.replies).map
      (Except.map fun x => (convert x.1, x.2))
  else some (.error .transient)

/-- The pages a server sends, up to the first that has a token. -/
def pages : List (PageReply π) → List π
  | [] => []
  | .page p :: replies => if (fmt.endToken p).isSome then [p] else p :: pages replies
  | _ :: replies => pages replies

theorem ok_of_map {ε α β : Type*} {r : Option (Except ε α)} {f : α → β} {b : β}
    (h : r.map (Except.map f) = some (.ok b)) : ∃ a, r = some (.ok a) ∧ f a = b := by
  obtain ⟨x, rfl, hx⟩ := Option.map_eq_some_iff.1 h
  cases x with
  | error => cases hx
  | ok a => exact ⟨a, rfl, Except.ok.inj hx⟩

variable {fmt} {refreshed retriedAuth : Bool} {replies : List (PageReply π)} {ps : List π}
  {token : Str}

/-- **No page is skipped.** -/
theorem fetchPages_ok (h : fmt.fetchPages refreshed retriedAuth replies = some (.ok (ps, token))) :
    ps = fmt.pages replies ∧ ps.getLast?.bind fmt.endToken = some token := by
  induction replies generalizing retriedAuth ps with
  | nil => cases h
  | cons r replies ih =>
    cases r with
    | noAnswer => cases h
    | unreadable => cases h
    | unparsable => cases h
    | status code body =>
      rw [fetchPages] at h
      split at h
      · split at h
        · exact ih h
        · cases h
      · cases h
    | page p =>
      rw [fetchPages] at h
      rw [pages]
      split at h
      · rename_i htoken
        cases h
        simp [htoken]
      · rename_i htoken _
        obtain ⟨⟨rest, next⟩, hrest, hp⟩ := ok_of_map h
        cases hp
        obtain ⟨hpages, hlast⟩ := ih hrest
        rw [htoken, ← hpages]
        refine ⟨rfl, ?_⟩
        -- the page with the token is one of the others
        cases rest with
        | nil => cases hlast
        | cons q qs => rwa [List.getLast?_cons_cons]
      · cases h

theorem changesSince_ok {session : FeedSession π} {convert : List π → List RemoteChange}
    {changes : List RemoteChange}
    (h : fmt.changesSince session convert = some (.ok (changes, token))) :
    changes = convert (fmt.pages session.replies) := by
  rw [changesSince] at h
  split at h
  · obtain ⟨x, hx, hc⟩ := ok_of_map h
    cases hc
    rw [(fetchPages_ok hx).1]
  · cases h

end FeedFormat

/-! ## What a change record owes the caller -/

/-- The metadata of an item that is there after the change. -/
def RemoteChange.upserted : RemoteChange → Option RemoteMetadata
  | .added x | .modified x _ => some x
  | .deleted .. => none

/-- Path components joined by `/`. -/
def joinPath (names : List Str) : Str := ['/'].intercalate names

/-- The record of the item `id` is reflected in what became of it, `out`. The item was deleted or
it is live, it is under the mount root or not, and its path below the root is `path`, where that
is promised. -/
structure Reflected (deletes : Bool) (id : Str) (under : Prop) (path : Str → Prop)
    (out : Option RemoteChange) : Prop where
  deleted : deletes = true → under → ∃ p, out = some (.deleted p (some id))
  live : deletes = false → ∀ p, path p →
    ∃ x, out.bind RemoteChange.upserted = some x ∧ x.path = p ∧ x.itemId = some id
  outside : ¬under → out = none

section

variable {id : Str} {under : Prop} {path : Str → Prop} {resolved : Option Str}

/-- A deletion is reported with the path that was found, and not without one. -/
theorem reflected_deleted_iff :
    Reflected true id under path (resolved.map fun p => .deleted p (some id)) ↔
      (under → ∃ p, resolved = some p) ∧ (¬under → resolved = none) := by
  constructor
  · intro h
    refine ⟨fun hunder => ?_, fun hout => Option.map_eq_none_iff.1 (h.outside hout)⟩
    obtain ⟨p, hp⟩ := h.deleted rfl hunder
    obtain ⟨q, hq, -⟩ := Option.map_eq_some_iff.1 hp
    exact ⟨q, hq⟩
  · rintro ⟨hin, hout⟩
    refine ⟨fun _ hunder => ?_, nofun, fun hunder => Option.map_eq_none_iff.2 (hout hunder)⟩
    obtain ⟨p, hp⟩ := hin hunder
    exact ⟨p, by rw [hp, Option.map_some]⟩

/-- A live item is reported with the path that was found, and not without one. -/
theorem reflected_live_iff {f : Str → RemoteMetadata}
    (hf : ∀ p, (f p).path = p ∧ (f p).itemId = some id) :
    Reflected false id under path (resolved.map fun p => .added (f p)) ↔
      (∀ p, path p → resolved = some p) ∧ (¬under → resolved = none) := by
  constructor
  · intro h
    refine ⟨fun p hp => ?_, fun hout => Option.map_eq_none_iff.1 (h.outside hout)⟩
    obtain ⟨x, hx, hpath, -⟩ := h.live rfl p hp
    obtain ⟨change, hchange, hup⟩ := Option.bind_eq_some_iff.1 hx
    obtain ⟨q, hq, rfl⟩ := Option.map_eq_some_iff.1 hchange
    obtain rfl := Option.some.inj hup
    rw [hq, ← hpath, (hf q).1]
  · rintro ⟨hin, hout⟩
    refine ⟨nofun, fun _ p hp => ?_, fun hunder => Option.map_eq_none_iff.2 (hout hunder)⟩
    exact ⟨f p, by rw [hin p hp]; rfl, hf p⟩

end

theorem joinPath_cons (a : Str) {names : List Str} (h : names ≠ []) :
    joinPath (a :: names) = a ++ '/' :: joinPath names := by
  cases names with
  | nil => exact absurd rfl h
  | cons b names => simp [joinPath, List.intercalate, List.intersperse]

theorem joinPath_append {as bs : List Str} (ha : as ≠ []) (hb : bs ≠ []) :
    joinPath (as ++ bs) = joinPath as ++ '/' :: joinPath bs := by
  induction as with
  | nil => exact absurd rfl ha
  | cons a as ih =>
    by_cases has : as = []
    · subst has
      exact (joinPath_cons a hb).trans (by simp [joinPath])
    · rw [List.cons_append, joinPath_cons a (by simp [has]), ih has, joinPath_cons a has,
        List.append_assoc, List.cons_append]

end Stratosync

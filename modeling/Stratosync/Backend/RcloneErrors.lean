import Stratosync.Backend.RcloneStderr
import Stratosync.Backend.WebDav
import Stratosync.Foundations.Fields

/-!
# The errors of rclone

Four exit codes have an error of their own. For the others `run` and `run_with_progress` look for
certain words in the message, one after the other, and the message of a failure names the file. So
the class of an error depends on the name of the file, except where the exit code decides or the
first words that are looked for are in the rest of the message (`namesDoNotMatter_iff`).
-/

namespace Stratosync.Rclone

open Foundations

/-- `SyncError`, as far as rclone's failures go. -/
inductive SyncError
  | notFound (msg : Str)
  | permissionDenied (msg : Str)
  | conflict (loc remote : Option Str)
  | quotaExceeded
  | network (msg : Str)
  | transient (msg : Str)
  | fatal (msg : Str)
  deriving DecidableEq, Repr

/-- The variants, without their fields. -/
inductive ErrorClass
  | notFound
  | permissionDenied
  | conflict
  | quotaExceeded
  | network
  | transient
  | fatal
  deriving DecidableEq, Repr

namespace SyncError

def variant : SyncError → ErrorClass
  | notFound _ => .notFound
  | permissionDenied _ => .permissionDenied
  | conflict _ _ => .conflict
  | quotaExceeded => .quotaExceeded
  | network _ => .network
  | transient _ => .transient
  | fatal _ => .fatal

def isRetryable : SyncError → Bool
  | network _ | transient _ | quotaExceeded => true
  | _ => false

/-- What the callers tell apart. -/
def outcome : SyncError → Stratosync.SyncError
  | notFound _ => .notFound
  | conflict _ _ => .conflict
  | network _ | transient _ | quotaExceeded => .transient
  | permissionDenied _ | fatal _ => .fatal

/-- What is tried again is so to the callers too. -/
theorem isRetryable_outcome (e : SyncError) : e.outcome.isRetryable = e.isRetryable := by
  cases e <;> rfl

end SyncError

section

/-! ## The words of a message -/

variable (unicode : Char → Str)

/-- `s.to_lowercase()`; `unicode` has the lowercase of what is not ASCII. -/
def toLowercase (s : Str) : Str :=
  s.flatMap fun c => if c.toNat < 128 then [c.toLower] else unicode c

/-- The error of a message, for the exit codes that have none of their own. -/
def messageError (msg : Str) : SyncError :=
  let contains := fun word : String => containsText (toLowercase unicode msg) word.toList
  if contains "didn't match" || contains "sourcemd5" then .conflict none (some msg)
  else if contains "invalid_grant" || contains "token" && (contains "expired" || contains "revoked")
  then .permissionDenied msg
  else if contains "403" || contains "permission denied" then .permissionDenied msg
  else if contains "timeout" || contains "deadline" || contains "connection refused"
    || contains "dns" then .network msg
  else if contains "doesn't exist" || contains "not found" || contains "404" then .notFound msg
  else if contains "quota" || contains "storage full" then .quotaExceeded
  else .fatal msg

/-- The error of an exit code and a message, which `run` and `run_with_progress` spell out each. -/
def exitError (code : ℤ) (msg : Str) : SyncError :=
  if code = 3 ∨ code = 4 then .notFound msg
  else if code = 5 ∨ code = 6 then .transient msg
  else if code = 8 then .quotaExceeded
  else messageError unicode msg

/-- What is left of an rclone that has ended; one that a signal ended has no exit code. -/
structure Output where
  stdout : Bytes
  stderr : Str
  code : Option ℤ

def maxOutput : ℕ := 256 * 1024 * 1024

variable (fromStr : Str → Option JsonValue)

/-- How `run` ends after rclone has; `none` where it panics. -/
def run (output : Output) : Option (Except SyncError Bytes) :=
  if maxOutput < output.stdout.length then
    some (.error (.fatal "rclone output exceeded 256MB limit".toList))
  else if output.code = some 0 then some (.ok output.stdout)
  else
    (parseRcloneError fromStr output.stderr).map fun msg =>
      .error (exitError unicode (output.code.getD (-1)) msg)

/-- How `run_with_progress` ends: it collects stderr by lines, and reads it as `run` does. -/
def runWithProgress (stdout : Bytes) (collected : List Str) (code : Option ℤ) :
    Option (Except SyncError Bytes) :=
  run unicode fromStr ⟨stdout, collected.flatMap (· ++ ['\n']), code⟩

/-! ## What holds, and when -/

/-- A file name: some text without a slash and without a zero byte. -/
def IsFileName (name : Str) : Prop := name ≠ [] ∧ '/' ∉ name ∧ Char.ofNat 0 ∉ name

instance instDecidableIsFileName (name : Str) : Decidable (IsFileName name) :=
  inferInstanceAs (Decidable (_ ∧ _))

/-- **Names do not matter**: two failures that differ in the name of the file are of one class. -/
def NamesDoNotMatter (code : ℤ) (before after : Str) : Prop :=
  ∀ n₁ n₂, IsFileName n₁ → IsFileName n₂ →
    (exitError unicode code (before ++ n₁ ++ after)).variant =
      (exitError unicode code (before ++ n₂ ++ after)).variant

/-- The first words that are looked for are in the text. -/
def SaysConflict (text : Str) : Prop :=
  "didn't match".toList <:+: toLowercase unicode text ∨
    "sourcemd5".toList <:+: toLowercase unicode text

/-- The exit code has an error of its own, or the words are before the name or after it. -/
def DecidedWithoutName (code : ℤ) (before after : Str) : Prop :=
  (code = 3 ∨ code = 4 ∨ code = 5 ∨ code = 6 ∨ code = 8) ∨
    SaysConflict unicode before ∨ SaysConflict unicode after

end

variable {unicode : Char → Str} {fromStr : Str → Option JsonValue}

/-! ## What decides the class -/

theorem toLowercase_append (s t : Str) :
    toLowercase unicode (s ++ t) = toLowercase unicode s ++ toLowercase unicode t :=
  List.flatMap_append

/-- The errors of `run`: that of too much output, and those of exit codes and messages. -/
theorem run_error {output : Output} {e : SyncError}
    (h : run unicode fromStr output = some (.error e)) :
    maxOutput < output.stdout.length ∧ e.variant = .fatal ∨
      ∃ msg, parseRcloneError fromStr output.stderr = some msg ∧
        e = exitError unicode (output.code.getD (-1)) msg := by
  rw [run] at h
  split at h
  · rename_i hlong
    cases h
    exact .inl ⟨hlong, rfl⟩
  split at h
  · cases h
  · obtain ⟨msg, hmsg, he⟩ := Option.map_eq_some_iff.1 h
    cases he
    exact .inr ⟨msg, hmsg, rfl⟩

theorem variant_messageError_eq_conflict_iff {msg : Str} :
    (messageError unicode msg).variant = .conflict ↔ SaysConflict unicode msg := by
  rw [SaysConflict, ← containsText_iff, ← containsText_iff, ← Bool.or_eq_true]
  simp only [messageError]
  split
  · rename_i h
    exact iff_of_true rfl h
  · rename_i h
    refine iff_of_false ?_ h
    repeat' split
    all_goals exact ErrorClass.noConfusion

theorem SaysConflict.append {before name after : Str}
    (h : SaysConflict unicode before ∨ SaysConflict unicode after) :
    SaysConflict unicode (before ++ name ++ after) := by
  simp only [SaysConflict, toLowercase_append] at h ⊢
  obtain (h | h) | h | h := h
  · exact .inl (List.infix_append_of_infix_left (List.infix_append_of_infix_left h))
  · exact .inr (List.infix_append_of_infix_left (List.infix_append_of_infix_left h))
  · exact .inl (List.infix_append_of_infix_right h)
  · exact .inr (List.infix_append_of_infix_right h)

/-- With a name that is in none of the words, only the rest of the message counts. -/
theorem saysConflict_hash_iff {before after : Str} :
    SaysConflict unicode (before ++ ['#'] ++ after) ↔
      SaysConflict unicode before ∨ SaysConflict unicode after := by
  have hlower : toLowercase unicode (before ++ ['#'] ++ after) =
      toLowercase unicode before ++ '#' :: toLowercase unicode after := by
    rw [toLowercase_append, toLowercase_append, List.append_assoc]
    rfl
  simp only [SaysConflict]
  rw [hlower, Fields.infix_append_cons_iff (by decide) (by decide),
    Fields.infix_append_cons_iff (by decide) (by decide)]
  exact or_or_or_comm

/-- **When the name of a file does not matter.** -/
theorem namesDoNotMatter_iff (unicode : Char → Str) (code : ℤ) (before after : Str) :
    NamesDoNotMatter unicode code before after ↔
      DecidedWithoutName unicode code before after := by
  rw [DecidedWithoutName]
  by_cases hcode : code = 3 ∨ code = 4 ∨ code = 5 ∨ code = 6 ∨ code = 8
  · refine iff_of_true (fun n₁ n₂ _ _ => ?_) (.inl hcode)
    obtain rfl | rfl | rfl | rfl | rfl := hcode <;> rfl
  have hexit : ∀ msg, exitError unicode code msg = messageError unicode msg := by
    intro msg
    rw [exitError, if_neg (by omega), if_neg (by omega), if_neg (by omega)]
  rw [or_iff_right hcode]
  simp only [NamesDoNotMatter, hexit]
  constructor
  · intro h
    -- a file that is called like the words, and one whose name is in none of them
    have hsame := h "didn't match".toList ['#'] (by decide) (by decide)
    have hwords : SaysConflict unicode (before ++ "didn't match".toList ++ after) := by
      refine .inl ?_
      rw [toLowercase_append, toLowercase_append]
      exact ⟨toLowercase unicode before, toLowercase unicode after, rfl⟩
    rw [variant_messageError_eq_conflict_iff.2 hwords] at hsame
    exact saysConflict_hash_iff.1 (variant_messageError_eq_conflict_iff.1 hsame.symm)
  · intro h n₁ n₂ _ _
    rw [variant_messageError_eq_conflict_iff.2 (SaysConflict.append h),
      variant_messageError_eq_conflict_iff.2 (SaysConflict.append h)]

/-- The failures of two files are of two classes. For the file that is called so, the precondition
of an upload passes as if there were nothing on the remote. -/
theorem not_namesDoNotMatter_invoice :
    ¬NamesDoNotMatter (fun c => [c]) 1 "failed to copy ".toList [] ∧
      checkIfMatch (fun _ _ => none)
        (.error (exitError (fun c => [c]) 1 "failed to copy invoice 404.pdf".toList).outcome)
          "v".toList = .ok := by
  constructor
  · intro h
    have hsame := h "invoice 404.pdf".toList "a.pdf".toList (by decide) (by decide)
    revert hsame
    decide +kernel
  · decide +kernel

end Stratosync.Rclone

import Stratosync.State.Types

/-!
# Content hashes

`hashes.rs`: one spelling, lowercase hex, for the hashes that rclone and the delta feeds report in
several. What a base64 engine decodes is a parameter.
-/

namespace Stratosync

/-- The base64 engines that are tried. -/
inductive Base64Engine
  | standard
  | urlSafe
  | standardNoPad
  | urlSafeNoPad
  deriving DecidableEq, Repr

/-- `char::is_whitespace`. -/
def isWhitespace (c : Char) : Bool :=
  let n := c.toNat
  (9 ≤ n && n ≤ 13) || n = 0x20 || n = 0x85 || n = 0xA0 || n = 0x1680
    || (0x2000 ≤ n && n ≤ 0x200A) || n = 0x2028 || n = 0x2029 || n = 0x202F || n = 0x205F
    || n = 0x3000

/-- `s.trim()`. -/
def trim (s : Str) : Str := ((s.dropWhile isWhitespace).reverse.dropWhile isWhitespace).reverse

/-- `b.is_ascii_hexdigit()`. -/
def isHexDigit (c : Char) : Bool :=
  c.isDigit || ('a' ≤ c && c ≤ 'f') || ('A' ≤ c && c ≤ 'F')

/-- `format!("{b:02x}")`. -/
def hexByte (b : UInt8) : Str := [(b.toNat / 16).digitChar, (b.toNat % 16).digitChar]

/-- Lowercase hex for a hash in hex or base64. -/
def hashToHex (decode : Base64Engine → Str → Option Bytes) (s : Str) : Option Str :=
  let s := trim s
  if s = [] then none
  else if s.length % 2 = 0 ∧ s.all isHexDigit then some (s.map Char.toLower)
  else
    ([.standard, .urlSafe, .standardNoPad, .urlSafeNoPad].findSome? fun engine =>
      decode engine s).map fun bytes => bytes.flatMap hexByte

end Stratosync

import Expander.Failure

/-!
# Texts from bytes

Bytes are read as UTF-8. Only the shortest form of a character is one, and no half of a surrogate
pair is a character. What is no character is reported with the bytes it takes up: a byte that
begins no character, the bytes of a character up to one that cannot go on, or all bytes of a
character that the text ends in.
-/

set_option autoImplicit false

namespace Expander.Text.Utf8

/-- A character that has begun. -/
structure Begun where
  /-- The first byte, and where it stands. -/
  byte : Nat
  position : Nat
  /-- How many bytes there are, and how many are missing. -/
  seen : Nat
  missing : Nat
  /-- The bits so far. -/
  bits : Nat
  /-- The bounds of the next byte. -/
  low : Nat
  high : Nat

/-- The bounds of the second byte of a character by its first. -/
def secondBounds (byte : Nat) : Nat × Nat :=
  if byte = 0xe0 then (0xa0, 0xbf)
  else if byte = 0xed then (0x80, 0x9f)
  else if byte = 0xf0 then (0x90, 0xbf)
  else if byte = 0xf4 then (0x80, 0x8f)
  else (0x80, 0xbf)

/-- A character of several bytes that a byte begins, if it begins one. -/
def begin? (byte position : Nat) : Option Begun :=
  let begun (missing bits : Nat) : Begun :=
    ⟨byte, position, 1, missing, bits, (secondBounds byte).1, (secondBounds byte).2⟩
  if 0xc2 ≤ byte ∧ byte ≤ 0xdf then some (begun 1 (byte - 0xc0))
  else if 0xe0 ≤ byte ∧ byte ≤ 0xef then some (begun 2 (byte - 0xe0))
  else if 0xf0 ≤ byte ∧ byte ≤ 0xf4 then some (begun 3 (byte - 0xf0))
  else none

/-- The characters of bytes that begin at a position, inside a character or between two. -/
def decodeFrom (position : Nat) : Option Begun → List UInt8 → Except Undecodable (List Char)
  | none, [] => .ok []
  | some b, [] => .error ⟨.truncated, b.byte, b.position, b.seen⟩
  | none, byte :: bytes =>
    let n := byte.toNat
    if n < 0x80 then (decodeFrom (position + 1) none bytes).map (Char.ofNat n :: ·)
    else
      match begin? n position with
      | some b => decodeFrom (position + 1) (some b) bytes
      | none => .error ⟨.startByte, n, position, 1⟩
  | some b, byte :: bytes =>
    let n := byte.toNat
    if b.low ≤ n ∧ n ≤ b.high then
      let bits := b.bits * 64 + (n - 0x80)
      if b.missing = 1 then (decodeFrom (position + 1) none bytes).map (Char.ofNat bits :: ·)
      else
        decodeFrom (position + 1)
          (some ⟨b.byte, b.position, b.seen + 1, b.missing - 1, bits, 0x80, 0xbf⟩) bytes
    else .error ⟨.continuationByte, b.byte, b.position, b.seen⟩

/-- The characters of bytes. -/
def decode (bytes : List UInt8) : Except Undecodable (List Char) := decodeFrom 0 none bytes

/-- A text with a line feed in place of every line end. -/
def unifyLineEnds : List Char → List Char
  | '\r' :: '\n' :: cs => '\n' :: unifyLineEnds cs
  | '\r' :: cs => '\n' :: unifyLineEnds cs
  | c :: cs => c :: unifyLineEnds cs
  | [] => []

end Expander.Text.Utf8

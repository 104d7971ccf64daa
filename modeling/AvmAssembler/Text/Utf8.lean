/-! # UTF-8

Encoding of characters as bytes and strict decoding. Decoding stops at the first byte sequence that is not
well formed and says which bytes are at fault and why.
-/

namespace AvmAssembler.Text.Utf8

def encode (s : String) : List UInt8 :=
  s.toUTF8.data.toList

inductive Reason where
  | startByte
  | continuationByte
  | endOfData
  deriving DecidableEq

/-- Bytes that are not UTF-8: the first offending byte, its offset, the number of bytes at fault and why. -/
structure Malformed where
  byte : UInt8
  offset : Nat
  count : Nat
  reason : Reason
  deriving DecidableEq

def Reason.message : Reason → String
  | .startByte => "invalid start byte"
  | .continuationByte => "invalid continuation byte"
  | .endOfData => "unexpected end of data"

private def hexByte (b : UInt8) : String :=
  String.ofList ((Nat.toDigits 16 (256 + b.toNat)).drop 1)

def Malformed.message (m : Malformed) : String :=
  if m.count = 1 then
    s!"'utf-8' codec can't decode byte 0x{hexByte m.byte} in position {m.offset}: {m.reason.message}"
  else
    s!"'utf-8' codec can't decode bytes in position {m.offset}-{m.offset + m.count - 1}: {m.reason.message}"

/-- The form of a character announced by its first byte: how many bytes follow, the range of the first of
them and the bits that the first byte contributes. -/
structure Lead where
  following : Nat
  low : Nat
  high : Nat
  bits : Nat

def lead? (b : Nat) : Option Lead :=
  if b < 0x80 then some ⟨0, 0, 0, b⟩
  else if b < 0xc2 then none
  else if b < 0xe0 then some ⟨1, 0x80, 0xbf, b - 0xc0⟩
  else if b = 0xe0 then some ⟨2, 0xa0, 0xbf, 0⟩
  else if b = 0xed then some ⟨2, 0x80, 0x9f, b - 0xe0⟩
  else if b < 0xf0 then some ⟨2, 0x80, 0xbf, b - 0xe0⟩
  else if b = 0xf0 then some ⟨3, 0x90, 0xbf, 0⟩
  else if b < 0xf4 then some ⟨3, 0x80, 0xbf, b - 0xf0⟩
  else if b = 0xf4 then some ⟨3, 0x80, 0x8f, 4⟩
  else none

/-- The decoder between two bytes: at the start of a character, or inside one. -/
inductive State where
  | start
  /-- Inside a character that began `used` bytes ago with byte `first`: `following` more bytes are due, the next
  one between `low` and `high`, and `code` is the code point so far. -/
  | inside (first : UInt8) (used following low high code : Nat)

/-- Decode from a state at an offset. -/
def decodeFrom : State → (offset : Nat) → List UInt8 → Except Malformed (List Char)
  | .start, _, [] => .ok []
  | .inside first used _ _ _ _, offset, [] => .error ⟨first, offset - used, used, .endOfData⟩
  | .start, offset, b :: bs =>
    match lead? b.toNat with
    | none => .error ⟨b, offset, 1, .startByte⟩
    | some l =>
      if l.following = 0 then
        (decodeFrom .start (offset + 1) bs).map (Char.ofNat l.bits :: ·)
      else decodeFrom (.inside b 1 l.following l.low l.high l.bits) (offset + 1) bs
  | .inside first used following low high code, offset, b :: bs =>
    if low ≤ b.toNat ∧ b.toNat ≤ high then
      let code := code * 64 + (b.toNat - 0x80)
      if following = 1 then
        (decodeFrom .start (offset + 1) bs).map (Char.ofNat code :: ·)
      else decodeFrom (.inside first (used + 1) (following - 1) 0x80 0xbf code) (offset + 1) bs
    else .error ⟨first, offset - used, used, .continuationByte⟩

def decode (bytes : List UInt8) : Except Malformed (List Char) :=
  decodeFrom .start 0 bytes

end AvmAssembler.Text.Utf8

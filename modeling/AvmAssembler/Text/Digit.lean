/-! # Digits of all scripts

A character is a digit when Unicode gives it a digit value. Most of them belong to a run of ten
consecutive decimal digits and can stand in a decimal numeral; the others, such as superscripts and
circled numbers, have no value in a positional numeral.
-/

namespace AvmAssembler.Text.Digit

/-- The code points of the zeros: each is followed by the digits one to nine of its script. -/
def zeros : List Nat :=
  [0x30, 0x660, 0x6f0, 0x7c0, 0x966, 0x9e6, 0xa66, 0xae6, 0xb66, 0xbe6, 0xc66, 0xce6, 0xd66,
   0xde6, 0xe50, 0xed0, 0xf20, 0x1040, 0x1090, 0x17e0, 0x1810, 0x1946, 0x19d0, 0x1a80, 0x1a90,
   0x1b50, 0x1bb0, 0x1c40, 0x1c50, 0xa620, 0xa8d0, 0xa900, 0xa9d0, 0xa9f0, 0xaa50, 0xabf0, 0xff10,
   0x104a0, 0x10d30, 0x11066, 0x110f0, 0x11136, 0x111d0, 0x112f0, 0x11450, 0x114d0, 0x11650,
   0x116c0, 0x11730, 0x118e0, 0x11950, 0x11c50, 0x11d50, 0x11da0, 0x16a60, 0x16ac0,
   0x16b50, 0x1d7ce, 0x1d7d8, 0x1d7e2, 0x1d7ec, 0x1d7f6, 0x1e140, 0x1e2f0, 0x1e950,
   0x1fbf0]

/-- First and last code points of the digits that no decimal numeral can use. -/
def ornamental : List (Nat × Nat) :=
  [(0xb2, 0xb3), (0xb9, 0xb9), (0x1369, 0x1371), (0x19da, 0x19da), (0x2070, 0x2070),
   (0x2074, 0x2079), (0x2080, 0x2089), (0x2460, 0x2468), (0x2474, 0x247c), (0x2488, 0x2490),
   (0x24ea, 0x24ea), (0x24f5, 0x24fd), (0x24ff, 0x24ff), (0x2776, 0x277e), (0x2780, 0x2788),
   (0x278a, 0x2792), (0x10a40, 0x10a43), (0x10e60, 0x10e68), (0x11052, 0x1105a),
   (0x1f100, 0x1f10a)]

def value? (c : Char) : Option Nat :=
  (zeros.find? fun z => z ≤ c.toNat && c.toNat < z + 10).map fun z => c.toNat - z

/-- A digit of any kind, with or without a decimal value. -/
def isDigit (c : Char) : Bool :=
  (value? c).isSome || ornamental.any fun r => r.1 ≤ c.toNat && c.toNat ≤ r.2

/-- The value of a digit of a numeral in base sixteen or less, in either case. -/
def hexValue? (c : Char) : Option Nat :=
  if '0' ≤ c ∧ c ≤ '9' then some (c.toNat - '0'.toNat)
  else if 'a' ≤ c ∧ c ≤ 'f' then some (c.toNat - 'a'.toNat + 10)
  else if 'A' ≤ c ∧ c ≤ 'F' then some (c.toNat - 'A'.toNat + 10)
  else none

/-- The number denoted by a list of digit values, most significant first. -/
def ofValues (base : Nat) (values : List Nat) : Nat :=
  values.foldl (fun n d => n * base + d) 0

def upperHex (d : Nat) : Char :=
  Char.ofNat (if d < 10 then '0'.toNat + d else 'A'.toNat + (d - 10))

def lowerHex (d : Nat) : Char :=
  Char.ofNat (if d < 10 then '0'.toNat + d else 'a'.toNat + (d - 10))

/-- Two upper-case digits of base sixteen for numbers below 256, more when they are needed. -/
def upperHexPair (n : Nat) : String :=
  String.ofList (if n < 16 then ['0', upperHex n] else (Nat.toDigits 16 n).map Char.toUpper)

end AvmAssembler.Text.Digit

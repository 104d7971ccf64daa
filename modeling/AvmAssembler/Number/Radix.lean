import AvmAssembler.Text.Digit

/-! # Bases of integer literals

The four bases, the letters that announce them and their digits.
-/

namespace AvmAssembler

inductive Radix where
  | decimal
  | hexadecimal
  | octal
  | binary
  deriving DecidableEq, Inhabited

namespace Radix

def base : Radix → Nat
  | decimal => 10
  | hexadecimal => 16
  | octal => 8
  | binary => 2

def name : Radix → String
  | decimal => "decimal"
  | hexadecimal => "hexadecimal"
  | octal => "octal"
  | binary => "binary"

/-- The base announced by the letter after a leading zero. -/
def ofLetter? (c : Char) : Option Radix :=
  if c = 'x' ∨ c = 'X' then some hexadecimal
  else if c = 'o' ∨ c = 'O' then some octal
  else if c = 'b' ∨ c = 'B' then some binary
  else none

/-- An ASCII digit of the base. -/
def accepts (r : Radix) (c : Char) : Bool :=
  match Text.Digit.hexValue? c with
  | some d => d < r.base
  | none => false

end Radix

end AvmAssembler

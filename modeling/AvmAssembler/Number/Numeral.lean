import AvmAssembler.Number.Binary64
import AvmAssembler.Number.Radix
import AvmAssembler.Text.Quoted

/-! # Numerals

The numbers denoted by numeric lexemes. A decimal numeral may mix the decimal digits of all scripts, but a digit
without a decimal value, or more digits before the first of that kind than the limit, leaves it without a number.
-/

namespace AvmAssembler

inductive NumeralError where
  | badInteger (text : String)
  | badFraction (text : String)
  | tooLong (digits : Nat)
  deriving DecidableEq

namespace Numeral

/-- The greatest number of digits of a decimal integer. -/
def digitLimit : Nat := 4300

def quoteLimit : Nat := 200

end Numeral

def NumeralError.message : NumeralError → String
  | badInteger text =>
    let shown := String.ofList ((Text.Quoted.text text).toList.take Numeral.quoteLimit)
    s!"invalid literal for int() with base 10: {shown}"
  | badFraction text => s!"could not convert string to float: {Text.Quoted.text text}"
  | tooLong digits =>
    s!"Exceeds the limit ({Numeral.digitLimit} digits) for integer string conversion: " ++
      s!"value has {digits} digits; use sys.set_int_max_str_digits() to increase the limit"

namespace Numeral

def splitSign : List Char → Bool × List Char
  | '-' :: cs => (true, cs)
  | cs => (false, cs)

/-- The number with a sign put in front. -/
def signed (negative : Bool) (n : Nat) : Int :=
  if negative then -(n : Int) else n

/-- The integer denoted by a lexeme of a base. In bases other than ten a zero and the letter of the base come
before the digits. -/
def integer (radix : Radix) (text : String) : Except NumeralError Int :=
  let (negative, cs) := splitSign text.toList
  match radix with
  | .decimal =>
    let run := cs.takeWhile fun c => (Text.Digit.value? c).isSome
    if digitLimit < run.length then .error (.tooLong run.length)
    else
      match cs.mapM Text.Digit.value? with
      | none => .error (.badInteger text)
      | some values => .ok (signed negative (Text.Digit.ofValues 10 values))
  | _ =>
    .ok (signed negative (Text.Digit.ofValues radix.base ((cs.drop 2).filterMap Text.Digit.hexValue?)))

/-- The binary64 pattern nearest to a decimal fraction. -/
def float (text : String) : Except NumeralError UInt64 :=
  let (negative, cs) := splitSign text.toList
  let whole := cs.takeWhile (· ≠ '.')
  let places := (cs.dropWhile (· ≠ '.')).drop 1
  match (whole ++ places).mapM Text.Digit.value? with
  | none => .error (.badFraction text)
  | some values =>
    .ok (UInt64.ofNat (Binary64.ofDecimal negative (Text.Digit.ofValues 10 values) places.length))

def least : Int := -0x8000000000000000

/-- The greatest integer literal: literals may be written signed or unsigned. -/
def greatest : Int := 0xffffffffffffffff

end Numeral

end AvmAssembler

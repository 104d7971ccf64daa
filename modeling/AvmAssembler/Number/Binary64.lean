/-! # Binary64 values as bit patterns

Exact rounding of a ratio of natural numbers to the nearest binary64 value, ties to the even
neighbour, carried out on natural numbers. A finite value with exponent `e ≥ -1074` and significand
`q` has the pattern `(e + 1074) * 2 ^ 52 + q`, so a carry out of the significand moves on to the next
exponent by itself.
-/

namespace AvmAssembler.Binary64

/-- Pattern of positive infinity; every pattern at or above it is not a finite positive value. -/
def infinity : Nat := 0x7ff0000000000000

def signBit : Nat := 0x8000000000000000

/-- The least exponent: values below `2 ^ -1022` all share it. -/
def leastExponent : Int := -1074

/-- Quotient rounded to the nearest natural number, a half to the even neighbour. -/
def roundDiv (num den : Nat) : Nat :=
  let q := num / den
  let r := num % den
  if 2 * r < den then q
  else if den < 2 * r then q + 1
  else q + q % 2

/-- Numerator and denominator of `num / den / 2 ^ e`. -/
def scale (num den : Nat) (e : Int) : Nat × Nat :=
  if 0 ≤ e then (num, den * Nat.pow 2 e.toNat) else (num * Nat.pow 2 (-e).toNat, den)

/-- The exponent that leaves 53 significant bits, or the least one. -/
def exponent (num den : Nat) : Int :=
  let guess : Int := (num.log2 : Int) - den.log2 - 53
  let (n, d) := scale num den guess
  max leastExponent (if n / d < Nat.pow 2 53 then guess else guess + 1)

/-- The pattern of the binary64 value nearest to `num / den`. -/
def ofRatio (num den : Nat) : Nat :=
  if num = 0 then 0 else
    let e := exponent num den
    let (n, d) := scale num den e
    min infinity ((e - leastExponent).toNat * Nat.pow 2 52 + roundDiv n d)

/-- The pattern of a decimal numeral with `places` digits after its point. -/
def ofDecimal (negative : Bool) (digits : Nat) (places : Nat) : Nat :=
  (if negative then signBit else 0) + ofRatio digits (Nat.pow 10 places)

def toFloat (n : Int) : Float :=
  let magnitude := Float.ofBits (UInt64.ofNat (ofRatio n.natAbs 1))
  if n < 0 then -magnitude else magnitude

/-- Why a power has no value. -/
inductive PowerError where
  /-- An operand or the power is too large, or the power is negative. -/
  | range
  /-- Zero is raised to a negative power. -/
  | zeroToNegative
  deriving DecidableEq

/-- The power of two integers computed on binary64 values, cut down to a natural number. It has to lie between zero and
`2 ^ 64`. -/
def power (base exponent : Int) : Except PowerError Nat :=
  let x := toFloat base
  let y := toFloat exponent
  if !(x.isFinite && y.isFinite) then .error .range
  else if base = 0 && exponent < 0 then .error .zeroToNegative
  else
    let r := Float.pow x y
    if r.isFinite && 0 ≤ r && r < 18446744073709551616.0 then .ok r.toUInt64.toNat
    else .error .range

end AvmAssembler.Binary64

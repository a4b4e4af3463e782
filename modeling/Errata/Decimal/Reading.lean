import Errata.Decimal.Shortest

/-!
# Reading decimals

A decimal numeral is read by its leading digits, as many as fit a 64-bit word, times one power of
ten. Up to fifteen digits and powers up to the twenty-second the result is the nearest double.
-/
namespace Errata.Decimal

/-- The value of `digits` as far as it fits 64 bits, and how many digits are left over. -/
def leading : Nat → Text → Nat × Nat
  | acc, [] => (acc, 0)
  | acc, c :: r =>
    let next := 10 * acc + (c.toNat - '0'.toNat)
    if next < UInt64.size then leading next r else (acc, r.length + 1)

/-- Scales by a power of ten, in steps that a double can hold; none if the result is too large.
`fuel` bounds the steps. -/
def scaleBy (x : Float) (exponent : Int) : Nat → Option Float
  | 0 => some 0
  | fuel + 1 =>
    if exponent.natAbs ≤ 308 then
      let power := Float.ofScientific 1 false exponent.natAbs
      if 0 ≤ exponent then
        let y := x * power
        if y.isInf then none else some y
      else some (x / power)
    else if x == 0 then some x
    else if 0 ≤ exponent then none
    else scaleBy (x / Float.ofScientific 1 false 308) (exponent + 308) fuel

/-- The double that the digits before and behind the point stand for, times a power of ten; none
if it is too large. -/
def toDouble? (negative : Bool) (whole fraction : Text) (exponent : Int) : Option Float :=
  let (head, dropped) := leading 0 whole
  let (mantissa, rest) := leading head fraction
  let shift := Int.ofNat dropped - Int.ofNat (fraction.length - rest)
  let sign (x : Float) : Float := if negative then -x else x
  if 0x80000000 ≤ exponent.natAbs then
    if mantissa ≠ 0 ∧ 0 ≤ exponent then none else some (sign 0)
  else
    let e := max (-0x80000000) (min 0x7FFFFFFF (shift + exponent))
    (scaleBy (Float.ofNat mantissa) e 8).map sign

/-- The middle between the greatest double and the power of two behind it: what lies below rounds
to a double. -/
def limit : Nat := timesPower (0x40000000000000 - 1) 2 970

/-- Whether `digits · 10 ^ exponent` rounds to a finite double. -/
def isFinite (digits : Text) (exponent : Int) : Bool :=
  let ds := digits.dropWhile (· == '0')
  let places := Int.ofNat ds.length + exponent
  if ds.isEmpty || places < 309 then true
  else if 309 < places then false
  else timesPower (Text.digitsValue ds) 10 exponent < timesPower limit 10 (-exponent)

end Errata.Decimal

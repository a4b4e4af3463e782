import Errata.Text.Basic

/-!
# Shortest decimals

A double stands for every real that rounds to it: an interval around its own value whose ends
belong to it exactly when its mantissa is even. Its shortest decimal is the number with the fewest
digits in that interval, and of those the one nearest to the value. Everything is compared in exact
natural numbers.
-/
namespace Errata.Decimal

/-- A positive value `mantissa · 2 ^ exponent`. -/
structure Binary where
  mantissa : Nat
  exponent : Int
  /-- The value is a power of two, so that its lower neighbour is only half as far as the upper. -/
  narrow : Bool

def Binary.ofBits (bits : UInt64) : Binary :=
  let fraction := bits.toNat % 0x10000000000000
  let biased := bits.toNat / 0x10000000000000 % 0x800
  if biased = 0 then ⟨fraction, -1074, false⟩
  else ⟨fraction + 0x10000000000000, Int.ofNat biased - 1075, fraction == 0 && biased != 1⟩

/-- A value `digits · 10 ^ exponent`. -/
structure Digits where
  digits : Nat
  exponent : Int

/-- `n · b ^ e`, and just `n` where the exponent is negative. -/
def timesPower (n b : Nat) (e : Int) : Nat := n * Nat.pow b e.toNat

def compareScaled (d : Nat) (k : Int) (m : Nat) (q : Int) : Ordering :=
  compare (timesPower (timesPower d 10 k) 2 (-q)) (timesPower (timesPower m 2 q) 10 (-k))

namespace Binary

/-- The decimal rounds to the value. -/
def covers (b : Binary) (d : Nat) (k : Int) : Bool :=
  let low := compareScaled d k (4 * b.mantissa - if b.narrow then 1 else 2) (b.exponent - 2)
  let high := compareScaled d k (4 * b.mantissa + 2) (b.exponent - 2)
  if b.mantissa % 2 = 0 then low != .lt && high != .gt else low == .gt && high == .lt

/-- The least `k` with the value below `10 ^ k`, looked for around an estimate. -/
def scale (b : Binary) : Int :=
  let estimate := (b.mantissa.log2 + b.exponent) * 30103 / 100000
  ((List.range 6).map fun i => estimate - 2 + Int.ofNat i).find?
    (fun k => compareScaled 1 k b.mantissa b.exponent == .gt) |>.getD (estimate + 4)

/-- The nearer of the two neighbours of the value on the grid `10 ^ g` that round to it. -/
def onGrid? (b : Binary) (g : Int) : Option Nat :=
  let num := timesPower (timesPower b.mantissa 2 b.exponent) 10 (-g)
  let den := timesPower (timesPower 1 2 (-b.exponent)) 10 g
  let d := num / den
  match b.covers d g, b.covers (d + 1) g with
  | false, false => none
  | true, false => some d
  | false, true => some (d + 1)
  | true, true =>
    match compare (2 * num) ((2 * d + 1) * den) with
    | .lt => some d
    | .gt => some (d + 1)
    | .eq => some (if d % 2 = 0 then d else d + 1)

end Binary

/-- Moves the trailing zeros of the digits into the exponent; `fuel` bounds their number. -/
def Digits.strip (x : Digits) : Nat → Digits
  | 0 => x
  | fuel + 1 =>
    if x.digits % 10 = 0 ∧ x.digits ≠ 0 then strip ⟨x.digits / 10, x.exponent + 1⟩ fuel else x

/-- The shortest decimal of a positive value: seventeen digits always suffice. -/
def shortest (b : Binary) : Digits :=
  let k := b.scale
  let found := (List.range 17).findSome? fun i =>
    let g := k - (Int.ofNat i + 1)
    (b.onGrid? g).map fun d => (⟨d, g⟩ : Digits)
  let exact : Digits :=
    ⟨timesPower (timesPower b.mantissa 2 b.exponent) 5 (-b.exponent), min 0 b.exponent⟩
  (found.getD exact).strip 20

end Errata.Decimal

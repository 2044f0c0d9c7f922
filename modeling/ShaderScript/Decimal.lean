/-!
# Decimals

A decimal numeral with a point or an exponent denotes a binary floating-point number. The numeral is
kept as its significand and its power of ten; the number it denotes is found by one rounding of the
significand and one rounding for each factor.
-/

namespace ShaderScript

/-- The numeral `± digits * 10 ^ exponent`. -/
structure Decimal where
  negative : Bool
  digits : Nat
  exponent : Int
deriving DecidableEq

namespace Decimal

/-- The largest power of ten that a floating-point number can hold. -/
def maxPower : Nat := 308

/-- The floating-point number nearest to a power of ten up to `maxPower`. -/
def power (exponent : Nat) : Float :=
  Float.ofScientific 1 false exponent

/-- The number the numeral denotes, its sign left out; infinite if it is too large. -/
def magnitude (decimal : Decimal) : Float :=
  let significand := Float.ofNat decimal.digits
  match decimal.exponent with
  | .ofNat up =>
    if decimal.digits = 0 then 0.0
    else if up ≤ maxPower then significand * power up
    else 1.0 / 0.0
  | .negSucc less =>
    let down := less + 1
    if down ≤ maxPower then significand / power down
    else if down ≤ 2 * maxPower then significand / power maxPower / power (down - maxPower)
    else 0.0

/-- The numeral denotes a finite number. -/
def inRange (decimal : Decimal) : Bool :=
  decimal.magnitude.isFinite

end Decimal

end ShaderScript

import FlowSched.Number.Rounding
import FlowSched.Number.Reading

/-!
# The shortest decimal of a double

A decimal stands for a double when it lies in the interval of reals that round to it. Among the
decimals in that interval the one with the fewest digits is taken, and of these the nearest.
-/

namespace FlowSched

/-- The number `digits * 10 ^ exponent`. -/
structure Decimal where
  digits : Nat
  exponent : Int

namespace Decimal

/-- The number of decimal digits, none for zero. -/
def width (n : Nat) : Nat := if n = 0 then 0 else (Nat.toDigits 10 n).length

/-- Drops up to `fuel` trailing zeros. -/
def strip : Nat → Decimal → Decimal
  | 0, d => d
  | fuel + 1, d =>
    if d.digits ≠ 0 ∧ d.digits % 10 = 0 then strip fuel ⟨d.digits / 10, d.exponent + 1⟩ else d

/-- The value, ends and denominator of a rounding interval: the value is `value / den`, and every
real between `low / den` and `high / den` rounds to it. -/
structure Interval where
  value : Nat
  low : Nat
  high : Nat
  den : Nat
  closed : Bool

/-- The reals that round to `mantissa * 2 ^ exponent`. The gap below a power of two is half as wide
as the gap above; the ends belong to the interval when the mantissa is even. -/
def interval (mantissa : Nat) (exponent : Int) : Interval :=
  let scale := twoTo (exponent - 2).toNat
  let below := if mantissa = twoTo 52 ∧ -1074 < exponent then 1 else 2
  { value := 4 * mantissa * scale
    low := (4 * mantissa - below) * scale
    high := (4 * mantissa + 2) * scale
    den := twoTo (2 - exponent).toNat
    closed := mantissa % 2 = 0 }

/-- The decimal point's place: the value lies in `[10 ^ (p - 1), 10 ^ p)`. -/
def magnitude (value den : Nat) : Int :=
  if den ≤ value then width (value / den)
  else 1 - (width ((den + value - 1) / value - 1) : Int)

/-- Of the value's two neighbours with `n` digits the nearer one in the interval. -/
def candidate? (i : Interval) (n : Nat) : Option Decimal :=
  let exponent := magnitude i.value i.den - (n : Int)
  let up := tenTo (-exponent).toNat
  let unit := i.den * tenTo exponent.toNat
  let floor := i.value * up / unit
  let inside (d : Nat) : Bool :=
    if i.closed then i.low * up ≤ d * unit && d * unit ≤ i.high * up
    else i.low * up < d * unit && d * unit < i.high * up
  let nearest := roundDiv (i.value * up) unit
  let other := if nearest = floor then floor + 1 else floor
  if inside nearest then some ⟨nearest, exponent⟩
  else if inside other then some ⟨other, exponent⟩
  else none

/-- The shortest decimal of the double `mantissa * 2 ^ exponent`; seventeen digits always do. -/
def shortest (mantissa : Nat) (exponent : Int) : Decimal :=
  if mantissa = 0 then ⟨0, 0⟩
  else
    let i := interval mantissa exponent
    let found := (List.range 17).findSome? fun n => candidate? i (n + 1)
    strip 17 (found.getD ⟨0, 0⟩)

end Decimal

end FlowSched

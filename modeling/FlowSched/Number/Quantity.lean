import FlowSched.Number.Rounding
import FlowSched.Number.Reading

/-!
# Quantities

Times, lengths, sizes and prices are numbers of one type, which every other module leaves open.
Schedules run in double precision; laws are stated over the rationals, where nothing is rounded.
-/

namespace FlowSched

/-- Numbers that measure time, work, data and money. -/
class Quantity (α : Type) extends Zero α, NatCast α, IntCast α, Add α, Sub α, Neg α, Mul α,
    Div α, BEq α, LT α, LE α where
  decLT : DecidableLT α
  decLE : DecidableLE α
  /-- The value lies below positive infinity. -/
  belowTop : α → Bool
  /-- The nearest value with this number of decimal places, a tie going to the even digit. -/
  roundTo : Nat → α → α
  /-- How often a value that starts at the first argument can move by the third before it lies
  beyond the second or stands still. -/
  moves : α → α → α → Nat

namespace Quantity

attribute [reducible, instance] Quantity.decLT Quantity.decLE

variable {α : Type} [Quantity α]

/-- The later of two instants; of two equal ones, the first. -/
def later (a b : α) : α := if a < b then b else a

/-- The value is neither infinite nor no number. -/
def isFinite (x : α) : Bool := belowTop x && belowTop (-x)

/-- The value is positive infinity. -/
def isTop (x : α) : Bool := x == x && !belowTop x

/-- The first greatest element of a list. -/
def latest? : List α → Option α
  | [] => none
  | x :: rest => some (rest.foldl later x)

/-- The first greatest element of a list, or `0` for the empty list. -/
def latest (xs : List α) : α := (latest? xs).getD 0

end Quantity

/-- Rounds a double through its exact decimal value. -/
def roundFloat (places : Nat) (x : Float) : Float :=
  match Reading.ofFloat x with
  | .finite negative mantissa exponent =>
    let (num, den) := Reading.fraction mantissa exponent
    let size := Float.ofScientific (roundDiv (num * tenTo places) den) true places
    if negative then -size else size
  | _ => x

/-- A whole number as the nearest double. -/
def floatOfInt (n : Int) : Float :=
  let size := Float.ofScientific n.natAbs false 0
  if n < 0 then -size else size

/-- Doubles. A positive step moves a double fewer than `2 ^ 56` times before the sum stops
growing, so that many moves bound every run. -/
instance : Quantity Float where
  natCast n := floatOfInt n
  intCast n := floatOfInt n
  decLT := inferInstance
  decLE := inferInstance
  belowTop x := x < 1.0 / 0.0
  roundTo := roundFloat
  moves _ _ _ := twoTo 56

/-- Rounds a rational to a number of decimal places. -/
def roundRat (places : Nat) (x : Rat) : Rat :=
  let size := (roundDiv (x.num.natAbs * tenTo places) x.den : Rat) / (tenTo places : Rat)
  if x < 0 then -size else size

/-- Rationals, in which every value is finite. -/
instance : Quantity Rat where
  zero := 0
  natCast n := (n : Rat)
  intCast n := (n : Rat)
  add := (· + ·)
  sub := (· - ·)
  neg := (- ·)
  mul := (· * ·)
  div := (· / ·)
  lt := (· < ·)
  le := (· ≤ ·)
  decLT := inferInstance
  decLE := inferInstance
  belowTop _ := true
  roundTo := roundRat
  moves start limit step := ((limit - start) / step).floor.toNat + 1

end FlowSched

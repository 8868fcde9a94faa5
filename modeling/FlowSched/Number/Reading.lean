import FlowSched.Number.Rounding

/-!
# What a double says

A double is read into its sign and an exact value `mantissa * 2 ^ exponent`, or found to be
infinite or no number. Every text of a double is written from this reading.
-/

namespace FlowSched

/-- The exact content of a double. -/
inductive Reading where
  | nan
  | infinite (negative : Bool)
  | finite (negative : Bool) (mantissa : Nat) (exponent : Int)

namespace Reading

/-- Reads the 64 bits of a double: a sign, eleven bits of exponent and 52 of fraction. -/
def ofBits (bits : Nat) : Reading :=
  let negative := decide (twoTo 63 ≤ bits)
  let scale : Nat := bits / twoTo 52 % twoTo 11
  let fraction : Nat := bits % twoTo 52
  if scale = 2047 then
    if fraction = 0 then infinite negative else nan
  else if scale = 0 then finite negative fraction (-1074)
  else finite negative (twoTo 52 + fraction) ((scale : Int) - 1075)

/-- Reads a double. -/
def ofFloat (x : Float) : Reading := ofBits x.toBits.toNat

/-- A value `mantissa * 2 ^ exponent` as a fraction of natural numbers. -/
def fraction (mantissa : Nat) (exponent : Int) : Nat × Nat :=
  (mantissa * twoTo exponent.toNat, twoTo (-exponent).toNat)

end Reading

end FlowSched

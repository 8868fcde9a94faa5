import FlowSched.Fault
import FlowSched.Step

/-!
# Sources of random numbers

Workflows and rosters are drawn from any source of whole numbers below a bound and of fractions in
steps of `2 ^ -53`. Nothing is assumed of a source but that its numbers keep to their range.
-/

namespace FlowSched

open Quantity

/-- The number of steps from `0` to `1` in a random fraction, `2 ^ 53`. -/
def resolution : Nat := 9007199254740992

/-- A source of random numbers. -/
class Source (γ : Type) where
  /-- A number below a positive bound. -/
  below : Nat → γ → Nat × γ
  /-- A number below the resolution of fractions. -/
  steps : γ → Nat × γ
  below_lt : ∀ (n : Nat) (g : γ), 0 < n → (below n g).1 < n
  steps_lt : ∀ g : γ, (steps g).1 < resolution

/-- A computation that draws from a source and may fail. -/
abbrev Draw (α γ β : Type) := Step (Fault α) γ β

namespace Draw

variable {α γ : Type} [Quantity α] [Source γ]

/-- A whole number between two bounds, both included. -/
def between (low high : Int) : Draw α γ Int := fun g =>
  if high < low then .error .emptyRange g
  else
    let (n, g) := Source.below (high - low + 1).toNat g
    .ok (low + n) g

/-- An element of a list that is not empty. -/
def choice (xs : List Int) : Draw α γ Int := fun g =>
  let (n, g) := Source.below xs.length g
  match xs[n]? with
  | some x => .ok x g
  | none => .error .emptyRange g

/-- A fraction from `0` to below `1`. -/
def fraction : Draw α γ α := fun g =>
  let (n, g) := Source.steps g
  .ok (((n : Nat) : α) / ((resolution : Nat) : α)) g

/-- A value between two bounds. -/
def uniform (low high : α) : Draw α γ α := do
  let x ← fraction
  pure (low + (high - low) * x)

end Draw

end FlowSched

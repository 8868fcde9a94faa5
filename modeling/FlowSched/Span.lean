import FlowSched.Number.Quantity

/-!
# Moving a span forward

A span of time is moved forward by equal steps for as long as its place is blocked. A step that
does not change the start can never help and is an error.
-/

namespace FlowSched

open Quantity

/-- A span of time. -/
structure Span (α : Type) where
  start : α
  finish : α

namespace Span

variable {α : Type} [Quantity α]

/-- Both ends moved by a step. -/
def shift (s : Span α) (step : α) : Span α := ⟨s.start + step, s.finish + step⟩

/-- Moves a span while it is blocked, at most `fuel` times. Fails with the start that a step leaves
where it is. -/
def advance (blocked : Span α → Bool) (step : α) : Nat → Span α → Except α (Span α)
  | 0, s => .ok s
  | fuel + 1, s =>
    if blocked s then
      if s.start + step == s.start then .error s.start
      else advance blocked step fuel (s.shift step)
    else .ok s

/-- Moves a span until it starts behind an instant. -/
def advancePast (limit step : α) (s : Span α) : Except α (Span α) :=
  advance (fun s => decide (s.start ≤ limit)) step (moves s.start limit step) s

/-- The instant is one of those taken. -/
def taken (instants : List α) (x : α) : Bool := instants.any (x == ·)

end Span

end FlowSched

/-!
# Steps that may fail

A step turns a state into a value and a new state, or fails and leaves the state it had reached.
The state is never rolled back: what a failed step wrote stays written. Atomic steps are built
from functions that return a whole new state or nothing.
-/

namespace FlowSched

/-- A computation on states of type `σ` that may fail with `ε`. -/
abbrev Step (ε σ β : Type) := EStateM ε σ β

namespace Step

variable {ε σ τ β : Type}

/-- Looks something up in the state. -/
def query (f : σ → Except ε β) : Step ε σ β := fun s =>
  match f s with
  | .ok b => .ok b s
  | .error e => .error e s

/-- Changes the state as a whole or leaves it alone. -/
def atomic (f : σ → Except ε σ) : Step ε σ Unit := fun s =>
  match f s with
  | .ok s' => .ok () s'
  | .error e => .error e s

/-- Goes on with a result found elsewhere. -/
def ofExcept (r : Except ε β) : Step ε σ β := query fun _ => r

/-- Runs a step on a part of the state. -/
def zoom (view : σ → τ) (put : τ → σ → σ) (m : Step ε τ β) : Step ε σ β := fun s =>
  match m (view s) with
  | .ok b t => .ok b (put t s)
  | .error e t => .error e (put t s)

/-- Runs a step on a larger state that is built for it, and returns that state too. -/
def within (build : σ → τ) (view : τ → σ) (m : Step ε τ β) : Step ε σ (β × τ) := fun s =>
  match m (build s) with
  | .ok b t => .ok (b, t) (view t)
  | .error e t => .error e (view t)

/-- Runs a step for each element of a list in order, up to the first failure. -/
def each (f : β → Step ε σ Unit) : List β → Step ε σ Unit
  | [] => pure ()
  | b :: rest => do f b; each f rest

end Step

end FlowSched

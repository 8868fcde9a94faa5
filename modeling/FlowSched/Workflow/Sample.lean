import FlowSched.Workflow.Check

/-!
# A sample workflow

The ten-task workflow on which planning by upward rank is usually shown. On a VM of one million
instructions per second each length is a time in seconds.
-/

namespace FlowSched.Workflow

open Quantity

variable {α : Type} [Quantity α]

/-- The workflow with one more edge, or the fault that refuses it. -/
def withEdge (w : Workflow α) (parent child : Int) (cost : Option α) :
    Except (Fault α) (Workflow α) :=
  match addEdge parent child cost w with
  | .ok _ w => .ok w
  | .error fault _ => .error fault

/-- The workflow if it is well formed, with its depths. -/
def finished (w : Workflow α) : Except (Fault α) (Workflow α) := do
  w.check
  match computeDepths w with
  | .ok _ w => .ok w
  | .error fault _ => .error fault

/-- Lengths of the sample tasks. -/
def sampleLengths : List (Int × Nat) :=
  [(1, 13), (2, 17), (3, 14), (4, 13), (5, 12), (6, 13), (7, 11), (8, 10), (9, 17), (10, 15)]

/-- Edges of the sample with their transfer times. -/
def sampleEdges : List (Int × Int × Nat) :=
  [(1, 2, 18), (1, 3, 12), (1, 4, 9), (1, 5, 11), (1, 6, 14), (2, 8, 19), (2, 9, 16), (3, 7, 23),
    (4, 8, 27), (4, 9, 23), (5, 9, 13), (6, 8, 15), (7, 10, 17), (8, 10, 11), (9, 10, 13)]

/-- The sample workflow, with or without transfer times. -/
def sample (withCosts : Bool) : Except (Fault α) (Workflow α) := do
  let w ← ofTasks (sampleLengths.map fun (id, length) => { id, length := (length : α) })
  let w ← sampleEdges.foldlM (fun w (parent, child, cost) =>
    w.withEdge parent child (if withCosts then some (cost : α) else none)) w
  w.finished

end FlowSched.Workflow

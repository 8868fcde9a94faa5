import FlowSched.Planning.Plan
import FlowSched.Workflow.Order

/-!
# Paths

Every path from a root to an exit, in the order of the child lists, and the costliest of them.
-/

namespace FlowSched

open Quantity

variable {α : Type} [Quantity α]

/-- The paths from a task to an exit. An acyclic path has at most as many tasks as the workflow,
which bounds the depth. -/
def Workflow.pathsFrom (w : Workflow α) : Nat → Int → List (List Int)
  | 0, _ => []
  | fuel + 1, id =>
    let children := ((w.find? id).map Task.children).getD []
    if children.isEmpty then [[id]]
    else (children.flatMap (w.pathsFrom fuel)).map (id :: ·)

/-- Every path from a root to an exit, by root. -/
def Workflow.paths (w : Workflow α) : List (List Int) :=
  w.roots.flatMap fun t => w.pathsFrom w.size t.id

namespace Costs

/-- The cost of a path beyond what was counted: the average computing times of its tasks and the
transfer times between them. -/
def pathCostFrom (c : Costs α) (counted : α) : List Int → Except (Fault α) α
  | [] => .ok counted
  | [last] => do
    let time ← c.average last
    .ok (counted + time)
  | task :: next :: rest => do
    let time ← c.average task
    let move ← c.moving task next
    pathCostFrom c (counted + (time + move)) (next :: rest)

/-- The cost of a path. -/
def pathCost (c : Costs α) (path : List Int) : Except (Fault α) α := pathCostFrom c 0 path

/-- A path with its cost, if it beats the best one so far. The first path has to cost more than
negative infinity. -/
def costlier (best : Option (List Int × α)) (path : List Int) (cost : α) :
    Option (List Int × α) :=
  match best with
  | none => if belowTop (-cost) then some (path, cost) else none
  | some (_, most) => if most < cost then some (path, cost) else best

/-- The first costliest path. -/
def criticalPath (c : Costs α) (paths : List (List Int)) : Except (Fault α) (List Int) := do
  let best ← paths.foldlM (fun best path => do
    let cost ← c.pathCost path
    .ok (costlier best path cost)) none
  .ok ((best.map Prod.fst).getD [])

end Costs

end FlowSched

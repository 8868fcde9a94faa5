import FlowSched.Workflow.Basic

/-!
# Topological order

The graph of a workflow has an edge from each task to each id in its child list. The topological
order removes, again and again, the first task that no remaining task lists as a child.
-/

namespace FlowSched.Workflow

variable {α : Type} [Quantity α]

/-- Some of these tasks lists the id as a child. -/
def awaited (tasks : List (Task α)) (id : Int) : Bool := tasks.any (·.children.contains id)

/-- Orders the remaining tasks. An unknown child that no remaining task lists any more is an
error, as it would be next. -/
def orderFrom (w : Workflow α) : Nat → List (Task α) → Except (Fault α) (List (Task α))
  | 0, _ => .ok []
  | fuel + 1, remaining =>
    match remaining.find? fun t => !awaited remaining t.id with
    | none => if remaining.isEmpty then .ok [] else .error .notAcyclic
    | some t =>
      let rest := remaining.filter (·.id ≠ t.id)
      match t.children.find? fun c => !w.contains c && !awaited rest c with
      | some c => .error (.missing c)
      | none => do
        let order ← orderFrom w fuel rest
        .ok (t :: order)

/-- The tasks with each before its children, ties in order of discovery. -/
def topologicalOrder (w : Workflow α) : Except (Fault α) (List (Task α)) :=
  w.orderFrom w.size w.tasks

/-- The place of a task in an order. -/
def place (order : List (Task α)) (id : Int) : Nat := order.findIdx (·.id = id)

/-- The workflow has a topological order. -/
def isAcyclic (w : Workflow α) : Bool :=
  match w.topologicalOrder with
  | .ok _ => true
  | .error _ => false

/-! ## The graph -/

/-- The ids in the graph: the tasks, then unknown children as they are met. -/
def nodes (w : Workflow α) : List Int :=
  w.ids ++ ((w.tasks.flatMap Task.children).filter fun c => !w.contains c).eraseDups

/-- The children of a node, each once. -/
def successors (w : Workflow α) (id : Int) : List Int :=
  match w.find? id with
  | some t => t.children.eraseDups
  | none => []

/-- The edges of the graph, by parent in order of discovery. -/
def edges (w : Workflow α) : List (Int × Int) :=
  w.tasks.flatMap fun t => t.children.eraseDups.map fun c => (t.id, c)

/-! ## Depth -/

/-- The greatest of a list of whole numbers, which must not be empty. -/
def deepest : List Int → Int
  | [] => 0
  | d :: rest => rest.foldl max d

/-- Writes the depth of a task: one more than the greatest depth of its parents, one for a root. -/
def setDepth (id : Int) : Step (Fault α) (Workflow α) Unit :=
  Step.atomic fun w => do
    let t ← w.get id
    let parents ← w.getAll t.parents
    let depth := if parents.isEmpty then 1 else deepest (parents.map Task.depth) + 1
    .ok (w.modify id fun t => { t with depth := depth })

/-- Writes the depth of every task in topological order. -/
def computeDepths : Step (Fault α) (Workflow α) Unit := do
  let order ← Step.query topologicalOrder
  Step.each setDepth (order.map Task.id)

end FlowSched.Workflow

import FlowSched.Workflow.Cycle

/-!
# Well-formed workflows

A workflow is well formed when sizes are not negative, every id in an edge list is known, the two
ends of every edge list each other, and there is no cycle. The first violation is reported.
-/

namespace FlowSched.Workflow

open Quantity

variable {α : Type} [Quantity α]

/-- Fails unless a condition holds. -/
def require (condition : Bool) (fault : Fault α) : Except (Fault α) Unit :=
  if condition then .ok () else .error fault

/-- A child list entry is known, and the child lists the task in turn. -/
def checkChild (w : Workflow α) (t : Task α) (child : Int) : Except (Fault α) Unit :=
  match w.find? child with
  | none => .error (.unknownChild t.id child)
  | some c => require (c.parents.contains t.id) (.childUnaware t.id child)

/-- A parent list entry is known, and the parent lists the task in turn. -/
def checkParent (w : Workflow α) (t : Task α) (parent : Int) : Except (Fault α) Unit :=
  match w.find? parent with
  | none => .error (.unknownParent t.id parent)
  | some p => require (p.children.contains t.id) (.parentUnaware parent t.id)

/-- One task is well formed in its workflow. -/
def checkTask (w : Workflow α) (t : Task α) : Except (Fault α) Unit := do
  require (!decide (t.length < 0)) (.negativeLength t.id t.length)
  require (1 ≤ t.elements) (.noElements t.id t.elements)
  require (t.transfers.values.all fun c => !decide (c < 0)) (.negativeTransfer t.id)
  t.children.forM (w.checkChild t)
  t.parents.forM (w.checkParent t)

/-- The workflow is well formed. -/
def check (w : Workflow α) : Except (Fault α) Unit := do
  w.tasks.forM w.checkTask
  require w.isAcyclic (.cycle w.findCycle)

end FlowSched.Workflow

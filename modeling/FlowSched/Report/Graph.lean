import FlowSched.Workflow.Order
import FlowSched.Report.Gantt

/-!
# Drawings of workflows

The data of a drawing in layers by depth. Tasks are coloured by the tier of their VM if an
allocation is to be shown.
-/

namespace FlowSched

/-- The data of a drawing. -/
structure Drawing where
  title : String := "Task Dependency Graph"
  colors : List (Int × String)
  rows : List (List Int)
  labels : List String
  arrows : Nat
  edgeColor : Option String
  legend : Option (String × List String)
  saved : List String

namespace Drawing

/-- The formats a drawing can be saved in. -/
def formats : List String :=
  ["eps", "jpg", "jpeg", "pdf", "pgf", "png", "ps", "raw", "rgba", "svg", "svgz", "tif", "tiff",
    "webp"]

/-- The files that formats are saved in, in ascending order. -/
def files (name : String) (wanted : List String) : Except (Fault Float) (List String) := do
  let names ← wanted.mapM fun f =>
    if formats.contains (f.map Char.toLower) then .ok (name ++ "." ++ f)
    else .error .undrawable
  .ok (names.eraseDups.mergeSort fun a b => !decide (b < a))

/-- The colour of a task: that of its VM's tier, white without a known VM. -/
def allocatedColor (allocation : Table Int) (vms : List (Vm Float)) (task : Int) : String :=
  match (allocation.get? task).bind (Vm.named? vms) with
  | some v => v.tier.color
  | none => "#ffffff"

/-- The tasks of each depth in order of their ids, least depth first. -/
def layers (tasks : List (Task Float)) : List (List Int) :=
  let depths := (tasks.map Task.depth).eraseDups.mergeSort fun a b => decide (a ≤ b)
  depths.map fun d =>
    ((tasks.filter (·.depth = d)).map Task.id).mergeSort fun a b => decide (a ≤ b)

/-- The drawing of a workflow whose depths are computed. An allocation is shown if it is wanted,
not empty, and there are VMs. -/
def ofWorkflow (w : Workflow Float) (showAllocation : Bool) (allocation : Table Int)
    (vms : List (Vm Float)) (wanted : List String) : Except (Fault Float) Drawing := do
  let shown := showAllocation && !allocation.entries.isEmpty && !vms.isEmpty
  let saved ← files "dag" wanted
  let arrows := w.edges.length
  let edgeColor := if shown then "#666666" else "#333333"
  .ok
    { colors := w.ids.map fun id =>
        (id, if shown then allocatedColor allocation vms id else "#99ccff")
      rows := layers w.tasks
      labels := w.ids.map toString
      arrows
      edgeColor := if arrows = 0 then none else some edgeColor
      legend := if shown then some ("Allocation", Tier.all.map Tier.title) else none
      saved }

/-- Computes the depths of a workflow and draws it. -/
def draw (showAllocation : Bool) (allocation : Table Int) (vms : List (Vm Float))
    (wanted : List String) : Step (Fault Float) (Workflow Float) Drawing := do
  Workflow.computeDepths
  Step.query fun w => ofWorkflow w showAllocation allocation vms wanted

end Drawing

end FlowSched

import FlowSched.Fault
import FlowSched.Job

/-!
# Gantt charts

The data of a chart with one row per VM, in order of ids from bottom to top, and one bar per job
in the colour of the VM's tier.
-/

namespace FlowSched

open Quantity

namespace Tier

/-- The colour of a tier in charts. -/
def color : Tier → String
  | cloud => "#4169e1"
  | fog => "#90ee90"
  | mobile => "#f08080"

end Tier

/-- A bar: its start, length, row and colour. -/
structure Bar where
  start : Float
  duration : Float
  row : Nat
  color : String

/-- A text with the place on the time axis that it is centred on. -/
structure Label where
  text : String
  center : Float

/-- The data of a Gantt chart. -/
structure Gantt where
  title : String
  timeAxis : String := "Time"
  rowAxis : String := "Virtual Machine"
  limit : Float
  width : Float := 15
  height : Float
  bars : List Bar
  labels : List Label
  rows : List (Nat × String)
  legend : List String := Tier.all.map fun t => t.title ++ " VM"

namespace Gantt

/-- The height of a chart with a number of rows, in inches. -/
def heightOf (rows : Nat) : Float := later 3 (Float.ofNat rows * 0.8 + 2)

/-- The least size of a time axis, below which it is given a fixed span. -/
def leastAxis : Float := 1e6 / 1e-15 * 2.2250738585072014e-308

/-- The upper end of the time axis: a little behind the last end. -/
def axisLimit (jobs : List (Job Float)) : Except (Fault Float) Float :=
  let limit := (latest? (jobs.map Job.finish)).getD 1 * 1.05
  if !isFinite limit then .error .undrawable
  else if leastAxis ≤ limit.abs then .ok limit
  else .ok (if limit < 0 then -0.05 else 0.05)

/-- The VMs in order of their ids. -/
def ordered (vms : List (Vm Float)) : List (Vm Float) :=
  vms.mergeSort fun a b => decide (a.id ≤ b.id)

/-- The bar of a job and its label. -/
def draw (vms : List (Vm Float)) (j : Job Float) : Except (Fault Float) (Bar × Label) :=
  match (vms.zipIdx.findRev? fun (v, _) => v.id = j.vm) with
  | none => .error (.missing j.vm)
  | some (v, row) =>
    .ok ({ start := j.start, duration := j.duration, row, color := v.tier.color },
      { text := "T" ++ toString j.task, center := j.start + j.duration / 2 })

/-- The label of a VM's row. -/
def rowLabel (v : Vm Float) : String := "VM " ++ toString v.id ++ " (" ++ v.tier.title ++ ")"

/-- The chart of a schedule. Rows need distinct VM ids. -/
def ofJobs (title : String) (jobs : List (Job Float)) (vms : List (Vm Float)) :
    Except (Fault Float) Gantt := do
  let limit ← axisLimit jobs
  let rows := ordered vms
  let drawn ← jobs.mapM (draw rows)
  if (rows.map Vm.id).eraseDups.length ≠ rows.length then .error .undrawable
  .ok
    { title, limit
      height := heightOf vms.length
      bars := drawn.map Prod.fst
      labels := drawn.map Prod.snd
      rows := rows.zipIdx.map fun (v, row) => (row, rowLabel v) }

end Gantt

end FlowSched

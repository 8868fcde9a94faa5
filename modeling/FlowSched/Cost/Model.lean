import FlowSched.Cost.Mean
import FlowSched.Workflow.Basic
import FlowSched.Note

/-!
# Costs

The time to compute each task on each VM and to move data along each edge. Computing takes length
over speed, and forever on a VM with too few processing elements. Moving data takes the time
stored on the child, or the size of the files that pass from parent to child over the mean
bandwidth.
-/

namespace FlowSched

open Quantity

variable {α : Type} [Quantity α]

/-- A computing time; `none` stands for a task that never ends. -/
abbrev Duration (α : Type) := Option α

/-- The mean bandwidth of a roster. -/
def meanBandwidth (vms : List (Vm α)) : Except (Fault α) α :=
  if vms.isEmpty then .error .emptyRoster else .ok (mean (vms.map Vm.bandwidth))

/-! ## Computing -/

/-- The time to compute a task on a VM. -/
def computeTime (t : Task α) (v : Vm α) : Duration α :=
  if v.elements < t.elements then none
  else
    let time := t.length / v.mips
    if isTop time then none else some time

/-- The times to compute a task, by VM. -/
def computeRow (vms : List (Vm α)) (t : Task α) : Table (Duration α) :=
  Table.ofList (vms.map fun v => (v.id, computeTime t v))

/-- Every VM has a positive speed. -/
def checkSpeeds (vms : List (Vm α)) : Except (Fault α) Unit :=
  vms.forM fun v => if v.mips ≤ 0 then .error (.weakVm v.id v.mips) else .ok ()

/-- The times to compute each task on each VM. -/
def computeTimes (tasks : List (Task α)) (vms : List (Vm α)) :
    Except (Fault α) (Table (Table (Duration α))) := do
  if vms.isEmpty then .error .emptyRoster
  checkSpeeds vms
  let rows ← tasks.mapM fun t =>
    if t.length < 0 then .error (.negativeLength t.id t.length)
    else .ok (t.id, computeRow vms t)
  .ok (Table.ofList rows)

/-! ## Moving data -/

/-- The bytes that a child reads of what its parent writes. Files are matched by name; of two
inputs of one name the first counts. -/
def sharedBytes (parent child : Task α) : α :=
  parent.outputs.foldl (fun sum file =>
    match child.inputs.find? (·.name = file.name) with
    | some input => sum + input.size
    | none => sum) 0

/-- The time to move the shared files of an edge: bytes to megabytes to megabits, over the
bandwidth. -/
def fileTransferTime (parent child : Task α) (bandwidth : α) : Except (Fault α) α :=
  let bytes := sharedBytes parent child
  if bytes == 0 then .ok 0
  else if bandwidth ≤ 0 then .error .noBandwidth
  else .ok (bytes / ((1000000 : Nat) : α) * ((8 : Nat) : α) / bandwidth)

/-- The time to move data from a parent to a child. A child that holds a table of times needs an
entry for the parent. -/
def transferTime (parent child : Task α) (bandwidth : α) : Except (Fault α) α := do
  let time ←
    if child.transfers.entries.isEmpty then fileTransferTime parent child bandwidth
    else
      match child.transfers.get? parent.id with
      | some time => .ok time
      | none => .error (.missing parent.id)
  if time < 0 then .error (.negativeEdge parent.id child.id) else .ok time

/-- The times to move data to each child of a task. -/
def transferRow (w : Workflow α) (bandwidth : α) (parent : Task α) :
    Except (Fault α) (Table α) := do
  let pairs ← parent.children.mapM fun id => do
    let child ← w.get id
    let time ← transferTime parent child bandwidth
    .ok (id, time)
  .ok (Table.ofList pairs)

/-- The times to move data along each edge, by parent. -/
def transferTimes (w : Workflow α) (bandwidth : α) : Except (Fault α) (Table (Table α)) := do
  let rows ← w.tasks.mapM fun t => do
    let row ← transferRow w bandwidth t
    .ok (t.id, row)
  .ok ⟨rows⟩

/-! ## The model -/

/-- All costs of a workflow on a roster. -/
structure Costs (α : Type) where
  bandwidth : α
  compute : Table (Table (Duration α))
  transfer : Table (Table α)

namespace Costs

/-- The costs of a workflow on a roster. -/
def ofWorkflow (w : Workflow α) (vms : List (Vm α)) : Except (Fault α) (Costs α) := do
  let bandwidth ← meanBandwidth vms
  let compute ← computeTimes w.tasks vms
  let transfer ← transferTimes w bandwidth
  .ok { bandwidth, compute, transfer }

/-- What is stored under two keys. -/
def lookup {β : Type} (table : Table (Table β)) (first second : Int) : Except (Fault α) β :=
  match table.get? first with
  | none => .error (.missing first)
  | some row =>
    match row.get? second with
    | none => .error (.missing second)
    | some value => .ok value

/-- The time to compute a task on a VM. -/
def computing (c : Costs α) (task vm : Int) : Except (Fault α) (Duration α) :=
  lookup c.compute task vm

/-- The time to move data along an edge. -/
def moving (c : Costs α) (parent child : Int) : Except (Fault α) α :=
  lookup c.transfer parent child

/-- The mean of the finite computing times of a row. -/
def averageOf (task : Int) (row : Table (Duration α)) : Except (Fault α) α :=
  match (row.values.filterMap id).filter isFinite with
  | [] => .error (.noVm task)
  | times => .ok (mean times)

/-- The mean computing time of a task over the VMs that can run it. -/
def average (c : Costs α) (task : Int) : Except (Fault α) α :=
  match c.compute.get? task with
  | none => .error (.missing task)
  | some row => averageOf task row

/-- What the cost model reports of itself. -/
def summary (c : Costs α) : List (Note α) :=
  let rows := c.compute.entries.map fun (task, row) => Note.taskCosts task row.entries
  let moves := c.transfer.entries.flatMap fun (parent, row) =>
    row.entries.filterMap fun (child, cost) =>
      if cost == 0 then none else some (Note.transferCost parent child cost)
  .meanBandwidth c.bandwidth :: rows ++ moves

end Costs

end FlowSched

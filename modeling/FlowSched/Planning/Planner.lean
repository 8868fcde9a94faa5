import FlowSched.Planning.Rank
import FlowSched.Planning.Estimate
import FlowSched.Workflow.Check

/-!
# Planners

A planner checks the workflow, prices it and puts every task on a VM, either in descending order
of upward rank or in ascending order of estimated start.
-/

namespace FlowSched

open Quantity

/-- Settings of the planner that follows the critical path. -/
structure PathOptions (α : Type) where
  maxWidth : Int := 8
  warnWidth : Int := 6
  fallback : α

/-- How tasks are ordered for allocation. -/
inductive Strategy (α : Type) where
  | byRank
  | byEstimate (options : PathOptions α)

/-- A planner: its strategy and the earliest start of all tasks. -/
structure Planner (α : Type) where
  strategy : Strategy α
  floor : α

/-- The floor and the fallback latency where none is given: a tenth of a second. -/
def tenth {α : Type} [Quantity α] : α := ((1 : Nat) : α) / ((10 : Nat) : α)

/-- Tasks in ascending order of estimated start. -/
def orderByEstimate {α : Type} [Quantity α] (w : Workflow α) (place : Int → Nat) : List Int :=
  sortByKey (fun id => ((w.find? id).map Task.plannedStart).getD 0) place w.ids

/-- Plans by estimated start. `order` is a topological order. -/
def planByEstimate {α : Type} [Quantity α] (options : PathOptions α) (p : Pricing α)
    (order : List Int) (place : Int → Nat) : Step (Fault α) (World α) (Plan α) := do
  modify fun w => w.workflow.ids.foldl (fun w id =>
    w.editTask id fun t => { t with isEstimated := false }) w
  let paths := (← get).workflow.paths
  modify (World.note (.pathsFound paths.length))
  let critical ← Step.ofExcept (p.costs.criticalPath paths)
  modify (World.note (.criticalPath critical))
  let outlook : Outlook α :=
    { costs := p.costs, floor := p.floor, maxWidth := options.maxWidth
      warnWidth := options.warnWidth, fallback := options.fallback, critical }
  let _ ← Step.within (fun w => { toWorld := w }) Sketch.toWorld
    (Sketch.estimateAll outlook order)
  let w ← get
  modify (World.noteAll (w.workflow.tasks.map fun t =>
    .estimated t.id t.plannedStart t.plannedFinish))
  let (_, draft) ← Step.within Draft.fresh Draft.toWorld
    (Draft.allocateAll p (orderByEstimate w.workflow place))
  pure { draft.plan with criticalPath := critical, paths }

namespace Planner

variable {α : Type} [Quantity α]

/-- A planner by upward rank. -/
def byRank (floor : α) : Except (Fault α) (Planner α) :=
  if floor < 0 then .error .negativeFloor else .ok { strategy := .byRank, floor }

/-- A planner by estimated start. -/
def byEstimate (floor : α) (options : PathOptions α) : Except (Fault α) (Planner α) :=
  if floor < 0 then .error .negativeFloor
  else if options.maxWidth < 2 then .error .narrowWidth
  else if options.fallback ≤ 0 then .error .noLatency
  else .ok { strategy := .byEstimate options, floor }

/-- The algorithm of a planner. -/
def algorithm (p : Planner α) : Algorithm :=
  match p.strategy with
  | .byRank => .heft
  | .byEstimate _ => .ocs

/-- Plans the workflow on the roster. -/
def run (planner : Planner α) : Step (Fault α) (World α) (Plan α) := do
  let w ← get
  if w.vms.isEmpty then throw .emptyRoster
  Step.ofExcept w.workflow.check
  modify (World.note (.planning planner.algorithm w.workflow.size w.vms.length))
  let costs ← Step.ofExcept (Costs.ofWorkflow w.workflow w.vms)
  modify (World.noteAll costs.summary)
  let order ← Step.ofExcept w.workflow.topologicalOrder
  let place := Workflow.place order
  let pricing : Pricing α := { vms := w.vms, costs, floor := planner.floor }
  let plan ←
    match planner.strategy with
    | .byRank => planByRank pricing place
    | .byEstimate options => planByEstimate options pricing (order.map Task.id) place
  modify (World.noteAll plan.timelineNotes)
  pure plan

end Planner

end FlowSched

import FlowSched.Timeline
import FlowSched.Cost.Model
import FlowSched.World

/-!
# Plans and allocation

A plan puts every task into a slot of some VM. Tasks are allocated one by one, each to the VM on
which it ends first; of several such VMs the first in the roster is taken.
-/

namespace FlowSched

open Quantity

/-- What a planner found. -/
structure Plan (α : Type) where
  assignment : Table Int
  order : List Int
  finishes : Table α
  timelines : Table (Timeline α)
  ranks : Table α := {}
  criticalPath : List Int := []
  paths : List (List Int) := []

namespace Plan

variable {α : Type} [Quantity α]

/-- The end of the last task, `0` without tasks. -/
def makespan (p : Plan α) : α := latest p.finishes.values

end Plan

/-- What allocation reads and never changes: the roster, the costs and the earliest start of
all. -/
structure Pricing (α : Type) [Quantity α] where
  vms : List (Vm α)
  costs : Costs α
  floor : α

/-- A plan in the making. -/
structure Draft (α : Type) [Quantity α] extends World α where
  timelines : Table (Timeline α)
  finishes : Table α := {}
  order : List Int := []

/-- An offer of a VM: when a task would be ready there, how long it would take and when it would
end. -/
structure Offer (α : Type) where
  vm : Int
  ready : α
  cost : α
  finish : α

namespace Draft

variable {α : Type} [Quantity α]

/-- A draft in which every VM is free. -/
def fresh (w : World α) : Draft α :=
  { w with timelines := Table.ofList (w.vms.map fun v => (v.id, { vm := v.id })) }

/-- When the data of one parent is on a VM. -/
def arrival (p : Pricing α) (d : Draft α) (task : Task α) (vm parent : Int) :
    Except (Fault α) α := do
  match d.finishes.get? parent with
  | none => .error (.missing parent)
  | some finish =>
    let t ← d.workflow.get parent
    if t.vm = vm then .ok finish
    else
      let time ← p.costs.moving parent task.id
      .ok (finish + time)

/-- When all inputs of a task are on a VM, and not before the floor. -/
def readyTime (p : Pricing α) (d : Draft α) (task : Task α) (vm : Int) : Except (Fault α) α :=
  task.parents.foldlM (fun ready parent => do
    let time ← d.arrival p task vm parent
    .ok (later ready time)) p.floor

/-- The offer of a VM; none if the task never ends there. -/
def offer? (p : Pricing α) (d : Draft α) (task : Task α) (vm : Int) :
    Except (Fault α) (Option (Offer α)) := do
  let ready ← d.readyTime p task vm
  let cost ← p.costs.computing task.id vm
  match cost, d.timelines.get? vm with
  | _, none => .error (.missing vm)
  | none, _ => .ok none
  | some cost, some timeline =>
    let finish := timeline.finishTime cost ready
    .ok (if belowTop finish then some { vm, ready, cost, finish } else none)

/-- The better of two offers: the one that ends earlier, else the first. -/
def better : Option (Offer α) → Option (Offer α) → Option (Offer α)
  | none, o => o
  | some a, some b => if b.finish < a.finish then some b else some a
  | some a, none => some a

/-- The best offer of the roster. -/
def bestOffer? (p : Pricing α) (d : Draft α) (task : Task α) :
    Except (Fault α) (Option (Offer α)) :=
  p.vms.foldlM (fun best v => do
    let offer ← d.offer? p task v.id
    .ok (better best offer)) none

/-- Takes an offer: reserves the slot, binds the task and records the plan. A task that is already
estimated keeps its estimate. -/
def accept (d : Draft α) (task : Task α) (timeline : Timeline α) (o : Offer α) : Draft α :=
  let world := d.toWorld
    |>.note (timeline.reservation task.id o.cost o.ready)
    |>.editTask task.id (fun t =>
      if t.isEstimated then { t with vm := o.vm }
      else { t with vm := o.vm, plannedStart := o.finish - o.cost, plannedFinish := o.finish })
    |>.note (.allocated task.id o.vm o.finish)
  { world with
    session := { d.session with planned := d.session.planned ++ [task.id] }
    timelines := d.timelines.set o.vm (timeline.occupy task.id o.cost o.ready)
    finishes := d.finishes.set task.id o.finish
    order := d.order ++ [task.id] }

/-- Allocates a task to the VM on which it ends first. -/
def allocate (p : Pricing α) (id : Int) : Step (Fault α) (Draft α) Unit :=
  Step.atomic fun d => do
    let task ← d.workflow.get id
    match ← d.bestOffer? p task with
    | none => .error (.noVm id)
    | some o =>
      match d.timelines.get? o.vm with
      | none => .error (.missing o.vm)
      | some timeline => .ok (d.accept task timeline o)

/-- Allocates tasks in an order. -/
def allocateAll (p : Pricing α) (order : List Int) : Step (Fault α) (Draft α) Unit :=
  Step.each (allocate p) order

/-- The plan that a draft amounts to. -/
def plan (d : Draft α) : Plan α :=
  { assignment := Table.ofList (d.order.map fun id =>
      (id, ((d.workflow.find? id).map Task.vm).getD unbound))
    order := d.order
    finishes := d.finishes
    timelines := d.timelines }

end Draft

/-- What a plan reports of its timelines. -/
def Plan.timelineNotes {α : Type} [Quantity α] (p : Plan α) : List (Note α) :=
  p.timelines.entries.map fun (vm, t) =>
    .timeline vm (t.slots.map fun s => (s.task, s.start, s.finish))

end FlowSched

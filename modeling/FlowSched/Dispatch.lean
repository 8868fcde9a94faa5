import FlowSched.World

/-!
# Dispatching

A rule binds the tasks of a ready batch to VMs. Three rules take the shortest, the longest or the
oldest task next and choose its VM by load and speed; one deals tasks out to idle VMs in order of
their ids; one keeps the VMs that a plan has chosen. A VM that is given a task turns busy, except
by a plan.
-/

namespace FlowSched

open Quantity

/-- A ready batch in a world, and the tasks bound so far. -/
structure Batch (α : Type) [Quantity α] extends World α where
  ready : List Int := []
  bound : List Int := []

namespace Batch

variable {α : Type} [Quantity α]

/-- Binds a task to a VM: it leaves the ready list and joins the bound ones. -/
def bind (rule : Rule) (task vm : Int) (b : Batch α) : Batch α :=
  { b with
    toWorld := (b.toWorld.editTask task fun t => { t with vm }).note (.bound rule task vm)
    ready := b.ready.erase task
    bound := b.bound ++ [task] }

/-- Turns the VM at a place busy. -/
def occupy (place : Nat) (b : Batch α) : Batch α :=
  { b with toWorld := b.toWorld.editVm place fun v => { v with busy := true } }

/-! ## Choosing a task and a VM -/

/-- The first shortest task. -/
def shortest : List (Task α) → Option (Task α)
  | [] => none
  | t :: rest => some (rest.foldl (fun best t => if t.length < best.length then t else best) t)

/-- The first longest task. -/
def longest : List (Task α) → Option (Task α)
  | [] => none
  | t :: rest => some (rest.foldl (fun best t => if best.length < t.length then t else best) t)

/-- The task a rule takes next. -/
def next? (rule : Rule) (tasks : List (Task α)) : Option (Task α) :=
  match rule with
  | .minMin => shortest tasks
  | .maxMin => longest tasks
  | _ => tasks.head?

/-- The VM has enough processing elements and lies in the datacenter the task asks for. -/
def isFeasible (t : Task α) (v : Vm α) : Bool :=
  decide (t.elements ≤ v.elements) && (t.offload = anywhere || v.datacenter = t.offload)

/-- The feasible VMs of a roster with their places. -/
def feasible (t : Task α) (vms : List (Vm α)) : List (Vm α × Nat) :=
  vms.zipIdx.filter fun (v, _) => isFeasible t v

/-- The first most loaded of a list of VMs. -/
def mostLoaded : List (Vm α × Nat) → Option (Vm α × Nat)
  | [] => none
  | v :: rest =>
    some (rest.foldl (fun best v => if best.1.load < v.1.load then v else best) v)

/-- The first fastest of a list of VMs. -/
def fastest : List (Vm α × Nat) → Option (Vm α × Nat)
  | [] => none
  | v :: rest =>
    some (rest.foldl (fun best v => if best.1.mips < v.1.mips then v else best) v)

/-- The VM for a task: the most loaded idle one that is feasible, else the fastest feasible one. -/
def select (t : Task α) (vms : List (Vm α)) : Except (Fault α) (Vm α × Nat) :=
  let candidates := feasible t vms
  match (mostLoaded (candidates.filter fun (v, _) => !v.busy)).or (fastest candidates) with
  | some choice => .ok choice
  | none => .error (.noVmIn t.id t.offload)

/-! ## The rules -/

/-- Binds the task that a rule takes next. -/
def bindNext (rule : Rule) (b : Batch α) : Except (Fault α) (Batch α) := do
  let tasks ← b.workflow.getAll b.ready
  match next? rule tasks with
  | none => .ok b
  | some t =>
    let (vm, place) ← select t b.vms
    .ok ((b.occupy place).bind rule t.id vm.id)

/-- Binds every ready task, each to the VM selected for it. -/
def dispatchList (rule : Rule) : Step (Fault α) (Batch α) Unit := do
  let b ← get
  Step.each (fun _ => Step.atomic (bindNext rule)) (List.replicate b.ready.length ())

/-- Places of the roster in order of the VM ids. -/
def placesById (vms : List (Vm α)) : List (Vm α × Nat) :=
  vms.zipIdx.mergeSort fun a b => decide (a.1.id ≤ b.1.id)

/-- Gives each task in turn to the first idle VM, until every VM is busy. -/
def dealOut (b : Batch α) : List Int → Batch α
  | [] => b
  | task :: rest =>
    match (placesById b.vms).find? fun (v, _) => !v.busy with
    | none => b
    | some (vm, place) => dealOut ((b.occupy place).bind .roundRobin task vm.id) rest

/-- Deals the ready tasks out in order of their ids. -/
def dispatchRoundRobin (b : Batch α) : Batch α :=
  b.dealOut (b.ready.mergeSort fun a b => decide (a ≤ b))

/-- The VM for tasks without a valid one: the first with id 0, else the first of all. -/
def fallback? (vms : List (Vm α)) : Option Int :=
  ((vms.find? (·.id = 0)).or vms.head?).map Vm.id

/-- Takes a task as it is bound, or binds it to the fallback VM if its VM is not in the roster. -/
def keepBinding (fallback : Int) (b : Batch α) (task : Int) : Batch α :=
  let vm := ((b.workflow.find? task).map Task.vm).getD unbound
  let world :=
    if b.vms.any (·.id = vm) then b.toWorld
    else (b.toWorld.note (.rebound task vm fallback)).editTask task
      fun t => { t with vm := fallback }
  { b with toWorld := world, ready := b.ready.erase task, bound := b.bound ++ [task] }

/-- Takes the ready tasks in planned order. -/
def dispatchStatic (fallback : Int) (b : Batch α) : Batch α :=
  (b.session.orderByPlan b.ready).foldl (keepBinding fallback) b

/-- Dispatches the ready tasks by a rule. -/
def dispatch (rule : Rule) : Step (Fault α) (Batch α) Unit := do
  match fallback? (← get).vms with
  | none => throw .emptyRoster
  | some fallback =>
    match rule with
    | .roundRobin => modify dispatchRoundRobin
    | .static => modify (dispatchStatic fallback)
    | .minMin | .maxMin | .fcfs => dispatchList rule

end Batch

end FlowSched

import FlowSched.Dispatch
import FlowSched.Cost.Model
import FlowSched.Job

/-!
# Execution

A deterministic execution driven by completions. Tasks whose parents have all finished are
released and handed to a dispatch rule; a bound task runs on its VM as soon as its inputs have
arrived and the VM is free. All completions of one instant are processed before the next dispatch.
-/

namespace FlowSched

open Quantity

/-- The end of a running task. -/
structure Completion (α : Type) where
  finish : α
  task : Int

/-- An execution in progress. `release` holds when a task became ready, `vmFree` when a VM will
have worked off what it was given, `running` how many tasks it holds, and `remaining` how many
parents a task still waits for. Completions stand in order of submission. -/
structure Execution (α : Type) [Quantity α] extends World α where
  jobs : List (Job α) := []
  pending : List Int := []
  release : Table α := {}
  vmFree : Table α
  running : Table Int
  remaining : Table Int
  completions : List (Completion α) := []

namespace Execution

variable {α : Type} [Quantity α]

/-- An execution in which nothing has happened yet. -/
def fresh (w : World α) : Execution α :=
  { w with
    vmFree := Table.ofList (w.vms.map fun v => (v.id, 0))
    running := Table.ofList (w.vms.map fun v => (v.id, 0))
    remaining := ⟨w.workflow.tasks.map fun t => (t.id, (t.parents.length : Int))⟩ }

/-- Makes a task ready. -/
def releaseTask (now : α) (task : Int) (e : Execution α) : Execution α :=
  { e with pending := e.pending ++ [task], release := e.release.set task now }

/-! ## Starting tasks -/

/-- When the data of a parent is on the VM of a task. -/
def arrival (costs : Costs α) (task parent : Task α) : Except (Fault α) α :=
  if parent.vm = task.vm then .ok parent.finish
  else do
    let time ← costs.moving parent.id task.id
    .ok (parent.finish + time)

/-- How long a task waits for its inputs after its last parent has finished. -/
def transferDelay (costs : Costs α) (w : Workflow α) (task : Task α) : Except (Fault α) α := do
  let parents ← w.getAll task.parents
  match latest? (parents.map Task.finish) with
  | none => .ok 0
  | some last =>
    let arrived ← parents.foldlM (fun latest parent => do
      let time ← arrival costs task parent
      .ok (later latest time)) last
    .ok (arrived - last)

/-- When a task starts on a VM: with its inputs there, not before now, and behind the tasks that
the VM was given earlier. -/
def startTime (costs : Costs α) (now : α) (e : Execution α) (task : Task α) (vm : Int) :
    Except (Fault α) α :=
  match e.release.get? task.id with
  | none => .error (.missing task.id)
  | some released => do
    let delay ← transferDelay costs e.workflow task
    match e.vmFree.get? vm with
    | none => .error (.missing vm)
    | some free => .ok (later (later (released + delay) now) free)

/-- Records the submission of a task. -/
def submit (task : Int) (e : Execution α) : Execution α :=
  let index : Int := e.session.submitted.length
  let world := e.toWorld.editTask task fun t => { t with submission := index }
  { e with
    toWorld :=
      { world with
        session := { e.session with submitted := e.session.submitted ++ [task] } } }

/-- Runs a task on the VM at a place from a start on. -/
def launch (task : Task α) (vm : Vm α) (place : Nat) (start : α) (e : Execution α) :
    Execution α :=
  let finish := start + task.length / vm.mips
  let world := e.toWorld
    |>.editTask task.id (fun t => { t with start, finish })
    |>.editVm place (fun v => { v with busy := true, load := v.load + v.mips })
    |>.note (.started task.id vm.id start finish)
  { e with
    toWorld := world
    running := e.running.set vm.id ((e.running.get? vm.id).getD 0 + 1)
    vmFree := e.vmFree.set vm.id finish
    jobs := e.jobs ++
      [{ id := e.jobs.length, task := task.id, vm := vm.id, start, finish,
         parents := task.parents, datacenter := vm.datacenter }]
    completions := e.completions ++ [{ finish, task := task.id }] }

/-- The VM that an id names, with its place. -/
def vmAt (vms : List (Vm α)) (id : Int) : Except (Fault α) (Vm α × Nat) :=
  match vms.zipIdx.findRev? fun (v, _) => v.id = id with
  | some found => .ok found
  | none => .error (.missing id)

/-- Starts a bound task. -/
def startTask (costs : Costs α) (now : α) (id : Int) : Step (Fault α) (Execution α) Unit := do
  let task ← Step.query (fun e : Execution α => e.workflow.get id)
  let (vm, place) ← Step.query fun e : Execution α => vmAt e.vms task.vm
  if vm.elements < task.elements then
    throw (.tooSmall id task.elements vm.id vm.elements)
  modify (submit id)
  let start ← Step.query fun e => startTime costs now e task vm.id
  modify (launch task vm place start)

/-- Hands the released tasks to a dispatch rule. -/
def bindPending (rule : Rule) : Step (Fault α) (Execution α) (List Int) := fun e =>
  if e.pending.isEmpty then .ok [] e
  else
    match Batch.dispatch rule { toWorld := e.toWorld, ready := e.pending } with
    | .ok _ b => .ok b.bound { e with toWorld := b.toWorld, pending := b.ready }
    | .error fault b => .error fault { e with toWorld := b.toWorld, pending := b.ready }

/-- Dispatches the released tasks and starts those that were bound. -/
def dispatch (costs : Costs α) (rule : Rule) (now : α) : Step (Fault α) (Execution α) Unit := do
  let bound ← bindPending rule
  Step.each (startTask costs now) bound

/-! ## Completing tasks -/

/-- Takes a finished task off its VM, which turns idle when nothing is left on it. -/
def unload (vm : Vm α) (place : Nat) (e : Execution α) : Execution α :=
  let left := (e.running.get? vm.id).getD 0 - 1
  { e with
    toWorld := e.toWorld.editVm place fun v =>
      if left = 0 then v.release else { v with load := later 0 (v.load - v.mips) }
    running := e.running.set vm.id left }

/-- One parent of a task has finished; with the last one it is released. -/
def countDown (now : α) (e : Execution α) (child : Int) : Execution α :=
  let left := (e.remaining.get? child).getD 0 - 1
  let e := { e with remaining := e.remaining.set child left }
  if left = 0 then e.releaseTask now child else e

/-- Completes a task. -/
def complete (now : α) (id : Int) : Step (Fault α) (Execution α) Unit := do
  let task ← Step.query (fun e : Execution α => e.workflow.get id)
  let (vm, place) ← Step.query fun e : Execution α => vmAt e.vms task.vm
  modify (unload vm place)
  let children ← Step.query fun e : Execution α => e.workflow.getAll task.children
  modify fun e => (children.map Task.id).foldl (countDown now) e

/-! ## The run -/

/-- The first of the earliest completions. -/
def earliest? : List (Completion α) → Option (Completion α)
  | [] => none
  | c :: rest => some (rest.foldl (fun best c => if c.finish < best.finish then c else best) c)

/-- The completion belongs to the instant of the earliest one. -/
def isDue (first c : Completion α) : Bool := c.finish == first.finish || c.task = first.task

/-- Processes all completions of the instant of the earliest one, then dispatches. -/
def tick (costs : Costs α) (rule : Rule) (first : Completion α) :
    Step (Fault α) (Execution α) Unit := do
  let e ← get
  set { e with completions := e.completions.filter fun c => !isDue first c }
  Step.each (complete first.finish) ((e.completions.filter (isDue first)).map Completion.task)
  dispatch costs rule first.finish

/-- Processes completions, one instant at a time. Every task is released at most once and every
instant completes one, so as many instants as tasks are enough. -/
def loop (costs : Costs α) (rule : Rule) : Nat → Step (Fault α) (Execution α) Unit
  | 0 => pure ()
  | fuel + 1 => do
    match earliest? (← get).completions with
    | none => pure ()
    | some first =>
      tick costs rule first
      loop costs rule fuel

/-- Executes every task, or finds that some are never released or never bound. -/
def run (costs : Costs α) (rule : Rule) : Step (Fault α) (Execution α) Unit := do
  let roots := (← get).workflow.roots
  modify fun e => roots.foldl (fun e t => e.releaseTask 0 t.id) e
  dispatch costs rule 0
  loop costs rule (← get).workflow.size
  let e ← get
  if e.jobs.length ≠ e.workflow.size then
    throw (.stalled ((e.workflow.tasks.filter fun t => decide (t.finish < 0)).map Task.id))
  match latest? (e.jobs.map Job.finish) with
  | none => throw .noMaximum
  | some makespan =>
    modify fun e => { e with toWorld := e.toWorld.note (.executed rule e.jobs.length makespan) }

/-- The costs an execution needs. -/
def prepare (w : World α) : Except (Fault α) (Costs α) :=
  if w.vms.isEmpty then .error .emptyRoster else Costs.ofWorkflow w.workflow w.vms

end Execution

end FlowSched

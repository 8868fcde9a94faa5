import FlowSched.Settings
import FlowSched.Execution
import FlowSched.Reconcile

/-!
# Runs

A run checks its settings and the workflow, clears what earlier runs left behind, plans if its
algorithm plans, executes the workflow and reconciles the schedule.
-/

namespace FlowSched

open Quantity

/-- What a run produced: the reconciled jobs, the jobs as executed, the orders recorded and the
plan. -/
structure Outcome (α : Type) [Quantity α] where
  algorithm : Algorithm
  jobs : List (Job α)
  executed : List (Job α)
  session : Session
  plan : Option (Plan α)

namespace Outcome

variable {α : Type} [Quantity α]

/-- The VM of each task. -/
def assignment (o : Outcome α) : Table Int := Table.ofList (o.jobs.map fun j => (j.task, j.vm))

end Outcome

namespace World

variable {α : Type} [Quantity α]

/-- Runs a step that only takes notes. -/
def noting {β : Type} (m : Step (Fault α) (Array (Note α)) β) : Step (Fault α) (World α) β :=
  Step.zoom World.notes (fun notes w => { w with notes }) m

/-- Writes the times of a job on its task. -/
def report (w : World α) (j : Job α) : World α :=
  w.editTask j.task fun t => { t with start := j.start, finish := j.finish }

/-- Reconciles jobs and takes the notes. -/
def reconcile (delay : α) (withStart : Bool) (jobs : List (Job α)) :
    Step (Fault α) (World α) (List (Job α)) := fun w =>
  let r := FlowSched.reconcile delay withStart jobs
  let w := w.noteAll r.notes
  match r.fault with
  | none => .ok r.jobs w
  | some fault => .error fault w

/-- Plans, if the algorithm has a planner. -/
def plan (s : Settings α) : Step (Fault α) (World α) (Option (Plan α)) := do
  let w ← get
  let planner ← Step.ofExcept s.planner?
  modify (note (.running s.algorithm w.workflow.size w.vms.length))
  match planner with
  | none => pure none
  | some planner => some <$> planner.run

/-- Executes and reconciles. -/
def carryOut (s : Settings α) (plan : Option (Plan α)) :
    Step (Fault α) (World α) (Outcome α) := do
  let costs ← Step.query Execution.prepare
  let (_, e) ← Step.within Execution.fresh Execution.toWorld
    (Execution.run costs s.algorithm.rule)
  let jobs ← reconcile s.portDelay s.includeParentStart e.jobs
  modify fun w => jobs.foldl report w
  pure { algorithm := s.algorithm, jobs, executed := e.jobs, session := (← get).session, plan }

/-- Plans, executes and reconciles. The session starts empty. -/
def schedule (s : Settings α) : Step (Fault α) (World α) (Outcome α) := do
  let plan ← plan s
  carryOut s plan

/-- Runs the workflow of a world on its roster. The world keeps its own session. -/
def run (s : Settings α) : Step (Fault α) (World α) (Outcome α) := do
  let session := (← get).session
  noting s.check
  let w ← get
  if w.vms.isEmpty then throw .emptyRoster
  Step.ofExcept w.workflow.check
  modify (reset (s.algorithm = .static))
  Step.zoom (fun w => { w with session := {} }) (fun w' _ => { w' with session }) (schedule s)

end World

end FlowSched

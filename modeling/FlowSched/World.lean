import FlowSched.Workflow.Basic
import FlowSched.Session
import FlowSched.Note

/-!
# The world of a run

Planning, dispatching and execution share one state: the workflow, the roster, the session and the
notes taken so far.
-/

namespace FlowSched

/-- What planners, dispatchers and the execution read and write. -/
structure World (α : Type) [Quantity α] where
  workflow : Workflow α := {}
  vms : List (Vm α) := []
  session : Session := {}
  notes : Array (Note α) := #[]

namespace World

variable {α : Type} [Quantity α]

/-- Takes a note. -/
def note (n : Note α) (w : World α) : World α := { w with notes := w.notes.push n }

/-- Takes several notes. -/
def noteAll (ns : List (Note α)) (w : World α) : World α := ns.foldl (fun w n => w.note n) w

/-- Changes the task of an id. -/
def editTask (id : Int) (f : Task α → Task α) (w : World α) : World α :=
  { w with workflow := w.workflow.modify id f }

/-- Changes the VM at a place of the roster. -/
def editVm (place : Nat) (f : Vm α → Vm α) (w : World α) : World α :=
  { w with vms := w.vms.modify place f }

/-- Clears the workflow and the roster for a new run. -/
def reset (keepBinding : Bool) (w : World α) : World α :=
  { w with workflow := w.workflow.reset keepBinding, vms := w.vms.map Vm.release }

end World

end FlowSched

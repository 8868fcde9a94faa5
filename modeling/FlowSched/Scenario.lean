import FlowSched.Workflow.Layered
import FlowSched.Roster
import FlowSched.Random.Mersenne

/-!
# Scenarios

A random workflow and a roster for it, both drawn from one seed.
-/

namespace FlowSched

open Quantity

/-- The sizes of a scenario. -/
structure ScenarioSpec where
  tasks : Int := 20
  maxWidth : Int := 3
  cloud : Int := 2
  fog : Int := 3
  mobile : Int := 2

variable {α : Type} [Quantity α]

/-- What a seed draws. -/
def drawSeeded {β : Type} (seed : Int) (m : Draw α Mersenne β) : Except (Fault α) β :=
  match m (Mersenne.ofSeed seed) with
  | .ok b _ => .ok b
  | .error fault _ => .error fault

namespace ScenarioSpec

/-- The workflow and the roster of a seed, with what drawing reports. The roster is drawn first. -/
def draw (spec : ScenarioSpec) (seed : Int) :
    Except (Fault α) (Workflow α × List (Vm α) × Note α) := do
  let hosts : HostSpec α := { cloud := spec.cloud, fog := spec.fog, mobile := spec.mobile }
  let layers : LayerSpec α := { tasks := spec.tasks, maxWidth := spec.maxWidth }
  let vms ← drawSeeded seed hosts.draw
  let (w, note) ← drawSeeded seed layers.draw
  .ok (w, vms, note)

end ScenarioSpec

end FlowSched

import FlowSched.Vm

/-!
# Faults

Every way in which building, planning, dispatching, running or drawing a workflow fails. A fault
carries the values its text shows; the text itself is written elsewhere.
-/

namespace FlowSched

/-- Why an operation failed. -/
inductive Fault (α : Type) where
  /-- No VM is given. -/
  | emptyRoster
  | duplicateTask (task : Int)
  | unknownEndpoint (parent child : Int)
  | selfLoop (task : Int)
  /-- A negative transfer time is given for an edge. -/
  | negativeEdge (parent child : Int)
  | negativeLength (task : Int) (length : α)
  | noElements (task elements : Int)
  /-- A task holds a negative transfer time. -/
  | negativeTransfer (task : Int)
  | unknownChild (task child : Int)
  /-- A child does not list the task as its parent. -/
  | childUnaware (task child : Int)
  | unknownParent (task parent : Int)
  /-- A parent does not list the task as its child. -/
  | parentUnaware (parent task : Int)
  | cycle (edges : List (Int × Int))
  | noTasks
  | negativeHosts
  | weakHost (tier : Tier) (index : Nat)
  | weakVm (vm : Int) (mips : α)
  | noBandwidth
  /-- A move by `step` leaves an instant where it is. -/
  | idleShift (step : α) (task : Int) (start : α)
  | negativeDelay (delay : α)
  /-- A move by the port delay leaves an instant where it is. -/
  | idleDelay (delay start : α)
  /-- A job stands before the job of one of its parents. -/
  | earlyJob (job task parent : Int)
  | negativeFloor
  | negativeSettingDelay (delay : α)
  | negativeSettingFloor (floor : α)
  /-- The widest group a planner may permute is too narrow. -/
  | narrowWidth
  | narrowSettingWidth
  | narrowSettingWarning
  | noLatency
  | unknownKeys (keys : List String)
  | unknownAlgorithm (name : String)
  /-- No VM of the roster has enough processing elements. -/
  | noVm (task : Int)
  /-- No VM of the roster is big enough and in the wanted datacenter. -/
  | noVmIn (task datacenter : Int)
  | tooSmall (task elements vm available : Int)
  /-- More siblings than may be permuted. -/
  | wideGroup (tasks : List Int) (limit : Int)
  | stalled (tasks : List Int)
  /-- An id that nothing is stored under. -/
  | missing (id : Int)
  /-- A greatest element of nothing was asked for. -/
  | noMaximum
  /-- A draw from an empty range was asked for. -/
  | emptyRange
  /-- A topological order of a cyclic workflow was asked for. -/
  | notAcyclic
  /-- No arrangement of a group of siblings ends in finite time. -/
  | noArrangement
  /-- A chart cannot be drawn from the values given. -/
  | undrawable
  /-- A required field is absent, or a keyword is not known. -/
  | wrongFields

/-- The families of faults. -/
inductive FaultKind where
  | invalidInput
  | infeasible
  | conflict
  | stalled
  | missing
  | value
  | cyclic
  | type

namespace Fault

variable {α : Type}

/-- The family of a fault. -/
def kind : Fault α → FaultKind
  | noVm _ | noVmIn .. | tooSmall .. => .infeasible
  | wideGroup .. => .conflict
  | stalled _ => .stalled
  | missing _ => .missing
  | noMaximum | emptyRange | undrawable => .value
  | notAcyclic => .cyclic
  | noArrangement | wrongFields => .type
  | _ => .invalidInput

/-- The task that cannot be run. -/
def task? : Fault α → Option Int
  | noVm task | noVmIn task _ | tooSmall task _ _ _ => some task
  | _ => none

end Fault

end FlowSched

import FlowSched.Number.Quantity
import FlowSched.Table

/-!
# Tasks

A task is one node of a workflow. It names its parents and children by id and carries what a
planner estimates for it and what an execution reports of it.
-/

namespace FlowSched

open Quantity

/-- What a task does with a file. -/
inductive FileRole where
  | unused
  | input
  | output
  deriving DecidableEq

/-- A file with its size in bytes. -/
structure DataFile (α : Type) where
  name : String
  size : α
  role : FileRole := .unused

/-- The VM id of a task that no VM is chosen for. -/
def unbound : Int := -1

/-- The offloading target that admits every datacenter. -/
def anywhere : Int := -1

/-- A time that was not reported. -/
def unreported {α : Type} [Quantity α] : α := -((1 : Nat) : α)

/-- One node of a workflow. Length is in million instructions; `transfers` holds known transfer
times by parent. -/
structure Task (α : Type) [Quantity α] where
  id : Int
  length : α
  elements : Int := 1
  parents : List Int := []
  children : List Int := []
  files : List (DataFile α) := []
  transfers : Table α := {}
  vm : Int := unbound
  depth : Int := 0
  offload : Int := anywhere
  latency : α := 0
  plannedStart : α := 0
  plannedFinish : α := 0
  isEstimated : Bool := false
  start : α := unreported
  finish : α := unreported
  submission : Int := -1

namespace Task

variable {α : Type} [Quantity α]

/-- A VM has been chosen for the task. -/
def isBound (t : Task α) : Bool := 0 ≤ t.vm

/-- The files the task reads. -/
def inputs (t : Task α) : List (DataFile α) := t.files.filter (·.role = .input)

/-- The files the task writes. -/
def outputs (t : Task α) : List (DataFile α) := t.files.filter (·.role = .output)

/-- Forgets what planning and execution wrote, and the chosen VM unless it is to be kept. -/
def reset (keepBinding : Bool) (t : Task α) : Task α :=
  { t with
    vm := if keepBinding then t.vm else unbound
    plannedStart := 0
    plannedFinish := 0
    isEstimated := false
    start := unreported
    finish := unreported
    submission := -1 }

end Task

end FlowSched

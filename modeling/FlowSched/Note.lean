import FlowSched.Algorithm

/-!
# Notes

What an operation reports while it works: a level, the part that reports, and values. Notes are
kept in the order in which they arise, also by an operation that fails later.
-/

namespace FlowSched

/-- How much a note matters. -/
inductive Level where
  | debug
  | info
  | warning
  deriving DecidableEq

namespace Level

/-- The place of a level, the least first. -/
def rank : Level → Nat
  | debug => 0
  | info => 1
  | warning => 2

/-- The level as it is written. -/
def label : Level → String
  | debug => "DEBUG"
  | info => "INFO"
  | warning => "WARNING"

/-- The level of a label. -/
def ofLabel? (s : String) : Option Level := [debug, info, warning].find? (·.label = s)

end Level

/-- Something an operation reports. -/
inductive Note (α : Type) where
  | generated (tasks : Int) (layers : Nat)
  | meanBandwidth (value : α)
  | taskCosts (task : Int) (row : List (Int × Option α))
  | transferCost (parent child : Int) (cost : α)
  | reserved (vm : Int) (start finish : α) (task : Int)
  | planning (algorithm : Algorithm) (tasks vms : Nat)
  | allocated (task vm : Int) (finish : α)
  /-- The slots of a VM: task, start and finish. -/
  | timeline (vm : Int) (slots : List (Int × α × α))
  | ranked (task : Int) (rank : α)
  | pathsFound (count : Nat)
  | criticalPath (path : List Int)
  | estimated (task : Int) (start finish : α)
  | wideGroup (tasks : List Int)
  | arranged (count : Nat) (tasks : List Int)
  | bound (rule : Rule) (task vm : Int)
  /-- A task without a valid VM is given the fallback VM. -/
  | rebound (task vm fallback : Int)
  | shifted (job task : Int) (fromStart fromFinish toStart toFinish : α)
  | reconciled (jobs : Nat) (delay : α) (shifted : Nat)
  | lateWarning
  | running (algorithm : Algorithm) (tasks vms : Nat)
  | started (task vm : Int) (start finish : α)
  | executed (rule : Rule) (jobs : Nat) (makespan : α)
  | saved (file : String)

namespace Note

variable {α : Type}

/-- The level of a note. -/
def level : Note α → Level
  | wideGroup _ | rebound .. | lateWarning => .warning
  | taskCosts .. | transferCost .. | reserved .. | allocated .. | arranged .. | bound ..
  | shifted .. | started .. => .debug
  | _ => .info

/-- The part of the system that reports. -/
def channel : Note α → String
  | generated .. => "data"
  | meanBandwidth _ | taskCosts .. | transferCost .. => "costs"
  | reserved .. => "timeline"
  | planning .. | allocated .. | timeline .. | ranked .. | pathsFound _ | criticalPath _
  | estimated .. | wideGroup _ | arranged .. => "planning"
  | bound .. | rebound .. => "scheduling"
  | shifted .. | reconciled .. => "reconciler"
  | lateWarning => "config"
  | running .. | started .. | executed .. => "engine"
  | saved _ => "utils"

end Note

end FlowSched

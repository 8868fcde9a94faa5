import FlowSched.Fault
import FlowSched.Text.Blank

/-!
# Algorithms

The closed set of algorithms a run is governed by. Two of them plan the whole workflow ahead and
hand over to static dispatch; the others pick tasks and VMs batch by batch.
-/

namespace FlowSched

/-- An algorithm that governs a run. -/
inductive Algorithm where
  | heft
  | ocs
  | minMin
  | maxMin
  | fcfs
  | roundRobin
  | static
  deriving DecidableEq

namespace Algorithm

/-- The algorithms in the order in which they are offered. -/
def all : List Algorithm := [heft, ocs, minMin, maxMin, fcfs, roundRobin, static]

/-- The key of an algorithm, in small letters. -/
def key : Algorithm → String
  | heft => "heft"
  | ocs => "ocs"
  | minMin => "minmin"
  | maxMin => "maxmin"
  | fcfs => "fcfs"
  | roundRobin => "roundrobin"
  | static => "static"

/-- The label of an algorithm, in capitals. -/
def label (a : Algorithm) : String := a.key.map Char.toUpper

/-- The algorithm plans the whole workflow ahead. -/
def isPlanner (a : Algorithm) : Bool := a = heft || a = ocs

/-- What is compared of a name: blanks at the ends, hyphens and underscores are dropped, and case
is not looked at. No key has a letter that is the small form of a letter beyond ASCII, so ASCII
case is enough. -/
def normalize (name : String) : List Char :=
  ((Text.trim name.toList).map Char.toLower).filter fun c => c ≠ '_' && c ≠ '-'

/-- The algorithm a name stands for. -/
def ofName {α : Type} (name : String) : Except (Fault α) Algorithm :=
  match all.find? fun a => a.key.toList = normalize name with
  | some a => .ok a
  | none => .error (.unknownAlgorithm name)

end Algorithm

/-- A way to bind the tasks of a ready batch to VMs. -/
inductive Rule where
  | minMin
  | maxMin
  | fcfs
  | roundRobin
  | static
  deriving DecidableEq

namespace Rule

/-- The key of a rule, in small letters. -/
def key : Rule → String
  | minMin => "minmin"
  | maxMin => "maxmin"
  | fcfs => "fcfs"
  | roundRobin => "roundrobin"
  | static => "static"

/-- The rules in the order in which they are offered. -/
def all : List Rule := [minMin, maxMin, fcfs, roundRobin, static]

end Rule

/-- The rule that dispatches the tasks of an algorithm. Plans are dispatched statically. -/
def Algorithm.rule : Algorithm → Rule
  | .minMin => .minMin
  | .maxMin => .maxMin
  | .fcfs => .fcfs
  | .roundRobin => .roundRobin
  | .heft | .ocs | .static => .static

end FlowSched

import FlowSched.Fault
import FlowSched.Algorithm
import FlowSched.Text.Number

/-!
# The wording of faults
-/

namespace FlowSched

/-- The number of arrangements of a group. -/
def factorial : Nat → Nat
  | 0 => 1
  | n + 1 => (n + 1) * factorial n

namespace Fault

open Text

/-- The text of a fault in a workflow. -/
def workflowText : Fault Float → Option String
  | duplicateTask task => s!"Duplicate task id {task}"
  | unknownEndpoint parent child => s!"Edge {parent}->{child} references an unknown task"
  | selfLoop task => s!"Self loop on task {task}"
  | negativeEdge parent child => s!"Negative transfer cost on edge {parent}->{child}"
  | negativeLength task length => s!"Task {task} has negative length {shortest length}"
  | noElements task elements => s!"Task {task} requires {elements} processing elements"
  | negativeTransfer task => s!"Task {task} carries a negative transfer cost"
  | unknownChild task child => s!"Task {task} has unknown child {child}"
  | childUnaware task child => s!"Edge {task}->{child} is not mirrored on the child"
  | unknownParent task parent => s!"Task {task} has unknown parent {parent}"
  | parentUnaware parent task => s!"Edge {parent}->{task} is not mirrored on the parent"
  | cycle edges => s!"Workflow contains a cycle: {pairs edges}"
  | noTasks => "A workflow needs at least one task"
  | _ => none

/-- The text of a fault in a roster or in settings. -/
def inputText : Fault Float → Option String
  | emptyRoster => "VM roster is empty"
  | negativeHosts => "Number of hosts cannot be less than zero"
  | weakHost tier index =>
    let key := tier.key
    s!"{key} host {index} must have positive MIPS"
  | weakVm vm mips => s!"VM {vm} has non-positive MIPS {shortest mips}"
  | noBandwidth => "Mean bandwidth must be positive to price file transfers"
  | negativeFloor => "start_floor cannot be negative"
  | negativeSettingDelay delay => s!"port_delay cannot be negative ({shortest delay})"
  | negativeSettingFloor floor => s!"start_floor cannot be negative ({shortest floor})"
  | narrowWidth => "max_permutation_width must be at least 2"
  | narrowSettingWidth => "ocs_max_permutation_width must be at least 2"
  | narrowSettingWarning => "ocs_permutation_warning_width must be at least 2"
  | noLatency => "fallback_latency must be positive"
  | unknownKeys keys => s!"Unknown configuration keys: {commas keys}"
  | unknownAlgorithm name =>
    let known := commas (Algorithm.all.map Algorithm.label)
    s!"Unknown algorithm '{name}'. Choose one of: {known}"
  | _ => none

/-- The text of a fault in planning, execution or reconciling. -/
def runText : Fault Float → Option String
  | idleShift step task start =>
    s!"Shift {shortest step} of task {task} is below the float resolution at t={shortest start}"
  | negativeDelay delay => s!"Port delay cannot be negative ({shortest delay})"
  | idleDelay delay start =>
    s!"Port delay {shortest delay} is below the float resolution at t={shortest start}"
  | earlyJob job task parent =>
    s!"Job {job} (task {task}) was submitted before its parent task {parent}"
  | noVm task => s!"Task {task} cannot run on any VM in the roster"
  | noVmIn task datacenter =>
    s!"Task {task} has no feasible VM (offloading target {datacenter})"
  | tooSmall task elements vm available =>
    s!"Task {task} needs {elements} PEs; VM {vm} has {available}"
  | wideGroup tasks limit =>
    let width := tasks.length
    s!"{width} ready sibling tasks {ids tasks} need {factorial width} permutations; the limit is a width of {limit}"
  | stalled tasks => s!"Execution stalled; tasks never ran: {ids tasks}"
  | missing id => toString id
  | _ => none

/-- The text of a fault; faults of plain value and type have none. -/
def message? (f : Fault Float) : Option String :=
  (workflowText f).or ((inputText f).or (runText f))

end Fault

end FlowSched

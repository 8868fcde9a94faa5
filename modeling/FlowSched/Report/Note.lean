import FlowSched.Note
import FlowSched.Report.Fault

/-!
# The wording of notes
-/

namespace FlowSched

namespace Note

open Text

/-- One VM's computing time in the report of a task. -/
def costText (vm : Int) (cost : Option Float) : String := s!"VM {vm}={fixed? 3 cost}"

/-- One slot in the report of a timeline. -/
def slotText (task : Int) (start finish : Float) : String :=
  let duration := finish - start
  s!"T{task}[{fixed 2 start}-{fixed 2 finish}, {fixed 2 duration}s]"

/-- The text of a note. -/
def text : Note Float → String
  | generated tasks layers => s!"Generated workflow with {tasks} tasks in {layers} layers"
  | meanBandwidth value => s!"Average bandwidth: {fixed 2 value}"
  | taskCosts task row =>
    let costs := commas (row.map fun (vm, cost) => costText vm cost)
    s!"Task {task} computation costs: {costs}"
  | transferCost parent child cost => s!"Transfer {parent}->{child}: {fixed 3 cost} s"
  | reserved vm start finish task =>
    s!"VM {vm}: reserved [{fixed 3 start}, {fixed 3 finish}) for task {task}"
  | planning algorithm tasks vms =>
    let label := algorithm.label
    s!"{label} planner running with {tasks} tasks on {vms} VMs."
  | allocated task vm finish => s!"Task {task} -> VM {vm}, finish {fixed 3 finish}"
  | timeline vm slots =>
    let parts := slots.map fun (task, start, finish) => slotText task start finish
    let body := if parts.isEmpty then "idle" else commas parts
    s!"VM {vm}: {body}"
  | ranked task rank => s!"Task {task} => rank = {fixed 3 rank}"
  | pathsFound count => s!"Found {count} root-to-leaf paths"
  | criticalPath path => s!"Critical path: {ids path}"
  | estimated task start finish =>
    s!"Task {task}: estimated start {fixed 3 start}, finish {fixed 3 finish}"
  | wideGroup tasks =>
    let count := factorial tasks.length
    s!"Enumerating {count} orderings of sibling tasks {ids tasks}"
  | arranged count tasks => s!"Tried {count} arrangements, shortest: {ids tasks}"
  | bound rule task vm =>
    let key := rule.key
    s!"{key}: task {task} -> VM {vm}"
  | rebound task vm fallback =>
    s!"Task {task} has no valid VM binding ({vm}); binding it to VM {fallback}"
  | shifted job task fromStart fromFinish toStart toFinish =>
    s!"Job {job} (task {task}) shifted [{fixed 3 fromStart}, {fixed 3 fromFinish}] -> [{fixed 3 toStart}, {fixed 3 toFinish}]"
  | reconciled jobs delay count =>
    s!"Reconciled {jobs} jobs with port delay {shortest delay}; {count} shifted"
  | lateWarning => "ocs_permutation_warning_width exceeds ocs_max_permutation_width; " ++
      "wide sibling sets will fail without a prior warning"
  | running algorithm tasks vms =>
    let label := algorithm.label
    s!"Running {label} on {tasks} tasks and {vms} VMs"
  | started task vm start finish =>
    s!"Task {task} runs on VM {vm} from {fixed 3 start} to {fixed 3 finish}"
  | executed rule jobs makespan =>
    let key := rule.key
    s!"{key}: executed {jobs} tasks, makespan {fixed 3 makespan}"
  | saved file => s!"Saved visualization as {file}"

/-- A note as a line: level, part and text. -/
def line (n : Note Float) : String := n.level.label ++ ":" ++ n.channel ++ ":" ++ n.text

/-- The lines of the notes of a level or above. -/
def lines (level : Level) (notes : List (Note Float)) : List String :=
  (notes.filter fun n => level.rank ≤ n.level.rank).map line

end Note

end FlowSched

import FlowSched.Job
import FlowSched.Vm
import FlowSched.Text.Number

/-!
# The table of a schedule

One line for every job, and the total cost below.
-/

namespace FlowSched

open Text

/-- The price of a job: the instructions it executed times the price of its VM. -/
def jobCost {α : Type} [Quantity α] (j : Job α) (v : Vm α) : α := j.duration * v.mips * v.price

namespace Report

/-- The columns of a line. -/
def columns (job task vm tier start finish duration cost parents : String) : String :=
  "  ".intercalate
    [padRight 5 job, padRight 5 task, padRight 4 vm, padRight 8 tier, padLeft 9 start,
      padLeft 9 finish, padLeft 9 duration, padLeft 9 cost, parents]

/-- The head of the table. -/
def header : String :=
  columns "Job" "Task" "VM" "Tier" "Start" "Finish" "Duration" "Cost" "Parents"

/-- The price of a job on the VM that its id names, nothing if there is none. -/
def costIn (vms : List (Vm Float)) (j : Job Float) : Float :=
  match Vm.named? vms j.vm with
  | some v => jobCost j v
  | none => 0

/-- The line of a job. -/
def jobLine (vms : List (Vm Float)) (j : Job Float) : String :=
  let tier := ((Vm.named? vms j.vm).map (·.tier.label)).getD "UNKNOWN"
  let parents := if j.parents.isEmpty then "-" else commas (j.parents.map toString)
  columns (toString j.id) (toString j.task) (toString j.vm) tier (fixed 3 j.start)
    (fixed 3 j.finish) (fixed 3 j.duration) (fixed 3 (costIn vms j)) parents

/-- The table of a schedule. -/
def schedule (jobs : List (Job Float)) (vms : List (Vm Float)) : List String :=
  let total := jobs.foldl (fun sum j => sum + costIn vms j) 0
  [header, String.ofList (List.replicate header.length '-')] ++ jobs.map (jobLine vms) ++
    ["Total cost: " ++ fixed 3 total]

end Report

end FlowSched

import FlowSched.Run
import FlowSched.Scenario
import FlowSched.Report.Schedule
import FlowSched.Report.Violation
import FlowSched.Report.Note

/-!
# The demonstration

Every algorithm on the sample workflow with one VM per tier, then a random scenario planned along
its critical path. The lines and the notes are both results.
-/

namespace FlowSched

namespace Demo

open Text

/-- The demonstration as a step that fails with a fault. -/
abbrev Show := Step (Fault Float) (World Float)

/-- The heading of a schedule. -/
def heading (title : String) (o : Outcome Float) : List String :=
  ["", "===== " ++ title ++ " (makespan " ++ fixed 3 (makespan o.jobs) ++ ") ====="]

/-- The verdict on a schedule, with its violations. -/
def verdict (jobs : List (Job Float)) : List String :=
  match Audit.schedule Audit.tolerance false jobs with
  | [] => ["Schedule is valid."]
  | violations =>
    "Schedule violations:" :: violations.map fun v => "  - " ++ v.title ++ ": " ++ v.detail

/-- One algorithm on the sample workflow. -/
def sample (algorithm : Algorithm) : Show (List String) := do
  let workflow ← Step.ofExcept (Workflow.sample true)
  modify fun w => { w with workflow }
  let o ← World.run { algorithm, portDelay := 0.5 }
  pure (heading algorithm.label o ++ Report.schedule o.jobs (← get).vms ++ verdict o.jobs)

/-- The speed of the demonstration's only host in a tier. -/
def speed : Tier → List Float
  | .cloud => [3]
  | .fog => [2]
  | .mobile => [1]

/-- The random scenario. -/
def scenario : Show (List String) := do
  let (workflow, vms, note) ← Step.ofExcept (ScenarioSpec.draw {} 7)
  modify fun w => { w with workflow, vms }
  modify (World.note note)
  let o ← World.run { algorithm := .ocs, portDelay := 0.1, seed := some 7 }
  pure (heading "OCS on random workflow" o ++ Report.schedule o.jobs (← get).vms)

/-- The whole demonstration: its lines, each ended by a line break. -/
def lines : Show (List String) := do
  let vms ← Step.ofExcept (drawSeeded 0 (HostSpec.draw { mips := speed }))
  modify fun w => { w with vms }
  let parts ← Algorithm.all.mapM sample
  let last ← scenario
  pure (parts.flatten ++ last)

end Demo

end FlowSched

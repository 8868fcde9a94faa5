import FlowSched.Audit
import FlowSched.Text.Number

/-!
# The wording of violations
-/

namespace FlowSched

namespace Violation

open Text

/-- The name of the kind of violation. -/
def title {α : Type} : Violation α → String
  | vmOverlap .. => "VM Overlap"
  | unscheduled .. => "Unscheduled Predecessor"
  | dependency .. => "Dependency Violation"
  | duplicateInstant .. => "Duplicate Event Time"
  | unordered .. => "Unordered Timeline"
  | timelineOverlap .. => "Timeline Overlap"

/-- The task that violates the rule. -/
def task {α : Type} : Violation α → Int
  | vmOverlap _ task _ _ _ | unscheduled task _ | dependency task _ _ _ | duplicateInstant task _
  | unordered _ task _ => task
  | timelineOverlap _ current _ => current.task

/-- The task that it violates the rule against. -/
def predecessor? {α : Type} : Violation α → Option Int
  | vmOverlap _ _ p _ _ | unscheduled _ p | dependency _ p _ _ | unordered _ _ p => some p
  | timelineOverlap _ _ previous => some previous.task
  | duplicateInstant .. => none

/-- The text of a violation. -/
def detail : Violation Float → String
  | vmOverlap vm task p start finish =>
    s!"Task {task} starts on VM {vm} at {fixed 3 start} before task {p} finishes at {fixed 3 finish}"
  | unscheduled task p => s!"Task {task} depends on unscheduled task {p}"
  | dependency task p start finish =>
    s!"Task {task} starts at {fixed 3 start} but predecessor {p} finishes at {fixed 3 finish}"
  | duplicateInstant task start =>
    s!"Task {task} starts at {fixed 3 start}, an instant already used by an earlier job"
  | unordered vm task p =>
    s!"VM {vm}: slot of task {task} is listed after task {p} but starts earlier"
  | timelineOverlap vm c p =>
    let task := c.task
    let other := p.task
    let here := span c
    let there := span p
    s!"VM {vm}: task {task} {here} overlaps task {other} {there}"
where
  /-- A slot as a half-open interval. -/
  span (s : Slot Float) : String := "[" ++ fixed 3 s.start ++ ", " ++ fixed 3 s.finish ++ ")"

end Violation

end FlowSched

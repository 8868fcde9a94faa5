import FlowSched.Number.Quantity

/-!
# Jobs

A job records the execution of one task: where it ran, from when to when, and which tasks it
depended on.
-/

namespace FlowSched

open Quantity

/-- The execution of one task. -/
structure Job (α : Type) [Quantity α] where
  id : Int
  task : Int
  vm : Int
  start : α
  finish : α
  parents : List Int := []
  datacenter : Int := 0

namespace Job

variable {α : Type} [Quantity α]

/-- The time the job took. -/
def duration (j : Job α) : α := j.finish - j.start

end Job

/-- The end of the last job, `0` without jobs. -/
def makespan {α : Type} [Quantity α] (jobs : List (Job α)) : α := latest (jobs.map Job.finish)

/-- The job of a task: the last one in the list. -/
def jobOf? {α : Type} [Quantity α] (jobs : List (Job α)) (task : Int) : Option (Job α) :=
  jobs.findRev? (·.task = task)

end FlowSched

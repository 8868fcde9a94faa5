import FlowSched.Job
import FlowSched.Timeline
import FlowSched.Table

/-!
# Auditing schedules

Checks of finished schedules and of planned timelines. Every violation is listed with the values
its text shows.
-/

namespace FlowSched

open Quantity

/-- What is wrong with a schedule or a timeline. -/
inductive Violation (α : Type) where
  | vmOverlap (vm task predecessor : Int) (start finish : α)
  | unscheduled (task predecessor : Int)
  | dependency (task predecessor : Int) (start finish : α)
  | duplicateInstant (task : Int) (start : α)
  | unordered (vm task predecessor : Int)
  | timelineOverlap (vm : Int) (current previous : Slot α)

namespace Audit

variable {α : Type} [Quantity α]

/-- Neighbours in a list. -/
def neighbours {β : Type} (xs : List β) : List (β × β) := xs.zip xs.tail

/-! ## Schedules -/

/-- Jobs in order of start, then of finish. -/
def byTime (jobs : List (Job α)) : List (Job α) :=
  jobs.mergeSort fun a b =>
    if a.start == b.start then !decide (b.finish < a.finish) else !decide (b.start < a.start)

/-- The VMs of a list of jobs as they are met. -/
def vmsOf (jobs : List (Job α)) : List Int := (jobs.map Job.vm).eraseDups

/-- Neighbours on a VM that overlap by more than `epsilon`. -/
def vmOverlaps (epsilon : α) (jobs : List (Job α)) : List (Violation α) :=
  (vmsOf jobs).flatMap fun vm =>
    (neighbours (byTime (jobs.filter (·.vm = vm)))).filterMap fun (previous, current) =>
      if epsilon < previous.finish - current.start then
        some (.vmOverlap vm current.task previous.task current.start previous.finish)
      else none

/-- A job starts too early for one of its parents. -/
def startsEarly (epsilon : α) (strict : Bool) (parent job : Job α) : Bool :=
  if strict then decide (job.start ≤ parent.finish)
  else decide (epsilon < parent.finish - job.start)

/-- What is wrong with a job and one of its parents: the parent has no job, or its job ends too
late. -/
def dependency? (epsilon : α) (strict : Bool) (jobs : List (Job α)) (job : Job α) (parent : Int) :
    Option (Violation α) :=
  match jobOf? jobs parent with
  | none => some (.unscheduled job.task parent)
  | some p =>
    if startsEarly epsilon strict p job then
      some (.dependency job.task parent job.start p.finish)
    else none

/-- Parents that have no job, or whose job ends too late. -/
def dependencies (epsilon : α) (strict : Bool) (jobs : List (Job α)) : List (Violation α) :=
  jobs.flatMap fun job => job.parents.filterMap (dependency? epsilon strict jobs job)

/-- Jobs that start at an instant at which an earlier job starts or ends. -/
def duplicates : List α → List (Job α) → List (Violation α)
  | _, [] => []
  | seen, job :: rest =>
    let found := if seen.any (job.start == ·) then [.duplicateInstant job.task job.start] else []
    found ++ duplicates (job.start :: job.finish :: seen) rest

/-- The violations of a schedule: overlaps, dependencies, and in a strict audit shared
instants. -/
def schedule (epsilon : α) (strict : Bool) (jobs : List (Job α)) : List (Violation α) :=
  vmOverlaps epsilon jobs ++ dependencies epsilon strict jobs ++
    (if strict then duplicates [] jobs else [])

/-! ## Timelines -/

/-- Neighbours of a timeline that are out of order or overlap by more than `epsilon`. -/
def timeline (epsilon : α) (vm : Int) (slots : List (Slot α)) : List (Violation α) :=
  (neighbours slots).filterMap fun (previous, current) =>
    if current.start < previous.start then some (.unordered vm current.task previous.task)
    else if epsilon < previous.finish - current.start then
      some (.timelineOverlap vm current previous)
    else none

/-- The violations of all timelines. -/
def timelines (epsilon : α) (ts : Table (Timeline α)) : List (Violation α) :=
  ts.entries.flatMap fun (vm, t) => timeline epsilon vm t.slots

/-- The tolerance where none is given: a billionth of a second. -/
def tolerance : α := ((1 : Nat) : α) / ((1000000000 : Nat) : α)

end Audit

end FlowSched

import FlowSched.Job
import FlowSched.Note
import FlowSched.Span

/-!
# Reconciling a schedule

Jobs are pushed forward by a port delay, in order of submission, until each starts behind
everything earlier on its VM, behind its parents, and at an instant no earlier job starts or ends
at.
-/

namespace FlowSched

open Quantity

namespace Reconcile

variable {α : Type} [Quantity α]

/-- The span of a job. -/
def span (j : Job α) : Span α := ⟨j.start, j.finish⟩

/-- The job moved to a span. -/
def moved (j : Job α) (s : Span α) : Job α := { j with start := s.start, finish := s.finish }

/-- The latest end among settled jobs on a VM. -/
def lastFinish? (settled : List (Job α)) (vm : Int) : Option α :=
  latest? ((settled.filter (·.vm = vm)).map Job.finish)

/-- The starts and ends of settled jobs. -/
def instants (settled : List (Job α)) : List α := settled.flatMap fun j => [j.start, j.finish]

/-- Moves a span until it starts behind everything settled on a VM. -/
def pastVm (delay : α) (settled : List (Job α)) (vm : Int) (s : Span α) : Except α (Span α) :=
  match lastFinish? settled vm with
  | none => .ok s
  | some finish => s.advancePast finish delay

/-- The span starts no later than a parent ends, or starts if that counts too. -/
def waitsFor (withStart : Bool) (parent : Job α) (s : Span α) : Bool :=
  (withStart && decide (s.start ≤ parent.start)) || decide (s.start ≤ parent.finish)

/-- Moves a span until it starts behind a parent. -/
def pastParent (delay : α) (withStart : Bool) (parent : Job α) (s : Span α) :
    Except α (Span α) :=
  Span.advance (waitsFor withStart parent) delay
    (moves s.start (later parent.start parent.finish) delay) s

/-- Moves a span until it starts at a free instant. -/
def pastInstants (delay : α) (settled : List (Job α)) (s : Span α) : Except α (Span α) :=
  let taken := instants settled
  Span.advance (fun s => Span.taken taken s.start) delay (moves s.start (latest taken) delay) s

/-- A stuck span as a fault. -/
def orIdle (delay : α) (r : Except α (Span α)) : Except (Fault α) (Span α) :=
  match r with
  | .ok s => .ok s
  | .error start => .error (.idleDelay delay start)

/-- Moves a span behind the parents of a job. A parent that is submitted but not settled stands
too late; one that is not submitted does not count. -/
def pastParents (delay : α) (withStart : Bool) (submitted : List Int) (settled : List (Job α))
    (j : Job α) : List Int → Span α → Except (Fault α) (Span α)
  | [], s => .ok s
  | parent :: rest, s =>
    match jobOf? settled parent with
    | none =>
      if submitted.contains parent then .error (.earlyJob j.id j.task parent)
      else pastParents delay withStart submitted settled j rest s
    | some p => do
      let s ← orIdle delay (pastParent delay withStart p s)
      pastParents delay withStart submitted settled j rest s

/-- Settles the next job behind those already settled. -/
def settle (delay : α) (withStart : Bool) (submitted : List Int) (settled : List (Job α))
    (j : Job α) : Except (Fault α) (Job α) := do
  let s ← orIdle delay (pastVm delay settled j.vm (span j))
  let s ← pastParents delay withStart submitted settled j j.parents s
  let s ← orIdle delay (pastInstants delay settled s)
  .ok (moved j s)

/-- What is reported of a job that was moved. -/
def shiftNote? (before after : Job α) : Option (Note α) :=
  if after.start == before.start then none
  else some (.shifted before.id before.task before.start before.finish after.start after.finish)

/-- Settles jobs one after the other, up to the first failure. Returns all jobs, the notes, and
the failure. -/
def settleAll (delay : α) (withStart : Bool) (submitted : List Int) :
    List (Job α) → List (Note α) → List (Job α) →
      List (Job α) × List (Note α) × Option (Fault α)
  | settled, notes, [] => (settled, notes, none)
  | settled, notes, j :: rest =>
    match settle delay withStart submitted settled j with
    | .error fault => (settled ++ j :: rest, notes, some fault)
    | .ok j' =>
      settleAll delay withStart submitted (settled ++ [j'])
        (notes ++ (shiftNote? j j').toList) rest

end Reconcile

/-- The jobs after reconciling, as far as it came. -/
structure Reconciled (α : Type) [Quantity α] where
  jobs : List (Job α)
  notes : List (Note α) := []
  fault : Option (Fault α) := none

/-- Reconciles jobs under a port delay. A delay of zero changes nothing. -/
def reconcile {α : Type} [Quantity α] (delay : α) (withStart : Bool) (jobs : List (Job α)) :
    Reconciled α :=
  if delay < 0 then { jobs, fault := some (.negativeDelay delay) }
  else if delay == 0 then { jobs }
  else
    let (settled, notes, fault) :=
      Reconcile.settleAll delay withStart (jobs.map Job.task) [] [] jobs
    match fault with
    | some fault => { jobs := settled, notes, fault := some fault }
    | none =>
      { jobs := settled
        notes := notes ++ [.reconciled jobs.length delay notes.length] }

end FlowSched

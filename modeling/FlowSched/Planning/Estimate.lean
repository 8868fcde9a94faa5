import FlowSched.Planning.Path
import FlowSched.Span

/-!
# Estimates

Every task is given an estimated start and finish before it is allocated. The critical path is
estimated first and pulls in the ancestors it needs; a group of ready siblings is tried in every
arrangement, and the one whose last task ends first is committed. No two committed tasks share an
instant: a task that would is moved forward by its sending latency.
-/

namespace FlowSched

open Quantity

/-- What estimation reads and never changes. -/
structure Outlook (α : Type) where
  costs : Costs α
  floor : α
  maxWidth : Int
  warnWidth : Int
  fallback : α
  critical : List Int

/-- Estimates in the making: a world and the instants committed so far. -/
structure Sketch (α : Type) [Quantity α] extends World α where
  instants : List α := []

namespace Sketch

variable {α : Type} [Quantity α]

/-- The task of an id in a sketch. -/
def task (s : Sketch α) (id : Int) : Except (Fault α) (Task α) := s.workflow.get id

/-- The parents of a task, each once for every time it is listed. -/
def parents (s : Sketch α) (id : Int) : Except (Fault α) (List (Task α)) := do
  let t ← s.task id
  s.workflow.getAll t.parents

/-- Takes a note. -/
def note (n : Note α) (s : Sketch α) : Sketch α := { s with toWorld := s.toWorld.note n }

/-- Some end of the span is a committed instant. -/
def collides (s : Sketch α) (span : Span α) : Bool :=
  Span.taken s.instants span.start || Span.taken s.instants span.finish

/-- The step by which a task evades a collision. -/
def evasion (o : Outlook α) (t : Task α) : α := if 0 < t.latency then t.latency else o.fallback

/-- The span a task would take now: behind its parents, for its average time, moved forward until
it shares no committed instant. -/
def trial (o : Outlook α) (s : Sketch α) (id : Int) : Except (Fault α) (Span α) := do
  let t ← s.task id
  let parents ← s.parents id
  let start := (latest? (parents.map Task.plannedFinish)).getD o.floor
  let average ← o.costs.average id
  let step := evasion o t
  let fuel := moves start (latest s.instants) step
  match Span.advance s.collides step fuel ⟨start, start + average⟩ with
  | .ok span => .ok span
  | .error stuck => .error (.idleShift step id stuck)

/-- Writes an estimate on a task. -/
def write (s : Sketch α) (id : Int) (span : Span α) : Sketch α :=
  { s with toWorld := s.toWorld.editTask id fun t =>
      { t with plannedStart := span.start, plannedFinish := span.finish } }

/-- Writes an estimate for good: its ends are taken, and the task counts as estimated. -/
def confirm (s : Sketch α) (id : Int) (span : Span α) : Sketch α :=
  let s := s.write id span
  { s with
    toWorld := s.toWorld.editTask id fun t => { t with isEstimated := true }
    instants := s.instants ++ [span.start, span.finish] }

/-- Estimates a task without taking its instants. -/
def rehearse (o : Outlook α) (id : Int) : Step (Fault α) (Sketch α) Unit :=
  Step.atomic fun s => do
    let span ← s.trial o id
    .ok (s.write id span)

/-- Estimates a task for good. -/
def commit (o : Outlook α) (id : Int) : Step (Fault α) (Sketch α) Unit :=
  Step.atomic fun s => do
    let span ← s.trial o id
    .ok (s.confirm id span)

/-! ## Arrangements -/

/-- Every element of a list with the others, in order. -/
def picks {β : Type} : List β → List (β × List β)
  | [] => []
  | x :: rest => (x, rest) :: (picks rest).map fun (y, others) => (y, x :: others)

/-- All arrangements of a list, in lexicographic order of positions. -/
def arrangements {β : Type} : Nat → List β → List (List β)
  | 0, _ => [[]]
  | n + 1, xs => (picks xs).flatMap fun (x, others) => (arrangements n others).map (x :: ·)

/-- Rehearses an arrangement and returns when its last task ends. -/
def score (o : Outlook α) (arrangement : List Int) : Step (Fault α) (Sketch α) (Option α) := do
  Step.each (rehearse o) arrangement
  let s ← get
  pure ((arrangement.getLast?.bind s.workflow.find?).map Task.plannedFinish)

/-- The better of the best arrangement so far and a new one, which has to end strictly earlier,
and in finite time. -/
def sooner (best : Option (List Int × α)) (arrangement : List Int) (finish : α) :
    Option (List Int × α) :=
  match best with
  | none => if belowTop finish then some (arrangement, finish) else none
  | some (_, earliest) => if finish < earliest then some (arrangement, finish) else best

/-- The first arrangement whose last task ends earliest. -/
def search (o : Outlook α) (best : Option (List Int × α)) :
    List (List Int) → Step (Fault α) (Sketch α) (Option (List Int × α))
  | [] => pure best
  | arrangement :: rest => do
    match ← score o arrangement with
    | none => search o best rest
    | some finish => search o (sooner best arrangement finish) rest

/-- Tries every arrangement of a group of ready siblings and commits the best one. -/
def arrange (o : Outlook α) (group : List Int) : Step (Fault α) (Sketch α) Unit := do
  let width := group.length
  if o.maxWidth < width then throw (.wideGroup group o.maxWidth)
  if o.warnWidth ≤ width then modify (note (.wideGroup group))
  let all := arrangements width group
  match ← search o none all with
  | none => throw .noArrangement
  | some (arrangement, _) =>
    Step.each (commit o) arrangement
    modify (note (.arranged all.length arrangement))

/-! ## Ancestors -/

/-- A group of at least two tasks whose parents are all estimated. -/
def isReadyGroup (s : Sketch α) (group : List Int) : Except (Fault α) Bool := do
  if group.length ≤ 1 then .ok false
  else
    let parents ← group.mapM s.parents
    .ok (parents.flatten.all Task.isEstimated)

/-- The ids of the tasks that are not estimated yet. -/
def pendingOf (tasks : List (Task α)) : List Int :=
  (tasks.filter fun t => !t.isEstimated).map Task.id

/-- The siblings of a task with a single child: the parents of that child that are neither
estimated nor critical. -/
def siblings (o : Outlook α) (s : Sketch α) (t : Task α) : Except (Fault α) (List Int) :=
  match t.children with
  | [child] => do
    let parents ← s.parents child
    .ok ((pendingOf parents).filter fun id => !o.critical.contains id)
  | _ => .ok []

/-- The task is estimated. -/
def isEstimated (s : Sketch α) (id : Int) : Except (Fault α) Bool := do
  let t ← s.task id
  .ok t.isEstimated

/-- The tasks of a group that are not estimated. -/
def stillPending (s : Sketch α) (group : List Int) : Except (Fault α) (List Int) := do
  let tasks ← s.workflow.getAll group
  .ok (pendingOf tasks)

/-- Estimates a task after all its ancestors. Pending parents that are ready as a group are
arranged together; otherwise each is estimated in turn, and then the task's own ready siblings
are arranged. A chain of ancestors is no longer than the workflow, which bounds the depth. -/
def settle (o : Outlook α) : Nat → Int → Step (Fault α) (Sketch α) Unit
  | 0, _ => pure ()
  | fuel + 1, id => do
    let t ← Step.query (task · id)
    if !t.isEstimated then
      let parents ← Step.query (parents · id)
      let pending := pendingOf parents
      let siblings ← Step.query (siblings o · t)
      if ← Step.query (isReadyGroup · pending) then arrange o pending
      else
        Step.each (settle o fuel) pending
        let siblings ← Step.query (stillPending · siblings)
        if ← Step.query (isReadyGroup · siblings) then arrange o siblings
      if !(← Step.query (isEstimated · id)) then commit o id

/-- Estimates a task of the critical path: at once if its parents are estimated. -/
def settleCritical (o : Outlook α) (fuel : Nat) (id : Int) : Step (Fault α) (Sketch α) Unit := do
  let t ← Step.query (task · id)
  let parents ← Step.query (parents · id)
  if !t.isEstimated && parents.all Task.isEstimated then commit o id
  settle o fuel id

/-- Estimates every task: along the critical path, then in topological order. -/
def estimateAll (o : Outlook α) (order : List Int) : Step (Fault α) (Sketch α) Unit := do
  let fuel := order.length
  Step.each (settleCritical o fuel) o.critical
  Step.each (settle o fuel) order

end Sketch

end FlowSched

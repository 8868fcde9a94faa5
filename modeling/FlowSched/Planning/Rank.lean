import FlowSched.Planning.Plan
import FlowSched.Workflow.Order

/-!
# Upward ranks

The rank of a task is its average computing time plus the greatest, over its children, of the
transfer time to the child plus the child's rank. Planning by rank allocates the tasks in
descending order of their ranks.
-/

namespace FlowSched

open Quantity

variable {α : Type} [Quantity α]

/-- The tasks that lead to this one's rank, children first: extends a list that is already
complete. An acyclic path is no longer than the workflow, which bounds the depth. -/
def Workflow.childrenFirst (w : Workflow α) : Nat → List Int → Int → List Int
  | 0, done, _ => done
  | fuel + 1, done, id =>
    if done.contains id then done
    else
      let children := ((w.find? id).map Task.children).getD []
      (children.foldl (w.childrenFirst fuel) done) ++ [id]

/-- All tasks, children before their parents. -/
def Workflow.bottomUp (w : Workflow α) : List Int :=
  w.ids.foldl (w.childrenFirst w.size) []

/-- The costliest way on from a task to one of its children, `0` for an exit. -/
def onward (c : Costs α) (ranks : Table α) (task : Int) (children : List Int) :
    Except (Fault α) α :=
  children.foldlM (fun longest child => do
    let time ← c.moving task child
    match ranks.get? child with
    | none => .error (.missing child)
    | some rank => .ok (later longest (time + rank))) 0

/-- The ranks with that of one more task, whose children are ranked. -/
def rankTask (w : Workflow α) (c : Costs α) (ranks : Table α) (id : Int) :
    Except (Fault α) (Table α) := do
  let task ← w.get id
  let longest ← onward c ranks id task.children
  let average ← c.average id
  .ok (ranks.set id (average + longest))

/-- The upward rank of every task. -/
def upwardRanks (w : Workflow α) (c : Costs α) : Except (Fault α) (Table α) :=
  w.bottomUp.foldlM (rankTask w c) {}

/-- Ids in ascending order of a key, ties by their place in a topological order. -/
def sortByKey (key : Int → α) (place : Int → Nat) (ids : List Int) : List Int :=
  ids.mergeSort fun a b =>
    if key a == key b then decide (place a ≤ place b) else !decide (key b < key a)

/-- Plans by descending rank. `place` tells where a task stands in topological order. -/
def planByRank (p : Pricing α) (place : Int → Nat) : Step (Fault α) (World α) (Plan α) := do
  let w ← get
  let ranks ← Step.ofExcept (upwardRanks w.workflow p.costs)
  set (w.noteAll (ranks.entries.map fun (task, rank) => .ranked task rank))
  let order := sortByKey (fun id => -((ranks.get? id).getD 0)) place w.workflow.ids
  let (_, draft) ← Step.within Draft.fresh Draft.toWorld (Draft.allocateAll p order)
  pure { draft.plan with ranks := ranks }

end FlowSched

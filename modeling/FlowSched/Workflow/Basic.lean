import FlowSched.Task
import FlowSched.Fault
import FlowSched.Step

/-!
# Workflows

A workflow holds tasks with distinct ids in order of discovery. Edges are the parent and child
lists of the tasks, so the two ends of an edge may disagree until the workflow is checked.
-/

namespace FlowSched

open Quantity

/-- Tasks with distinct ids, in order of discovery. -/
structure Workflow (α : Type) [Quantity α] where
  tasks : List (Task α) := []
  nodup : (tasks.map Task.id).Nodup := by simp

namespace Task

variable {α : Type} [Quantity α]

/-- Changes the task if it bears this id, and never the id itself. -/
def edit (id : Int) (f : Task α → Task α) (t : Task α) : Task α :=
  if t.id = id then { f t with id := t.id } else t

@[simp] theorem id_edit (id : Int) (f : Task α → Task α) (t : Task α) : (t.edit id f).id = t.id := by
  unfold edit
  split <;> rfl

end Task

namespace Workflow

variable {α : Type} [Quantity α]

/-- The number of tasks. -/
def size (w : Workflow α) : Nat := w.tasks.length

/-- The ids in order of discovery. -/
def ids (w : Workflow α) : List Int := w.tasks.map Task.id

/-- A task bears this id. -/
def contains (w : Workflow α) (id : Int) : Bool := w.tasks.any (·.id = id)

/-- The task of an id. -/
def find? (w : Workflow α) (id : Int) : Option (Task α) := w.tasks.find? (·.id = id)

/-- The task of an id, which has to be there. -/
def get (w : Workflow α) (id : Int) : Except (Fault α) (Task α) :=
  match w.find? id with
  | some t => .ok t
  | none => .error (.missing id)

/-- The tasks of a list of ids, which have to be there. -/
def getAll (w : Workflow α) (ids : List Int) : Except (Fault α) (List (Task α)) := ids.mapM w.get

/-- Changes the task of an id. -/
def modify (w : Workflow α) (id : Int) (f : Task α → Task α) : Workflow α where
  tasks := w.tasks.map (Task.edit id f)
  nodup := by
    rw [List.map_map]
    simpa [Function.comp_def] using w.nodup

@[simp] theorem ids_modify (w : Workflow α) (id : Int) (f : Task α → Task α) :
    (w.modify id f).ids = w.ids := by
  simp [ids, modify, Function.comp_def]

/-- Forgets what planning and execution wrote on the tasks. -/
def reset (w : Workflow α) (keepBinding : Bool) : Workflow α where
  tasks := w.tasks.map (Task.reset keepBinding)
  nodup := by
    rw [List.map_map]
    exact w.nodup

/-- The tasks without parents. -/
def roots (w : Workflow α) : List (Task α) := w.tasks.filter (·.parents.isEmpty)

/-- The tasks without children. -/
def exits (w : Workflow α) : List (Task α) := w.tasks.filter (·.children.isEmpty)

/-! ## Building -/

/-- Adds a task at the end; its id has to be new. -/
def addTask (w : Workflow α) (t : Task α) : Except (Fault α) (Workflow α) :=
  if h : t.id ∈ w.tasks.map Task.id then .error (.duplicateTask t.id)
  else .ok
    { tasks := w.tasks ++ [t]
      nodup := by
        rw [List.map_append, List.nodup_append]
        exact ⟨w.nodup, by simp, fun a ha b hb => by
          simp only [List.map_cons, List.map_nil, List.mem_singleton] at hb
          exact fun hab => h (hb ▸ hab ▸ ha)⟩ }

/-- A workflow of tasks with distinct ids. -/
def ofTasks (tasks : List (Task α)) : Except (Fault α) (Workflow α) :=
  tasks.foldlM addTask {}

/-- Adds an element at the end of a list that lacks it. -/
def addOnce (x : Int) (xs : List Int) : List Int := if xs.contains x then xs else xs ++ [x]

/-- Writes an edge into the child list of its parent and the parent list of its child. -/
def link (w : Workflow α) (parent child : Int) : Workflow α :=
  (w.modify parent fun t => { t with children := addOnce child t.children }).modify child
    fun t => { t with parents := addOnce parent t.parents }

/-- Writes the transfer time of an edge on its child. -/
def setTransfer (w : Workflow α) (parent child : Int) (cost : α) : Workflow α :=
  w.modify child fun t => { t with transfers := t.transfers.set parent cost }

/-- Adds an edge between known tasks, with a transfer time if one is given. A negative time is
refused only after the edge has been written. -/
def addEdge (parent child : Int) (cost : Option α) : Step (Fault α) (Workflow α) Unit := fun w =>
  if !(w.contains parent && w.contains child) then .error (.unknownEndpoint parent child) w
  else if parent = child then .error (.selfLoop parent) w
  else
    match cost with
    | none => .ok () (w.link parent child)
    | some c =>
      if c < 0 then .error (.negativeEdge parent child) (w.link parent child)
      else .ok () ((w.link parent child).setTransfer parent child c)

end Workflow

end FlowSched

import FlowSched.Workflow.Sample
import FlowSched.Random.Source
import FlowSched.Note

/-!
# Random layered workflows

Tasks are cut into layers; every task behind the first layer has at least one parent in the layer
before. Each edge carries either a file that only its two ends name, or a stored transfer time.
-/

namespace FlowSched

open Quantity

/-- What a random layered workflow is drawn from. -/
structure LayerSpec (α : Type) [Quantity α] where
  tasks : Int := 20
  maxWidth : Int := 4
  lengths : Int × Int := (1000, 10000)
  sizes : α × α := (((100000 : Nat) : α), ((10000000 : Nat) : α))
  edgeProbability : α := ((1 : Nat) : α) / ((2 : Nat) : α)
  useFiles : Bool := true

namespace LayerSpec

variable {α γ : Type} [Quantity α] [Source γ]

/-- Cuts the ids from `next` on into layers; `left` ids are left. -/
def drawLayers (spec : LayerSpec α) : Nat → Int → Nat → Draw α γ (List (List Int))
  | 0, _, _ => pure []
  | fuel + 1, next, left =>
    if left = 0 then pure []
    else do
      let drawn ← Draw.between 1 spec.maxWidth
      let width := min drawn.toNat left
      let layer := (List.range width).map fun (i : Nat) => next + (i : Int)
      let rest ← drawLayers spec fuel (next + width) (left - width)
      pure (layer :: rest)

/-- Draws a task of an id. -/
def drawTask (spec : LayerSpec α) (id : Int) : Draw α γ (Task α) := do
  let length ← Draw.between spec.lengths.1 spec.lengths.2
  pure { id, length := (length : α), latency := ((1 : Nat) : α) / ((10 : Nat) : α) }

/-- Draws which of the other ids of a layer become parents too. -/
def drawOthers (spec : LayerSpec α) (first : Int) : List Int → Draw α γ (List Int)
  | [] => pure []
  | p :: rest =>
    if p = first then drawOthers spec first rest
    else do
      let x : α ← Draw.fraction
      let others ← drawOthers spec first rest
      pure (if x < spec.edgeProbability then p :: others else others)

/-- Draws the parents of a task from the layer before: one at least. -/
def drawParents (spec : LayerSpec α) (previous : List Int) : Draw α γ (List Int) := do
  let first ← Draw.choice previous
  let others ← drawOthers spec first previous
  pure (first :: others)

/-- The file that passes along an edge. -/
def edgeFile (parent child : Int) (size : α) (role : FileRole) : DataFile α :=
  { name := "t" ++ toString parent ++ "_to_t" ++ toString child ++ ".dat", size, role }

/-- Adds a file to a task. -/
def addFile (w : Workflow α) (id : Int) (file : DataFile α) : Workflow α :=
  w.modify id fun t => { t with files := t.files ++ [file] }

/-- Draws what an edge carries and adds the edge. -/
def drawEdge (spec : LayerSpec α) (child : Int) (w : Workflow α) (parent : Int) :
    Draw α γ (Workflow α) := do
  if spec.useFiles then
    let size ← Draw.uniform spec.sizes.1 spec.sizes.2
    let w := addFile w parent (edgeFile parent child size .output)
    let w := addFile w child (edgeFile parent child size .input)
    Step.ofExcept (w.withEdge parent child none)
  else
    let cost ← Draw.uniform (((1 : Nat) : α) / ((2 : Nat) : α)) ((5 : Nat) : α)
    Step.ofExcept (w.withEdge parent child (some (roundTo 2 cost)))

/-- Connects a task to the layer before. -/
def connect (spec : LayerSpec α) (previous : List Int) (w : Workflow α) (child : Int) :
    Draw α γ (Workflow α) := do
  let parents ← drawParents spec previous
  parents.foldlM (drawEdge spec child) w

/-- Draws a layered workflow, and reports its size. -/
def draw (spec : LayerSpec α) : Draw α γ (Workflow α × Note α) := do
  if spec.tasks < 1 then throw .noTasks
  let count := spec.tasks.toNat
  let layers ← drawLayers spec count 1 count
  let tasks ← ((List.range count).map fun (i : Nat) => (i : Int) + 1).mapM (drawTask spec)
  let w ← Step.ofExcept (Workflow.ofTasks tasks)
  let w ← (layers.zip layers.tail).foldlM (fun w (previous, layer) =>
    layer.foldlM (connect spec previous) w) w
  let w ← Step.ofExcept w.finished
  pure (w, .generated spec.tasks layers.length)

end LayerSpec

end FlowSched

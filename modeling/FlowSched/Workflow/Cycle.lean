import FlowSched.Workflow.Order

/-!
# Finding a cycle

From each start node the edges are walked depth first, each edge once. The walk's current path is
cut back whenever the walk continues elsewhere; the first edge that leads back into the path
closes a cycle.
-/

namespace FlowSched.Workflow

variable {α : Type} [Quantity α]

/-- A directed edge. -/
abbrev Edge := Int × Int

/-- The edges met by a depth-first walk. `remaining` holds, for every node, the heads of edges not
taken yet. -/
def walkFrom : Nat → List Int → Table (List Int) → List Edge
  | 0, _, _ => []
  | _, [], _ => []
  | fuel + 1, node :: stack, remaining =>
    match (remaining.get? node).getD [] with
    | [] => walkFrom fuel stack remaining
    | head :: rest =>
      (node, head) :: walkFrom fuel (head :: node :: stack) (remaining.set node rest)

/-- The depth-first edge walk from a start node. It takes every edge at most once and drops every
node it pushed, so twice the number of edges and one more step are enough. -/
def walk (w : Workflow α) (start : Int) : List Edge :=
  let remaining : Table (List Int) := ⟨w.nodes.map fun n => (n, w.successors n)⟩
  walkFrom (2 * w.edges.length + 1) [start] remaining

/-- The state of the search along one walk: the path in reverse, the nodes on it, all nodes seen,
and the head of the last edge. -/
structure Trail where
  path : List Edge := []
  active : List Int
  seen : List Int
  last : Option Int := none

/-- Cuts the path back to the edge that ends in `tail`. -/
def cutBack (tail : Int) : List Edge → List Int → List Edge × List Int
  | [], _ => ([], [tail])
  | (_, head) :: rest, active =>
    let active := active.filter (· ≠ head)
    match rest with
    | (_, h) :: _ => if h = tail then (rest, active) else cutBack tail rest active
    | [] => ([], [tail])

/-- Follows a walk until a cycle closes. Returns the cycle, or all nodes seen. -/
def follow (explored : List Int) : List Edge → Trail → List Edge ⊕ List Int
  | [], t => .inr t.seen
  | (tail, head) :: rest, t =>
    if explored.contains head then follow explored rest t
    else
      let (path, active) :=
        match t.last with
        | some l => if tail = l then (t.path, t.active) else cutBack tail t.path t.active
        | none => (t.path, t.active)
      let path := (tail, head) :: path
      if active.contains head then .inl (path.reverse.dropWhile fun (a, _) => a ≠ head)
      else follow explored rest ⟨path, head :: active, head :: t.seen, some head⟩

/-- Searches from each start node that no earlier walk has seen. -/
def cycleFrom (w : Workflow α) (explored : List Int) : List Int → List Edge
  | [] => []
  | start :: rest =>
    if explored.contains start then cycleFrom w explored rest
    else
      match follow explored (w.walk start) { active := [start], seen := [start] } with
      | .inl cycle => cycle
      | .inr seen => cycleFrom w (seen ++ explored) rest

/-- The edges of the first cycle met, none in an acyclic workflow. -/
def findCycle (w : Workflow α) : List Edge := w.cycleFrom [] w.nodes

end FlowSched.Workflow

import FlowSched.Note

/-!
# Timelines

The committed slots of one VM in order of their start. A new slot goes into the earliest gap that
is long enough, or behind the last slot.
-/

namespace FlowSched

open Quantity

/-- A time span that a task occupies on a VM. -/
structure Slot (α : Type) where
  start : α
  finish : α
  task : Int
  vm : Int := -1

namespace Slot

variable {α : Type} [Quantity α]

/-- The length of a slot. -/
def duration (s : Slot α) : α := s.finish - s.start

/-- Slots are ordered by start, then by finish. -/
def before (a b : Slot α) : Bool :=
  if a.start == b.start then decide (a.finish < b.finish) else decide (a.start < b.start)

/-- The order of slots with equal ones included. -/
def notAfter (a b : Slot α) : Bool :=
  if a.start == b.start then decide (a.finish ≤ b.finish) else decide (a.start ≤ b.start)

/-- Slots with equal start and finish. -/
def same (a b : Slot α) : Bool := a.start == b.start && a.finish == b.finish

/-- How the first of some slots compares with the last: before, not after, equal, not before,
after. A slot that stands alone equals itself, also when it has no number for a start. -/
def compareEnds : List (Slot α) → List Bool
  | [] => []
  | [_] => [false, true, true, true, false]
  | first :: second :: rest =>
    let last := (second :: rest).getLastD first
    [first.before last, first.notAfter last, first.same last, last.notAfter first,
      last.before first]

/-- Slots in order; equal ones keep their order. -/
def sort (slots : List (Slot α)) : List (Slot α) := slots.mergeSort fun a b => !b.before a

end Slot

/-- The committed slots of one VM. -/
structure Timeline (α : Type) where
  vm : Int
  slots : List (Slot α) := []

/-- A place for a new slot: its start, its end and its index among the slots. -/
structure Opening (α : Type) where
  start : α
  finish : α
  index : Nat

namespace Timeline

variable {α : Type} [Quantity α]

/-- The end of the last slot, `0` without slots. -/
def makespan (t : Timeline α) : α :=
  match t.slots.getLast? with
  | some s => s.finish
  | none => 0

/-- Walks the gaps backwards from the last slot and keeps the earliest one that fits. A gap that
opens before the task is ready is usable only from then on, and no earlier gap is. The slots come
in reverse; the index of a slot is the number of slots behind it in this list. -/
def walkGaps (cost ready : α) (best : Opening α) : List (Slot α) → Opening α
  | [] => best
  | [_] => best
  | current :: previous :: rest =>
    let index := rest.length + 1
    if previous.finish < ready then
      if ready + cost ≤ current.start ∧ ready + cost < best.finish then
        ⟨ready, ready + cost, index⟩
      else best
    else if previous.finish + cost ≤ current.start ∧ previous.finish + cost < best.finish then
      walkGaps cost ready ⟨previous.finish, previous.finish + cost, index⟩ (previous :: rest)
    else walkGaps cost ready best (previous :: rest)

/-- The earliest start from `ready` on at which `cost` fits between the slots, and the index of
the new slot. -/
def findSlot (slots : List (Slot α)) (cost ready : α) : α × Nat :=
  match slots with
  | [] => (ready, 0)
  | [only] =>
    if only.finish ≤ ready then (ready, 1)
    else if ready + cost ≤ only.start then (ready, 0)
    else (only.finish, 1)
  | first :: second :: rest =>
    let last := (second :: rest).getLastD first
    let start := later ready last.finish
    let best := walkGaps cost ready ⟨start, start + cost, slots.length⟩ slots.reverse
    if ready + cost ≤ first.start then (ready, 0) else (best.start, best.index)

/-- The earliest end of a task on this VM. -/
def finishTime (t : Timeline α) (cost ready : α) : α := (findSlot t.slots cost ready).1 + cost

/-- The slot that a task would take, and its index. -/
def slotFor (t : Timeline α) (task : Int) (cost ready : α) : Slot α × Nat :=
  let (start, index) := findSlot t.slots cost ready
  (⟨start, start + cost, task, t.vm⟩, index)

/-- Reserves the earliest slot for a task. -/
def occupy (t : Timeline α) (task : Int) (cost ready : α) : Timeline α :=
  let (slot, index) := t.slotFor task cost ready
  { t with slots := t.slots.insertIdx index slot }

/-- What is reported of a reservation. -/
def reservation (t : Timeline α) (task : Int) (cost ready : α) : Note α :=
  let (slot, _) := t.slotFor task cost ready
  .reserved t.vm slot.start slot.finish task

/-- A slot reaches into the next one. -/
def hasOverlap (t : Timeline α) : Bool :=
  (t.slots.zip t.slots.tail).any fun (a, b) => decide (b.start < a.finish)

end Timeline

end FlowSched

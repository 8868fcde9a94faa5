/-!
# Sessions

A session records in which order tasks were planned and in which order they were submitted. A
ready batch can be put into the planned order.
-/

namespace FlowSched

/-- The orders in which tasks were planned and submitted. -/
structure Session where
  planned : List Int := []
  submitted : List Int := []

namespace Session

/-- The place of a task in the plan: the last one if it was planned several times. -/
def place? (s : Session) (task : Int) : Option Nat :=
  (s.planned.zipIdx.findRev? fun (id, _) => id = task).map Prod.snd

/-- The place by which a task is sorted. A task that was never planned gets the number of planned
tasks. -/
def rank (s : Session) (task : Int) : Nat :=
  (s.place? task).getD s.planned.eraseDups.length

/-- The batch in planned order; tasks of equal rank keep their order. -/
def orderByPlan (s : Session) (batch : List Int) : List Int :=
  if s.planned.isEmpty then batch
  else batch.mergeSort fun a b => decide (s.rank a ≤ s.rank b)

end Session

end FlowSched

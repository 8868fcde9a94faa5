import Mathlib.Data.Int.Notation
import FlowSched.Planning.Estimate
import FlowSched.Proofs.Step

/-!
# A diary of estimation

Estimation shows only the sketch it ends with. A diary holds that sketch together with those on the way and
what happened to each of them: a task was called for or left, a group was arranged, an estimate was
written. The steps of estimation are taken on diaries, with an entry for whatever happens; without the entries
they are those on sketches (`tells_estimateAll`).
-/

namespace FlowSched

open Quantity Step

/-- What happens while tasks are estimated. -/
inductive Happening where
  /-- A task is to be settled. -/
  | called (task : ℤ)
  /-- A task has been settled. -/
  | settled (task : ℤ)
  /-- A task is to be settled, but the depth of the recursion is used up. -/
  | cut (task : ℤ)
  /-- A group is to be arranged. -/
  | arranging (group : List ℤ)
  /-- A task was estimated for an arrangement that is tried. -/
  | rehearsed (task : ℤ)
  /-- A task was estimated for good. -/
  | committed (task : ℤ)
deriving DecidableEq

/-- A sketch, and all that happened to it and to those before. -/
structure Diary (α : Type) [Quantity α] extends Sketch α where
  entries : List (Sketch α × Happening) := []

namespace Diary

variable {α : Type} [Quantity α] {β γ : Type}

/-- Takes a step on the sketch. -/
def draw (m : Step (Fault α) (Sketch α) β) : Step (Fault α) (Diary α) β :=
  Step.zoom Diary.toSketch (fun s d => { d with toSketch := s }) m

/-- Enters what happens to the sketch as it is. -/
def enter (h : Happening) : Step (Fault α) (Diary α) Unit :=
  modify fun d => { d with entries := d.entries ++ [(d.toSketch, h)] }

/-! ## Estimation with entries -/

/-- Estimates a task without taking its instants. -/
def rehearse (o : Outlook α) (id : ℤ) : Step (Fault α) (Diary α) Unit := do
  draw (Sketch.rehearse o id)
  enter (.rehearsed id)

/-- Estimates a task for good. -/
def commit (o : Outlook α) (id : ℤ) : Step (Fault α) (Diary α) Unit := do
  draw (Sketch.commit o id)
  enter (.committed id)

/-- Rehearses an arrangement and returns when its last task ends. -/
def score (o : Outlook α) (arrangement : List ℤ) : Step (Fault α) (Diary α) (Option α) := do
  Step.each (rehearse o) arrangement
  let s ← draw get
  pure ((arrangement.getLast?.bind s.workflow.find?).map Task.plannedFinish)

/-- The first arrangement whose last task ends earliest. -/
def search (o : Outlook α) (best : Option (List ℤ × α)) :
    List (List ℤ) → Step (Fault α) (Diary α) (Option (List ℤ × α))
  | [] => pure best
  | arrangement :: rest => do
    match ← score o arrangement with
    | none => search o best rest
    | some finish => search o (Sketch.sooner best arrangement finish) rest

/-- Tries every arrangement of a group and commits the best one. -/
def arrange (o : Outlook α) (group : List ℤ) : Step (Fault α) (Diary α) Unit := do
  enter (.arranging group)
  let width := group.length
  if o.maxWidth < width then throw (.wideGroup group o.maxWidth)
  if o.warnWidth ≤ width then draw (modify (Sketch.note (.wideGroup group)))
  let all := Sketch.arrangements width group
  match ← search o none all with
  | none => throw .noArrangement
  | some (arrangement, _) =>
    Step.each (commit o) arrangement
    draw (modify (Sketch.note (.arranged all.length arrangement)))

/-- Settles a task, once it is known how to settle its parents. -/
def settleBy (o : Outlook α) (settle : ℤ → Step (Fault α) (Diary α) Unit) (id : ℤ) :
    Step (Fault α) (Diary α) Unit := do
  let t ← draw (Step.query (Sketch.task · id))
  if !t.isEstimated then
    let parents ← draw (Step.query (Sketch.parents · id))
    let pending := Sketch.pendingOf parents
    let siblings ← draw (Step.query (Sketch.siblings o · t))
    if ← draw (Step.query (Sketch.isReadyGroup · pending)) then arrange o pending
    else
      Step.each settle pending
      let siblings ← draw (Step.query (Sketch.stillPending · siblings))
      if ← draw (Step.query (Sketch.isReadyGroup · siblings)) then arrange o siblings
    if !(← draw (Step.query (Sketch.isEstimated · id))) then commit o id

/-- Estimates a task after all its ancestors. -/
def settle (o : Outlook α) : ℕ → ℤ → Step (Fault α) (Diary α) Unit
  | 0, id => enter (.cut id)
  | fuel + 1, id => do
    enter (.called id)
    settleBy o (settle o fuel) id
    enter (.settled id)

/-- Estimates a task of the critical path. -/
def settleCritical (o : Outlook α) (fuel : ℕ) (id : ℤ) : Step (Fault α) (Diary α) Unit := do
  let t ← draw (Step.query (Sketch.task · id))
  let parents ← draw (Step.query (Sketch.parents · id))
  if !t.isEstimated && parents.all Task.isEstimated then commit o id
  settle o fuel id

/-- Estimates every task: along the critical path, then in topological order. -/
def estimateAll (o : Outlook α) (order : List ℤ) : Step (Fault α) (Diary α) Unit := do
  let fuel := order.length
  Step.each (settleCritical o fuel) o.critical
  Step.each (settle o fuel) order

/-! ## Leaving the entries out -/

/-- How a step on a diary ends for the sketch. -/
def outcome : EStateM.Result (Fault α) (Diary α) β → EStateM.Result (Fault α) (Sketch α) β
  | .ok b d => .ok b d.toSketch
  | .error fault d => .error fault d.toSketch

/-- A step on diaries does to the sketch what a step on sketches does. -/
def Tells (m' : Step (Fault α) (Diary α) β) (m : Step (Fault α) (Sketch α) β) : Prop :=
  ∀ d, outcome (m' d) = m d.toSketch

section

variable {m' : Step (Fault α) (Diary α) β} {m : Step (Fault α) (Sketch α) β}

theorem tells_draw (m : Step (Fault α) (Sketch α) β) : Tells (draw m) m := by
  intro d
  unfold draw zoom
  cases m d.toSketch <;> rfl

theorem tells_pure (b : β) : Tells (pure b : Step (Fault α) (Diary α) β) (pure b) := fun _ => rfl

theorem tells_throw (fault : Fault α) :
    Tells (throw fault : Step (Fault α) (Diary α) β) (throw fault) := fun _ => rfl

theorem Tells.bind (hm : Tells m' m) {f' : β → Step (Fault α) (Diary α) γ}
    {f : β → Step (Fault α) (Sketch α) γ} (hf : ∀ b, Tells (f' b) (f b)) :
    Tells (m' >>= f') (m >>= f) := by
  intro d
  have hd := hm d
  show outcome (EStateM.bind m' f' d) = EStateM.bind m f d.toSketch
  unfold EStateM.bind
  rw [← hd]
  cases m' d with
  | ok b d' => exact hf b d'
  | error fault d' => rfl

/-- Entries are left out. -/
theorem Tells.after_enter (hm : Tells m' m) (h : Happening) : Tells (enter h >>= fun _ => m') m :=
  fun d => hm { d with entries := d.entries ++ [(d.toSketch, h)] }

theorem Tells.then_enter {m' : Step (Fault α) (Diary α) Unit} {m : Step (Fault α) (Sketch α) Unit}
    (hm : Tells m' m) (h : Happening) : Tells (m' >>= fun _ => enter h) m := by
  have hend : ∀ u : Unit, Tells (enter h : Step (Fault α) (Diary α) Unit) (pure u) := fun _ _ => rfl
  have hboth := hm.bind hend
  rwa [bind_pure] at hboth

/-- A step that is taken only under a condition, and what comes after it in any case. -/
theorem Tells.unless {c : Prop} [Decidable c] {m' : Step (Fault α) (Diary α) Unit}
    {m : Step (Fault α) (Sketch α) Unit} (hm : Tells m' m) {f' : Unit → Step (Fault α) (Diary α) γ}
    {f : Unit → Step (Fault α) (Sketch α) γ} (hf : ∀ u, Tells (f' u) (f u)) :
    Tells (if c then m' >>= f' else f' ()) (if c then m >>= f else f ()) := by
  split
  · exact hm.bind hf
  · exact hf ()

/-- What holds of a step on diaries holds of the step on sketches that it tells of. -/
theorem Tells.leads (h : Tells m' m) {d : Diary α} {Q : β → Sketch α → Prop}
    {E : Fault α → Sketch α → Prop} : Leads m d.toSketch Q E ↔
      Leads m' d (fun b d' => Q b d'.toSketch) fun fault d' => E fault d'.toSketch := by
  unfold Leads
  rw [← h d]
  cases m' d <;> rfl

theorem tells_each {f' : β → Step (Fault α) (Diary α) Unit} {f : β → Step (Fault α) (Sketch α) Unit}
    (hf : ∀ b, Tells (f' b) (f b)) (bs : List β) : Tells (each f' bs) (each f bs) := by
  induction bs with
  | nil => exact tells_pure ()
  | cons b bs ih => exact (hf b).bind fun _ => ih

end

variable (o : Outlook α)

theorem tells_commit (id : ℤ) : Tells (commit o id) (Sketch.commit o id) :=
  (tells_draw _).then_enter _

theorem tells_search (best : Option (List ℤ × α)) (all : List (List ℤ)) :
    Tells (search o best all) (Sketch.search o best all) := by
  induction all generalizing best with
  | nil => exact tells_pure best
  | cons arrangement rest ih =>
    have hscore : Tells (score o arrangement) (Sketch.score o arrangement) :=
      (tells_each (fun id => (tells_draw _).then_enter _) arrangement).bind fun _ =>
        (tells_draw get).bind fun _ => tells_pure _
    refine hscore.bind fun finish => ?_
    cases finish with
    | none => exact ih best
    | some finish => exact ih _

theorem tells_arrange (group : List ℤ) : Tells (arrange o group) (Sketch.arrange o group) := by
  unfold arrange Sketch.arrange
  refine Tells.after_enter ((tells_throw _).unless fun _ => (tells_draw _).unless fun _ =>
    (tells_search o _ _).bind fun found => ?_) _
  cases found with
  | none => exact tells_throw _
  | some found => exact (tells_each (tells_commit o) _).bind fun _ => tells_draw _

theorem tells_settle (fuel : ℕ) (id : ℤ) : Tells (settle o fuel id) (Sketch.settle o fuel id) := by
  induction fuel generalizing id with
  | zero => exact fun _ => rfl
  | succ fuel ih =>
    have hfinish : Tells (do if !(← draw (query (Sketch.isEstimated · id))) then commit o id)
        (do if !(← query (Sketch.isEstimated · id)) then Sketch.commit o id) := by
      refine (tells_draw _).bind fun b => ?_
      split
      · exact tells_commit o id
      · exact tells_pure ()
    unfold settle Sketch.settle
    refine Tells.after_enter (Tells.then_enter ?_ _) _
    unfold settleBy
    refine (tells_draw _).bind fun t => ?_
    dsimp only
    split
    · refine (tells_draw _).bind fun parents => (tells_draw _).bind fun siblings =>
        (tells_draw _).bind fun ready => ?_
      split
      · exact (tells_arrange o _).bind fun _ => hfinish
      · refine (tells_each ih _).bind fun _ => (tells_draw _).bind fun siblings =>
          (tells_draw _).bind fun ready => ?_
        split
        · exact (tells_arrange o _).bind fun _ => hfinish
        · exact hfinish
    · exact tells_pure ()

theorem tells_settleCritical (fuel : ℕ) (id : ℤ) :
    Tells (settleCritical o fuel id) (Sketch.settleCritical o fuel id) := by
  unfold settleCritical Sketch.settleCritical
  refine (tells_draw _).bind fun t => (tells_draw _).bind fun parents => ?_
  split
  · exact (tells_commit o id).bind fun _ => tells_settle o fuel id
  · exact tells_settle o fuel id

/-- Keeping a diary changes nothing about estimation. -/
theorem tells_estimateAll (order : List ℤ) :
    Tells (estimateAll o order) (Sketch.estimateAll o order) :=
  (tells_each (tells_settleCritical o _) _).bind fun _ => tells_each (tells_settle o _) _

end Diary

end FlowSched

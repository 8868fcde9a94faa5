import FlowSched.Planning.Planner
import FlowSched.Proofs.Step

/-!
# Lining up

A planner first lines the tasks up and then allocates them in that order. All that tells the strategies
apart is done before the first task is allocated; a run is lining up, allocation and a report
(`Planner.run_eq`).
-/

namespace FlowSched

open Quantity Step

variable {α : Type} [Quantity α]

/-- The order in which tasks are to be allocated, what allocation reads, and what the plan will tell
besides. -/
structure Lineup (α : Type) [Quantity α] where
  pricing : Pricing α
  order : List Int
  ranks : Table α := {}
  criticalPath : List Int := []
  paths : List (List Int) := []

/-- Tasks by descending rank. -/
def Lineup.ofRanks (p : Pricing α) (place : Int → Nat) (w : Workflow α) (ranks : Table α) :
    Lineup α where
  pricing := p
  order := sortByKey (fun id => -((ranks.get? id).getD 0)) place w.ids
  ranks := ranks

/-- Lines the tasks up by descending rank. -/
def lineUpByRank (p : Pricing α) (place : Int → Nat) :
    Step (Fault α) (World α) (Lineup α) := do
  let w ← get
  let ranks ← Step.ofExcept (upwardRanks w.workflow p.costs)
  set (w.noteAll (ranks.entries.map fun (task, rank) => .ranked task rank))
  pure (.ofRanks p place w.workflow ranks)

/-- Lines the tasks up by estimated start. `order` is a topological order. -/
def lineUpByEstimate (options : PathOptions α) (p : Pricing α) (order : List Int)
    (place : Int → Nat) : Step (Fault α) (World α) (Lineup α) := do
  modify fun w => w.workflow.ids.foldl (fun w id =>
    w.editTask id fun t => { t with isEstimated := false }) w
  let paths := (← get).workflow.paths
  modify (World.note (.pathsFound paths.length))
  let critical ← Step.ofExcept (p.costs.criticalPath paths)
  modify (World.note (.criticalPath critical))
  let outlook : Outlook α :=
    { costs := p.costs, floor := p.floor, maxWidth := options.maxWidth
      warnWidth := options.warnWidth, fallback := options.fallback, critical }
  let _ ← Step.within (fun w => { toWorld := w }) Sketch.toWorld
    (Sketch.estimateAll outlook order)
  let w ← get
  modify (World.noteAll (w.workflow.tasks.map fun t =>
    .estimated t.id t.plannedStart t.plannedFinish))
  pure { pricing := p, order := orderByEstimate w.workflow place, criticalPath := critical, paths }

/-- The plan that a draft amounts to, with what was found out before. -/
def Lineup.plan (l : Lineup α) (d : Draft α) : Plan α :=
  { d.plan with ranks := l.ranks, criticalPath := l.criticalPath, paths := l.paths }

/-- Allocates what was lined up. -/
def Lineup.allot (l : Lineup α) : Step (Fault α) (World α) (Plan α) := do
  let (_, draft) ← Step.within Draft.fresh Draft.toWorld (Draft.allocateAll l.pricing l.order)
  pure (l.plan draft)

/-- Lines the tasks up as the strategy of the planner has it. -/
def Planner.arrange (planner : Planner α) (p : Pricing α) (order : List (Task α)) :
    Step (Fault α) (World α) (Lineup α) :=
  match planner.strategy with
  | .byRank => lineUpByRank p (Workflow.place order)
  | .byEstimate options => lineUpByEstimate options p (order.map Task.id) (Workflow.place order)

/-- Checks and prices the workflow and lines its tasks up. -/
def Planner.lineUp (planner : Planner α) : Step (Fault α) (World α) (Lineup α) := do
  let w ← get
  if w.vms.isEmpty then throw .emptyRoster
  Step.ofExcept w.workflow.check
  modify (World.note (.planning planner.algorithm w.workflow.size w.vms.length))
  let costs ← Step.ofExcept (Costs.ofWorkflow w.workflow w.vms)
  modify (World.noteAll costs.summary)
  let order ← Step.ofExcept w.workflow.topologicalOrder
  planner.arrange { vms := w.vms, costs, floor := planner.floor } order

/-! ## A run in stages -/

theorem planByRank_eq (p : Pricing α) (place : Int → Nat) :
    planByRank p place = lineUpByRank p place >>= Lineup.allot := by
  unfold planByRank lineUpByRank Lineup.allot
  simp only [bind_assoc, pure_bind]
  rfl

theorem planByEstimate_eq (options : PathOptions α) (p : Pricing α) (order : List Int)
    (place : Int → Nat) : planByEstimate options p order place =
      lineUpByEstimate options p order place >>= Lineup.allot := by
  unfold planByEstimate lineUpByEstimate Lineup.allot
  simp only [bind_assoc, pure_bind]
  rfl

theorem Lineup.leads_allot {l : Lineup α} {w : World α} {Q : Plan α → World α → Prop}
    {E : Fault α → World α → Prop} :
    Leads l.allot w Q E ↔ Leads (Draft.allocateAll l.pricing l.order) (Draft.fresh w)
      (fun _ d => Q (l.plan d) d.toWorld) fun fault d => E fault d.toWorld := by
  unfold allot
  rw [leads_bind, leads_within]
  rfl

/-- Ranking takes notes and changes nothing else. -/
theorem leads_lineUpByRank {p : Pricing α} {place : Int → Nat} {w : World α}
    {Q : Lineup α → World α → Prop} {E : Fault α → World α → Prop} :
    Leads (lineUpByRank p place) w Q E ↔
      (∀ ranks, upwardRanks w.workflow p.costs = .ok ranks → Q (.ofRanks p place w.workflow ranks)
        (w.noteAll (ranks.entries.map fun e => .ranked e.1 e.2))) ∧
      ∀ fault, upwardRanks w.workflow p.costs = .error fault → E fault w := by
  unfold lineUpByRank
  rw [leads_bind, leads_get, leads_bind, leads_ofExcept]
  rfl

theorem lineUpByRank_eq_ok {p : Pricing α} {place : Int → Nat} {w w₁ : World α} {l : Lineup α} :
    lineUpByRank p place w = .ok l w₁ ↔ ∃ ranks, upwardRanks w.workflow p.costs = .ok ranks ∧
      .ofRanks p place w.workflow ranks = l ∧
        w.noteAll (ranks.entries.map fun e => .ranked e.1 e.2) = w₁ := by
  constructor
  · intro h
    have hlead : Leads (lineUpByRank p place) w (fun l w₁ => ∃ ranks,
        upwardRanks w.workflow p.costs = .ok ranks ∧ .ofRanks p place w.workflow ranks = l ∧
          w.noteAll (ranks.entries.map fun e => .ranked e.1 e.2) = w₁) fun _ _ => True :=
      leads_lineUpByRank.2 ⟨fun ranks hranks => ⟨ranks, hranks, rfl, rfl⟩, fun _ _ => trivial⟩
    exact hlead.of_ok h
  · rintro ⟨ranks, hranks, rfl, rfl⟩
    unfold lineUpByRank
    rw [get_bind, hranks]
    rfl

namespace Planner

variable {planner : Planner α} {w w₁ w' : World α} {c : Costs α} {order : List (Task α)}
  {l : Lineup α} {plan : Plan α}

/-- A run lines the tasks up, allocates them and reports the timelines. -/
theorem run_eq (planner : Planner α) : planner.run = (do
    let l ← planner.lineUp
    let plan ← l.allot
    modify (World.noteAll plan.timelineNotes)
    pure plan) := by
  unfold run lineUp arrange
  rw [bind_assoc]
  refine bind_congr fun w => ?_
  cases planner.strategy with
  | byRank =>
    simp only [planByRank_eq]
    split <;> simp only [bind_assoc]
  | byEstimate options =>
    simp only [planByEstimate_eq]
    split <;> simp only [bind_assoc]

/-- A run that returns has lined the tasks up and allocated them. -/
theorem exists_lineUp (h : planner.run w = .ok plan w') : ∃ l w₁ w₂, planner.lineUp w = .ok l w₁ ∧
    l.allot w₁ = .ok plan w₂ ∧ w' = w₂.noteAll plan.timelineNotes := by
  rw [run_eq] at h
  refine Leads.of_ok (Q := fun plan w' => ∃ l w₁ w₂, planner.lineUp w = .ok l w₁ ∧
    l.allot w₁ = .ok plan w₂ ∧ w' = w₂.noteAll plan.timelineNotes) (E := fun _ _ => True) ?_ h
  rw [leads_bind]
  refine leads_self.mono (fun l w₁ hl => ?_) fun _ _ _ => trivial
  rw [leads_bind]
  refine leads_self.mono (fun plan w₂ hplan => ?_) fun _ _ _ => trivial
  rw [leads_bind, leads_modify, leads_pure]
  exact ⟨l, w₁, w₂, hl, hplan, rfl⟩

/-- What has to go well before a planner lines anything up. -/
structure Fit (w : World α) (c : Costs α) (order : List (Task α)) : Prop where
  roster : ¬ w.vms.isEmpty = true
  check : w.workflow.check = .ok ()
  costs : Costs.ofWorkflow w.workflow w.vms = .ok c
  order : w.workflow.topologicalOrder = .ok order

/-- The world in which a planner lines the tasks up. -/
def opening (planner : Planner α) (c : Costs α) (w : World α) : World α :=
  (w.note (.planning planner.algorithm w.workflow.size w.vms.length)).noteAll c.summary

/-- Where nothing stands in its way, a planner only announces itself and the costs before it lines the
tasks up. -/
theorem lineUp_eq (h : Fit w c order) : planner.lineUp w =
    planner.arrange { vms := w.vms, costs := c, floor := planner.floor } order
      (planner.opening c w) := by
  unfold lineUp
  rw [get_bind, if_neg h.roster, h.check, h.costs, h.order]
  rfl

/-- Where something stands in its way, a planner has only taken notes. -/
theorem leads_lineUp {Q : Lineup α → World α → Prop} {E : Fault α → World α → Prop}
    (hfit : ∀ c order, Fit w c order →
      Leads (planner.arrange { vms := w.vms, costs := c, floor := planner.floor } order)
        (planner.opening c w) Q E)
    (hunfit : ∀ fault ns, E fault (w.noteAll ns)) : Leads planner.lineUp w Q E := by
  unfold lineUp
  rw [leads_bind, leads_get]
  refine Leads.unless (P := fun t => t = w ∧ ¬ w.vms.isEmpty = true) (fun _ => hunfit _ [])
    (fun hne => ⟨rfl, hne⟩) fun t ht => ?_
  obtain ⟨rfl, hne⟩ := ht
  rw [leads_bind, leads_ofExcept]
  refine ⟨fun _ hcheck => ?_, fun fault _ => hunfit fault []⟩
  rw [leads_bind, leads_modify, leads_bind, leads_ofExcept]
  refine ⟨fun c hc => ?_, fun fault _ => hunfit fault [_]⟩
  rw [leads_bind, leads_modify, leads_bind, leads_ofExcept]
  exact ⟨fun order horder => hfit c order ⟨hne, hcheck, hc, horder⟩,
    fun fault _ => hunfit fault (_ :: c.summary)⟩

/-- Tasks are lined up only where nothing stands in the way. -/
theorem fit_of_lineUp (h : planner.lineUp w = .ok l w₁) : ∃ c order, Fit w c order :=
  Leads.of_ok (Q := fun _ _ => ∃ c order, Fit w c order) (E := fun _ _ => True)
    (leads_lineUp (fun c order hfit => leads_true.mono (fun _ _ _ => ⟨c, order, hfit⟩) fun _ _ _ => trivial)
      fun _ _ => trivial) h

end Planner

end FlowSched

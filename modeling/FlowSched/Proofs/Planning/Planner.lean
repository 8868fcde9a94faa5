import FlowSched.Proofs.Planning.Allocation
import FlowSched.Proofs.Planning.Estimate
import FlowSched.Proofs.Planning.Lineup
import FlowSched.Proofs.Planning.Path
import FlowSched.Proofs.Planning.Rank

/-!
# Planners

A planner lines the tasks up and allocates them in that order. Where every task has an average time,
lining up fails only over a group of siblings that is too wide, so a planner ends as the allocation
ends (`Planner.run_leads`). Where every task has a VM that is big enough, the allocation does not fail
either, and every task ends up bound to such a VM (`Planner.run_places`).
-/

namespace FlowSched

open Quantity Step

variable {p : Pricing ℚ} {w w₁ w' : World ℚ} {place : ℤ → ℕ} {strategy : Strategy ℚ} {order : List ℤ}
  {l : Lineup ℚ}

/-! ## From lining up to a plan -/

/-- What a strategy hands to allocation: an order of all tasks, and a world that differs by notes and
estimates. A strategy by estimate estimates every task, and orders them by their starts. -/
structure LinedUp (strategy : Strategy ℚ) (p : Pricing ℚ) (w w₁ : World ℚ) (order : List ℤ) :
    Prop where
  kept : Kept w w₁
  topological : w₁.workflow.Topological order
  estimates : ∀ options, strategy = .byEstimate options →
    w₁.workflow.Estimated p.floor p.costs ∧ order.Pairwise fun x y =>
      ∀ t u, w₁.workflow.find? x = some t → w₁.workflow.find? y = some u →
        t.plannedStart ≤ u.plannedStart

/-- A plan that tells of a draft, in the world that allocation left. -/
structure Draft.Reported (d : Draft ℚ) (plan : Plan ℚ) (w' : World ℚ) : Prop where
  plan : plan = { d.plan with
    ranks := plan.ranks, criticalPath := plan.criticalPath, paths := plan.paths }
  workflow : w'.workflow = d.workflow
  vms : w'.vms = d.vms

/-- A plan that comes of allocating what was lined up. -/
def Planned (strategy : Strategy ℚ) (p : Pricing ℚ) (w : World ℚ) (plan : Plan ℚ) (w' : World ℚ) :
    Prop :=
  ∃ w₁ order d, LinedUp strategy p w w₁ order ∧
    Draft.allocateAll p order (Draft.fresh w₁) = .ok () d ∧ d.Reported plan w'

/-- What was lined up could not be allocated. -/
def Unplaced (strategy : Strategy ℚ) (p : Pricing ℚ) (w : World ℚ) (fault : Fault ℚ) : Prop :=
  ∃ w₁ order d, LinedUp strategy p w w₁ order ∧
    Draft.allocateAll p order (Draft.fresh w₁) = .error fault d

/-- What a planner by estimate may refuse: a group of siblings above its limit. -/
def Strategy.Refuses (strategy : Strategy ℚ) (w : World ℚ) (fault : Fault ℚ) : Prop :=
  ∃ options, strategy = .byEstimate options ∧ options.maxWidth < w.workflow.size ∧
    fault.kind = .conflict

theorem LinedUp.of_kept (h : LinedUp strategy p w₁ w' order) (hk : Kept w w₁) :
    LinedUp strategy p w w' order :=
  ⟨hk.trans h.kept, h.topological, h.estimates⟩

theorem Strategy.Refuses.of_kept {fault : Fault ℚ} (h : strategy.Refuses w₁ fault) (hk : Kept w w₁) :
    strategy.Refuses w fault := by
  obtain ⟨options, hs, hwidth, hkind⟩ := h
  exact ⟨options, hs, Workflow.size_of_kin hk.kin.workflow ▸ hwidth, hkind⟩

theorem Planned.noteAll {plan : Plan ℚ} (h : Planned strategy p w plan w') (ns : List (Note ℚ)) :
    Planned strategy p w plan (w'.noteAll ns) := by
  refine World.noteAll_keeps (fun u n h => ?_) h ns
  obtain ⟨w₂, order, d, hl, hd, hplan, hworkflow, hvms⟩ := h
  exact ⟨w₂, order, d, hl, hd, hplan, hworkflow, hvms⟩

/-- Allocation makes a plan of what was lined up, or fails over it. -/
theorem LinedUp.allot_leads (h : LinedUp strategy p w w₁ l.order) (hp : l.pricing = p) :
    Leads l.allot w₁ (fun plan w' => Planned strategy p w plan w')
      fun fault _ => Unplaced strategy p w fault := by
  subst hp
  exact Lineup.leads_allot.2 (leads_self.mono
    (fun _ d hd => ⟨w₁, l.order, d, h, hd, rfl, rfl, rfl⟩) fun fault d hd => ⟨w₁, l.order, d, h, hd⟩)

/-! ## Lining up by rank -/

/-- Every task is ranked, and the tasks are lined up by descending rank. -/
theorem lineUpByRank_leads (h : Rated w.workflow p.costs) (hr : w.workflow.Ranking place) :
    Leads (lineUpByRank p place) w (fun l w₁ => l.pricing = p ∧ LinedUp .byRank p w w₁ l.order)
      fun _ _ => False := by
  refine leads_lineUpByRank.2 ⟨fun ranks hranks => ⟨rfl, ?_⟩, fun fault hfault => ?_⟩
  · have hk := kept_noteAll w (ranks.entries.map fun e => .ranked e.1 e.2)
    exact ⟨hk, (h.topological_of_ranks hr hranks).of_kin hk.kin.workflow, fun _ he => by cases he⟩
  · obtain ⟨ranks, hranks, -⟩ := upwardRanks_ok h
    rw [hranks] at hfault
    cases hfault

/-- Tasks are lined up by rank only if each has an average time. -/
theorem average_of_lineUpByRank (hw : w.workflow.Checked) :
    Leads (lineUpByRank p place) w
      (fun _ _ => ∀ t ∈ w.workflow.tasks, ∃ a, p.costs.average t.id = .ok a) fun _ _ => True :=
  leads_lineUpByRank.2 ⟨fun _ hranks => average_of_upwardRanks hw hranks, fun _ _ => trivial⟩

/-! ## Lining up by estimate -/

/-- A critical path leads through tasks of the workflow. -/
theorem mem_ids_of_critical {w : Workflow ℚ} (hw : w.Checked) {critical : List ℤ} {P : Prop}
    (h : w.paths = [] ∧ critical = [] ∨ critical ∈ w.paths ∧ P) : ∀ x ∈ critical, x ∈ w.ids := by
  rcases h with ⟨-, rfl⟩ | ⟨hmem, -⟩
  · simp
  · exact ((Workflow.mem_paths hw).1 hmem).1.mem_ids

/-- Ordering estimated tasks by their starts puts parents first. -/
theorem orderByEstimate_lines {w : Workflow ℚ} {floor : ℚ} {c : Costs ℚ} (h : w.Estimated floor c)
    (hr : Rated w c) (hplace : w.Ranking place) :
    w.Topological (orderByEstimate w place) ∧ (orderByEstimate w place).Pairwise fun x y =>
      ∀ t u, w.find? x = some t → w.find? y = some u → t.plannedStart ≤ u.plannedStart := by
  refine ⟨Workflow.topological_sortByKey hr.checked hplace fun u hu x hx => ?_,
    sortByKey_sorted.imp fun {x y} hxy t u ht hu => ?_⟩
  · obtain ⟨v, hv, hle⟩ := h.start_le hr hu x hx
    simpa [Workflow.find?_self hu, hv] using hle
  · simp only [ht, hu, Option.map_some, Option.getD_some] at hxy
    rcases hxy with hlt | ⟨he, -⟩
    · exact hlt.le
    · exact he.le

/-- Every task is estimated, and the tasks are lined up by estimated start, unless a group of siblings
is too wide. -/
theorem lineUpByEstimate_leads (h : Rated w.workflow p.costs) (hd : w.workflow.Distinct)
    (hr : w.workflow.Ranking place) {options : PathOptions ℚ} (hpos : 0 < options.fallback)
    (hperm : order.Perm w.workflow.ids) :
    Leads (lineUpByEstimate options p order place) w
      (fun l w₁ => l.pricing = p ∧ LinedUp (.byEstimate options) p w w₁ l.order)
      fun fault _ => (Strategy.byEstimate options).Refuses w fault := by
  unfold lineUpByEstimate
  rw [leads_bind, leads_modify, leads_bind, leads_get]
  have hk := kept_unestimate w w.workflow.ids
  have hfresh := unestimated_ids w
  generalize w.workflow.ids.foldl _ w = w₁ at hk hfresh ⊢
  obtain ⟨critical, hcritical, hfound⟩ := criticalPath_ok (h.of_kin hk.kin.workflow)
  have hknown := mem_ids_of_critical (h.checked.of_kin hk.kin.workflow) hfound
  dsimp only
  rw [leads_bind, leads_modify, leads_bind]
  refine leads_query_ok hcritical ?_
  rw [leads_bind, leads_modify, leads_bind, leads_within]
  have hids : w₁.workflow.ids = w.workflow.ids := Workflow.ids_of_kin hk.kin.workflow
  have hk := hk.trans ((kept_note w₁ (.pathsFound w₁.workflow.paths.length)).trans
    (kept_note _ (.criticalPath critical)))
  generalize ho : ({ costs := p.costs, floor := p.floor, maxWidth := options.maxWidth
                     warnWidth := options.warnWidth, fallback := options.fallback
                     critical := critical } : Outlook ℚ) = o
  have hdrawn : Sketch.Drawn o place
      { toWorld := (w₁.note (.pathsFound w₁.workflow.paths.length)).note (.criticalPath critical) } :=
    Sketch.drawn_of_unestimated (ho ▸ h.of_kin hk.kin.workflow) (hd.of_kin hk.kin.workflow)
      (hr.of_kin hk.kin.workflow) hfresh
  have hsize : w₁.workflow.size ≤ order.length := by
    rw [hperm.length_eq, ← hids, Workflow.ids, List.length_map]
    exact le_refl _
  refine ((Sketch.estimateAll_leads (ho ▸ hpos) hdrawn hsize (fun x hx => hids ▸ hperm.subset hx)
    (ho ▸ hknown)).and (Sketch.keeps_estimateAll o order _)).mono (fun _ s hs => ?_)
      fun _ s hfail => ?_
  · obtain ⟨hs, -⟩ := hs
    rw [leads_bind, leads_get, leads_bind, leads_modify, leads_pure]
    have hnotes := kept_noteAll s.toWorld (s.workflow.tasks.map fun t =>
      .estimated t.id t.plannedStart t.plannedFinish)
    have hworkflow := (noteAll_eq s.toWorld (s.workflow.tasks.map fun t =>
      .estimated t.id t.plannedStart t.plannedFinish)).1
    generalize s.toWorld.noteAll _ = w₂ at hworkflow hnotes ⊢
    have hest := hs.workflow_estimated fun x hx => hperm.mem_iff.2 (hids ▸ hx)
    subst ho
    obtain ⟨htop, hsorted⟩ := orderByEstimate_lines hest hs.drawn.rated hs.drawn.ranking
    rw [← hworkflow] at hest htop hsorted ⊢
    exact ⟨rfl, (hk.trans hs.grown.kept).trans hnotes, htop, fun _ _ => ⟨hest, hsorted⟩⟩
  · obtain ⟨⟨hkind, hwidth⟩, hks⟩ := hfail
    rw [Workflow.size_of_kin (hk.trans hks).kin.workflow, ← ho] at hwidth
    exact ⟨options, rfl, hwidth, hkind⟩

/-- Tasks are lined up by estimate only if each has an average time. -/
theorem average_of_lineUpByEstimate (hw : w.workflow.Checked) {options : PathOptions ℚ} :
    Leads (lineUpByEstimate options p order place) w
      (fun _ _ => ∀ t ∈ w.workflow.tasks, ∃ a, p.costs.average t.id = .ok a) fun _ _ => True := by
  unfold lineUpByEstimate
  rw [leads_bind, leads_modify, leads_bind, leads_get]
  have hk := (kept_unestimate w w.workflow.ids).kin.workflow
  generalize w.workflow.ids.foldl _ w = w₁ at hk ⊢
  dsimp only
  rw [leads_bind, leads_modify, leads_bind, leads_ofExcept]
  refine ⟨fun critical hcritical => ?_, fun _ _ => trivial⟩
  have haverage := average_of_criticalPath (hw.of_kin hk) hcritical
  refine leads_true.mono (fun _ _ _ t ht => ?_) fun _ _ _ => trivial
  obtain ⟨t', ht', hkt⟩ := Workflow.exists_of_kin hk (Workflow.find?_self ht)
  exact hkt.id ▸ haverage t' (Workflow.find?_eq_some.1 ht').1

/-! ## Planners -/

namespace Planner

/-- The settings with which a planner can plan. -/
def Sane (planner : Planner ℚ) : Prop :=
  match planner.strategy with
  | .byRank => True
  | .byEstimate options => 0 < options.fallback

variable (planner : Planner ℚ)

theorem kept_opening (c : Costs ℚ) (w : World ℚ) : Kept w (planner.opening c w) :=
  (kept_note w _).trans (kept_noteAll _ c.summary)

/-- A priced workflow is lined up with parents first, unless a planner by estimate finds a group of
siblings too wide. -/
theorem lineUp_leads (hs : planner.Sane) {c : Costs ℚ}
    (hc : Costs.ofWorkflow w.workflow w.vms = .ok c) (h : Rated w.workflow c)
    (hd : w.workflow.Distinct) :
    Leads planner.lineUp w
      (fun l w₁ => l.pricing = { vms := w.vms, costs := c, floor := planner.floor } ∧
        LinedUp planner.strategy l.pricing w w₁ l.order)
      fun fault _ => planner.strategy.Refuses w fault := by
  obtain ⟨order, horder, hr⟩ := h.checked.topologicalOrder
  have hfit : Fit w c order :=
    ⟨fun he => (roster_of_costs hc).1 (List.isEmpty_iff.1 he), Workflow.check_eq_ok.2 h.checked, hc, horder⟩
  have hk := planner.kept_opening c w
  have h₁ := h.of_kin hk.kin.workflow
  have hr₁ := hr.of_kin hk.kin.workflow
  unfold Leads
  rw [lineUp_eq hfit]
  cases hstrategy : planner.strategy with
  | byRank =>
    rw [arrange, hstrategy]
    exact (lineUpByRank_leads (p := ⟨w.vms, c, planner.floor⟩) h₁ hr₁).mono
      (fun _ _ hl => ⟨hl.1, hl.1 ▸ hl.2.of_kept hk⟩) fun _ _ h => h.elim
  | byEstimate options =>
    have hids : (order.map Task.id).Perm (planner.opening c w).workflow.ids := by
      rw [Workflow.ids_of_kin hk.kin.workflow]
      exact (Workflow.topologicalOrder_sound horder).1.map Task.id
    rw [Sane, hstrategy] at hs
    rw [arrange, hstrategy]
    exact (lineUpByEstimate_leads (p := ⟨w.vms, c, planner.floor⟩) h₁ (hd.of_kin hk.kin.workflow) hr₁
      hs hids).mono (fun _ _ hl => ⟨hl.1, hl.1 ▸ hl.2.of_kept hk⟩) fun _ _ h => h.of_kept hk

/-- A priced workflow is lined up if no group can be too wide. -/
theorem lineUp_ok (hs : planner.Sane) {c : Costs ℚ} (hc : Costs.ofWorkflow w.workflow w.vms = .ok c)
    (h : Rated w.workflow c) (hd : w.workflow.Distinct)
    (hwidth : ∀ options, planner.strategy = .byEstimate options → w.workflow.size ≤ options.maxWidth) :
    ∃ l w₁, planner.lineUp w = .ok l w₁ ∧ LinedUp planner.strategy l.pricing w w₁ l.order := by
  have hlead := planner.lineUp_leads hs hc h hd
  cases hl : planner.lineUp w with
  | ok l w₁ => exact ⟨l, w₁, rfl, (hlead.of_ok hl).2⟩
  | error fault w₁ =>
    obtain ⟨options, hstrategy, hlt, -⟩ := hlead.of_error hl
    exact absurd (hwidth options hstrategy) (not_le.2 hlt)

/-- Tasks are lined up only if each has an average time. -/
theorem rated_of_lineUp (h : planner.lineUp w = .ok l w₁) :
    ∃ c, Costs.ofWorkflow w.workflow w.vms = .ok c ∧ Rated w.workflow c := by
  obtain ⟨c, order, hfit⟩ := fit_of_lineUp h
  have hw := Workflow.check_eq_ok.1 hfit.check
  have hk := (planner.kept_opening c w).kin.workflow
  have haverage : Leads (planner.arrange ⟨w.vms, c, planner.floor⟩ order) (planner.opening c w)
      (fun _ _ => ∀ t ∈ (planner.opening c w).workflow.tasks, ∃ a, c.average t.id = .ok a)
      fun _ _ => True := by
    unfold arrange
    cases planner.strategy with
    | byRank => exact average_of_lineUpByRank (hw.of_kin hk)
    | byEstimate options => exact average_of_lineUpByEstimate (hw.of_kin hk)
  rw [lineUp_eq hfit] at h
  refine ⟨c, hfit.costs, rated_of_costs hw hfit.costs fun t ht => ?_⟩
  obtain ⟨t', ht', hkt⟩ := Workflow.exists_of_kin hk (Workflow.find?_self ht)
  exact hkt.id ▸ haverage.of_ok h t' (Workflow.find?_eq_some.1 ht').1

/-- A planner allocates what it lines up, unless it plans by estimate and a group of siblings is too
wide. -/
theorem run_leads (hs : planner.Sane) {c : Costs ℚ}
    (hc : Costs.ofWorkflow w.workflow w.vms = .ok c) (h : Rated w.workflow c)
    (hd : w.workflow.Distinct) :
    Leads planner.run w
      (fun plan w' => Planned planner.strategy { vms := w.vms, costs := c, floor := planner.floor }
        w plan w')
      fun fault _ => planner.strategy.Refuses w fault ∨
        Unplaced planner.strategy { vms := w.vms, costs := c, floor := planner.floor } w fault := by
  rw [run_eq, leads_bind]
  refine (planner.lineUp_leads hs hc h hd).mono (fun l w₁ hl => ?_) fun _ _ => Or.inl
  obtain ⟨hp, hl⟩ := hl
  rw [leads_bind]
  refine ((hp ▸ hl).allot_leads hp).mono (fun plan w' hplan => ?_) fun _ _ => Or.inr
  rw [leads_bind, leads_modify, leads_pure]
  exact hplan.noteAll _

/-- A planner succeeds only if every task has an average time. -/
theorem rated_of_run {plan : Plan ℚ} (hrun : planner.run w = .ok plan w') :
    ∃ c, Costs.ofWorkflow w.workflow w.vms = .ok c ∧ Rated w.workflow c := by
  obtain ⟨l, w₁, -, hl, -⟩ := exists_lineUp hrun
  exact planner.rated_of_lineUp hl

end Planner

/-- Every task is bound to a VM that is big enough. -/
def AllPlaced (w : World ℚ) : Prop := ∀ t ∈ w.workflow.tasks, Placed w.vms t

/-- A planner places every task, unless it refuses a group of siblings. -/
theorem Planner.run_places (planner : Planner ℚ) (hs : planner.Sane) {c : Costs ℚ}
    (hp : Priced { vms := w.vms, costs := c, floor := planner.floor } w) (hd : w.workflow.Distinct) :
    Leads planner.run w (fun _ w' => AllPlaced w') fun fault _ => planner.strategy.Refuses w fault := by
  refine (planner.run_leads hs hp.costs hp.rated hd).mono (fun plan w' h => ?_) fun _ _ h => ?_
  · obtain ⟨w₁, order, d, hl, halloc, hreport⟩ := h
    obtain ⟨hk, hd⟩ := (Draft.allocateAll_leads (hp.of_kept hl.kept) hl.topological).of_ok halloc
    unfold AllPlaced
    rw [hreport.workflow, hreport.vms]
    refine hd.placed fun x hx => ?_
    rw [Workflow.ids_of_kin hk.kin.workflow] at hx
    exact hl.topological.perm.mem_iff.2 hx
  · refine h.resolve_right fun hfail => ?_
    obtain ⟨w₁, order, d, hl, halloc⟩ := hfail
    exact (Draft.allocateAll_leads (hp.of_kept hl.kept) hl.topological).of_error halloc

/-- A planner returns if every task has a VM that is big enough, and no group can be too wide. -/
theorem Planner.run_ok (planner : Planner ℚ) (hs : planner.Sane) {c : Costs ℚ}
    (hp : Priced { vms := w.vms, costs := c, floor := planner.floor } w) (hd : w.workflow.Distinct)
    (hwidth : ∀ options, planner.strategy = .byEstimate options → w.workflow.size ≤ options.maxWidth) :
    ∃ plan w', planner.run w = .ok plan w' := by
  have hlead := planner.run_places hs hp hd
  cases hrun : planner.run w with
  | ok plan w' => exact ⟨plan, w', rfl⟩
  | error fault w' =>
    obtain ⟨options, hstrategy, hlt, -⟩ := hlead.of_error hrun
    exact absurd (hwidth options hstrategy) (not_le.2 hlt)

/-! ## Planning the detour -/

/-- Both strategies, to plan the detour by. -/
def detourStrategies : List (Strategy ℚ) := [.byRank, .byEstimate { fallback := 1 }]

section

variable {strategy : Strategy ℚ} (h : strategy ∈ detourStrategies)

include h

theorem built_detour : Planner.byRank (1 : ℚ) = .ok ⟨strategy, 1⟩ ∨
    ∃ options, Planner.byEstimate (1 : ℚ) options = .ok ⟨strategy, 1⟩ := by
  rcases List.mem_pair.1 h with rfl | rfl
  · exact Or.inl rfl
  · exact Or.inr ⟨{ fallback := 1 }, rfl⟩

/-- Such planners have valid settings, and no group of the detour is too wide for them. -/
theorem sane_detour (floor : ℚ) : Planner.Sane ⟨strategy, floor⟩ ∧
    ∀ options, strategy = .byEstimate options → detour.workflow.size ≤ options.maxWidth := by
  rcases List.mem_pair.1 h with rfl | rfl
  · exact ⟨trivial, fun _ he => by cases he⟩
  · refine ⟨one_pos, fun options he => ?_⟩
    obtain rfl := Strategy.byEstimate.inj he
    decide

theorem run_ok_detour (floor : ℚ) :
    ∃ plan w', (⟨strategy, floor⟩ : Planner ℚ).run detour = .ok plan w' := by
  obtain ⟨hsane, hwidth⟩ := sane_detour h floor
  obtain ⟨c, hp⟩ := priced_detour floor
  exact Planner.run_ok ⟨strategy, floor⟩ hsane hp distinct_detour hwidth

end

end FlowSched

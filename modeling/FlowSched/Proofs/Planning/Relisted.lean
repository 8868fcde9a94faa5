import FlowSched.Proofs.Pair
import FlowSched.Proofs.Relisted
import FlowSched.Proofs.Planning.ByRank
import FlowSched.Proofs.Planning.Longest

/-!
# Plans by rank, edges listed in another order

Planning by rank does not depend on the order in which edges are listed. A task ranks by the costliest
route from it, and the routes are the same; its inputs are there when the last of them is, whichever
comes first. So two runs on relisted workflows stay relisted allocation by allocation
(`Draft.allocateAll_relisted`), and one returns a plan exactly if the other returns an equal one
(`Planner.run_relisted`).
-/

namespace FlowSched

open Quantity Step

/-! ## Ranks -/

section

variable {w w' : Workflow ℚ} {vms : List (Vm ℚ)} {c c' : Costs ℚ} {ranks : Table ℚ}

/-- Only tasks are ranked. -/
theorem mem_ids_of_upwardRanks (h : upwardRanks w c = .ok ranks) {x : ℤ} {r : ℚ}
    (hx : ranks.get? x = some r) : x ∈ w.ids := by
  refine foldlM_keeps (P := fun ranks => ∀ x r, ranks.get? x = some r → x ∈ w.ids)
    (fun id _ ranks ranks' hranks hstep x r hx => ?_) (by simp) h x r hx
  obtain ⟨t, ht, hstep⟩ := bind_eq_ok.1 hstep
  obtain ⟨longest, -, hstep⟩ := bind_eq_ok.1 hstep
  obtain ⟨average, -, hstep⟩ := bind_eq_ok.1 hstep
  rw [← Except.ok.inj hstep, Table.get?_set] at hx
  split at hx
  · next he => exact he ▸ Workflow.mem_ids.2 ⟨t, Workflow.get_eq_ok.1 ht⟩
  · exact hranks x r hx

/-- A relisted task ranks by the same ways on. -/
theorem Upward.of_relisted {t t' : Task ℚ} {r : ℚ} (h : Upward c ranks t r) (ht : t.Relisted t')
    (hc : c.Agree c') : Upward c' ranks t' r := by
  obtain ⟨a, ha, hall, hor⟩ := h.onward
  refine ⟨ht.id ▸ h.rank, h.nonneg, a, ?_, fun x hx => ?_, hor.imp (fun hnone => ?_) fun hsome => ?_⟩
  · rw [ht.id, hc.average]
    exact ha
  · obtain ⟨m, rx, hm, hrx, hle⟩ := hall x (ht.children.mem_iff.1 hx)
    exact ⟨m, rx, ht.id ▸ (hc.moving _ _ _).2 hm, hrx, hle⟩
  · exact ⟨(hnone.1 ▸ ht.children).eq_nil, hnone.2⟩
  · obtain ⟨x, hx, m, rx, hm, hrx, he⟩ := hsome
    exact ⟨x, ht.children.mem_iff.2 hx, m, rx, ht.id ▸ (hc.moving _ _ _).2 hm, hrx, he⟩

/-- Where the tasks of a workflow are ranked, those of a relisted one are, and rank the same. -/
theorem upwardRanks_relisted (h : w.Relisted w') (hw : w.Checked)
    (hc : Costs.ofWorkflow w vms = .ok c) (hc' : Costs.ofWorkflow w' vms = .ok c')
    (hranks : upwardRanks w c = .ok ranks) :
    ∃ ranks', upwardRanks w' c' = .ok ranks' ∧ ∀ x, ranks'.get? x = ranks.get? x := by
  have hagree := agree_of_relisted h hc hc'
  have hw' := hw.of_relisted h
  have haverage := average_of_upwardRanks hw hranks
  obtain ⟨ranks₁, hok, hup⟩ := upwardRanks_ok (rated_of_costs hw hc haverage)
  obtain rfl := Except.ok.inj (hranks.symm.trans hok)
  obtain ⟨ranks', hranks', hup'⟩ := upwardRanks_ok (rated_of_costs hw' hc' fun t' ht' => by
    obtain ⟨t, ht, hr⟩ := h.exists_mem ht'
    rw [hr.id, hagree.average]
    exact haverage t ht)
  have hboth : ∀ t' ∈ w'.tasks, ∃ r, Upward c' ranks t' r := fun t' ht' => by
    obtain ⟨t, ht, hr⟩ := h.exists_mem ht'
    exact (hup t ht).imp fun r hu => hu.of_relisted hr hagree
  refine ⟨ranks', hranks', fun x => ?_⟩
  by_cases hx : x ∈ w'.ids
  · obtain ⟨t', ht', rfl⟩ := List.mem_map.1 hx
    obtain ⟨r, hr⟩ := hboth t' ht'
    obtain ⟨r', hr'⟩ := hup' t' ht'
    -- both are the cost of a costliest route
    rw [hr.rank, hr'.rank,
      (isGreatest_rank hw' hboth ht' hr).unique (isGreatest_rank hw' hup' ht' hr')]
  · have hnone : ∀ r, ¬ ranks.get? x = some r ∧ ¬ ranks'.get? x = some r := fun r =>
      ⟨fun hr => hx (h.ids ▸ mem_ids_of_upwardRanks hranks hr),
        fun hr => hx (mem_ids_of_upwardRanks hranks' hr)⟩
    rw [Option.eq_none_iff_forall_ne_some.2 fun r => (hnone r).1,
      Option.eq_none_iff_forall_ne_some.2 fun r => (hnone r).2]

end

/-! ## Allocation -/

/-- Worlds of relisted workflows. What their notes say is not compared. -/
structure World.Relisted (w w' : World ℚ) : Prop where
  workflow : w.workflow.Relisted w'.workflow
  vms : w'.vms = w.vms
  session : w'.session = w.session

theorem World.unnoted_relisted : Unnoted World.Relisted :=
  ⟨fun _ _ _ h => ⟨h.workflow, h.vms, h.session⟩, fun _ _ _ h => ⟨h.workflow, h.vms, h.session⟩⟩

theorem World.Relisted.symm {w w' : World ℚ} (h : w.Relisted w') : w'.Relisted w :=
  ⟨h.workflow.symm, h.vms.symm, h.session.symm⟩

/-- Allocations that read the same of a roster, of costs and of a floor. -/
structure Pricing.Agree (p p' : Pricing ℚ) : Prop where
  vms : p'.vms = p.vms
  costs : p.costs.Agree p'.costs
  floor : p'.floor = p.floor

theorem Pricing.Agree.symm {p p' : Pricing ℚ} (h : p.Agree p') : p'.Agree p :=
  ⟨h.vms.symm, h.costs.symm, h.floor.symm⟩

namespace Draft

/-- Drafts of relisted workflows in which the same has been planned. -/
structure Relisted (d d' : Draft ℚ) : Prop where
  world : d.toWorld.Relisted d'.toWorld
  timelines : d'.timelines = d.timelines
  finishes : d'.finishes = d.finishes
  order : d'.order = d.order

variable {p p' : Pricing ℚ} {d d' : Draft ℚ} {t t' : Task ℚ} {vm x : ℤ}

theorem Relisted.symm (h : d.Relisted d') : d'.Relisted d :=
  ⟨h.world.symm, h.timelines.symm, h.finishes.symm, h.order.symm⟩

section

variable (h : d.Relisted d') (hp : p.Agree p') (ht : t.Relisted t')

include h hp ht

theorem arrival_relisted {parent : ℤ} {time : ℚ} (ha : d.arrival p t vm parent = .ok time) :
    d'.arrival p' t' vm parent = .ok time := by
  unfold arrival at ha ⊢
  rw [h.finishes]
  cases hf : d.finishes.get? parent with
  | none =>
    rw [hf] at ha
    cases ha
  | some finish =>
    rw [hf] at ha
    obtain ⟨u, hu, ha⟩ := bind_eq_ok.1 ha
    obtain ⟨u', hu', hru⟩ := h.world.workflow.exists_find? (Workflow.get_eq_ok.1 hu)
    dsimp only
    rw [Workflow.get_eq_ok.2 hu', ok_bind, hru.vm, ht.id]
    split at ha
    · next he =>
      rw [if_pos he]
      exact ha
    · next hne =>
      obtain ⟨time', htime, ha⟩ := bind_eq_ok.1 ha
      rw [if_neg hne, (hp.costs.moving _ _ _).2 htime]
      exact ha

/-- A task is ready when the last of its inputs is there, in whatever order its parents are listed. -/
theorem readyTime_relisted {ready : ℚ} (hr : d.readyTime p t vm = .ok ready) :
    d'.readyTime p' t' vm = .ok ready := by
  obtain ⟨times, htimes, rfl⟩ := foldlM_eq_ok.1 hr
  have htimes' : t.parents.mapM (d'.arrival p' t' vm) = .ok times :=
    mapM_eq_ok.2 ((mapM_eq_ok.1 htimes).imp fun _ _ ha => arrival_relisted h hp ht ha)
  obtain ⟨times', hok, hperm⟩ := mapM_of_perm ht.parents htimes'
  have hcomm : RightCommutative (later (α := ℚ)) := ⟨fun a b c => by
    simp only [later_eq_max, max_right_comm]⟩
  rw [readyTime, hp.floor]
  exact foldlM_eq_ok.2 ⟨times', hok, hperm.foldl_eq p.floor⟩

/-- A VM makes the same offer. -/
theorem offer?_relisted {o : Option (Offer ℚ)} (ho : d.offer? p t vm = .ok o) :
    d'.offer? p' t' vm = .ok o := by
  unfold offer? at ho ⊢
  obtain ⟨ready, hready, ho⟩ := bind_eq_ok.1 ho
  obtain ⟨cost, hcost, ho⟩ := bind_eq_ok.1 ho
  rw [readyTime_relisted h hp ht hready, ok_bind, ht.id, hp.costs.computing, hcost, ok_bind, h.timelines]
  exact ho

theorem bestOffer?_relisted {o : Option (Offer ℚ)} (ho : d.bestOffer? p t = .ok o) :
    d'.bestOffer? p' t' = .ok o := by
  obtain ⟨offers, hoffers, he⟩ := foldlM_eq_ok.1 ho
  rw [bestOffer?, hp.vms]
  exact foldlM_eq_ok.2 ⟨offers, mapM_eq_ok.2 ((mapM_eq_ok.1 hoffers).imp fun _ _ hv =>
    offer?_relisted h hp ht hv), he⟩

omit hp in
/-- The same offer is accepted in the same way. -/
theorem accept_relisted (line : Timeline ℚ) (o : Offer ℚ) :
    (d.accept t line o).Relisted (d'.accept t' line o) where
  world := by
    refine ⟨?_, h.world.vms, ?_⟩
    · show (d.workflow.modify t.id _).Relisted (d'.workflow.modify t'.id _)
      rw [ht.id]
      refine h.world.workflow.modify t.id (fun u => ?_) fun u u' hu => ?_
      · split <;> rfl
      · by_cases he : u.isEstimated = true
        · rw [if_pos he, if_pos (hu.isEstimated.trans he)]
          exact ⟨congrArg (fun u : Task ℚ => { u with vm := o.vm }) hu.same, hu.parents, hu.children,
            hu.transfers⟩
        · rw [if_neg he, if_neg (hu.isEstimated.symm ▸ he)]
          exact ⟨congrArg (fun u : Task ℚ => { u with
              vm := o.vm, plannedStart := o.finish - o.cost, plannedFinish := o.finish }) hu.same,
            hu.parents, hu.children, hu.transfers⟩
    · show ({ d'.session with planned := d'.session.planned ++ [t'.id] } : Session) = _
      rw [h.world.session, ht.id]
      rfl
  timelines := by
    show d'.timelines.set o.vm (line.occupy t'.id o.cost o.ready) = _
    rw [h.timelines, ht.id]
    rfl
  finishes := by
    show d'.finishes.set t'.id o.finish = _
    rw [h.finishes, ht.id]
    rfl
  order := by
    show d'.order ++ [t'.id] = d.order ++ [t.id]
    rw [h.order, ht.id]

end

/-- Where a task is allocated in one draft, it is in a relisted one. -/
theorem allocate_ok_relisted {u : Draft ℚ} (h : d.Relisted d') (hp : p.Agree p')
    (hu : allocate p x d = .ok () u) : ∃ u', allocate p' x d' = .ok () u' ∧ u.Relisted u' := by
  obtain ⟨t, line, o, ht, hbest, hline, rfl⟩ := allocate_eq_ok.1 hu
  obtain ⟨t', ht', hr⟩ := h.world.workflow.exists_find? ht
  exact ⟨_, allocate_eq_ok.2 ⟨t', line, o, ht', bestOffer?_relisted h hp hr hbest,
    h.timelines.symm ▸ hline, rfl⟩, accept_relisted h hr line o⟩

/-- Tasks are allocated in relisted drafts alike. -/
theorem allocateAll_relisted (h : d.Relisted d') (hp : p.Agree p') (order : List ℤ) :
    Both (allocateAll p order) d (allocateAll p' order) d' (fun _ u _ u' => u.Relisted u')
      fun _ _ _ _ => True := by
  refine Both.each (f := allocate p) (g := allocate p') (I := fun _ u u' => Draft.Relisted u u')
    (fun x _ u u' hu => both_of_ok (fun _ v hv => ?_) fun _ v' hv' => ?_) h
  · obtain ⟨v', hv', hr⟩ := allocate_ok_relisted hu hp hv
    exact ⟨(), v', hv', hr⟩
  · obtain ⟨v, hv, -⟩ := allocate_ok_relisted hu.symm hp.symm hv'
    exact ⟨(), v, hv⟩

/-- Relisted drafts amount to the same plan. -/
theorem Relisted.plan_eq (h : d.Relisted d') : d'.plan = d.plan := by
  have hvm : ∀ x, (d'.workflow.find? x).map Task.vm = (d.workflow.find? x).map Task.vm := by
    intro x
    have hfind := h.world.workflow.find? x
    generalize d.workflow.find? x = r at hfind
    generalize d'.workflow.find? x = r' at hfind
    cases hfind with
    | none => rfl
    | some hr => rw [Option.map_some, Option.map_some, hr.vm]
  unfold plan
  rw [h.order, h.finishes, h.timelines]
  simp only [hvm]

theorem relisted_fresh {w w' : World ℚ} (h : w.Relisted w') : (fresh w).Relisted (fresh w') :=
  ⟨h, by unfold fresh; rw [h.vms], rfl, rfl⟩

end Draft

/-! ## Planning -/

/-- Line-ups in which the same tasks rank the same and come in the same order. -/
structure Lineup.Agree (l l' : Lineup ℚ) : Prop where
  pricing : l.pricing.Agree l'.pricing
  order : l'.order = l.order
  ranks : ∀ x, l'.ranks.get? x = l.ranks.get? x

/-- Plans that agree on the rank of each task and on when, where and in which order tasks are planned. -/
structure Plan.Agree (plan plan' : Plan ℚ) : Prop where
  ranks : ∀ x, plan'.ranks.get? x = plan.ranks.get? x
  order : plan'.order = plan.order
  assignment : plan'.assignment = plan.assignment
  finishes : plan'.finishes = plan.finishes
  timelines : plan'.timelines = plan.timelines

/-- What has been lined up alike is allocated alike. -/
theorem Lineup.allot_relisted {l l' : Lineup ℚ} {w w' : World ℚ} (hl : l.Agree l') (h : w.Relisted w') :
    Both l.allot w l'.allot w' (fun plan u plan' u' => plan.Agree plan' ∧ u.Relisted u')
      fun _ _ _ _ => True := by
  unfold allot
  rw [hl.order]
  refine within_both (Draft.allocateAll_relisted (Draft.relisted_fresh h) hl.pricing l.order)
    fun _ d _ d' hd => both_pure.2 ⟨?_, hd.world⟩
  have hassignment : d'.plan.assignment = d.plan.assignment := by rw [hd.plan_eq]
  exact ⟨hl.ranks, hd.order, hassignment, hd.finishes, hd.timelines⟩

namespace Planner

variable {planner : Planner ℚ} {w w' : World ℚ} {c : Costs ℚ} {order : List (Task ℚ)}

/-- Where nothing stands in the way of a planner, nothing does in a relisted world. -/
theorem Fit.relisted (hfit : Fit w c order) (h : w.Relisted w') :
    ∃ c' order', Fit w' c' order' ∧ Workflow.place order' = Workflow.place order := by
  obtain ⟨c', hc'⟩ := exists_costs_of_relisted h.workflow hfit.costs
  obtain ⟨order', ho', hids⟩ := Workflow.topologicalOrder_relisted h.workflow hfit.order
  have hw := (Workflow.check_eq_ok.1 hfit.check).of_relisted h.workflow
  refine ⟨c', order', ⟨h.vms ▸ hfit.roster, Workflow.check_eq_ok.2 hw, h.vms ▸ hc', ho'⟩, ?_⟩
  funext x
  rw [Workflow.place_eq_idxOf, Workflow.place_eq_idxOf, hids]

/-- What a planner by rank lines up. -/
theorem lineUp_eq_ok (hstrategy : planner.strategy = .byRank) {l : Lineup ℚ} {w₁ : World ℚ} :
    planner.lineUp w = .ok l w₁ ↔ ∃ c order ranks, Fit w c order ∧
      upwardRanks w.workflow c = .ok ranks ∧
      .ofRanks { vms := w.vms, costs := c, floor := planner.floor } (Workflow.place order) w.workflow
        ranks = l ∧
      (planner.opening c w).noteAll (ranks.entries.map fun e => .ranked e.1 e.2) = w₁ := by
  have hopen : ∀ {c order}, Fit w c order → (planner.lineUp w = .ok l w₁ ↔ ∃ ranks,
      upwardRanks w.workflow c = .ok ranks ∧
      .ofRanks { vms := w.vms, costs := c, floor := planner.floor } (Workflow.place order) w.workflow
        ranks = l ∧
      (planner.opening c w).noteAll (ranks.entries.map fun e => .ranked e.1 e.2) = w₁) := by
    intro c order hfit
    have hworkflow : (planner.opening c w).workflow = w.workflow := (noteAll_eq _ _).1
    rw [lineUp_eq hfit, arrange, hstrategy, ← hworkflow]
    exact lineUpByRank_eq_ok
  constructor
  · intro hl
    obtain ⟨c, order, hfit⟩ := fit_of_lineUp hl
    obtain ⟨ranks, hranks⟩ := (hopen hfit).1 hl
    exact ⟨c, order, ranks, hfit, hranks⟩
  · rintro ⟨c, order, ranks, hfit, hranks⟩
    exact (hopen hfit).2 ⟨ranks, hranks⟩

/-- Tasks of a relisted world are lined up alike. -/
theorem lineUp_relisted (hstrategy : planner.strategy = .byRank) (h : w.Relisted w') {l : Lineup ℚ}
    {w₁ : World ℚ} (hl : planner.lineUp w = .ok l w₁) :
    ∃ l' w₁', planner.lineUp w' = .ok l' w₁' ∧ l.Agree l' ∧ w₁.Relisted w₁' := by
  obtain ⟨c, order, ranks, hfit, hranks, rfl, rfl⟩ := (lineUp_eq_ok hstrategy).1 hl
  obtain ⟨c', order', hfit', hplace⟩ := hfit.relisted h
  have hc' : Costs.ofWorkflow w'.workflow w.vms = .ok c' := h.vms ▸ hfit'.costs
  obtain ⟨ranks', hranks', hsame⟩ := upwardRanks_relisted h.workflow
    (Workflow.check_eq_ok.1 hfit.check) hfit.costs hc' hranks
  have horder : (Lineup.ofRanks ⟨w'.vms, c', planner.floor⟩ (Workflow.place order') w'.workflow
      ranks').order = (Lineup.ofRanks ⟨w.vms, c, planner.floor⟩ (Workflow.place order) w.workflow
        ranks).order := by
    simp only [Lineup.ofRanks, h.workflow.ids, hplace, hsame]
  exact ⟨_, _, (lineUp_eq_ok hstrategy).2 ⟨c', order', ranks', hfit', hranks', rfl, rfl⟩,
    ⟨⟨h.vms, agree_of_relisted h.workflow hfit.costs hc', rfl⟩, horder, hsame⟩,
    World.unnoted_relisted.noteAll (World.unnoted_relisted.noteAll h (_ :: c.summary) (_ :: c'.summary)) _ _⟩

/-- A planner by rank returns a plan for a workflow exactly if it does for a relisted one, and then the
plans agree. -/
theorem run_relisted (planner : Planner ℚ) (floor : ℚ) (w w' : World ℚ)
    (hbuilt : byRank floor = .ok planner) (h : w.Relisted w') :
    Both planner.run w planner.run w' (fun plan u plan' u' => plan.Agree plan' ∧ u.Relisted u')
      fun _ _ _ _ => True := by
  have hstrategy := strategy_of_byRank hbuilt
  rw [run_eq]
  refine (both_of_ok (fun _ _ => lineUp_relisted hstrategy h) fun l' w₁' hl' => ?_).bind
    fun l w₁ l' w₁' hl => (Lineup.allot_relisted hl.1 hl.2).bind
      fun plan u plan' u' hplan => modify_both.2 (both_pure.2 ⟨hplan.1, World.unnoted_relisted.noteAll hplan.2 _ _⟩)
  obtain ⟨l, w₁, hl, -⟩ := lineUp_relisted hstrategy h.symm hl'
  exact ⟨l, w₁, hl⟩

/-- The detour with its edges added from the last to the first. -/
def backtrack : World ℚ where
  workflow :=
    { tasks := [{ id := 1, length := 10, children := [3, 2] },
        { id := 2, length := 10, parents := [1], children := [4], transfers := ⟨[(1, 1)]⟩ },
        { id := 3, length := 20, parents := [1], children := [4], transfers := ⟨[(1, 2)]⟩ },
        { id := 4, length := 10, parents := [3, 2], transfers := ⟨[(3, 1), (2, 1)]⟩ },
        { id := 5, length := 30, elements := 2 }]
      nodup := by decide }
  vms := detour.vms

theorem relisted_backtrack : detour.Relisted backtrack := by
  refine ⟨.cons ?_ (.cons ?_ (.cons ?_ (.cons ?_ (.cons ?_ .nil)))), rfl, rfl⟩
  all_goals exact ⟨rfl, by decide, by decide, by decide, by decide⟩

theorem run_relisted_backtrack : ∃ planner plan plan' u u', byRank (1 : ℚ) = .ok planner ∧
    planner.run detour = .ok plan u ∧ planner.run backtrack = .ok plan' u' ∧ plan.Agree plan' := by
  obtain ⟨c, hp⟩ := priced_detour 1
  obtain ⟨plan, u, hrun⟩ := run_ok ⟨.byRank, 1⟩ trivial hp distinct_detour fun _ he => by cases he
  obtain ⟨plan', u', hrun', hagree, -⟩ :=
    (run_relisted ⟨.byRank, 1⟩ 1 detour backtrack rfl relisted_backtrack).of_ok hrun
  exact ⟨_, plan, plan', u, u', rfl, hrun, hrun', hagree⟩

end Planner

end FlowSched

import FlowSched.Proofs.Planning.Consistent

/-!
# Estimates of a plan

Allocation binds tasks and changes no estimate (`allocateAll_rebinds`). So whenever a planner by
estimate returns, on whatever roster, every task has an estimate on instants of its own, behind those
of its parents, and the tasks were allocated in the order of these estimates
(`Planner.run_estimated`).
-/

namespace FlowSched

open Quantity Step

namespace Workflow

/-- Workflows that differ in the bindings of their tasks only. -/
structure Rebound (w w' : Workflow ℚ) : Prop where
  ids : w'.ids = w.ids
  tasks : ∀ x t, w.find? x = some t → ∃ vm, w'.find? x = some { t with vm := vm }

variable {w w' w'' : Workflow ℚ}

theorem Rebound.refl (w : Workflow ℚ) : w.Rebound w := ⟨rfl, fun _ t ht => ⟨t.vm, ht⟩⟩

theorem Rebound.trans (h : w.Rebound w') (h' : w'.Rebound w'') : w.Rebound w'' := by
  refine ⟨h'.ids.trans h.ids, fun x t ht => ?_⟩
  obtain ⟨vm, ht'⟩ := h.tasks x t ht
  obtain ⟨vm', ht''⟩ := h'.tasks x _ ht'
  exact ⟨vm', ht''⟩

theorem Rebound.exists_task (h : w.Rebound w') {t' : Task ℚ} (ht' : t' ∈ w'.tasks) :
    ∃ t ∈ w.tasks, ∃ vm, t' = { t with vm := vm } := by
  have hid : t'.id ∈ w.ids := h.ids ▸ List.mem_map_of_mem ht'
  obtain ⟨t, ht⟩ := mem_ids.1 hid
  obtain ⟨vm, hvm⟩ := h.tasks t'.id t ht
  exact ⟨t, (find?_eq_some.1 ht).1, vm, Option.some.inj ((find?_self ht').symm.trans hvm)⟩

/-- Estimates do not depend on bindings. -/
theorem Estimated.of_rebound {floor : ℚ} {c : Costs ℚ} (he : w.Estimated floor c)
    (h : w.Rebound w') : w'.Estimated floor c := by
  refine ⟨fun t' ht' => ?_, fun t' ht' => ?_, fun t' ht' => ?_, fun t' ht' u' hu' hne => ?_,
    fun t' ht' x hx => ?_⟩
  all_goals obtain ⟨t, ht, vm, rfl⟩ := h.exists_task ht'
  · exact he.estimated t ht
  · exact he.floor_le t ht
  · exact he.finish t ht
  · obtain ⟨u, hu, vm', rfl⟩ := h.exists_task hu'
    exact he.apart t ht u hu hne
  · obtain ⟨u, hu, hlt⟩ := he.behind t ht x hx
    obtain ⟨vm', hu'⟩ := h.tasks x u hu
    exact ⟨_, hu', hlt⟩

end Workflow

namespace Draft

variable {p : Pricing ℚ} {d : Draft ℚ} {t : Task ℚ}

/-- An estimated task keeps its estimate when it is bound. -/
theorem rebound_accept (ht : t ∈ d.workflow.tasks) (he : t.isEstimated = true) (line : Timeline ℚ)
    (o : Offer ℚ) : d.workflow.Rebound (d.accept t line o).workflow := by
  refine ⟨Workflow.ids_of_kin (kept_accept d t line o).kin.workflow, fun x u hu => ?_⟩
  by_cases hx : x = t.id
  · subst hx
    obtain rfl := Option.some.inj ((Workflow.find?_self ht).symm.trans hu)
    refine ⟨o.vm, ?_⟩
    show (d.workflow.modify t.id _).find? t.id = _
    rw [Workflow.find?_modify_self (Workflow.find?_self ht), if_pos he]
  · exact ⟨u.vm, (Workflow.find?_modify_of_ne hx).trans hu⟩

/-- Allocation appends the order it is given, and rebinds estimated tasks without touching their
estimates. -/
theorem allocateAll_rebinds (order : List ℤ) (d : Draft ℚ)
    (hall : ∀ t ∈ d.workflow.tasks, t.isEstimated = true) :
    Leads (allocateAll p order) d
      (fun _ d' => d'.order = d.order ++ order ∧ d.workflow.Rebound d'.workflow) fun _ _ => True := by
  refine Leads.each_done
    (I := fun done d' => d'.order = d.order ++ done ∧ d.workflow.Rebound d'.workflow)
    (fun done x rest d' _ hI => leads_allocate (fun t line o ht _ _ => ?_) fun _ => trivial)
    ⟨(List.append_nil _).symm, .refl _⟩
  obtain ⟨horder, hrebound⟩ := hI
  obtain ⟨hm, rfl⟩ := Workflow.find?_eq_some.1 ht
  obtain ⟨u, hu, vm, rfl⟩ := hrebound.exists_task hm
  refine ⟨?_, hrebound.trans (rebound_accept hm (hall u hu) line o)⟩
  rw [← List.append_assoc, ← horder]
  rfl

end Draft

theorem Planner.strategy_of_byEstimate {planner : Planner ℚ} {floor : ℚ} {options : PathOptions ℚ}
    (h : byEstimate floor options = .ok planner) : planner.strategy = .byEstimate options := by
  unfold byEstimate at h
  split_ifs at h
  rw [← Except.ok.inj h]

/-- What was lined up by estimate is estimated all over once it has been allocated. -/
theorem Planned.estimated {options : PathOptions ℚ} {p : Pricing ℚ} {w w' : World ℚ} {plan : Plan ℚ}
    (h : Planned (.byEstimate options) p w plan w') : w'.workflow.Estimated p.floor p.costs := by
  obtain ⟨w₁, order, d, hl, halloc, hreport⟩ := h
  obtain ⟨hest, -⟩ := hl.estimates options rfl
  obtain ⟨-, hrebound⟩ :=
    (Draft.allocateAll_rebinds order (Draft.fresh w₁) hest.estimated).of_ok halloc
  exact hreport.workflow ▸ hest.of_rebound hrebound

/-- Whenever a planner by estimate returns, its estimates are proper, and it has allocated the tasks in
the order of their estimated starts, parents first. -/
theorem Planner.run_estimated (planner : Planner ℚ) (floor : ℚ) (options : PathOptions ℚ)
    (w w' : World ℚ) (plan : Plan ℚ) (hbuilt : byEstimate floor options = .ok planner)
    (hd : w.workflow.Distinct) (hrun : planner.run w = .ok plan w') :
    ∃ c, Costs.ofWorkflow w.workflow w.vms = .ok c ∧ Kept w w' ∧ w'.workflow.Estimated floor c ∧
      w'.workflow.Topological plan.order ∧ plan.order.Pairwise fun x y =>
        ∀ t u, w'.workflow.find? x = some t → w'.workflow.find? y = some u →
          t.plannedStart ≤ u.plannedStart := by
  obtain ⟨rfl, -, hsane⟩ := sane_of_built (Or.inr ⟨options, hbuilt⟩)
  obtain ⟨c, hc, -, w₁, order, d, hl, halloc, hreport⟩ := planned_of_run hsane hd hrun
  obtain ⟨hest, hsorted⟩ := hl.estimates options (strategy_of_byEstimate hbuilt)
  obtain ⟨horder, hrebound⟩ :=
    (Draft.allocateAll_rebinds order (Draft.fresh w₁) hest.estimated).of_ok halloc
  have hkin := ((Draft.keeps_allocateAll _ order (Draft.fresh w₁)).of_ok halloc).kin.workflow
  have hplan : plan.order = order := by
    rw [hreport.plan]
    exact horder
  rw [hplan, hreport.workflow]
  refine ⟨c, hc, (planner.keeps_run w).of_ok hrun, hest.of_rebound hrebound,
    hl.topological.of_kin hkin, hsorted.imp fun {x y} hxy t' u' ht' hu' => ?_⟩
  obtain ⟨t, ht, -⟩ := Workflow.exists_of_kin hkin.symm ht'
  obtain ⟨u, hu, -⟩ := Workflow.exists_of_kin hkin.symm hu'
  obtain ⟨vm, hvm⟩ := hrebound.tasks x t ht
  obtain ⟨vm', hvm'⟩ := hrebound.tasks y u hu
  obtain rfl := Option.some.inj (ht'.symm.trans hvm)
  obtain rfl := Option.some.inj (hu'.symm.trans hvm')
  exact hxy t u ht hu

theorem Planner.run_estimated_detour : ∃ planner c plan w',
    byEstimate (1 : ℚ) { fallback := 1 } = .ok planner ∧ planner.run detour = .ok plan w' ∧
      w'.workflow.Estimated 1 c ∧ w'.workflow.Topological plan.order := by
  have hmem : Strategy.byEstimate { fallback := (1 : ℚ) } ∈ detourStrategies := by simp [detourStrategies]
  have hbuilt : byEstimate (1 : ℚ) { fallback := 1 } = .ok ⟨.byEstimate { fallback := 1 }, 1⟩ := rfl
  obtain ⟨plan, w', hrun⟩ := run_ok_detour hmem 1
  obtain ⟨c, -, -, hest, htop, -⟩ := run_estimated _ 1 _ detour w' plan hbuilt distinct_detour hrun
  exact ⟨_, c, plan, w', hbuilt, hrun, hest, htop⟩

end FlowSched

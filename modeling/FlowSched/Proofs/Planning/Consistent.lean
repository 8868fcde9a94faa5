import FlowSched.Proofs.Planning.Planner

/-!
# Consistent plans

Whenever a planner returns, its plan is consistent (`Planner.run_consistent`): the slots of a VM never
overlap, every task stands in exactly one slot, on a VM that is big enough and from when its inputs are
there, tasks were allocated parents first, and the last planned end is that of some timeline.
-/

namespace FlowSched

open Quantity Step

/-- A plan in which the slots of each VM stand in order and apart, every task is booked in one of them
and on the VM it is assigned, parents were allocated first, and the makespan is that of a timeline. -/
structure Plan.Consistent (p : Pricing ℚ) (w : Workflow ℚ) (plan : Plan ℚ) : Prop where
  apart : ∀ line ∈ plan.timelines.values, line.slots.Pairwise fun a b =>
    a.start ≤ b.start ∧ a.finish ≤ b.start
  once : ((reserved plan.timelines).map Slot.task).Perm w.ids
  booked : ∀ t ∈ w.tasks, plan.assignment.get? t.id = some t.vm ∧
    ∃ slot, Booked p w plan.timelines plan.finishes t slot
  order : w.Topological plan.order
  makespan : plan.makespan = latest (plan.timelines.values.map Timeline.makespan)

namespace Draft

variable {p : Pricing ℚ} {d : Draft ℚ} {order : List ℤ}

section

variable (h : Allotted p order d)

include h

/-- No slot ends before the floor. -/
theorem Allotted.floor_le : ∀ slot ∈ reserved d.timelines, p.floor ≤ slot.finish := by
  intro slot hs
  obtain ⟨t, booked, ht, hb⟩ := h.booked slot.task (h.once.subset (List.mem_map_of_mem hs))
  have hknown := h.known slot hs
  rw [← (Workflow.find?_eq_some.1 ht).2] at hknown
  have hfinish : booked.finish = slot.finish := Option.some.inj (hb.finish.symm.trans hknown)
  obtain ⟨line, hline, hm⟩ := hb.stands
  rw [← hfinish]
  exact hb.floor.trans ((h.tidy line (Table.mem_values hline)).forward booked hm)

/-- The last planned end is that of a timeline. -/
theorem Allotted.latest_finishes (hfloor : 0 ≤ p.floor) :
    latest d.finishes.values = latest (d.timelines.values.map Timeline.makespan) := by
  have hmem : ∀ line ∈ d.timelines.values, ∀ slot ∈ line.slots, slot ∈ reserved d.timelines :=
    fun line hl slot hs => List.mem_flatMap.2 ⟨line, hl, hs⟩
  have hvalue : ∀ slot ∈ reserved d.timelines, slot.finish ∈ d.finishes.values := fun slot hs =>
    Table.mem_values (h.known slot hs)
  rcases eq_or_ne d.finishes.values [] with hnil | hne
  · -- nothing has been planned, so all timelines are empty
    have hzero : ∀ m ∈ d.timelines.values.map Timeline.makespan, m = 0 := by
      intro m hm
      obtain ⟨line, hl, rfl⟩ := List.mem_map.1 hm
      refine Timeline.makespan_nil (List.eq_nil_iff_forall_not_mem.2 fun slot hs => ?_)
      have hv := hvalue slot (hmem line hl slot hs)
      rw [hnil] at hv
      cases hv
    rw [hnil, latest_nil]
    rcases eq_or_ne (d.timelines.values.map Timeline.makespan) [] with he | hne
    · rw [he, latest_nil]
    · exact (hzero _ (latest_mem hne)).symm
  · obtain ⟨slot, hs, hlast⟩ := h.ended _ (latest_mem hne)
    obtain ⟨line, hl, hsl⟩ := List.mem_flatMap.1 hs
    have hle : ∀ line ∈ d.timelines.values, line.makespan ≤ latest d.finishes.values := by
      intro line hl
      rcases eq_or_ne line.slots [] with he | hne
      · rw [Timeline.makespan_nil he, ← hlast]
        exact hfloor.trans (h.floor_le slot hs)
      · obtain ⟨last, hm, he⟩ := Timeline.makespan_mem hne
        exact he ▸ le_latest (hvalue last (hmem line hl last hm))
    have heq : line.makespan = latest d.finishes.values :=
      le_antisymm (hle line hl) (hlast ▸ Timeline.finish_le_makespan (h.tidy line hl) slot hsl)
    refine (latest_eq (heq ▸ List.mem_map_of_mem hl) fun m hm => ?_).symm
    obtain ⟨line', hl', rfl⟩ := List.mem_map.1 hm
    exact hle line' hl'

/-- A draft in which all tasks are allocated makes a consistent plan. -/
theorem Allotted.consistent (htop : d.workflow.Topological order) (hfloor : 0 ≤ p.floor) {plan : Plan ℚ}
    {w' : World ℚ} (hr : d.Reported plan w') : plan.Consistent p w'.workflow := by
  have hnodup : order.Nodup := htop.perm.nodup_iff.2 d.workflow.nodup
  rw [hr.plan, hr.workflow]
  refine ⟨fun line hl => ?_, h.once.trans htop.perm, fun t ht => ⟨?_, ?_⟩, ?_, h.latest_finishes hfloor⟩
  · exact (h.tidy line hl).sorted.and (h.tidy line hl).apart
  · have hm : t.id ∈ d.order := h.order ▸ htop.perm.mem_iff.2 (List.mem_map_of_mem ht)
    have hget := Table.get?_ofList_map
      (f := fun id => (id, ((d.workflow.find? id).map Task.vm).getD unbound))
      (by simpa [h.order] using hnodup) hm
    rw [Workflow.find?_self ht] at hget
    exact hget
  · obtain ⟨u, slot, hu, hb⟩ := h.booked t.id (htop.perm.mem_iff.2 (List.mem_map_of_mem ht))
    obtain rfl := Option.some.inj ((Workflow.find?_self ht).symm.trans hu)
    exact ⟨slot, hb⟩
  · show d.workflow.Topological d.order
    rwa [h.order]

end

end Draft

/-- What is rated can be priced: a task with an average time has a VM that is big enough. -/
theorem Rated.priced {w : World ℚ} {c : Costs ℚ} (h : Rated w.workflow c) (hids : (w.vms.map Vm.id).Nodup)
    (hc : Costs.ofWorkflow w.workflow w.vms = .ok c) (floor : ℚ) :
    Priced { vms := w.vms, costs := c, floor } w := by
  refine ⟨h.checked, hids, rfl, hc, fun t ht => ?_⟩
  obtain ⟨a, ha, -⟩ := h.average t ht
  exact exists_fit_of_average hc ht ha

namespace Planner

variable {planner : Planner ℚ} {floor : ℚ} {w w' : World ℚ} {plan : Plan ℚ}

/-- What is checked of the settings of a planner. -/
theorem sane_of_built (h : byRank floor = .ok planner ∨ ∃ options, byEstimate floor options = .ok planner) :
    planner.floor = floor ∧ 0 ≤ floor ∧ planner.Sane := by
  rcases h with h | ⟨options, h⟩
  · unfold byRank at h
    split_ifs at h with hneg
    obtain rfl := Except.ok.inj h
    exact ⟨rfl, not_lt.1 hneg, trivial⟩
  · unfold byEstimate at h
    split_ifs at h with hneg hwidth hlatency
    obtain rfl := Except.ok.inj h
    exact ⟨rfl, not_lt.1 hneg, not_le.1 hlatency⟩

/-- A plan comes of what its planner lined up, with an average time for every task. -/
theorem planned_of_run (hs : planner.Sane) (hd : w.workflow.Distinct)
    (hrun : planner.run w = .ok plan w') :
    ∃ c, Costs.ofWorkflow w.workflow w.vms = .ok c ∧ Rated w.workflow c ∧
      Planned planner.strategy { vms := w.vms, costs := c, floor := planner.floor } w plan w' := by
  obtain ⟨c, hc, hrated⟩ := planner.rated_of_run hrun
  exact ⟨c, hc, hrated, (planner.run_leads hs hc hrated hd).of_ok hrun⟩

/-- Where ids are distinct, a planner returns a consistent plan or none, and changes nothing but what
planning writes. -/
theorem run_consistent (planner : Planner ℚ) (floor : ℚ) (w w' : World ℚ) (plan : Plan ℚ)
    (hbuilt : byRank floor = .ok planner ∨ ∃ options, byEstimate floor options = .ok planner)
    (hd : w.workflow.Distinct) (hids : (w.vms.map Vm.id).Nodup)
    (hrun : planner.run w = .ok plan w') :
    ∃ c, Costs.ofWorkflow w.workflow w.vms = .ok c ∧ Kept w w' ∧
      plan.Consistent { vms := w.vms, costs := c, floor } w'.workflow := by
  obtain ⟨rfl, hfloor, hsane⟩ := sane_of_built hbuilt
  obtain ⟨c, hc, hrated, w₁, order, d, hl, halloc, hreport⟩ := planned_of_run hsane hd hrun
  have hp := hrated.priced hids hc planner.floor
  obtain ⟨hk, hallotted⟩ := (Draft.allocateAll_leads (hp.of_kept hl.kept) hl.topological).of_ok halloc
  exact ⟨c, hc, (planner.keeps_run w).of_ok hrun,
    hallotted.consistent (hl.topological.of_kin hk.kin.workflow) hfloor hreport⟩

theorem run_consistent_detour : detour.workflow.Distinct ∧ (detour.vms.map Vm.id).Nodup ∧
    ∀ strategy ∈ detourStrategies,
    (byRank (1 : ℚ) = .ok ⟨strategy, 1⟩ ∨ ∃ options, byEstimate (1 : ℚ) options = .ok ⟨strategy, 1⟩) ∧
    ∃ c plan w', (⟨strategy, 1⟩ : Planner ℚ).run detour = .ok plan w' ∧
      plan.Consistent { vms := detour.vms, costs := c, floor := 1 } w'.workflow := by
  have hids : (detour.vms.map Vm.id).Nodup := by decide
  refine ⟨distinct_detour, hids, fun strategy hstrategy => ?_⟩
  have hbuilt := built_detour hstrategy
  obtain ⟨plan, w', hrun⟩ := run_ok_detour hstrategy 1
  obtain ⟨c, -, -, hplan⟩ := run_consistent ⟨strategy, 1⟩ 1 detour w' plan hbuilt distinct_detour
    hids hrun
  exact ⟨hbuilt, c, plan, w', hrun, hplan⟩

end Planner

end FlowSched

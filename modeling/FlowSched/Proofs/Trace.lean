import FlowSched.Proofs.Follow
import FlowSched.Proofs.Execution.Punctual
import FlowSched.Proofs.Planning.Consistent

/-!
# What lies behind an outcome

A run that returns has passed both checks, planned, priced the planned world and executed it
(`Traced`). So of a returned run only what no check looks at has to be assumed: that no edge is listed
twice and that VMs have distinct ids (`Traced.wellFormed`). Its jobs are punctual
(`Traced.exists_executed`). An algorithm that plans has made the plan of a planner
(`Traced.exists_planned`), which tells of an allocation of all tasks (`Planner.exists_allocated`), and
its jobs run on the VMs of that plan (`Traced.placed`).
-/

namespace FlowSched

open Quantity Step

/-- The plan of a planner tells of an allocation of all tasks, parents first, from the floor on. -/
theorem Planner.exists_allocated {planner : Planner ℚ} {floor : ℚ} {w w' : World ℚ} {plan : Plan ℚ}
    (hbuilt : byRank floor = .ok planner ∨ ∃ options, byEstimate floor options = .ok planner)
    (hd : w.workflow.Distinct) (hids : (w.vms.map Vm.id).Nodup)
    (hrun : planner.run w = .ok plan w') :
    ∃ c w₁ order d, Costs.ofWorkflow w.workflow w.vms = .ok c ∧ Kept w w₁ ∧
      Priced { vms := w.vms, costs := c, floor } w₁ ∧ w₁.workflow.Topological order ∧
      Draft.allocateAll { vms := w.vms, costs := c, floor } order (Draft.fresh w₁) = .ok () d ∧
      d.Reported plan w' := by
  obtain ⟨rfl, -, hsane⟩ := sane_of_built hbuilt
  obtain ⟨c, hc, hrated, w₁, order, d, hl, halloc, hreport⟩ := planned_of_run hsane hd hrun
  exact ⟨c, w₁, order, d, hc, hl.kept, (hrated.priced hids hc planner.floor).of_kept hl.kept,
    hl.topological, halloc, hreport⟩

namespace World

variable {s : Settings ℚ} {w w' w₁ : World ℚ} {notes : Array (Note ℚ)} {c : Costs ℚ} {e : Execution ℚ}
  {o : Outcome ℚ}

/-- What a run that returns has gone through. -/
structure Traced (s : Settings ℚ) (w : World ℚ) (notes : Array (Note ℚ)) (w₁ : World ℚ) (c : Costs ℚ)
    (e : Execution ℚ) (o : Outcome ℚ) : Prop where
  valid : s.Valid
  check : w.workflow.check = .ok ()
  planned : World.plan s (start s w notes) = .ok o.plan w₁
  costs : Execution.prepare w₁ = .ok c
  execution : Execution.run c s.algorithm.rule (Execution.fresh w₁) = .ok () e
  executed : o.executed = e.jobs

theorem exists_traced (hrun : World.run s w = .ok o w') : ∃ notes w₁ c e, Traced s w notes w₁ c e o := by
  have hlead : Leads (World.run s) w (fun o _ => ∃ notes w₁ c e, Traced s w notes w₁ c e o)
      fun _ _ => True := by
    unfold run
    rw [leads_bind, leads_get, leads_bind, noting, leads_zoom]
    refine (s.check_leads w.notes).mono (fun _ notes hs => ?_) fun _ _ _ => trivial
    rw [leads_bind, leads_get]
    refine Leads.unless (P := fun t => t = { w with notes }) (fun _ => trivial) (fun _ => rfl)
      fun t ht => ?_
    subst ht
    rw [leads_bind, leads_ofExcept]
    refine ⟨fun u hcheck => ?_, fun _ _ => trivial⟩
    rw [leads_bind, leads_modify, leads_zoom]
    refine (leads_self.mono (fun _ _ h => h) fun _ _ _ => trivial).bind fun plan w₁ hplan => ?_
    refine (carryOut_traces s plan w₁).mono (fun o _ ho => ?_) fun _ _ _ => trivial
    obtain ⟨rfl, c, e, hc, he, hjobs, -, -⟩ := ho
    exact ⟨notes, w₁, c, e, hs, hcheck, hplan, hc, he, hjobs⟩
  exact hlead.of_ok hrun

theorem Traced.kin (h : Traced s w notes w₁ c e o) : Kin w w₁ :=
  (kin_start s w notes).trans ((keeps_plan s _).of_ok h.planned).kin

/-- The costs of the planned world are those of the world that the run began with. -/
theorem Traced.costs_eq (h : Traced s w notes w₁ c e o) :
    Costs.ofWorkflow w.workflow w.vms = .ok c := by
  have hc := h.costs
  unfold Execution.prepare at hc
  split at hc
  · cases hc
  · exact (ofWorkflow_of_kin h.kin).symm.trans hc

/-- A run that returns shows most of what is asked of its input. -/
theorem Traced.wellFormed (h : Traced s w notes w₁ c e o) (hd : w.workflow.Distinct)
    (hids : (w.vms.map Vm.id).Nodup) : w.WellFormed :=
  have hroster := roster_of_costs h.costs_eq
  ⟨h.check, hd, hroster.1, hids, hroster.2, c, h.costs_eq⟩

/-- The jobs of a run that returns are those of an execution that has ended, each of them punctual. -/
theorem Traced.exists_executed (h : Traced s w notes w₁ c e o) (hw : w.WellFormed) :
    Execution.Ended s.algorithm.rule w₁ e ∧ w₁.WellFormed ∧
      ∀ before j after, o.executed = before ++ j :: after → Execution.Punctual c w₁ before j := by
  obtain ⟨-, hw₁, hidle⟩ := kept_of_plan hw h.planned
  have hprep := Execution.prepared_of_check hw₁.check hw₁.ids h.costs
  obtain ⟨hend, e₀, now, done, n, -, hontime, rfl⟩ :=
    (Execution.run_keeps hprep (Execution.stable_onTime hprep hw₁.distinct)
      (Execution.onTime_rooted hw₁.ids) fun _ v hv => (hidle v hv).1).of_ok h.execution
  rw [h.executed]
  exact ⟨hend, hw₁, hontime.law⟩

/-- The plan of an algorithm that plans is that of a planner with the floor of the settings. -/
theorem exists_planner (hs : s.algorithm.isPlanner = true) {plan : Option (Plan ℚ)}
    (hplan : World.plan s w = .ok plan w₁) : ∃ planner p n,
      (Planner.byRank s.startFloor = .ok planner ∨
        ∃ options, Planner.byEstimate s.startFloor options = .ok planner) ∧
      plan = some p ∧ planner.run (w.note n) = .ok p w₁ := by
  have hlead : Leads (World.plan s) w (fun plan w₁ => ∃ planner p n,
      (Planner.byRank s.startFloor = .ok planner ∨
        ∃ options, Planner.byEstimate s.startFloor options = .ok planner) ∧
      plan = some p ∧ planner.run (w.note n) = .ok p w₁) fun _ _ => True := by
    unfold World.plan
    rw [leads_bind, leads_get, leads_bind, leads_ofExcept]
    refine ⟨fun planner? hplanner => ?_, fun _ _ => trivial⟩
    rw [leads_bind, leads_modify]
    have hbuilt : ∃ planner, planner? = some planner ∧ (Planner.byRank s.startFloor = .ok planner ∨
        ∃ options, Planner.byEstimate s.startFloor options = .ok planner) := by
      have hmap : ∀ r : Except (Fault ℚ) (Planner ℚ), some <$> r = .ok planner? →
          ∃ planner, planner? = some planner ∧ r = .ok planner := by
        intro r hr
        cases r with
        | error fault => cases hr
        | ok planner => exact ⟨planner, (Except.ok.inj hr).symm, rfl⟩
      unfold Settings.planner? at hplanner
      cases ha : s.algorithm with
      | heft =>
        rw [ha] at hplanner
        obtain ⟨planner, he, hr⟩ := hmap _ hplanner
        exact ⟨planner, he, Or.inl hr⟩
      | ocs =>
        rw [ha] at hplanner
        obtain ⟨planner, he, hr⟩ := hmap _ hplanner
        exact ⟨planner, he, Or.inr ⟨_, hr⟩⟩
      | minMin | maxMin | fcfs | roundRobin | static =>
        rw [ha] at hs
        cases hs
    obtain ⟨planner, rfl, hbuilt⟩ := hbuilt
    dsimp only
    rw [leads_map]
    exact leads_self.mono (fun p _ hp => ⟨planner, p, _, hbuilt, rfl, hp⟩) fun _ _ _ => trivial
  exact hlead.of_ok hplan

/-- An algorithm that plans has a planner run on kin of the world that the run began with. -/
theorem Traced.exists_planned (h : Traced s w notes w₁ c e o) (hs : s.algorithm.isPlanner = true) :
    ∃ planner plan w₀, (Planner.byRank s.startFloor = .ok planner ∨
        ∃ options, Planner.byEstimate s.startFloor options = .ok planner) ∧
      o.plan = some plan ∧ Kin w w₀ ∧ planner.run w₀ = .ok plan w₁ := by
  obtain ⟨planner, plan, n, hbuilt, hplan, hplanned⟩ := exists_planner hs h.planned
  exact ⟨planner, plan, _, hbuilt, hplan,
    (kin_start s w notes).trans (kept_note (start s w notes) n).kin, hplanned⟩

theorem rule_of_isPlanner (hs : s.algorithm.isPlanner = true) : s.algorithm.rule = .static := by
  cases ha : s.algorithm with
  | heft | ocs => rfl
  | minMin | maxMin | fcfs | roundRobin | static =>
    rw [ha] at hs
    cases hs

/-- The jobs of a run that plans stand on the VMs that their tasks were planned on and are bound to. -/
theorem Traced.placed (h : Traced s w notes w₁ c e o) (hs : s.algorithm.isPlanner = true)
    {plan : Plan ℚ} (hplan : o.plan = some plan) :
    ∀ j ∈ o.executed, plan.assignment.get? j.task = some j.vm ∧
      ∃ t, w₁.workflow.find? j.task = some t ∧ t.vm = j.vm := by
  obtain ⟨p, hp, hrec, hsubmitted, -⟩ := (plan_records hs).of_ok h.planned
  obtain rfl := Option.some.inj (hplan.symm.trans hp)
  obtain ⟨batches, e', makespan, hcourse, -, he⟩ :=
    (Execution.run_course c s.algorithm.rule w₁).of_ok h.execution
  obtain ⟨hon, -, -⟩ := (rule_of_isPlanner hs ▸ hcourse).onPlan hsubmitted (hrec.nodup_planned rfl)
    (fun x hx => hrec.mem_planned rfl hx) hrec.placed
  intro j hj
  rw [h.executed, he] at hj
  obtain ⟨t, ht, hvm⟩ := Workflow.mem_bindings.1 (hon.placed j hj)
  obtain ⟨hmem, hid⟩ := Workflow.find?_eq_some.1 ht
  refine ⟨?_, t, ht, hvm⟩
  rw [hrec.get?_assignment, ← hid, ← hvm]
  exact Table.get?_ofList_map (f := fun t : Task ℚ => (t.id, t.vm)) w₁.workflow.nodup hmem

end World

end FlowSched

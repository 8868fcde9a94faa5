import FlowSched.Proofs.Planning.Consistent

/-!
# Planning by rank

Ranking comes before allocation, and fails exactly where some task is too big for every VM; nothing but
notes has been written by then. Where every task has a VM that is big enough, all tasks are ranked and
allocated, in descending order of rank and with parents first (`Planner.run_byRank`).
-/

namespace FlowSched

open Quantity Step

/-- A task that is too big for every VM of the roster. -/
def World.Stranded (w : World ℚ) (t : Task ℚ) : Prop :=
  t ∈ w.workflow.tasks ∧ ∀ v ∈ w.vms, v.elements < t.elements

/-- Worlds that differ by their notes only. -/
structure World.Unwritten (w w' : World ℚ) : Prop where
  workflow : w'.workflow = w.workflow
  vms : w'.vms = w.vms
  session : w'.session = w.session

/-- An order of all tasks by descending upward rank, equal ranks by their places in topological order, in
which parents come first. -/
structure RankOrder (c : Costs ℚ) (w : Workflow ℚ) (ranks : Table ℚ) (order : List ℤ) : Prop where
  ranked : ∀ t ∈ w.tasks, ∃ r, Upward c ranks t r
  descending : ∃ tasks, w.topologicalOrder = .ok tasks ∧ order.Pairwise fun x y =>
    ∀ r s, ranks.get? x = some r → ranks.get? y = some s →
      s < r ∨ s = r ∧ Workflow.place tasks x < Workflow.place tasks y
  topological : w.Topological order

variable {w w₁ w' : World ℚ} {c : Costs ℚ} {tasks : List (Task ℚ)} {planner : Planner ℚ}

theorem World.Unwritten.trans (h : w.Unwritten w₁) (h' : w₁.Unwritten w') : w.Unwritten w' :=
  ⟨h'.workflow.trans h.workflow, h'.vms.trans h.vms, h'.session.trans h.session⟩

theorem World.Unwritten.kept (h : w.Unwritten w') : Kept w w' :=
  ⟨⟨by rw [h.workflow]; rfl, by rw [h.vms]⟩, h.vms, by rw [h.session]⟩

theorem World.unwritten_noteAll (w : World ℚ) (ns : List (Note ℚ)) : w.Unwritten (w.noteAll ns) :=
  noteAll_keeps (fun _ _ h => ⟨h.workflow, h.vms, h.session⟩) ⟨rfl, rfl, rfl⟩ ns

/-! ## Lining up -/

/-- Where every task has an average time, its ranks put the tasks in order. -/
theorem rankOrder_ofRanks {w : Workflow ℚ} {c : Costs ℚ} (h : Rated w c) (p : Pricing ℚ)
    (horder : w.topologicalOrder = .ok tasks) {ranks : Table ℚ} (hranks : upwardRanks w c = .ok ranks) :
    RankOrder c w ranks (Lineup.ofRanks p (Workflow.place tasks) w ranks).order := by
  have hplace : ∀ x ∈ w.ids, ∀ y, Workflow.place tasks x = Workflow.place tasks y → x = y := by
    intro x hx y he
    have hx' : x ∈ tasks.map Task.id :=
      ((Workflow.topologicalOrder_sound horder).1.map Task.id).mem_iff.2 hx
    rwa [Workflow.place_eq_idxOf, Workflow.place_eq_idxOf, List.idxOf_inj hx'] at he
  have hnodup : (Lineup.ofRanks p (Workflow.place tasks) w ranks).order.Nodup :=
    sortByKey_perm.nodup_iff.2 w.nodup
  refine ⟨?_, ⟨tasks, horder, (sortByKey_sorted.and hnodup).imp_of_mem fun {x y} hx _ hxy r s hr hs => ?_⟩,
    h.topological_of_ranks (Workflow.ranking_place horder fun u hu x => h.checked.mem_ids_of_child hu)
      hranks⟩
  · obtain ⟨ranks', hranks', hup⟩ := upwardRanks_ok h
    obtain rfl := Except.ok.inj (hranks.symm.trans hranks')
    exact hup
  · obtain ⟨hle, hne⟩ := hxy
    simp only [hr, hs, Option.getD_some, neg_lt_neg_iff, neg_inj] at hle
    refine hle.imp_right fun hle => ⟨hle.1.symm, lt_of_le_of_ne hle.2 fun he => hne ?_⟩
    exact hplace x (sortByKey_perm.mem_iff.1 hx) y he

namespace Planner

theorem strategy_of_byRank {floor : ℚ} (h : byRank floor = .ok planner) : planner.strategy = .byRank := by
  unfold byRank at h
  split_ifs at h
  rw [← Except.ok.inj h]

/-- What planning by rank lines up, or over which task it fails. -/
theorem lineUp_byRank (hstrategy : planner.strategy = .byRank) (hfit : Fit w c tasks)
    (hids : (w.vms.map Vm.id).Nodup) :
    Leads planner.lineUp w
      (fun l w₁ => Rated w.workflow c ∧ w.Unwritten w₁ ∧
        l.pricing = { vms := w.vms, costs := c, floor := planner.floor } ∧
        RankOrder c w.workflow l.ranks l.order)
      fun fault w₁ => (∃ t, w.Stranded t ∧ fault = .noVm t.id) ∧ w.Unwritten w₁ := by
  have hw := Workflow.check_eq_ok.1 hfit.check
  have htimed := timed_of_costs hw hfit.costs
  have hnote : w.Unwritten (w.note (.planning planner.algorithm w.workflow.size w.vms.length)) :=
    ⟨rfl, rfl, rfl⟩
  have hopen : w.Unwritten (planner.opening c w) := hnote.trans (World.unwritten_noteAll _ c.summary)
  unfold Leads
  rw [lineUp_eq hfit, arrange, hstrategy]
  refine leads_lineUpByRank.2 ⟨fun ranks hranks => ?_, fun fault hfault => ⟨?_, hopen⟩⟩
  · rw [hopen.workflow] at hranks ⊢
    have hrated := rated_of_costs hw hfit.costs (average_of_upwardRanks hw hranks)
    exact ⟨hrated, hopen.trans (World.unwritten_noteAll _ _), rfl,
      rankOrder_ofRanks hrated _ hfit.order hranks⟩
  · rw [hopen.workflow] at hfault
    rcases upwardRanks_total htimed hw with ⟨ranks, hok, -⟩ | ⟨t, ht, fault', haverage, hfail⟩
    · rw [hok] at hfault
      cases hfault
    · obtain rfl := Except.error.inj (hfail.symm.trans hfault)
      obtain ⟨he, hbig⟩ := average_eq_error hfit.costs hids ht haverage
      exact ⟨t, ⟨ht, hbig⟩, he⟩

/-- Planning by rank fails over a task that is too big for every VM, or allocates all tasks. -/
theorem run_byRank_leads (hstrategy : planner.strategy = .byRank) (hfit : Fit w c tasks)
    (hids : (w.vms.map Vm.id).Nodup) :
    Leads planner.run w
      (fun plan _ => (∀ t, ¬ w.Stranded t) ∧ RankOrder c w.workflow plan.ranks plan.order)
      fun fault w' => (∃ t, w.Stranded t ∧ fault = .noVm t.id) ∧ w.Unwritten w' := by
  rw [run_eq, leads_bind]
  refine (lineUp_byRank hstrategy hfit hids).mono (fun l w₁ hl => ?_) fun _ _ h => h
  obtain ⟨hrated, hunwritten, hpricing, horder⟩ := hl
  have hpriced := hrated.priced hids hfit.costs planner.floor
  rw [leads_bind, Lineup.leads_allot]
  refine (Draft.allocateAll_leads (hpricing ▸ hpriced.of_kept hunwritten.kept)
    (hunwritten.workflow ▸ horder.topological)).mono
    (fun _ d hd => ?_) fun _ _ h => h.elim
  rw [leads_bind, leads_modify, leads_pure]
  have hplan : (l.plan d).order = l.order := hd.2.order
  refine ⟨fun t ht => ?_, hplan ▸ horder⟩
  obtain ⟨v, hv, hfits⟩ := hpriced.roomy t ht.1
  exact absurd (ht.2 v hv) (not_lt.2 hfits)

/-- Planning by rank fails exactly if some task is too big for every VM. The fault names such a task, and
no task, VM or session has been written to. In any other case a plan is returned, in descending order of
rank and with parents first. -/
theorem run_byRank (planner : Planner ℚ) (floor : ℚ) (w : World ℚ) (c : Costs ℚ)
    (hbuilt : byRank floor = .ok planner) (hcheck : w.workflow.check = .ok ())
    (hids : (w.vms.map Vm.id).Nodup) (hc : Costs.ofWorkflow w.workflow w.vms = .ok c) :
    ((∃ id w', planner.run w = .error (.noVm id) w') ↔ ∃ t, w.Stranded t) ∧
    (∀ fault w', planner.run w = .error fault w' →
      (∃ t, w.Stranded t ∧ fault = .noVm t.id) ∧ w.Unwritten w') ∧
    ((∀ t, ¬ w.Stranded t) →
      ∃ plan w', planner.run w = .ok plan w' ∧ RankOrder c w.workflow plan.ranks plan.order) := by
  obtain ⟨tasks, horder, -⟩ := (Workflow.check_eq_ok.1 hcheck).topologicalOrder
  have hlead := run_byRank_leads (strategy_of_byRank hbuilt)
    ⟨fun he => (roster_of_costs hc).1 (List.isEmpty_iff.1 he), hcheck, hc, horder⟩ hids
  refine ⟨⟨?_, ?_⟩, fun fault w' => hlead.of_error, fun hnone => ?_⟩
  · rintro ⟨id, w', hrun⟩
    obtain ⟨⟨t, ht, -⟩, -⟩ := hlead.of_error hrun
    exact ⟨t, ht⟩
  · rintro ⟨t, ht⟩
    cases hrun : planner.run w with
    | ok plan w' => exact absurd ht ((hlead.of_ok hrun).1 t)
    | error fault w' =>
      obtain ⟨⟨u, -, rfl⟩, -⟩ := hlead.of_error hrun
      exact ⟨u.id, w', rfl⟩
  · cases hrun : planner.run w with
    | ok plan w' => exact ⟨plan, w', rfl, (hlead.of_ok hrun).2⟩
    | error fault w' =>
      obtain ⟨⟨t, ht, -⟩, -⟩ := hlead.of_error hrun
      exact absurd ht (hnone t)

/-- A task with two successors, of which the first was discovered before it, and none of which takes any
time. The last task needs as many processing elements as given, and the VM has one. -/
def flat (elements : ℤ) : World ℚ where
  workflow :=
    { tasks := [{ id := 2, length := 0, parents := [1], transfers := ⟨[(1, 0)]⟩ },
        { id := 1, length := 0, children := [3, 2] },
        { id := 3, length := 0, elements, parents := [1], transfers := ⟨[(1, 0)]⟩ }]
      nodup := by simp }
  vms := [{ id := 0, mips := 10 }]

/-- Where all ranks are equal, parents still come first; where the last task is too big, nothing is
written. -/
theorem run_byRank_flat : ∃ planner c c' plan w' w'', byRank (1 : ℚ) = .ok planner ∧
    Costs.ofWorkflow (flat 1).workflow (flat 1).vms = .ok c ∧
    planner.run (flat 1) = .ok plan w' ∧ RankOrder c (flat 1).workflow plan.ranks plan.order ∧
    Costs.ofWorkflow (flat 2).workflow (flat 2).vms = .ok c' ∧
    planner.run (flat 2) = .error (.noVm 3) w'' ∧ (flat 2).Unwritten w'' := by
  obtain ⟨c, hc⟩ : ∃ c, Costs.ofWorkflow (flat 1).workflow (flat 1).vms = .ok c :=
    exists_eq_ok (by decide +kernel)
  obtain ⟨c', hc'⟩ : ∃ c, Costs.ofWorkflow (flat 2).workflow (flat 2).vms = .ok c :=
    exists_eq_ok (by decide +kernel)
  obtain ⟨-, -, hreturns⟩ := run_byRank ⟨.byRank, 1⟩ 1 (flat 1) c rfl rfl (by decide) hc
  obtain ⟨hfails, hfault, -⟩ := run_byRank ⟨.byRank, 1⟩ 1 (flat 2) c' rfl rfl (by decide) hc'
  have hfits : ∀ t ∈ (flat 1).workflow.tasks, ∃ v ∈ (flat 1).vms, t.elements ≤ v.elements := by decide
  have hbig : ∃ t ∈ (flat 2).workflow.tasks, ∀ v ∈ (flat 2).vms, v.elements < t.elements := by decide
  have hlast : ∀ t ∈ (flat 2).workflow.tasks,
      (∀ v ∈ (flat 2).vms, v.elements < t.elements) → t.id = 3 := by decide
  obtain ⟨plan, w', hrun, horder⟩ := hreturns fun t ht => by
    obtain ⟨v, hv, hfit⟩ := hfits t ht.1
    exact absurd (ht.2 v hv) (not_lt.2 hfit)
  obtain ⟨id, w'', hrun'⟩ := hfails.2 hbig
  obtain ⟨⟨t, ht, hid⟩, hunwritten⟩ := hfault _ _ hrun'
  rw [hid, hlast t ht.1 ht.2] at hrun'
  exact ⟨_, c, c', plan, w', w'', rfl, hc, hrun, horder, hc', hrun', hunwritten⟩

end Planner

end FlowSched

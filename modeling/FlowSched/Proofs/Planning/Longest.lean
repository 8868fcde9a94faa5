import FlowSched.Proofs.Planning.Path
import FlowSched.Proofs.Planning.Rank

/-!
# Ranks and routes

The rank of a task is the greatest cost of a route from it (`isGreatest_rank`): no route costs more,
by induction on the route, and some route costs as much, by induction on the ranks above the task. So
the critical path costs what its root ranks, no task ranks higher, and each end of the critical path
is itself a costliest route (`upwardRanks_eq_longest`).
-/

namespace FlowSched

open Quantity

/-- What the routes from a task cost. -/
def routeCosts (w : Workflow ℚ) (c : Costs ℚ) (x : ℤ) : Set ℚ :=
  {cost | ∃ rest, w.Route (x :: rest) ∧ c.pathCost (x :: rest) = .ok cost}

section

variable {w : Workflow ℚ} {c : Costs ℚ} {ranks : Table ℚ} {critical : List ℤ} {cost r : ℚ}

/-- No route costs more than the rank of its first task. -/
theorem cost_le_rank (hranks : ∀ t ∈ w.tasks, ∃ r, Upward c ranks t r) {path : List ℤ}
    (h : w.Route path) : ∀ x rest, path = x :: rest → c.pathCost path = .ok cost →
      ranks.get? x = some r → cost ≤ r := by
  induction h generalizing cost r with
  | @exit t ht he =>
    rintro x rest hp hcost hx
    obtain ⟨rfl, rfl⟩ := List.cons.inj hp
    obtain ⟨r', hr⟩ := hranks t ht
    obtain rfl := Option.some.inj (hx.symm.trans hr.rank)
    obtain ⟨a, ha, -, ⟨-, rfl⟩ | ⟨y, hy, -⟩⟩ := hr.onward
    · rw [pathCost_singleton ha] at hcost
      exact (Except.ok.inj hcost).symm.le
    · rw [he] at hy
      cases hy
  | @step t next onward ht hnext hroute ih =>
    rintro x rest hp hcost hx
    obtain ⟨rfl, rfl⟩ := List.cons.inj hp
    obtain ⟨r', hr⟩ := hranks t ht
    obtain rfl := Option.some.inj (hx.symm.trans hr.rank)
    obtain ⟨a, ha, hall, -⟩ := hr.onward
    obtain ⟨m, rx, hm, hrx, hle⟩ := hall next hnext
    obtain ⟨a', m', y, ha', hm', hy, rfl⟩ := pathCost_cons_eq_ok.1 hcost
    obtain rfl := Except.ok.inj (ha.symm.trans ha')
    obtain rfl := Except.ok.inj (hm.symm.trans hm')
    linarith [ih next onward rfl hy hrx]

/-- Some route costs as much as its first task ranks. -/
theorem exists_route_of_rank (hw : w.Checked) (hranks : ∀ t ∈ w.tasks, ∃ r, Upward c ranks t r)
    {t : Task ℚ} (ht : t ∈ w.tasks) (hr : Upward c ranks t r) : r ∈ routeCosts w c t.id := by
  obtain ⟨order, -, hrank⟩ := hw.topologicalOrder
  induction hn : w.size - Workflow.place order t.id using Nat.strong_induction_on
    generalizing t r with
  | h n ih =>
    obtain ⟨a, ha, -, ⟨he, rfl⟩ | ⟨x, hx, m, rx, hm, hrx, rfl⟩⟩ := hr.onward
    · exact ⟨[], .exit ht he, pathCost_singleton ha⟩
    · obtain ⟨u, hu, -⟩ := hw.child t ht x hx
      obtain ⟨hum, rfl⟩ := Workflow.find?_eq_some.1 hu
      obtain ⟨ru, hru⟩ := hranks u hum
      obtain rfl := Option.some.inj (hrx.symm.trans hru.rank)
      have hlt := hrank.rise t ht u.id hx
      have hsize := hrank.lt_size u.id (hw.mem_ids_of_child ht hx)
      obtain ⟨rest, hroute, hcost⟩ := ih _ (by omega) hum hru rfl
      exact ⟨u.id :: rest, .step ht hx hroute, pathCost_cons_eq_ok.2 ⟨a, m, rx, ha, hm, hcost, rfl⟩⟩

/-- A task ranks by the costliest route from it. -/
theorem isGreatest_rank (hw : w.Checked) (hranks : ∀ t ∈ w.tasks, ∃ r, Upward c ranks t r)
    {t : Task ℚ} (ht : t ∈ w.tasks) (hr : Upward c ranks t r) :
    IsGreatest (routeCosts w c t.id) r := by
  refine ⟨exists_route_of_rank hw hranks ht hr, ?_⟩
  rintro cost ⟨rest, hroute, hcost⟩
  exact cost_le_rank hranks hroute t.id rest rfl hcost hr.rank

/-- No task ranks above all roots. -/
theorem exists_root_of_rank (h : Rated w c) (hranks : ∀ t ∈ w.tasks, ∃ r, Upward c ranks t r)
    {t : Task ℚ} (ht : t ∈ w.tasks) (hr : ranks.get? t.id = some r) :
    ∃ u ∈ w.roots, ∃ ru, ranks.get? u.id = some ru ∧ r ≤ ru := by
  obtain ⟨rank, hrank⟩ := h.checked.ranked
  induction hn : rank t.id using Nat.strong_induction_on generalizing t r with
  | h n ih =>
    cases hp : t.parents with
    | nil => exact ⟨t, List.mem_filter.2 ⟨ht, by simp [hp]⟩, r, hr, le_refl r⟩
    | cons p ps =>
      obtain ⟨u, hu, hc⟩ := h.checked.parent t ht p (by simp [hp])
      obtain ⟨hum, rfl⟩ := Workflow.find?_eq_some.1 hu
      obtain ⟨ru, hru⟩ := hranks u hum
      obtain ⟨rt, hrt, hle⟩ := hru.child_le h hum t.id hc
      obtain rfl := Option.some.inj (hr.symm.trans hrt)
      obtain ⟨v, hv, rv, hrv, hle'⟩ := ih _ (hn ▸ hrank u hum t.id hc) hum hru.rank rfl
      exact ⟨v, hv, rv, hrv, hle.trans hle'⟩

/-- What is left of a costliest route is a costliest route. -/
theorem cost_of_suffix (hranks : ∀ t ∈ w.tasks, ∃ r, Upward c ranks t r) {before rest : List ℤ}
    {x y : ℤ} (h : w.Route (x :: rest)) (hcost : c.pathCost (x :: rest) = .ok r)
    (hx : ranks.get? x = some r) {tail : List ℤ} (he : x :: rest = before ++ y :: tail) :
    ∃ ry, ranks.get? y = some ry ∧ c.pathCost (y :: tail) = .ok ry := by
  induction before generalizing x rest r with
  | nil =>
    obtain ⟨rfl, rfl⟩ := List.cons.inj he
    exact ⟨r, hx, hcost⟩
  | cons b before ih =>
    obtain ⟨rfl, htail⟩ := List.cons.inj he
    obtain ⟨t, ht⟩ := Workflow.mem_ids.1 (h.mem_ids x List.mem_cons_self)
    obtain ⟨htm, rfl⟩ := Workflow.find?_eq_some.1 ht
    rcases (Workflow.route_iff htm).1 h with ⟨-, rfl⟩ | ⟨next, hnext, onward, rfl, hroute⟩
    · simp at htail
    · obtain ⟨r', hr⟩ := hranks t htm
      obtain rfl := Option.some.inj (hx.symm.trans hr.rank)
      obtain ⟨a, ha, hall, -⟩ := hr.onward
      obtain ⟨m, rn, hm, hrn, hle⟩ := hall next hnext
      obtain ⟨a', m', cost, ha', hm', hn, hsum⟩ := pathCost_cons_eq_ok.1 hcost
      obtain rfl := Except.ok.inj (ha.symm.trans ha')
      obtain rfl := Except.ok.inj (hm.symm.trans hm')
      -- the rest costs no more than its first task ranks, and no less as the whole is costliest
      have hge := cost_le_rank hranks hroute next onward rfl hn hrn
      have heq : cost = rn := by linarith
      exact ih hroute (heq ▸ hn) hrn htail

/-- The critical path costs as much as its root ranks. -/
theorem criticalPath_rank (h : Rated w c) (hranks : ∀ t ∈ w.tasks, ∃ r, Upward c ranks t r)
    (hmem : critical ∈ w.paths) (hcost : c.pathCost critical = .ok cost)
    (hmax : ∀ path ∈ w.paths, ∃ x, c.pathCost path = .ok x ∧ x ≤ cost) :
    (∃ u ∈ w.roots, ∃ rest, critical = u.id :: rest ∧ ranks.get? u.id = some cost) ∧
      ∀ u ∈ w.roots, ∀ r, ranks.get? u.id = some r → r ≤ cost := by
  have hroots : ∀ u ∈ w.roots, ∀ r, ranks.get? u.id = some r → r ≤ cost := by
    intro u hu r hr
    have hum := List.mem_of_mem_filter hu
    obtain ⟨r', hr'⟩ := hranks u hum
    obtain rfl := Option.some.inj (hr.symm.trans hr'.rank)
    obtain ⟨rest, hroute, hc⟩ := exists_route_of_rank h.checked hranks hum hr'
    obtain ⟨x, hx, hle⟩ := hmax _ ((Workflow.mem_paths h.checked).2 ⟨hroute, u, hu, rest, rfl⟩)
    obtain rfl := Except.ok.inj (hc.symm.trans hx)
    exact hle
  obtain ⟨hroute, u, hu, rest, rfl⟩ := (Workflow.mem_paths h.checked).1 hmem
  obtain ⟨r, hr⟩ := hranks u (List.mem_of_mem_filter hu)
  have hle := cost_le_rank hranks hroute u.id rest rfl hcost hr.rank
  have heq : r = cost := le_antisymm (hroots u hu r hr.rank) hle
  exact ⟨⟨u, hu, rest, rfl, heq ▸ hr.rank⟩, hroots⟩

end

/-- Where each task has a VM that is big enough, of those that the ids name, every task is ranked.
Wherever the tasks are ranked, a task ranks by the costliest route from it to an exit; the critical
path is found, its cost is the greatest rank of a root and of any task, and from each of its tasks on
it costs what the task ranks. -/
theorem upwardRanks_eq_longest (w : Workflow ℚ) (vms : List (Vm ℚ)) (c : Costs ℚ)
    (hcheck : w.check = .ok ()) (hc : Costs.ofWorkflow w vms = .ok c) :
    ((∀ t ∈ w.tasks, ∃ v, Vm.named? vms v.id = some v ∧ t.elements ≤ v.elements) →
      ∃ ranks, upwardRanks w c = .ok ranks) ∧
    ∀ ranks, upwardRanks w c = .ok ranks →
      (∀ t ∈ w.tasks, ∃ r, ranks.get? t.id = some r ∧ IsGreatest (routeCosts w c t.id) r) ∧
      (w.tasks ≠ [] → ∃ critical cost, c.criticalPath w.paths = .ok critical ∧
        c.pathCost critical = .ok cost ∧
        IsGreatest {r | ∃ t ∈ w.roots, ranks.get? t.id = some r} cost ∧
        IsGreatest {r | ∃ t ∈ w.tasks, ranks.get? t.id = some r} cost ∧
        ∀ before x rest, critical = before ++ x :: rest →
          ∃ r, ranks.get? x = some r ∧ c.pathCost (x :: rest) = .ok r) := by
  have hw := Workflow.check_eq_ok.1 hcheck
  refine ⟨fun hfit => ?_, fun ranks hok => ?_⟩
  · have h := rated_of_costs hw hc fun t ht => by
      obtain ⟨v, hv, hle⟩ := hfit t ht
      exact average_eq_ok hc ht hv hle
    exact (upwardRanks_ok h).imp fun _ hr => hr.1
  have h := rated_of_costs hw hc (average_of_upwardRanks hw hok)
  obtain ⟨ranks', hok', hranks⟩ := upwardRanks_ok h
  obtain rfl := Except.ok.inj (hok.symm.trans hok')
  refine ⟨fun t ht => ?_, fun hne => ?_⟩
  · obtain ⟨r, hr⟩ := hranks t ht
    exact ⟨r, hr.rank, isGreatest_rank hw hranks ht hr⟩
  obtain ⟨critical, hcritical, ⟨hnil, -⟩ | ⟨hmem, cost, hcost, hmax⟩⟩ := criticalPath_ok h
  · obtain ⟨t, ht⟩ := List.exists_mem_of_ne_nil _ hne
    obtain ⟨rest, hroute⟩ := w.exists_route hw (Workflow.mem_ids.2 ⟨t, Workflow.find?_self ht⟩)
    obtain ⟨before, hpath⟩ := Workflow.exists_mem_paths hw hroute
    rw [hnil] at hpath
    cases hpath
  obtain ⟨⟨u, hu, rest, rfl, hru⟩, hroots⟩ := criticalPath_rank h hranks hmem hcost hmax
  have hroute := ((Workflow.mem_paths hw).1 hmem).1
  refine ⟨_, cost, hcritical, hcost, ⟨⟨u, hu, hru⟩, ?_⟩,
    ⟨⟨u, List.mem_of_mem_filter hu, hru⟩, ?_⟩, fun before x tail he => ?_⟩
  · rintro r ⟨t, ht, hr⟩
    exact hroots t ht r hr
  · rintro r ⟨t, ht, hr⟩
    obtain ⟨v, hv, rv, hrv, hle⟩ := exists_root_of_rank h hranks ht hr
    exact hle.trans (hroots v hv rv hrv)
  · exact cost_of_suffix hranks hroute hcost hru he

theorem upwardRanks_eq_longest_detour : ∃ c ranks,
    Costs.ofWorkflow detour.workflow detour.vms = .ok c ∧
      upwardRanks detour.workflow c = .ok ranks ∧
      ∀ t ∈ detour.workflow.tasks, ∃ r, ranks.get? t.id = some r ∧
        IsGreatest (routeCosts detour.workflow c t.id) r := by
  obtain ⟨c, hp⟩ := priced_detour 0
  have hfit : ∀ t ∈ detour.workflow.tasks, ∃ v, Vm.named? detour.vms v.id = some v ∧
      t.elements ≤ v.elements := fun t ht =>
    (hp.roomy t ht).imp fun v hv => ⟨named?_eq_some hp.ids hv.1, hv.2⟩
  obtain ⟨hreturns, hall⟩ := upwardRanks_eq_longest detour.workflow detour.vms c rfl hp.costs
  obtain ⟨ranks, hranks⟩ := hreturns hfit
  exact ⟨c, ranks, hp.costs, hranks, (hall ranks hranks).1⟩

end FlowSched

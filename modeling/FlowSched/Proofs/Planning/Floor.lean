import FlowSched.Proofs.Planning.Consistent
import FlowSched.Proofs.Planning.LaterSketch

/-!
# Plans from another floor

Where the floor is moved, the plan moves with it and stays the same otherwise: both planners end alike,
with the same bindings, order, ranks and critical path, and every planned time is later by as much as the
floor (`Planner.run_later`). So no planner reads the clock.
-/

namespace FlowSched

open Quantity Step

/-- Worlds in which all tasks are planned alike, in the second later by a delay. -/
structure World.Delayed (δ : ℚ) (w w' : World ℚ) : Prop where
  tasks : w'.workflow.tasks = w.workflow.tasks.map (Task.delay δ)
  vms : w'.vms = w.vms
  session : w'.session = w.session

variable {δ : ℚ} {p : Pricing ℚ} {w w' : World ℚ} {place : ℤ → ℕ} {order : List ℤ}

theorem World.unnoted_delayed : Unnoted (World.Delayed δ) :=
  ⟨fun _ _ _ h => ⟨h.tasks, h.vms, h.session⟩, fun _ _ _ h => ⟨h.tasks, h.vms, h.session⟩⟩

theorem World.unnoted_later {xs : List ℤ} : Unnoted (World.Later δ xs) :=
  ⟨fun _ _ _ h => ⟨h.workflow, h.vms, h.session⟩, fun _ _ _ h => ⟨h.workflow, h.vms, h.session⟩⟩

/-! ## Allocation -/

/-- Fresh drafts are free at any time. -/
theorem Draft.later_fresh (h : w.Later δ [] w') : (fresh w).Later δ (fresh w') := by
  refine ⟨h, ?_, rfl, rfl⟩
  show Table.ofList (w'.vms.map fun v => (v.id, { vm := v.id })) =
    (Table.ofList (w.vms.map fun v => (v.id, { vm := v.id }))).map (Timeline.delay δ)
  rw [Table.map_ofList, List.map_map, h.vms]
  rfl

/-- Where all tasks are allocated from a later floor, the plan is later by the delay. -/
theorem allocate_delayed (h : w.Later δ [] w') (hall : ∀ x ∈ w.workflow.ids, x ∈ order)
    {f : Plan ℚ → Plan ℚ} (hf : ∀ plan, f (plan.delay δ) = (f plan).delay δ) :
    Both (do
      let r ← within Draft.fresh Draft.toWorld (Draft.allocateAll p order)
      pure (f r.2.plan)) w
      (do
        let r ← within Draft.fresh Draft.toWorld (Draft.allocateAll (p.delay δ) order)
        pure (f r.2.plan)) w'
      (fun plan u plan' u' => plan' = plan.delay δ ∧ u.Delayed δ u') fun e _ e' _ => e' = e := by
  have hdrafts := (Draft.allocateAll_later (p := p) (Draft.later_fresh h) order).with_leads
    (Draft.keeps_allocateAll p order (Draft.fresh w))
  refine within_both hdrafts fun _ d _ d' hd => ?_
  obtain ⟨⟨hl, horder⟩, hk⟩ := hd
  refine both_pure.2 ⟨by rw [hl.plan_eq, hf], ?_, hl.world.vms, hl.world.session⟩
  refine Task.eq_map_delay hl.world.workflow fun t ht => Or.inr ?_
  rw [horder]
  exact hall t.id (Workflow.ids_of_kin hk.kin.workflow ▸ List.mem_map_of_mem ht)

/-! ## Planners -/

/-- Planning by rank from a later floor. -/
theorem planByRank_later (hnone : ∀ t ∈ w.workflow.tasks, t.isEstimated = false) :
    Both (planByRank p place) w (planByRank (p.delay δ) place) w
      (fun plan u plan' u' => plan' = plan.delay δ ∧ u.Delayed δ u') fun e _ e' _ => e' = e := by
  unfold planByRank
  refine get_both.2 (ofExcept_both (fun ranks _ => set_both.2 ?_) fun _ => rfl)
  have hlater : w.Later δ [] w := ⟨Workflow.later_of_unestimated hnone, rfl, rfl⟩
  exact allocate_delayed (f := fun plan => { plan with ranks := ranks })
    (World.unnoted_later.noteAll hlater _ _)
    (fun x hx => sortByKey_perm.mem_iff.2 ((noteAll_eq w _).1 ▸ hx)) fun _ => rfl

/-- Keys that are all greater by a delay put ids in the same order. -/
theorem sortByKey_add (δ : ℚ) {key key' : ℤ → ℚ} {ids : List ℤ} (h : ∀ x ∈ ids, key' x = key x + δ) :
    sortByKey key' place ids = sortByKey key place ids := by
  have hsame := List.map_mergeSort (f := id) (l := ids)
    (r := fun a b => if key' a == key' b then decide (place a ≤ place b) else !decide (key' b < key' a))
    (s := fun a b => if key a == key b then decide (place a ≤ place b) else !decide (key b < key a))
    fun a ha b hb => by
      have heq : (key a + δ == key b + δ) = (key a == key b) := by
        rw [Bool.eq_iff_iff, beq_iff_eq, beq_iff_eq, add_left_inj]
      rw [h a ha, h b hb, heq]
      simp only [add_lt_add_iff_right, id_eq]
  rwa [List.map_id, List.map_id] at hsame

/-- Later starts put tasks in the same order. -/
theorem orderByEstimate_later {w w' : Workflow ℚ} (h : w'.tasks = w.tasks.map (Task.delay δ)) :
    orderByEstimate w' place = orderByEstimate w place := by
  have hids : w'.ids = w.ids := by
    rw [Workflow.ids, h, List.map_map]
    rfl
  unfold orderByEstimate
  rw [hids]
  refine sortByKey_add δ fun x hx => ?_
  obtain ⟨t, ht⟩ := Workflow.mem_ids.1 hx
  have hfind : w'.find? x = (w.find? x).map (Task.delay δ) := by
    rw [Workflow.find?, h, List.find?_map]
    rfl
  rw [hfind, ht]
  rfl

/-- Where nothing is estimated yet, estimating from a later floor ends alike, and leaves all tasks
estimated later by the delay. -/
theorem estimateAll_delayed {o : Outlook ℚ} (hpos : 0 < o.fallback) (hrated : Rated w.workflow o.costs)
    (hd : w.workflow.Distinct) (hr : w.workflow.Ranking place)
    (hnone : ∀ x t, w.workflow.find? x = some t → t.isEstimated = false)
    (hperm : order.Perm w.workflow.ids) (hcritical : ∀ x ∈ o.critical, x ∈ w.workflow.ids) :
    Both (Sketch.estimateAll o order) { toWorld := w } (Sketch.estimateAll (o.delay δ) order)
      { toWorld := w } (fun _ s _ s' => s.toWorld.Later δ [] s'.toWorld ∧
        s'.workflow.tasks = s.workflow.tasks.map (Task.delay δ)) fun e _ e' _ => e' = e := by
  have hlater : Sketch.Later δ [] { toWorld := w } { toWorld := w } := by
    refine ⟨⟨Workflow.later_of_unestimated fun t ht => ?_, rfl, rfl⟩, rfl⟩
    exact hnone t.id t (Workflow.find?_self ht)
  have hdrawn : Sketch.Drawn o place { toWorld := w } :=
    Sketch.drawn_of_unestimated hrated hd hr hnone
  have hsize : w.workflow.size ≤ order.length := by
    rw [hperm.length_eq, Workflow.ids, List.length_map]
    exact le_refl _
  refine (Sketch.estimateAll_later hpos hlater hdrawn hsize (fun x hx => hperm.subset hx)
    hcritical).mono (fun _ s _ s' hs => ?_) fun _ _ _ _ he => he
  obtain ⟨hl, hs⟩ := hs
  have hall := (hs.workflow_estimated fun x hx => hperm.mem_iff.2 hx).estimated
  exact ⟨hl.world, Task.eq_map_delay hl.world.workflow fun t ht => Or.inl (hall t ht)⟩

/-- Planning by estimate from a later floor. -/
theorem planByEstimate_later (hw : w.workflow.Checked)
    (hc : Costs.ofWorkflow w.workflow w.vms = .ok p.costs) (hd : w.workflow.Distinct)
    (hr : w.workflow.Ranking place) {options : PathOptions ℚ} (hpos : 0 < options.fallback)
    (hperm : order.Perm w.workflow.ids) :
    Both (planByEstimate options p order place) w (planByEstimate options (p.delay δ) order place) w
      (fun plan u plan' u' => plan' = plan.delay δ ∧ u.Delayed δ u') fun e _ e' _ => e' = e := by
  unfold planByEstimate
  refine modify_both.2 (get_both.2 ?_)
  have hk := kept_unestimate w w.workflow.ids
  have hnone := unestimated_ids w
  generalize w.workflow.ids.foldl _ w = w₁ at hk hnone ⊢
  have hkin := hk.kin.workflow
  dsimp only
  refine modify_both.2 (ofExcept_both (fun critical hcritical => modify_both.2 ?_) fun _ => rfl)
  -- the path has been found, so all tasks have average times
  have hrated : Rated w₁.workflow p.costs := by
    have hw₁ := hw.of_kin hkin
    exact rated_of_costs hw₁ ((ofWorkflow_of_kin hk.kin).trans hc)
      (average_of_criticalPath hw₁ hcritical)
  have hknown : ∀ x ∈ critical, x ∈ w₁.workflow.ids := by
    obtain ⟨critical', hcritical', hfound⟩ := criticalPath_ok hrated
    obtain rfl := Except.ok.inj (hcritical.symm.trans hcritical')
    exact mem_ids_of_critical hrated.checked hfound
  have hids := Workflow.ids_of_kin hkin
  refine within_both (estimateAll_delayed (o := ⟨p.costs, p.floor, options.maxWidth, options.warnWidth,
    options.fallback, critical⟩) (w := (w₁.note (.pathsFound w₁.workflow.paths.length)).note
      (.criticalPath critical)) hpos hrated (hd.of_kin hkin) (hr.of_kin hkin) hnone
        (hids ▸ hperm) hknown) fun _ s _ s' hs => ?_
  obtain ⟨hl, htasks⟩ := hs
  refine get_both.2 (modify_both.2 ?_)
  rw [orderByEstimate_later htasks]
  exact allocate_delayed (f := fun plan => { plan with criticalPath := critical, paths := _ })
    (World.unnoted_later.noteAll hl _ _) (fun x hx => sortByKey_perm.mem_iff.2 ((noteAll_eq s.toWorld _).1 ▸ hx))
      fun _ => rfl

namespace Planner

/-- Where nothing is estimated, planning from a later floor ends alike, with a plan that is later by the
delay. -/
theorem run_later (planner : Planner ℚ) (hs : planner.Sane) (hd : w.workflow.Distinct)
    (hnone : ∀ t ∈ w.workflow.tasks, t.isEstimated = false) (δ : ℚ) :
    Both planner.run w ({ planner with floor := planner.floor + δ } : Planner ℚ).run w
      (fun plan u plan' u' => plan' = plan.delay δ ∧ u.Delayed δ u') fun e _ e' _ => e' = e := by
  unfold run
  refine get_both.2 (Both.unless (P := fun t t' => t = w ∧ t' = w) Iff.rfl (fun _ => both_throw.2 rfl)
    (fun _ => ⟨rfl, rfl⟩) fun t t' ht => ?_)
  obtain ⟨rfl, rfl⟩ := ht
  refine ofExcept_both (fun _ hcheck => modify_both.2 (ofExcept_both (fun c hc => modify_both.2
    (ofExcept_both (fun order horder => ?_) fun _ => rfl)) fun _ => rfl)) fun _ => rfl
  have hw := Workflow.check_eq_ok.1 hcheck
  have hr := Workflow.ranking_place horder fun u hu c => hw.mem_ids_of_child hu
  have hperm := (Workflow.topologicalOrder_sound horder).1.map Task.id
  have halgorithm : ({ planner with floor := planner.floor + δ } : Planner ℚ).algorithm =
      planner.algorithm := rfl
  rw [halgorithm]
  have hk := (kept_note t' (.planning planner.algorithm t'.workflow.size t'.vms.length)).trans
    (kept_noteAll _ c.summary)
  have hworkflow : ((t'.note (.planning planner.algorithm t'.workflow.size t'.vms.length)).noteAll
      c.summary).workflow = t'.workflow := (noteAll_eq _ _).1
  generalize (World.note _ t').noteAll c.summary = w₁ at hk hworkflow ⊢
  have hc₁ := (ofWorkflow_of_kin hk.kin).trans hc
  rw [← hworkflow] at hw hr hd hnone hperm
  cases hstrategy : planner.strategy with
  | byRank =>
    exact (planByRank_later (p := ⟨t'.vms, c, planner.floor⟩) hnone).bind fun plan u plan' u' h =>
      modify_both.2 (both_pure.2 ⟨h.1, World.unnoted_delayed.noteAll h.2 _ _⟩)
  | byEstimate options =>
    rw [Sane, hstrategy] at hs
    exact (planByEstimate_later (p := ⟨t'.vms, c, planner.floor⟩) hw hc₁ hd hr hs hperm).bind
      fun plan u plan' u' h =>
        modify_both.2 (both_pure.2 ⟨h.1, World.unnoted_delayed.noteAll h.2 _ _⟩)

/-- Planning a reset workflow from another floor ends alike: either both planners fail with the same
fault, or their plans agree in all but time, and each end, each slot and each estimate is later by as
much as the floor. -/
theorem run_delayed (planner planner' : Planner ℚ) (f g : ℚ) (w : World ℚ) (keep : Bool)
    (hbuilt : byRank f = .ok planner ∧ byRank g = .ok planner' ∨
      ∃ options, byEstimate f options = .ok planner ∧ byEstimate g options = .ok planner')
    (hd : w.workflow.Distinct) :
    Both planner.run (w.reset keep) planner'.run (w.reset keep)
      (fun plan u plan' u' => plan' = plan.delay (g - f) ∧ u.Delayed (g - f) u')
      fun e _ e' _ => e' = e := by
  have hlater : planner' = { planner with floor := planner.floor + (g - f) } ∧ planner.Sane := by
    have hmove : f + (g - f) = g := add_sub_cancel f g
    rcases hbuilt with ⟨hf, hg⟩ | ⟨options, hf, hg⟩
    · unfold byRank at hf hg
      split_ifs at hf hg
      rw [← Except.ok.inj hf, ← Except.ok.inj hg]
      exact ⟨by rw [hmove], trivial⟩
    · unfold byEstimate at hf hg
      split_ifs at hf hg with _ _ hlatency
      rw [← Except.ok.inj hf, ← Except.ok.inj hg]
      exact ⟨by rw [hmove], not_le.1 hlatency⟩
  obtain ⟨rfl, hs⟩ := hlater
  refine planner.run_later hs (hd.of_kin (World.kin_reset w keep).workflow) (fun t ht => ?_) (g - f)
  obtain ⟨u, -, rfl⟩ := List.mem_map.1 ht
  rfl

theorem run_delayed_detour : detour.workflow.Distinct ∧ ∀ strategy ∈ detourStrategies,
    (byRank (1 : ℚ) = .ok ⟨strategy, 1⟩ ∧ byRank (3 : ℚ) = .ok ⟨strategy, 3⟩ ∨ ∃ options,
      byEstimate (1 : ℚ) options = .ok ⟨strategy, 1⟩ ∧ byEstimate (3 : ℚ) options = .ok ⟨strategy, 3⟩) ∧
    ∃ plan plan' u u', (⟨strategy, 1⟩ : Planner ℚ).run (detour.reset false) = .ok plan u ∧
      (⟨strategy, 3⟩ : Planner ℚ).run (detour.reset false) = .ok plan' u' ∧
      plan' = plan.delay (3 - 1) ∧ u.Delayed (3 - 1) u' := by
  refine ⟨distinct_detour, fun strategy hstrategy => ?_⟩
  have hbuilt : byRank (1 : ℚ) = .ok ⟨strategy, 1⟩ ∧ byRank (3 : ℚ) = .ok ⟨strategy, 3⟩ ∨ ∃ options,
      byEstimate (1 : ℚ) options = .ok ⟨strategy, 1⟩ ∧
        byEstimate (3 : ℚ) options = .ok ⟨strategy, 3⟩ := by
    rcases List.mem_pair.1 hstrategy with rfl | rfl
    · exact Or.inl ⟨rfl, rfl⟩
    · exact Or.inr ⟨{ fallback := 1 }, rfl, rfl⟩
  obtain ⟨hsane, hwidth⟩ := sane_detour hstrategy 1
  obtain ⟨c, hp⟩ := priced_detour 1
  obtain ⟨plan, u, hrun⟩ := run_ok (w := detour.reset false) ⟨strategy, 1⟩ hsane hp distinct_detour hwidth
  obtain ⟨plan', u', hrun', hplan, hu⟩ :=
    (run_delayed ⟨strategy, 1⟩ ⟨strategy, 3⟩ 1 3 detour false hbuilt distinct_detour).of_ok hrun
  exact ⟨hbuilt, plan, plan', u, u', hrun, hrun', hplan, hu⟩

end Planner

end FlowSched

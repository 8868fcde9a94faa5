import FlowSched.Proofs.Planning.Blind
import FlowSched.Proofs.Planning.Rank

/-!
# What a plan records

A plan tells of all tasks: in the order in which they were allocated, which is added to the session,
and each on the VM of the roster that it was bound to (`Planner.run_records`). No number matters for
this, so it holds whether or not numbers are rounded.
-/

namespace FlowSched

open Quantity Step Holder

variable {α : Type} [Quantity α]

/-- A plan that puts each task on the VM of the roster that the task is bound to, in an order of all
tasks that was added to the session. -/
structure Plan.Recorded (plan : Plan α) (w w' : World α) : Prop where
  order : plan.order.Perm w'.workflow.ids
  planned : w'.session.planned = w.session.planned ++ plan.order
  assignment : plan.assignment = Table.ofList (plan.order.map fun id =>
    (id, ((w'.workflow.find? id).map Task.vm).getD unbound))
  placed : ∀ t ∈ w'.workflow.tasks, ∃ v ∈ w'.vms, v.id = t.vm

section

variable {plan : Plan α} {w w₁ w' : World α}

theorem Plan.Recorded.of_session (h : plan.Recorded w₁ w') (hs : w₁.session = w.session) :
    plan.Recorded w w' :=
  ⟨h.order, hs ▸ h.planned, h.assignment, h.placed⟩

theorem Plan.Recorded.noteAll (h : plan.Recorded w w') (ns : List (Note α)) :
    plan.Recorded w (w'.noteAll ns) :=
  World.noteAll_keeps (fun _ _ h => ⟨h.order, h.planned, h.assignment, h.placed⟩) h ns

end

/-! ## Allocation -/

namespace Draft

/-- A draft in which some tasks were allocated one after the other. -/
structure Sequenced (p : Pricing α) (w : World α) (done : List ℤ) (d : Draft α) : Prop where
  order : d.order = done
  planned : d.session.planned = w.session.planned ++ done
  placed : ∀ x ∈ done, ∀ t, d.workflow.find? x = some t → ∃ v ∈ p.vms, v.id = t.vm

variable {p : Pricing α} {w : World α} {d : Draft α} {done : List ℤ} {task : Task α}

theorem Sequenced.accept (h : Sequenced p w done d) (ht : d.workflow.find? task.id = some task)
    {o : Offer α} (ho : ∃ v ∈ p.vms, v.id = o.vm) (line : Timeline α) :
    Sequenced p w (done ++ [task.id]) (d.accept task line o) where
  order := by rw [← h.order]; rfl
  planned := by
    rw [← List.append_assoc, ← h.planned]
    rfl
  placed x hx t hxt := by
    by_cases hne : x = task.id
    · subst hne
      have hself : (d.accept task line o).workflow.find? task.id = _ := Workflow.find?_modify_self ht
      obtain rfl := Option.some.inj (hself.symm.trans hxt)
      dsimp only
      split <;> exact ho
    · have hother : (d.accept task line o).workflow.find? x = _ := Workflow.find?_modify_of_ne hne
      have hxd : x ∈ done := (List.mem_append.1 hx).resolve_right fun hm =>
        hne (List.mem_singleton.1 hm)
      exact h.placed x hxd t (hother.symm.trans hxt)

theorem allocateAll_sequenced (p : Pricing α) (order : List ℤ) (w : World α) :
    Leads (allocateAll p order) (fresh w) (fun _ d => Sequenced p w order d) fun _ _ => True := by
  refine Leads.each_done (I := fun done d => Sequenced p w done d) (fun done x rest d _ hd => ?_)
    ⟨rfl, (List.append_nil _).symm, fun _ hx => by cases hx⟩
  refine leads_allocate (fun task line o ht hbest _ => ?_) fun _ => trivial
  obtain rfl := (Workflow.find?_eq_some.1 ht).2
  exact hd.accept ht (vm_of_bestOffer? hbest) line

end Draft

section

variable {p : Pricing α} {w : World α}

/-- Allocating all tasks makes a plan that records it. -/
theorem allocation_records {order : List ℤ} (hp : p.vms = w.vms) (horder : order.Perm w.workflow.ids)
    (f : Plan α → Plan α)
    (hf : ∀ plan, (f plan).order = plan.order ∧ (f plan).assignment = plan.assignment) :
    Leads (do
      let (_, draft) ← within Draft.fresh Draft.toWorld (Draft.allocateAll p order)
      pure (f draft.plan)) w (fun plan w' => plan.Recorded w w') fun _ _ => True := by
  rw [leads_bind, leads_within]
  refine ((Draft.allocateAll_sequenced p order w).and
    (Draft.keeps_allocateAll p order (Draft.fresh w))).mono (fun _ d hd => ?_) fun _ _ _ => trivial
  obtain ⟨hd, hk⟩ := hd
  have hids : d.workflow.ids = w.workflow.ids := Workflow.ids_of_kin hk.kin.workflow
  have hvms : d.vms = w.vms := hk.vms
  have hplan : d.plan.order = order := hd.order
  obtain ⟨horder', hassignment⟩ := hf d.plan
  refine leads_pure.2 ⟨?_, ?_, ?_, fun t ht => ?_⟩
  · rw [horder', hids, hplan]
    exact horder
  · rw [horder', hplan]
    exact hd.planned
  · rw [horder', hassignment]
    rfl
  · have hm : t.id ∈ order := horder.mem_iff.2 (hids ▸ List.mem_map_of_mem ht)
    rw [hvms, ← hp]
    exact hd.placed t.id hm t (Workflow.find?_self ht)

theorem planByRank_records (hp : p.vms = w.vms) (place : ℤ → ℕ) :
    Leads (planByRank p place) w (fun plan w' => plan.Recorded w w') fun _ _ => True := by
  unfold planByRank
  rw [leads_bind, leads_get, leads_bind, leads_ofExcept]
  refine ⟨fun ranks _ => ?_, fun _ _ => trivial⟩
  rw [leads_bind, leads_set]
  obtain ⟨hworkflow, hvms, hsession⟩ :=
    noteAll_eq w (ranks.entries.map fun e => .ranked e.1 e.2)
  refine (allocation_records (hp.trans hvms.symm) ?_ (fun plan => { plan with ranks := ranks })
    fun _ => ⟨rfl, rfl⟩).mono (fun plan w' h => h.of_session hsession) fun _ _ _ => trivial
  rw [hworkflow]
  exact sortByKey_perm

/-- Estimating leaves the session alone. -/
theorem lasting_session (w : World α) :
    World.Lasting (fun u : World α => u.session = w.session) (fun _ => True) fun _ _ => False :=
  ⟨fun _ _ h _ => h, fun _ _ _ h _ => h, fun _ _ _ h _ => h, fun _ _ _ h => h.elim⟩

theorem planByEstimate_records (hp : p.vms = w.vms) (options : PathOptions α) (order : List ℤ)
    (place : ℤ → ℕ) :
    Leads (planByEstimate options p order place) w (fun plan w' => plan.Recorded w w')
      fun _ _ => True := by
  have hlasting := lasting_session w
  unfold planByEstimate
  dsimp only
  rw [leads_bind, leads_modify, leads_bind, leads_get]
  have hk := kept_unestimate w w.workflow.ids
  have hs := lasting_unestimate hlasting w.workflow.ids (w := w) rfl
  generalize w.workflow.ids.foldl _ w = w₁ at hk hs ⊢
  rw [leads_bind, leads_modify, leads_bind, leads_ofExcept]
  refine ⟨fun critical _ => ?_, fun _ _ => trivial⟩
  rw [leads_bind, leads_modify, leads_bind, leads_within]
  have hk := hk.trans ((kept_note w₁ (.pathsFound w₁.workflow.paths.length)).trans
    (kept_note _ (.criticalPath critical)))
  refine (((Sketch.blind_estimateAll hlasting (fun _ _ => trivial) _ order).leads rfl hs).and
    (Sketch.keeps_estimateAll _ order _)).mono (fun _ s h => ?_) fun _ _ _ => trivial
  have hk := hk.trans h.2
  rw [leads_bind, leads_get, leads_bind, leads_modify]
  obtain ⟨hworkflow, hvms, hsession⟩ := noteAll_eq s.toWorld
    (s.workflow.tasks.map fun t => .estimated t.id t.plannedStart t.plannedFinish)
  refine (allocation_records ((hp.trans hk.vms.symm).trans hvms.symm) ?_
    (fun plan => { plan with criticalPath := critical, paths := w₁.workflow.paths })
    fun _ => ⟨rfl, rfl⟩).mono (fun plan w' h' => h'.of_session (hsession.trans h.1)) fun _ _ _ => trivial
  rw [hworkflow]
  exact sortByKey_perm

/-- What a planner plans, it records. -/
theorem Planner.run_records (planner : Planner α) (w : World α) :
    Leads planner.run w (fun plan w' => plan.Recorded w w') fun _ _ => True := by
  unfold run
  rw [leads_bind, leads_get]
  refine Leads.unless (P := fun t => t = w) (fun _ => trivial) (fun _ => rfl) fun t ht => ?_
  subst ht
  rw [leads_bind, leads_ofExcept]
  refine ⟨fun _ _ => ?_, fun _ _ => trivial⟩
  rw [leads_bind, leads_modify, leads_bind, leads_ofExcept]
  refine ⟨fun costs _ => ?_, fun _ _ => trivial⟩
  rw [leads_bind, leads_modify, leads_bind, leads_ofExcept]
  refine ⟨fun order _ => ?_, fun _ _ => trivial⟩
  obtain ⟨-, hvms, hsession⟩ := noteAll_eq
    (t.note (.planning planner.algorithm t.workflow.size t.vms.length)) costs.summary
  generalize (World.note _ t).noteAll costs.summary = w₁ at hvms hsession ⊢
  have hreport : ∀ (plan : Plan α) w', plan.Recorded w₁ w' → Leads (do
      modify (World.noteAll plan.timelineNotes)
      pure plan : Step (Fault α) (World α) (Plan α)) w'
        (fun plan w' => plan.Recorded t w') fun _ _ => True := by
    intro plan w' h
    rw [leads_bind, leads_modify, leads_pure]
    exact Plan.Recorded.noteAll (h.of_session (w := t) hsession) _
  cases planner.strategy with
  | byRank => exact (planByRank_records (p := ⟨t.vms, costs, planner.floor⟩) hvms.symm _).bind hreport
  | byEstimate options =>
    exact (planByEstimate_records (p := ⟨t.vms, costs, planner.floor⟩) hvms.symm _ _ _).bind hreport

end

end FlowSched

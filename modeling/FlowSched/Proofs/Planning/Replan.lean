import Mathlib.Logic.Relation
import FlowSched.Proofs.Planning.Bound
import FlowSched.Proofs.Planning.ByRank
import FlowSched.Proofs.Planning.Instants

/-!
# Planning again

A workflow can be planned any number of times. A plan by rank gives every task one slot and writes the
start and the end of the slot on the task, unless the task counts as estimated. Only a planner by estimate
sets or clears that mark, so a task that still bears it has kept what the last such planner wrote, and is
not dated by its slot in the new plan (`Planner.run_byRank_dated`).
-/

namespace FlowSched

open Quantity Step

/-- The slot of a task: it stands on the VM that the task is bound to, no other slot of any VM is for the
task, and the task is planned to end with it. -/
structure SlotOf (timelines : Table (Timeline ℚ)) (finishes : Table ℚ) (t : Task ℚ) (slot : Slot ℚ) :
    Prop where
  stands : ∃ line, timelines.get? t.vm = some line ∧ slot ∈ line.slots
  task : slot.task = t.id
  only : ∀ other ∈ reserved timelines, other.task = t.id → other = slot
  finish : finishes.get? t.id = some slot.finish

/-- A task is to start and to end with a slot. -/
def Task.Dated (t : Task ℚ) (slot : Slot ℚ) : Prop :=
  t.plannedStart = slot.start ∧ t.plannedFinish = slot.finish

/-- The same tasks count as estimated, and they have the same estimates. -/
structure Workflow.Heeds (w w' : Workflow ℚ) : Prop where
  ids : w'.ids = w.ids
  tasks : ∀ x t, w.find? x = some t → ∃ t', w'.find? x = some t' ∧ t'.isEstimated = t.isEstimated ∧
    (t.isEstimated = true → t'.ends = t.ends)

/-- A call of a planner on a workflow, in some world that holds it, and the workflow that the call leaves,
whether it returns a plan or fails. -/
def Planner.Leaves (planner : Planner ℚ) (w w' : Workflow ℚ) : Prop :=
  ∃ u u' : World ℚ, u.workflow = w ∧ u'.workflow = w' ∧
    ((∃ plan, planner.run u = .ok plan u') ∨ ∃ fault, planner.run u = .error fault u')

/-- A planner by rank. -/
def Planner.ByRank (planner : Planner ℚ) : Prop := planner.strategy = .byRank

/-- Calls of planners of a kind on one workflow, any number of them. -/
def Replanned (P : Planner ℚ → Prop) : Workflow ℚ → Workflow ℚ → Prop :=
  Relation.ReflTransGen fun w w' => ∃ planner, P planner ∧ planner.Leaves w w'

/-- On the way from `w₀` to `w`, the last planner that did not go by rank has left `v`. -/
def LastEstimate (P : Planner ℚ → Prop) (w₀ v w : Workflow ℚ) : Prop :=
  ∃ u planner, Replanned P w₀ u ∧ P planner ∧ ¬ planner.ByRank ∧ planner.Leaves u v ∧
    Replanned Planner.ByRank v w

/-! ## Estimates that are heeded -/

namespace Workflow

variable {w w' w'' : Workflow ℚ}

theorem Heeds.refl (w : Workflow ℚ) : w.Heeds w := ⟨rfl, fun _ t ht => ⟨t, ht, rfl, fun _ => rfl⟩⟩

theorem Heeds.trans (h : w.Heeds w') (h' : w'.Heeds w'') : w.Heeds w'' := by
  refine ⟨h'.ids.trans h.ids, fun x t ht => ?_⟩
  obtain ⟨t', ht', hmark, hends⟩ := h.tasks x t ht
  obtain ⟨t'', ht'', hmark', hends'⟩ := h'.tasks x t' ht'
  exact ⟨t'', ht'', hmark'.trans hmark, fun he => (hends' (hmark.trans he)).trans (hends he)⟩

/-- Every task was there before, with the same mark and under a mark with the same estimate. -/
theorem Heeds.exists_task (h : w.Heeds w') {t' : Task ℚ} (ht' : t' ∈ w'.tasks) :
    ∃ t, w.find? t'.id = some t ∧ t'.isEstimated = t.isEstimated ∧
      (t.isEstimated = true → t'.ends = t.ends) := by
  obtain ⟨t, ht⟩ := mem_ids.1 (h.ids ▸ List.mem_map_of_mem ht' : t'.id ∈ w.ids)
  obtain ⟨u, hu, hkeep⟩ := h.tasks t'.id t ht
  obtain rfl := Option.some.inj (hu.symm.trans (find?_self ht'))
  exact ⟨t, ht, hkeep⟩

/-- Where no task counts as estimated, none does after that. -/
theorem Heeds.unestimated (h : w.Heeds w') (hnone : ∀ t ∈ w.tasks, t.isEstimated = false) :
    ∀ t' ∈ w'.tasks, t'.isEstimated = false := by
  intro t' ht'
  obtain ⟨t, ht, hmark, -⟩ := h.exists_task ht'
  exact hmark.trans (hnone t (find?_eq_some.1 ht).1)

end Workflow

namespace Draft

variable {p : Pricing ℚ} {d : Draft ℚ} {done : List ℤ} {t : Task ℚ} {o : Offer ℚ} {line : Timeline ℚ}
  {x : ℤ}

/-- What an accepted offer writes on its task: the VM, and the slot unless the task counts as
estimated. -/
theorem find?_accept_written (ht : t ∈ d.workflow.tasks) (line : Timeline ℚ) (o : Offer ℚ) :
    ∃ u, (d.accept t line o).workflow.find? t.id = some u ∧ u.vm = o.vm ∧
      u.isEstimated = t.isEstimated ∧ (t.isEstimated = true → u.ends = t.ends) ∧
      (t.isEstimated = false → u.plannedStart = o.finish - o.cost ∧ u.plannedFinish = o.finish) := by
  refine ⟨_, Workflow.find?_modify_self (Workflow.find?_self ht), ?_⟩
  cases t.isEstimated with
  | true => simp [Task.ends]
  | false => simp

theorem heeds_accept (ht : t ∈ d.workflow.tasks) (line : Timeline ℚ) (o : Offer ℚ) :
    d.workflow.Heeds (d.accept t line o).workflow := by
  refine ⟨Workflow.ids_of_kin (kept_accept d t line o).kin.workflow, fun x u hu => ?_⟩
  by_cases hx : x = t.id
  · subst hx
    obtain rfl := Option.some.inj ((Workflow.find?_self ht).symm.trans hu)
    obtain ⟨u, hu, -, hmark, hends, -⟩ := find?_accept_written ht line o
    exact ⟨u, hu, hmark, hends⟩
  · exact ⟨u, (find?_accept_of_ne hx).trans hu, rfl, fun _ => rfl⟩

/-- Allocation heeds all estimates, also where it fails. -/
theorem allocateAll_heeds (p : Pricing ℚ) (order : List ℤ) (d : Draft ℚ) :
    Leads (allocateAll p order) d (fun _ d' => d.workflow.Heeds d'.workflow)
      fun _ d' => d.workflow.Heeds d'.workflow :=
  Leads.each (f := allocate p) (I := fun _ d' => d.workflow.Heeds d'.workflow)
    (fun _ _ _ h => leads_allocate (fun _ line o ht _ _ =>
      h.trans (heeds_accept (Workflow.find?_eq_some.1 ht).1 line o)) fun _ => h) (.refl d.workflow)

/-! ## Slots that date their tasks -/

/-- A draft in which some tasks have a slot each, which dates them unless they count as estimated. -/
structure Dealt (done : List ℤ) (d : Draft ℚ) : Prop where
  tidy : ∀ line ∈ d.timelines.values, Timeline.Tidy line.slots
  known : ∀ slot ∈ reserved d.timelines, slot.task ∈ done
  slots : ∀ x ∈ done, ∃ t slot, d.workflow.find? x = some t ∧
    SlotOf d.timelines d.finishes t slot ∧ (t.isEstimated = false → t.Dated slot)

theorem dealt_fresh (w : World ℚ) : Dealt [] (fresh w) :=
  ⟨tidy_fresh w, by simp [reserved_fresh], by simp⟩

section

variable (h : Dealt done d) (hnew : t.id ∉ done) (hline : d.timelines.get? o.vm = some line)

include h hnew hline

/-- A slot stays that of its task. -/
theorem Dealt.slot_other (hx : x ∈ done) : ∃ u slot, (d.accept t line o).workflow.find? x = some u ∧
    SlotOf (d.accept t line o).timelines (d.accept t line o).finishes u slot ∧
      (u.isEstimated = false → u.Dated slot) := by
  obtain ⟨u, slot, hu, hslot, hdated⟩ := h.slots x hx
  obtain rfl := (Workflow.find?_eq_some.1 hu).2
  have hne : u.id ≠ t.id := fun he => hnew (he ▸ hx)
  refine ⟨u, slot, (find?_accept_of_ne hne).trans hu, ⟨stands_other h.tidy hline hslot.stands, hslot.task,
    fun other hm he => ?_, ?_⟩, hdated⟩
  · rcases List.mem_cons.1 ((reserved_accept h.tidy hline).subset hm) with rfl | hm
    · exact absurd he.symm hne
    · exact hslot.only other hm he
  · rw [finishes_accept_of_mem hnew hx]
    exact hslot.finish

/-- The new slot is that of the task that is allocated. -/
theorem Dealt.slot_self (ht : t ∈ d.workflow.tasks)
    (hfinish : o.finish = line.finishTime o.cost o.ready) :
    ∃ u slot, (d.accept t line o).workflow.find? t.id = some u ∧
      SlotOf (d.accept t line o).timelines (d.accept t line o).finishes u slot ∧
        (u.isEstimated = false → u.Dated slot) := by
  obtain ⟨u, hu, hvm, hmark, -, hdates⟩ := find?_accept_written ht line o
  have hid := (Workflow.find?_eq_some.1 hu).2
  have hend : (line.slotFor t.id o.cost o.ready).1.finish = o.finish := hfinish.symm
  refine ⟨u, (line.slotFor t.id o.cost o.ready).1, hu, ⟨hvm ▸ stands_self h.tidy hline, hid.symm,
    fun other hm he => ?_, ?_⟩, fun hu => ?_⟩
  · rcases List.mem_cons.1 ((reserved_accept h.tidy hline).subset hm) with rfl | hm
    · rfl
    · exact absurd (hid ▸ he ▸ h.known other hm) hnew
  · rw [hid, finishes_accept, if_pos rfl, hend]
  · obtain ⟨hstart, hfinish'⟩ := hdates (hmark.symm.trans hu)
    exact ⟨hstart.trans (by rw [← hend]; exact add_sub_cancel_right _ _), hfinish'.trans hend.symm⟩

/-- An accepted offer gives one more task its slot. -/
theorem Dealt.accept (ht : t ∈ d.workflow.tasks) (hcost : 0 ≤ o.cost)
    (hfinish : o.finish = line.finishTime o.cost o.ready) :
    Dealt (done ++ [t.id]) (d.accept t line o) where
  tidy := tidy_accept h.tidy hline hcost
  known slot hm := by
    rcases List.mem_cons.1 ((reserved_accept h.tidy hline).subset hm) with rfl | hm
    · exact List.mem_append_right _ (List.mem_singleton_self _)
    · exact List.mem_append_left _ (h.known slot hm)
  slots x hx := by
    rcases List.mem_append.1 hx with hx | hx
    · exact h.slot_other hnew hline hx
    · rw [List.mem_singleton.1 hx]
      exact h.slot_self hnew hline ht hfinish

end

/-- Tasks that are allocated once each get a slot each. -/
theorem allocateAll_dealt (hcosts : ∀ x vm cost, p.costs.computing x vm = .ok (some cost) → 0 ≤ cost)
    {order : List ℤ} (hn : order.Nodup) (w : World ℚ) :
    Leads (allocateAll p order) (fresh w) (fun _ d => Dealt order d) fun _ _ => True := by
  refine Leads.each_done (I := fun done d => Dealt done d) (fun done x rest d hsplit hd => ?_)
    (dealt_fresh w)
  refine leads_allocate (fun t line o ht hbest hline => ?_) fun _ => trivial
  obtain ⟨hm, rfl⟩ := Workflow.find?_eq_some.1 ht
  have hnew : t.id ∉ done := by
    rw [hsplit, List.nodup_append] at hn
    exact fun hx => hn.2.2 _ hx _ List.mem_cons_self rfl
  obtain ⟨v, -, hoffer⟩ := of_bestOffer? hbest
  obtain ⟨hvm, -, hcost, line', hline', hfinish⟩ := of_offer? hoffer
  obtain rfl := Option.some.inj (hline.symm.trans (hvm ▸ hline'))
  exact hd.accept hnew hline hm (hcosts _ _ _ hcost) hfinish

end Draft

/-! ## Planners by rank -/

/-- What was planned once can be planned again, at the same costs. -/
theorem Priced.again {p : Pricing ℚ} {w w' : World ℚ} (h : Priced p w) (hk : Kept w w') :
    Priced { vms := w'.vms, costs := p.costs, floor := p.floor } w' := by
  have hp := h.of_kept hk
  rw [← hp.vms]
  exact hp

namespace Planner

variable {planner : Planner ℚ} {P : Planner ℚ → Prop} {w₀ : Workflow ℚ}

/-- Lining up by rank writes nothing but notes, whether it succeeds or not. -/
theorem lineUp_byRank_unwritten (hrank : planner.ByRank) (w : World ℚ) :
    Leads planner.lineUp w
      (fun l w₁ => w.Unwritten w₁ ∧ l.order.Perm w.workflow.ids ∧
        ∀ x vm cost, l.pricing.costs.computing x vm = .ok (some cost) → 0 ≤ cost)
      fun _ w₁ => w.Unwritten w₁ := by
  refine leads_lineUp (fun c order hfit => ?_) fun _ ns => w.unwritten_noteAll ns
  have hopen : w.Unwritten (planner.opening c w) := w.unwritten_noteAll (_ :: c.summary)
  rw [arrange, hrank]
  refine leads_lineUpByRank.2 ⟨fun ranks _ => ⟨hopen.trans (World.unwritten_noteAll _ _), ?_, ?_⟩,
    fun _ _ => hopen⟩
  · rw [← hopen.workflow]
    exact sortByKey_perm
  · exact fun x vm cost => computing_nonneg hfit.costs (Workflow.check_eq_ok.1 hfit.check).length

/-- A planner by rank heeds the estimates that it finds. If it returns, each task has one slot, which
dates it unless it counts as estimated. -/
theorem run_byRank_deals (hrank : planner.ByRank) (w : World ℚ) :
    Leads planner.run w
      (fun plan w' => w.workflow.Heeds w'.workflow ∧ ∀ t ∈ w'.workflow.tasks, ∃ slot,
        SlotOf plan.timelines plan.finishes t slot ∧ (t.isEstimated = false → t.Dated slot))
      fun _ w' => w.workflow.Heeds w'.workflow := by
  rw [run_eq, leads_bind]
  refine (lineUp_byRank_unwritten hrank w).mono (fun l w₁ hl => ?_)
    fun _ w₁ h => h.workflow ▸ .refl _
  obtain ⟨hunwritten, hperm, hcosts⟩ := hl
  rw [leads_bind, Lineup.leads_allot, ← hunwritten.workflow]
  refine ((Draft.allocateAll_heeds l.pricing l.order (Draft.fresh w₁)).and
    (Draft.allocateAll_dealt hcosts (hperm.nodup_iff.2 w.workflow.nodup) w₁)).mono
    (fun _ d hd => ?_) fun _ _ h => h.1
  obtain ⟨hheeds, hdealt⟩ := hd
  rw [leads_bind, leads_modify, leads_pure, (noteAll_eq d.toWorld _).1]
  refine ⟨hheeds, fun t ht => ?_⟩
  have hid : t.id ∈ l.order := by
    rw [hperm.mem_iff, ← hunwritten.workflow]
    exact hheeds.ids ▸ List.mem_map_of_mem ht
  obtain ⟨u, slot, hu, hslot⟩ := hdealt.slots t.id hid
  obtain rfl := Option.some.inj ((Workflow.find?_self ht).symm.trans hu)
  exact ⟨slot, hslot⟩

/-- Planners by rank heed estimates however often they are called. -/
theorem heeds_of_replanned {w w' : Workflow ℚ} (h : Replanned ByRank w w') : w.Heeds w' := by
  induction h with
  | refl => exact .refl w
  | tail _ hcall ih =>
    obtain ⟨planner, hrank, u, u', rfl, rfl, hrun⟩ := hcall
    have hlead := run_byRank_deals hrank u
    refine ih.trans ?_
    rcases hrun with ⟨plan, hrun⟩ | ⟨fault, hrun⟩
    · exact (hlead.of_ok hrun).1
    · exact hlead.of_error hrun

theorem heeds_of_lastEstimate {v w : Workflow ℚ} (h : LastEstimate P w₀ v w) : v.Heeds w := by
  obtain ⟨-, -, -, -, -, -, hsince⟩ := h
  exact heeds_of_replanned hsince

/-- Of the calls that came before, all were by rank, or one was the last that was not. -/
theorem replanned_cases {w : Workflow ℚ} (h : Replanned P w₀ w) :
    Replanned ByRank w₀ w ∨ ∃ v, LastEstimate P w₀ v w := by
  induction h with
  | refl => exact Or.inl .refl
  | tail hbefore hcall ih =>
    obtain ⟨planner, hP, hleaves⟩ := hcall
    by_cases hrank : planner.ByRank
    · refine ih.imp (fun h => h.tail ⟨planner, hrank, hleaves⟩) fun h => ?_
      obtain ⟨v, u, last, hu, hlast, hest, hcall, hsince⟩ := h
      exact ⟨v, u, last, hu, hlast, hest, hcall, hsince.tail ⟨planner, hrank, hleaves⟩⟩
    · exact Or.inr ⟨_, _, planner, hbefore, hP, hrank, hleaves, .refl⟩

/-- Whatever planners were called before, after a plan by rank every task has one slot, and it is to end
when the plan says so. The start and the end of the slot are written on the task unless it counts as
estimated; then it has what the last planner by estimate wrote. Without such a planner all tasks are
dated by their slots. -/
theorem run_byRank_dated (planner : Planner ℚ) (floor : ℚ) (P : Planner ℚ → Prop) (w₀ : Workflow ℚ)
    (w w' : World ℚ) (plan : Plan ℚ) (hbuilt : byRank floor = .ok planner)
    (hnone : ∀ t ∈ w₀.tasks, t.isEstimated = false) (hearlier : Replanned P w₀ w.workflow)
    (hrun : planner.run w = .ok plan w') :
    (∀ t ∈ w'.workflow.tasks, ∃ slot, SlotOf plan.timelines plan.finishes t slot ∧
      (t.isEstimated = false → t.Dated slot) ∧
      (t.isEstimated = true → ∃ v u, LastEstimate P w₀ v w.workflow ∧ v.find? t.id = some u ∧
        u.isEstimated = true ∧ t.ends = u.ends)) ∧
    (Replanned ByRank w₀ w.workflow → ∀ t ∈ w'.workflow.tasks, ∃ slot,
      SlotOf plan.timelines plan.finishes t slot ∧ t.Dated slot) := by
  obtain ⟨hheeds, hslots⟩ := (run_byRank_deals (strategy_of_byRank hbuilt) w).of_ok hrun
  have hclear : Replanned ByRank w₀ w.workflow → ∀ t ∈ w'.workflow.tasks, t.isEstimated = false :=
    fun h => ((heeds_of_replanned h).trans hheeds).unestimated hnone
  refine ⟨fun t ht => ?_, fun hbefore t ht => ?_⟩
  · obtain ⟨slot, hslot, hdated⟩ := hslots t ht
    refine ⟨slot, hslot, hdated, fun he => ?_⟩
    rcases replanned_cases hearlier with hbefore | ⟨v, hlast⟩
    · exact absurd (he.symm.trans (hclear hbefore t ht)) Bool.false_ne_true.symm
    · obtain ⟨u, hu, hmark, hends⟩ := ((heeds_of_lastEstimate hlast).trans hheeds).exists_task ht
      have hu' := hmark.symm.trans he
      exact ⟨v, u, hlast, hu, hu', hends hu'⟩
  · obtain ⟨slot, hslot, hdated⟩ := hslots t ht
    exact ⟨slot, hslot, hdated (hclear hbefore t ht)⟩

/-- The detour planned by rank twice in a row. -/
theorem run_byRank_dated_detour : ∃ planner plan w plan' w', byRank (1 : ℚ) = .ok planner ∧
    planner.run detour = .ok plan w ∧ planner.run w = .ok plan' w' ∧
    ∀ t ∈ w'.workflow.tasks, ∃ slot, SlotOf plan'.timelines plan'.finishes t slot ∧ t.Dated slot := by
  obtain ⟨c, hp⟩ := priced_detour 1
  obtain ⟨plan, w, hrun⟩ := run_ok ⟨.byRank, 1⟩ trivial hp distinct_detour fun _ he => by cases he
  have hk : Kept detour w := (keeps_run _ detour).of_ok hrun
  obtain ⟨plan', w', hrun'⟩ := run_ok ⟨.byRank, 1⟩ trivial (hp.again hk)
    (distinct_detour.of_kin hk.kin.workflow) fun _ he => by cases he
  have hearlier : Replanned ByRank detour.workflow w.workflow :=
    .single ⟨⟨.byRank, 1⟩, rfl, detour, w, rfl, rfl, Or.inl ⟨plan, hrun⟩⟩
  obtain ⟨-, hdated⟩ := run_byRank_dated ⟨.byRank, 1⟩ 1 ByRank detour.workflow w w' plan' rfl (by decide)
    hearlier hrun'
  exact ⟨_, plan, w, plan', w', rfl, hrun, hrun', hdated hearlier⟩

/-- Two tasks of one second each, the second of which waits for the first. -/
def handover : World ℚ where
  workflow :=
    { tasks := [{ id := 1, length := 10, children := [2] }, { id := 2, length := 10, parents := [1] }]
      nodup := by decide }
  vms := [{ id := 0, mips := 10 }]

theorem distinct_handover : handover.workflow.Distinct := ⟨by decide, by decide⟩

theorem priced_handover : ∃ c, Priced { vms := handover.vms, costs := c, floor := 1 } handover := by
  obtain ⟨c, hc⟩ : ∃ c, Costs.ofWorkflow handover.workflow handover.vms = .ok c :=
    exists_eq_ok (by decide +kernel)
  exact ⟨c, Workflow.check_eq_ok.1 rfl, by decide, rfl, hc, by decide⟩

/-- As no two estimates share an instant, the second task is not to start as soon as the first ends. -/
theorem estimated_handover {c : Costs ℚ} {w : Workflow ℚ}
    (hc : Costs.ofWorkflow handover.workflow handover.vms = .ok c) (hk : handover.workflow.Kin w)
    (he : w.Estimated 1 c) : ∃ t, w.find? 2 = some t ∧ 3 < t.plannedFinish := by
  have haverage : (Costs.ofWorkflow handover.workflow handover.vms).toOption.map (fun c =>
      ((c.average 1).toOption, (c.average 2).toOption)) = some (some 1, some 1) := by decide +kernel
  rw [hc] at haverage
  obtain ⟨haverage₁, haverage₂⟩ := Prod.mk.inj (Option.some.inj haverage)
  have hfirst : ∃ t, handover.workflow.find? 1 = some t ∧ t.children = [2] := ⟨_, rfl, rfl⟩
  obtain ⟨t, ht, hchildren⟩ := hfirst
  obtain ⟨t₁, ht₁, hk₁⟩ := Workflow.exists_of_kin hk ht
  obtain ⟨hm₁, hid₁⟩ := Workflow.find?_eq_some.1 ht₁
  obtain ⟨a₁, ha₁, hfinish₁⟩ := he.finish t₁ hm₁
  obtain ⟨t₂, ht₂, hlt⟩ := he.behind t₁ hm₁ 2 (by simp [hk₁.children, hchildren])
  obtain ⟨hm₂, hid₂⟩ := Workflow.find?_eq_some.1 ht₂
  obtain ⟨a₂, ha₂, hfinish₂⟩ := he.finish t₂ hm₂
  have hstart := he.floor_le t₁ hm₁
  rw [hid₁, eq_ok_of_toOption haverage₁] at ha₁
  rw [hid₂, eq_ok_of_toOption haverage₂] at ha₂
  rw [← Except.ok.inj ha₁] at hfinish₁
  rw [← Except.ok.inj ha₂] at hfinish₂
  exact ⟨t₂, ht₂, by linarith⟩

/-- In a plan no task ends later than in a serial run, in which the second task starts at once. -/
theorem planned_handover {c : Costs ℚ} {w w' : World ℚ} {plan : Plan ℚ} {strategy : Strategy ℚ}
    (hc : Costs.ofWorkflow handover.workflow handover.vms = .ok c) (hk : Kept handover w)
    (hp : Priced { vms := w.vms, costs := c, floor := 1 } w)
    (hplan : Planned strategy { vms := w.vms, costs := c, floor := 1 } w plan w') :
    ∀ f ∈ plan.finishes.values, f ≤ 3 := by
  have hserial : (Costs.ofWorkflow handover.workflow handover.vms).toOption.map (fun c =>
      (handover.workflow.tasks.map fun t => t.length / 10 + c.inward t).sum) = some 2 := by
    decide +kernel
  rw [hc] at hserial
  have hfit : ∀ t ∈ w.workflow.tasks, t.elements ≤ 1 := by
    intro t ht
    obtain ⟨t₀, ht₀, hkt⟩ := Workflow.mem_of_kin hk.kin.workflow ht
    have hall : ∀ t ∈ handover.workflow.tasks, t.elements ≤ 1 := by decide
    exact hkt.elements ▸ hall t₀ ht₀
  obtain ⟨-, hle⟩ := hplan.finishes_le hp (v := { id := 0, mips := 10 }) (by simp [hk.vms, handover]) hfit
  rw [Workflow.map_of_kin hk.kin.workflow (f := fun t => t.length / 10 + c.inward t) fun _ => rfl] at hle
  have hsum := Option.some.inj hserial
  dsimp only at hle hsum
  rw [hsum] at hle
  exact fun f hf => (hle f hf).trans_eq (by norm_num)

/-- Planned by estimate and then by rank, the second task keeps its estimate, which is no longer that of
its slot. -/
theorem run_byRank_undated : ∃ earlier planner plan w plan' w' t slot,
    byEstimate (1 : ℚ) { fallback := 1 } = .ok earlier ∧ earlier.run handover = .ok plan w ∧
    byRank (1 : ℚ) = .ok planner ∧ planner.run w = .ok plan' w' ∧ t ∈ w'.workflow.tasks ∧
    SlotOf plan'.timelines plan'.finishes t slot ∧ ¬ t.Dated slot ∧
    plan'.finishes.get? t.id ≠ some t.plannedFinish := by
  obtain ⟨earlier, hbuilt⟩ : ∃ planner, byEstimate (1 : ℚ) { fallback := 1 } = .ok planner :=
    exists_eq_ok (by decide +kernel)
  obtain ⟨hfloor, -, hsane⟩ := sane_of_built (Or.inr ⟨_, hbuilt⟩)
  have hstrategy := strategy_of_byEstimate hbuilt
  obtain ⟨c, hp⟩ := priced_handover
  -- the plan by estimate
  obtain ⟨plan, w, hrun⟩ := earlier.run_ok hsane (hfloor ▸ hp) distinct_handover fun options he => by
    obtain rfl := Strategy.byEstimate.inj (hstrategy.symm.trans he)
    decide
  have hk : Kept handover w := (earlier.keeps_run handover).of_ok hrun
  obtain ⟨c', hc', -, hplan⟩ := planned_of_run hsane distinct_handover hrun
  obtain rfl := Except.ok.inj (hp.costs.symm.trans hc')
  rw [hstrategy, hfloor] at hplan
  obtain ⟨t, ht, hlate⟩ := estimated_handover hp.costs hk.kin.workflow hplan.estimated
  -- the plan by rank, which heeds the estimate
  have hp' := hp.again hk
  have hd' := distinct_handover.of_kin hk.kin.workflow
  have hsane' : Sane (⟨.byRank, 1⟩ : Planner ℚ) := trivial
  obtain ⟨plan', w', hrun'⟩ := run_ok ⟨.byRank, 1⟩ hsane' hp' hd' fun _ he => by cases he
  obtain ⟨c', hc', -, hplan'⟩ := planned_of_run hsane' hd' hrun'
  obtain rfl := Except.ok.inj (hp'.costs.symm.trans hc')
  have hle := planned_handover hp.costs hk hp' hplan'
  have hrank : ByRank (⟨.byRank, 1⟩ : Planner ℚ) := rfl
  obtain ⟨hheeds, hslots⟩ := (run_byRank_deals hrank w).of_ok hrun'
  obtain ⟨t', ht', -, hends⟩ := hheeds.tasks 2 t ht
  obtain ⟨hm', -⟩ := Workflow.find?_eq_some.1 ht'
  obtain ⟨slot, hslot, -⟩ := hslots t' hm'
  have hfinish : slot.finish < t'.plannedFinish := by
    have hsame := hends (hplan.estimated.estimated t (Workflow.find?_eq_some.1 ht).1)
    obtain ⟨-, hsame⟩ := List.cons.inj hsame
    rw [(List.cons.inj hsame).1]
    exact (hle _ (Table.mem_values hslot.finish)).trans_lt hlate
  refine ⟨earlier, _, plan, w, plan', w', t', slot, hbuilt, hrun, rfl, hrun', hm', hslot,
    fun hdated => hfinish.ne' hdated.2, fun he => hfinish.ne ?_⟩
  exact Option.some.inj (hslot.finish.symm.trans he)

end Planner

end FlowSched

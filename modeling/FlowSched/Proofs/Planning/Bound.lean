import Mathlib.Algebra.Ring.Rat
import FlowSched.Proofs.Planning.Consistent

/-!
# How late a plan ends

A task is planned when it is ready or right behind another slot, and on the VM where it ends first. So
on any VM that can run every task, each task adds at most its inputs and its time on that VM to the end
of the plan: a plan ends no later than a serial run on such a VM that waits for each task's costliest
input (`Planner.run_bounded`).
-/

namespace FlowSched

open Quantity Step

/-! ## Slots -/

namespace Timeline

variable {slots : List (Slot ℚ)} {line : Timeline ℚ} {cost ready time : ℚ}

/-- Walking the gaps only leads to when the task is ready or to the end of a slot. -/
theorem walkGaps_start {reversed : List (Slot ℚ)} {best : Opening ℚ} (hsub : reversed ⊆ slots)
    (hbest : best.start = ready ∨ ∃ s ∈ slots, best.start = s.finish) :
    (walkGaps cost ready best reversed).start = ready ∨
      ∃ s ∈ slots, (walkGaps cost ready best reversed).start = s.finish := by
  induction reversed generalizing best with
  | nil => exact hbest
  | cons current reversed ih =>
    cases reversed with
    | nil => exact hbest
    | cons previous rest =>
      have hrest : previous :: rest ⊆ slots := fun s hs => hsub (List.mem_cons_of_mem _ hs)
      rw [walkGaps]
      split
      · split
        · exact Or.inl rfl
        · exact hbest
      · split
        · exact ih hrest (Or.inr ⟨previous, hrest List.mem_cons_self, rfl⟩)
        · exact ih hrest hbest

/-- A place is found when the task is ready, or right behind a slot. -/
theorem findSlot_start (slots : List (Slot ℚ)) (cost ready : ℚ) :
    (findSlot slots cost ready).1 = ready ∨
      ∃ s ∈ slots, (findSlot slots cost ready).1 = s.finish := by
  unfold findSlot
  split
  · exact Or.inl rfl
  · next only =>
    split
    · exact Or.inl rfl
    · split
      · exact Or.inl rfl
      · exact Or.inr ⟨only, List.mem_cons_self, rfl⟩
  · next first second rest =>
    dsimp only
    split
    · exact Or.inl rfl
    · refine walkGaps_start (List.reverse_subset.2 (List.Subset.refl _)) ?_
      have hlast : (second :: rest).getLastD first ∈ second :: rest := by
        rw [List.getLastD_cons, ← List.getLast_eq_getLastD (List.cons_ne_nil second rest)]
        exact List.getLast_mem _
      rw [later_eq_max]
      rcases max_choice ready ((second :: rest).getLastD first).finish with h | h
      · exact Or.inl h
      · exact Or.inr ⟨_, List.mem_cons_of_mem _ hlast, h⟩

/-- Once a task is ready and all slots have ended, it can be planned. -/
theorem finishTime_le (hready : ready ≤ time) (hslots : ∀ s ∈ line.slots, s.finish ≤ time) :
    line.finishTime cost ready ≤ time + cost := by
  refine add_le_add_left ?_ cost
  rcases findSlot_start line.slots cost ready with h | ⟨s, hs, h⟩
  · rw [h]
    exact hready
  · rw [h]
    exact hslots s hs

end Timeline

/-! ## Inputs -/

/-- The greatest transfer time over the edges into a task, `0` for a root. -/
def Costs.inward (c : Costs ℚ) (t : Task ℚ) : ℚ :=
  latest (t.parents.filterMap fun x => (c.moving x t.id).toOption)

namespace Costs

variable {c : Costs ℚ} {t : Task ℚ} {x : ℤ} {m : ℚ}

theorem mem_inward : m ∈ (t.parents.filterMap fun x => (c.moving x t.id).toOption) ↔
    ∃ x ∈ t.parents, c.moving x t.id = .ok m := by
  rw [List.mem_filterMap]
  refine exists_congr fun x => and_congr_right fun _ => ?_
  cases c.moving x t.id with
  | error e => simp [Except.toOption]
  | ok m' => simp [Except.toOption]

theorem le_inward (hx : x ∈ t.parents) (hm : c.moving x t.id = .ok m) : m ≤ c.inward t :=
  le_latest (mem_inward.2 ⟨x, hx, hm⟩)

/-- The greatest transfer time is that of an edge, if there is one. -/
theorem inward_mem (c : Costs ℚ) (t : Task ℚ) :
    c.inward t = 0 ∨ ∃ x ∈ t.parents, c.moving x t.id = .ok (c.inward t) := by
  by_cases hne : (t.parents.filterMap fun x => (c.moving x t.id).toOption) = []
  · left
    rw [inward, hne, latest_nil]
  · exact Or.inr (mem_inward.1 (latest_mem hne))

end Costs

theorem Rated.inward_nonneg {w : Workflow ℚ} {c : Costs ℚ} (h : Rated w c) {t : Task ℚ}
    (ht : t ∈ w.tasks) : 0 ≤ c.inward t := by
  rcases c.inward_mem t with h0 | ⟨x, hx, hm⟩
  · exact h0.ge
  · obtain ⟨u, hu, hchild⟩ := h.checked.parent t ht x hx
    obtain ⟨hum, rfl⟩ := Workflow.find?_eq_some.1 hu
    obtain ⟨time, htime, hnonneg⟩ := h.moving u hum t.id hchild
    obtain rfl := Except.ok.inj (hm.symm.trans htime)
    exact hnonneg

/-! ## Offers -/

namespace Draft

variable {p : Pricing ℚ} {d : Draft ℚ} {done : List ℤ} {t : Task ℚ} {v : Vm ℚ} {o : Offer ℚ}
  {bound : ℚ}

/-- An input arrives when its parent has ended, from another VM after its transfer. -/
theorem of_arrival {vm x : ℤ} {time : ℚ} (h : d.arrival p t vm x = .ok time) :
    ∃ finish u, d.finishes.get? x = some finish ∧ d.workflow.find? x = some u ∧
      (u.vm = vm ∧ time = finish ∨
        u.vm ≠ vm ∧ ∃ m, p.costs.moving x t.id = .ok m ∧ time = finish + m) := by
  unfold arrival at h
  cases hfinish : d.finishes.get? x with
  | none =>
    rw [hfinish] at h
    cases h
  | some finish =>
    rw [hfinish] at h
    obtain ⟨u, hu, h⟩ := bind_eq_ok.1 h
    refine ⟨finish, u, rfl, Workflow.get_eq_ok.1 hu, ?_⟩
    split at h
    · next hvm => exact Or.inl ⟨hvm, (Except.ok.inj h).symm⟩
    · next hvm =>
      obtain ⟨m, hm, h⟩ := bind_eq_ok.1 h
      exact Or.inr ⟨hvm, m, hm, (Except.ok.inj h).symm⟩

/-- A task is ready as soon as all its inputs have arrived. -/
theorem readyTime_le_of_arrivals {vm : ℤ} {ready : ℚ} (hfloor : p.floor ≤ bound)
    (harrivals : ∀ x ∈ t.parents, ∀ time, d.arrival p t vm x = .ok time → time ≤ bound)
    (h : d.readyTime p t vm = .ok ready) : ready ≤ bound := by
  refine foldlM_keeps (P := fun ready => ready ≤ bound) (fun x hx r r' hr hf => ?_) hfloor h
  obtain ⟨time, htime, hf⟩ := bind_eq_ok.1 hf
  rw [← Except.ok.inj hf, later_eq_max]
  exact max_le hr (harrivals x hx time htime)

/-- Inputs are there by the last end so far and the costliest transfer. -/
theorem readyTime_le {vm : ℤ} {ready : ℚ} (hfloor : p.floor ≤ bound)
    (hfinishes : ∀ f ∈ d.finishes.values, f ≤ bound) (hinward : 0 ≤ p.costs.inward t)
    (h : d.readyTime p t vm = .ok ready) : ready ≤ bound + p.costs.inward t := by
  refine readyTime_le_of_arrivals (hfloor.trans (le_add_of_nonneg_right hinward))
    (fun x hx time htime => ?_) h
  obtain ⟨finish, u, hfinish, -, hcase⟩ := of_arrival htime
  have hle := hfinishes finish (Table.mem_values hfinish)
  rcases hcase with ⟨-, rfl⟩ | ⟨-, m, hm, rfl⟩
  · exact hle.trans (le_add_of_nonneg_right hinward)
  · exact add_le_add hle (Costs.le_inward hx hm)

section

variable (h : Allotted p done d) (ht : t ∈ d.workflow.tasks) (hparents : ∀ x ∈ t.parents, x ∈ done)
  (hbest : d.bestOffer? p t = .ok (some o)) (hv : v ∈ d.vms) (hfit : t.elements ≤ v.elements)

include h ht hparents hbest hv hfit

/-- A task ends no later than it would on any VM that can run it, from when it is ready there and all
planned tasks have ended. -/
theorem Allotted.finish_le_of_ready
    (hready : ∀ ready, d.readyTime p t v.id = .ok ready → ready ≤ bound)
    (hfinishes : ∀ f ∈ d.finishes.values, f ≤ bound) : o.finish ≤ bound + t.length / v.mips := by
  obtain ⟨offer, hoffer, hoffered, hsome⟩ := offer?_ok h.toOpen ht hparents hv
  obtain ⟨offer, rfl⟩ := Option.ne_none_iff_exists'.1 (hsome hfit)
  refine ((bestOffer?_foremost hbest).le (h.priced.vms ▸ hv) hoffer).trans ?_
  obtain ⟨-, -, -, -, hcost, -, line, hline, hfinish⟩ := hoffered offer rfl
  have hslots : ∀ s ∈ line.slots, s.finish ≤ bound := fun s hs =>
    hfinishes _ (Table.mem_values (h.known s
      (List.mem_flatMap.2 ⟨line, Table.mem_values hline, hs⟩)))
  have hlength : offer.cost = t.length / v.mips := by
    rw [computing_eq_ok h.priced.costs h.priced.ids ht hv, computeTime_eq, if_neg (not_lt.2 hfit)]
      at hcost
    exact (Option.some.inj (Except.ok.inj hcost)).symm
  calc offer.finish
      = line.finishTime offer.cost offer.ready := hfinish
    _ ≤ bound + offer.cost := Timeline.finishTime_le (hready _ (of_offer? hoffer).2.1) hslots
    _ = bound + t.length / v.mips := by rw [hlength]

/-- The end of a planned task is no later than the last end so far, its costliest input and its time
on any VM that can run it. -/
theorem Allotted.finish_le (hfloor : p.floor ≤ bound) (hfinishes : ∀ f ∈ d.finishes.values, f ≤ bound) :
    o.finish ≤ bound + (t.length / v.mips + p.costs.inward t) := by
  have hinward := h.priced.rated.inward_nonneg ht
  have hle := h.finish_le_of_ready ht hparents hbest hv hfit
    (fun ready => readyTime_le hfloor hfinishes hinward)
    fun f hf => (hfinishes f hf).trans (le_add_of_nonneg_right hinward)
  linarith

end

end Draft

/-! ## Plans -/

theorem latest_le {xs : List ℚ} {m : ℚ} (h0 : 0 ≤ m) (h : ∀ x ∈ xs, x ≤ m) : latest xs ≤ m := by
  rcases eq_or_ne xs [] with rfl | hne
  · exact h0
  · exact h _ (latest_mem hne)

/-- What the task of an id contributes to a sum over all tasks. -/
def Workflow.share (w : Workflow ℚ) (f : Task ℚ → ℚ) (x : ℤ) : ℚ := ((w.find? x).map f).getD 0

/-- What a task adds to a serial run on a VM: its costliest input and its time on the VM. -/
def Workflow.serial (w : Workflow ℚ) (c : Costs ℚ) (v : Vm ℚ) (x : ℤ) : ℚ :=
  ((w.find? x).map fun t => t.length / v.mips + c.inward t).getD 0

namespace Workflow

variable {w w' : Workflow ℚ} {c : Costs ℚ} {v : Vm ℚ} {f : Task ℚ → ℚ}

theorem share_eq {t : Task ℚ} (ht : t ∈ w.tasks) : w.share f t.id = f t := by
  rw [share, find?_self ht]
  rfl

theorem share_of_kin (hf : ∀ t, f (t.reset false) = f t) (hk : w.Kin w') (x : ℤ) :
    w'.share f x = w.share f x := by
  have hsame := congrArg (Option.map f) (find?_of_kin hk x)
  rw [Option.map_map, Option.map_map, show f ∘ Task.reset false = f from funext hf] at hsame
  exact congrArg (·.getD 0) hsame

/-- The tasks of a workflow sum up alike in any order. -/
theorem sum_share {order : List ℤ} (h : order.Perm w.ids) :
    (order.map (w.share f)).sum = (w.tasks.map f).sum := by
  rw [(h.map _).sum_eq, ids, List.map_map]
  exact congrArg List.sum (List.map_congr_left fun t ht => share_eq ht)

theorem serial_eq {t : Task ℚ} (ht : t ∈ w.tasks) : w.serial c v t.id = t.length / v.mips + c.inward t :=
  share_eq (f := fun t => t.length / v.mips + c.inward t) ht

theorem serial_of_kin (hk : w.Kin w') (x : ℤ) : w'.serial c v x = w.serial c v x :=
  share_of_kin (f := fun t => t.length / v.mips + c.inward t) (fun _ => rfl) hk x

theorem sum_serial {order : List ℤ} (h : order.Perm w.ids) :
    (order.map (w.serial c v)).sum = (w.tasks.map fun t => t.length / v.mips + c.inward t).sum :=
  sum_share h

end Workflow

theorem Priced.serial_nonneg {p : Pricing ℚ} {w : World ℚ} (h : Priced p w) {v : Vm ℚ} (hv : v ∈ w.vms)
    {t : Task ℚ} (ht : t ∈ w.workflow.tasks) : 0 ≤ w.workflow.serial p.costs v t.id := by
  rw [Workflow.serial_eq ht]
  exact add_nonneg (div_nonneg (h.checked.length t ht) ((roster_of_costs h.costs).2 v hv).le)
    (h.rated.inward_nonneg ht)

/-- If each task delays the last end so far by no more than its amount, no task is planned to end later
than all amounts behind the floor. -/
theorem Draft.allocateAll_within {p : Pricing ℚ} {w : World ℚ} (hp : Priced p w) {order : List ℤ}
    (ho : w.workflow.Topological order) {amount : ℤ → ℚ}
    (hamount : ∀ t ∈ w.workflow.tasks, 0 ≤ amount t.id)
    (hstep : ∀ {done d t o bound}, Kept w d.toWorld → Allotted p done d → t ∈ d.workflow.tasks →
      (∀ x ∈ t.parents, x ∈ done) → d.bestOffer? p t = .ok (some o) → p.floor ≤ bound →
      (∀ f ∈ d.finishes.values, f ≤ bound) → o.finish ≤ bound + amount t.id) :
    Leads (allocateAll p order) (fresh w)
      (fun _ d => p.floor ≤ p.floor + (order.map amount).sum ∧
        ∀ f ∈ d.finishes.values, f ≤ p.floor + (order.map amount).sum) fun _ _ => False := by
  refine (allocateAll_passes hp ho (List.append_nil order).symm
    (I := fun done d => p.floor ≤ p.floor + (done.map amount).sum ∧
      ∀ f ∈ d.finishes.values, f ≤ p.floor + (done.map amount).sum)
    ⟨by simp, fun f hf => by cases hf⟩ ?_).mono (fun _ _ h => h.2.2) fun _ _ h => h
  intro done d t o line hk hd ht hparents hbest hI
  obtain ⟨hfloor, hfinishes⟩ := hI
  have hend := hstep hk hd ht hparents hbest hfloor hfinishes
  obtain ⟨t₀, ht₀, hkt⟩ := Workflow.mem_of_kin hk.kin.workflow ht
  have hadd := hamount t₀ ht₀
  rw [← hkt.id] at hadd
  rw [List.map_append, List.sum_append, List.map_singleton, List.sum_singleton, ← add_assoc]
  refine ⟨hfloor.trans (le_add_of_nonneg_right hadd), fun f hf => ?_⟩
  rcases Table.mem_values_set hf with rfl | hf
  · exact hend
  · exact (hfinishes f hf).trans (le_add_of_nonneg_right hadd)

/-- No task is planned to end later than a serial run of all tasks on a VM that can run them. -/
theorem Draft.allocateAll_bounded {p : Pricing ℚ} {w : World ℚ} (hp : Priced p w) {order : List ℤ}
    (ho : w.workflow.Topological order) {v : Vm ℚ} (hv : v ∈ w.vms)
    (hfit : ∀ t ∈ w.workflow.tasks, t.elements ≤ v.elements) :
    Leads (allocateAll p order) (fresh w)
      (fun _ d => p.floor ≤ p.floor + (order.map (w.workflow.serial p.costs v)).sum ∧
        ∀ f ∈ d.finishes.values, f ≤ p.floor + (order.map (w.workflow.serial p.costs v)).sum)
      fun _ _ => False := by
  refine allocateAll_within hp ho (fun t ht => hp.serial_nonneg hv ht) ?_
  intro done d t o bound hk hd ht hparents hbest hfloor hfinishes
  obtain ⟨t₀, ht₀, hkt⟩ := Workflow.mem_of_kin hk.kin.workflow ht
  have hend := hd.finish_le ht hparents hbest (hk.vms.symm ▸ hv)
    (hkt.elements.symm ▸ hfit t₀ ht₀) hfloor hfinishes
  rwa [← Workflow.serial_eq ht, Workflow.serial_of_kin hk.kin.workflow] at hend

/-- No task of a plan ends later than a serial run of all tasks on a VM that can run them. -/
theorem Planned.finishes_le {strategy : Strategy ℚ} {p : Pricing ℚ} {w w' : World ℚ} {plan : Plan ℚ}
    (h : Planned strategy p w plan w') (hp : Priced p w) {v : Vm ℚ} (hv : v ∈ w.vms)
    (hfit : ∀ t ∈ w.workflow.tasks, t.elements ≤ v.elements) :
    p.floor ≤ p.floor + (w.workflow.tasks.map fun t => t.length / v.mips + p.costs.inward t).sum ∧
      ∀ f ∈ plan.finishes.values,
        f ≤ p.floor + (w.workflow.tasks.map fun t => t.length / v.mips + p.costs.inward t).sum := by
  obtain ⟨w₁, order, d, hl, halloc, hreport⟩ := h
  have hkind := hl.kept.kin.workflow
  have hperm : order.Perm w.workflow.ids := Workflow.ids_of_kin hkind ▸ hl.topological.perm
  have hsum : (order.map (w₁.workflow.serial p.costs v)).sum =
      (w.workflow.tasks.map fun t => t.length / v.mips + p.costs.inward t).sum := by
    rw [List.map_congr_left fun x _ => Workflow.serial_of_kin hkind x, Workflow.sum_serial hperm]
  have hfit₁ : ∀ t ∈ w₁.workflow.tasks, t.elements ≤ v.elements := by
    intro t ht
    obtain ⟨t₀, ht₀, hkt⟩ := Workflow.mem_of_kin hkind ht
    exact hkt.elements.symm ▸ hfit t₀ ht₀
  rw [← hsum, hreport.plan]
  exact (Draft.allocateAll_bounded (hp.of_kept hl.kept) hl.topological (hl.kept.vms.symm ▸ hv)
    hfit₁).of_ok halloc

namespace Planner

/-- A plan ends no later than a serial run, from the floor on, on any VM that can run every task, in
which each task also waits for its costliest input. Where moving data takes no time, it ends no later
than the plain serial run. -/
theorem run_bounded (planner : Planner ℚ) (floor : ℚ) (w w' : World ℚ) (plan : Plan ℚ)
    (hbuilt : byRank floor = .ok planner ∨ ∃ options, byEstimate floor options = .ok planner)
    (hd : w.workflow.Distinct) (hids : (w.vms.map Vm.id).Nodup)
    (hrun : planner.run w = .ok plan w') :
    ∃ c, Costs.ofWorkflow w.workflow w.vms = .ok c ∧
      ∀ v ∈ w.vms, (∀ t ∈ w.workflow.tasks, t.elements ≤ v.elements) →
        plan.makespan ≤ floor + (w.workflow.tasks.map fun t => t.length / v.mips + c.inward t).sum ∧
        ((∀ t ∈ w.workflow.tasks, ∀ x ∈ t.parents, c.moving x t.id = .ok 0) →
          plan.makespan ≤ floor + (w.workflow.tasks.map fun t => t.length / v.mips).sum) := by
  obtain ⟨rfl, hfloor, hsane⟩ := sane_of_built hbuilt
  obtain ⟨c, hc, hrated, hplanned⟩ := planned_of_run hsane hd hrun
  have hp := hrated.priced hids hc planner.floor
  have hserial : ∀ v ∈ w.vms, (∀ t ∈ w.workflow.tasks, t.elements ≤ v.elements) →
      plan.makespan ≤ planner.floor +
        (w.workflow.tasks.map fun t => t.length / v.mips + c.inward t).sum := by
    intro v hv hfit
    obtain ⟨hle, hfinishes⟩ := hplanned.finishes_le hp hv hfit
    exact latest_le (hfloor.trans hle) hfinishes
  refine ⟨c, hc, fun v hv hfit => ⟨hserial v hv hfit, fun hzero => ?_⟩⟩
  refine (hserial v hv hfit).trans_eq ?_
  refine congrArg (planner.floor + ·) (congrArg List.sum (List.map_congr_left fun t ht => ?_))
  rcases c.inward_mem t with h | ⟨x, hx, hm⟩
  · rw [h, add_zero]
  · rw [← Except.ok.inj ((hzero t ht x hx).symm.trans hm), add_zero]

/-- On the one VM that can run every task of the detour, the tasks take 16 seconds and their inputs 4. -/
theorem run_bounded_detour : detour.workflow.Distinct ∧ (detour.vms.map Vm.id).Nodup ∧
    ∀ strategy ∈ detourStrategies,
    (byRank (1 : ℚ) = .ok ⟨strategy, 1⟩ ∨ ∃ options, byEstimate (1 : ℚ) options = .ok ⟨strategy, 1⟩) ∧
    ∃ plan w', (⟨strategy, 1⟩ : Planner ℚ).run detour = .ok plan w' ∧ plan.makespan ≤ 1 + 20 := by
  have hids : (detour.vms.map Vm.id).Nodup := by decide
  refine ⟨distinct_detour, hids, fun strategy hstrategy => ?_⟩
  have hbuilt := built_detour hstrategy
  obtain ⟨plan, w', hrun⟩ := run_ok_detour hstrategy 1
  obtain ⟨c, hc, hbound⟩ := run_bounded ⟨strategy, 1⟩ 1 detour w' plan hbuilt distinct_detour
    hids hrun
  have hserial : (Costs.ofWorkflow detour.workflow detour.vms).toOption.map (fun c =>
      (detour.workflow.tasks.map fun t => t.length / 5 + c.inward t).sum) = some 20 := by
    decide +kernel
  rw [hc] at hserial
  refine ⟨hbuilt, plan, w', hrun, ?_⟩
  rw [← Option.some.inj hserial]
  exact (hbound { id := 1, mips := 5, elements := 2 } (by simp [detour]) (by decide)).1

end Planner

end FlowSched

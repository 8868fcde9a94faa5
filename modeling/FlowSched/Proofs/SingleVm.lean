import Mathlib.Algebra.BigOperators.Ring.List
import FlowSched.Proofs.Trace
import FlowSched.Proofs.Planning.Bound

/-!
# A roster of one VM

On one VM nothing has to be moved, so whatever a task waits for is there once the VM is free. An
execution works off the tasks without a pause: each job starts when the jobs before it have ended
(`Execution.start_of_single`), whatever the algorithm. A plan leaves no gap either. Its slots lie apart
and behind the floor, so their lengths do not exceed the makespan (`Draft.Allotted.sum_le_of_single`),
and no task delays the last end by more than its own length (`Draft.allocateAll_le_of_single`). Both
make the time of all tasks together the makespan (`run_on_single`).
-/

namespace FlowSched

open Quantity Step

/-! ## Planning -/

namespace Draft

variable {p : Pricing ℚ} {d : Draft ℚ} {done : List ℤ} {t : Task ℚ} {o : Offer ℚ} {v : Vm ℚ} {x : ℤ}

section

variable (h : Allotted p done d) (hvms : p.vms = [v])

include h hvms

/-- All tasks that are done are bound to the one VM. -/
theorem Allotted.vm_of_single (hx : x ∈ done) (ht : d.workflow.find? x = some t) : t.vm = v.id := by
  obtain ⟨u, slot, hu, hb⟩ := h.booked x hx
  obtain rfl := Option.some.inj (ht.symm.trans hu)
  obtain ⟨u, hum, hid, -⟩ := hb.placed
  rw [hvms, List.mem_singleton] at hum
  rw [← hid, hum]

/-- The next task delays the last end by no more than its time on the one VM. -/
theorem Allotted.finish_le_of_single (ht : t ∈ d.workflow.tasks) (hparents : ∀ x ∈ t.parents, x ∈ done)
    (hbest : d.bestOffer? p t = .ok (some o)) {bound : ℚ} (hfloor : p.floor ≤ bound)
    (hfinishes : ∀ f ∈ d.finishes.values, f ≤ bound) : o.finish ≤ bound + t.length / v.mips := by
  have hd : d.vms = [v] := h.priced.vms.symm.trans hvms
  obtain ⟨u, hu, hfit⟩ := h.priced.roomy t ht
  rw [hd, List.mem_singleton] at hu
  subst hu
  refine h.finish_le_of_ready ht hparents hbest (by rw [hd]; exact List.mem_cons_self) hfit
    (fun ready => readyTime_le_of_arrivals hfloor ?_) hfinishes
  intro y hy time htime
  obtain ⟨finish, q, hfinish, hq, hcase⟩ := of_arrival htime
  rcases hcase with ⟨-, rfl⟩ | ⟨hne, -⟩
  · exact hfinishes _ (Table.mem_values hfinish)
  · exact absurd (h.vm_of_single hvms (hparents y hy) hq) hne

/-- Every slot is as long as its task takes. -/
theorem Allotted.duration_of_single (hn : done.Nodup) {slot : Slot ℚ}
    (hs : slot ∈ reserved d.timelines) :
    slot.duration = d.workflow.share (fun t => t.length / v.mips) slot.task := by
  obtain ⟨t, ht, hb⟩ := h.booked_of_mem hn hs
  obtain ⟨hm, hid⟩ := Workflow.find?_eq_some.1 ht
  obtain ⟨cost, hcost, hfinish⟩ := hb.length
  have hd : v ∈ d.vms := by
    rw [← h.priced.vms, hvms]
    exact List.mem_cons_self
  have hvm := h.vm_of_single hvms (h.once.subset (List.mem_map_of_mem hs)) ht
  rw [hvm, computing_eq_ok h.priced.costs h.priced.ids hm hd, computeTime_eq] at hcost
  split_ifs at hcost
  · cases hcost
  · rw [← hid, Workflow.share_eq hm, Option.some.inj (Except.ok.inj hcost), Slot.duration, hfinish]
    ring

/-- The one timeline has a slot for each task. -/
theorem Allotted.slots_of_single (hn : done.Nodup) : ∃ line, d.timelines.get? v.id = some line ∧
    (line.slots.map Slot.task).Perm done := by
  obtain ⟨line, hline⟩ := h.timelines v (by
    rw [← h.priced.vms, hvms]
    exact List.mem_cons_self)
  have hsub : line.slots.Sublist (reserved d.timelines) := by
    unfold reserved
    rw [List.flatMap_def]
    exact List.sublist_flatten_of_mem (List.mem_map_of_mem (Table.mem_values hline))
  have hnodup : (line.slots.map Slot.task).Nodup :=
    (h.once.nodup_iff.2 hn).sublist (hsub.map Slot.task)
  refine ⟨line, hline, (List.perm_ext_iff_of_nodup hnodup hn).2 fun x => ⟨fun hx => ?_, fun hx => ?_⟩⟩
  · exact h.once.subset ((hsub.map Slot.task).subset hx)
  · obtain ⟨t, slot, ht, hb⟩ := h.booked x hx
    obtain ⟨line', hline', hs⟩ := hb.stands
    rw [h.vm_of_single hvms hx ht, hline] at hline'
    rw [← (Workflow.find?_eq_some.1 ht).2, ← hb.task, Option.some.inj hline']
    exact List.mem_map_of_mem hs

/-- The tasks that are done take no longer than from the floor to the last end. -/
theorem Allotted.sum_le_of_single (hn : done.Nodup) {time : ℚ} (hfloor : p.floor ≤ time)
    (hfinishes : ∀ f ∈ d.finishes.values, f ≤ time) :
    p.floor + (done.map (d.workflow.share fun t => t.length / v.mips)).sum ≤ time := by
  obtain ⟨line, hline, hperm⟩ := h.slots_of_single hvms hn
  have hm := Table.mem_values hline
  have hmem : ∀ slot ∈ line.slots, slot ∈ reserved d.timelines := fun slot hs =>
    List.mem_flatMap.2 ⟨line, hm, hs⟩
  have hsum : (line.slots.map Slot.duration).sum =
      (done.map (d.workflow.share fun t => t.length / v.mips)).sum := by
    rw [← (hperm.map _).sum_eq, List.map_map]
    exact congrArg List.sum (List.map_congr_left fun slot hs =>
      h.duration_of_single hvms hn (hmem slot hs))
  rw [← hsum]
  refine (h.tidy line hm).sum_le hfloor (fun slot hs => ?_) fun slot hs => ?_
  · obtain ⟨t, -, hb⟩ := h.booked_of_mem hn (hmem slot hs)
    exact hb.floor
  · exact hfinishes _ (Table.mem_values (h.known slot (hmem slot hs)))

end

/-- All tasks end by when the one VM could have worked them off from the floor on. -/
theorem allocateAll_le_of_single {w : World ℚ} (hp : Priced p w) (hvms : p.vms = [v]) {order : List ℤ}
    (ho : w.workflow.Topological order) :
    Leads (allocateAll p order) (fresh w)
      (fun _ d => p.floor ≤ p.floor + (order.map (w.workflow.share fun t => t.length / v.mips)).sum ∧
        ∀ f ∈ d.finishes.values,
          f ≤ p.floor + (order.map (w.workflow.share fun t => t.length / v.mips)).sum)
      fun _ _ => False := by
  have hv : v ∈ w.vms := by
    rw [← hp.vms, hvms]
    exact List.mem_cons_self
  refine allocateAll_within hp ho (fun t ht => ?_) ?_
  · rw [Workflow.share_eq ht]
    exact div_nonneg (hp.checked.length t ht) ((roster_of_costs hp.costs).2 v hv).le
  · intro done d t o bound hk h ht hparents hbest hfloor hfinishes
    have hend := h.finish_le_of_single hvms ht hparents hbest hfloor hfinishes
    rwa [← Workflow.share_eq (f := fun t => t.length / v.mips) ht,
      Workflow.share_of_kin (fun _ => rfl) hk.kin.workflow] at hend

end Draft

/-- On one VM a plan ends when all tasks have been worked off without a pause from the floor on. -/
theorem Planner.makespan_of_single {planner : Planner ℚ} {floor : ℚ} {w w' : World ℚ} {plan : Plan ℚ}
    {v : Vm ℚ} (hbuilt : byRank floor = .ok planner ∨ ∃ options, byEstimate floor options = .ok planner)
    (hvms : w.vms = [v]) (hd : w.workflow.Distinct) (hne : w.workflow.tasks ≠ [])
    (hrun : planner.run w = .ok plan w') :
    plan.makespan = floor + (w.workflow.tasks.map fun t => t.length / v.mips).sum := by
  obtain ⟨-, hfloor, -⟩ := sane_of_built hbuilt
  obtain ⟨c, w₁, order, d, hc, hk, hp, htop, halloc, hreport⟩ :=
    exists_allocated hbuilt hd (by simp [hvms]) hrun
  obtain ⟨hkd, h⟩ := (Draft.allocateAll_leads hp htop).of_ok halloc
  obtain ⟨hle, hfinishes⟩ := (Draft.allocateAll_le_of_single hp hvms htop).of_ok halloc
  have hkind := hk.kin.workflow
  have hsum : (order.map (w₁.workflow.share fun t => t.length / v.mips)).sum =
      (w.workflow.tasks.map fun t => t.length / v.mips).sum := by
    rw [Workflow.sum_share htop.perm, Workflow.map_of_kin hkind fun _ => rfl]
  have hmakespan : plan.makespan = latest d.finishes.values := by
    rw [hreport.plan]
    rfl
  rw [hsum] at hle hfinishes
  rw [hmakespan]
  apply le_antisymm
  · exact latest_le (hfloor.trans hle) hfinishes
  · have hn : order.Nodup := htop.perm.nodup_iff.2 w₁.workflow.nodup
    -- some task is planned, so the last end is not before the floor
    obtain ⟨t, ht⟩ := List.exists_mem_of_ne_nil _ hne
    have hx : t.id ∈ order := by
      rw [htop.perm.mem_iff, Workflow.ids_of_kin hkind]
      exact List.mem_map_of_mem ht
    obtain ⟨u, slot, -, hb⟩ := h.booked t.id hx
    have hlast : slot.finish ≤ latest d.finishes.values := le_latest (Table.mem_values hb.finish)
    obtain ⟨line, hline, hs⟩ := hb.stands
    have hforward := (h.tidy line (Table.mem_values hline)).forward slot hs
    have hbound := h.sum_le_of_single hvms hn (hb.floor.trans (hforward.trans hlast)) fun f => le_latest
    rwa [List.map_congr_left fun x _ => Workflow.share_of_kin (fun _ => rfl) hkd.kin.workflow x,
      hsum] at hbound

/-! ## Execution -/

namespace Execution

variable {rule : Rule} {w : World ℚ} {c : Costs ℚ} {e : Execution ℚ} {jobs before after : List (Job ℚ)}
  {j : Job ℚ} {v : Vm ℚ}

/-- A VM that works off its jobs one after the other is free when all of them have ended. -/
theorem freeAt_eq_latest (hon : ∀ j ∈ jobs, j.vm = v.id) (hforward : ∀ j ∈ jobs, j.start ≤ j.finish)
    (hordered : jobs.Pairwise fun a b => a.vm = b.vm → a.finish ≤ b.start) :
    freeAt jobs v.id = latest (jobs.map Job.finish) := by
  rcases List.eq_nil_or_concat jobs with rfl | ⟨ahead, last, rfl⟩
  · rfl
  rw [List.concat_eq_append] at *
  have hlast : last.vm = v.id := hon last (by simp)
  rw [freeAt_append, if_pos hlast]
  refine (latest_eq (by simp) fun x hx => ?_).symm
  obtain ⟨a, ha, rfl⟩ := List.mem_map.1 hx
  rcases List.mem_append.1 ha with ha' | ha'
  · have hle := (List.pairwise_append.1 hordered).2.2 a ha' last (by simp)
    exact (hle ((hon a ha).trans hlast.symm)).trans (hforward last (by simp))
  · rw [List.mem_singleton.1 ha']

section

variable (hvms : w.vms = [v])
  (hlaw : ∀ before j after, e.jobs = before ++ j :: after → Punctual c w before j)

include hvms hlaw

/-- Every job runs on the one VM, for the time of its task. -/
theorem job_of_single (hj : j ∈ e.jobs) :
    j.vm = v.id ∧ j.finish = j.start + w.workflow.share (fun t => t.length / v.mips) j.task := by
  obtain ⟨before, after, he⟩ := List.append_of_mem hj
  obtain ⟨t, ht, u, hu, hid, -, hvm, hfinish⟩ := (hlaw before j after he).finish
  rw [hvms, List.mem_singleton] at hu
  subst hu
  exact ⟨hvm.symm, by rw [hfinish, ← hid, Workflow.share_eq ht]⟩

variable (hend : Ended rule w e)

include hend

/-- When the one VM has worked off some jobs, all of them have ended. -/
theorem freeAt_of_single (he : e.jobs = before ++ after) :
    freeAt before v.id = latest (before.map Job.finish) := by
  have hsub : before ⊆ e.jobs := by
    rw [he]
    exact List.subset_append_left _ _
  apply freeAt_eq_latest
  · exact fun j hj => (job_of_single hvms hlaw (hsub hj)).1
  · exact fun j hj => hend.start_le_finish j (hsub hj)
  · have hordered := hend.ordered
    rw [he] at hordered
    exact (List.pairwise_append.1 hordered).1

/-- Each job starts when the jobs before it have ended: its inputs are among them. -/
theorem start_of_single (he : e.jobs = before ++ j :: after) :
    j.start = latest (before.map Job.finish) := by
  obtain ⟨inputs, hin, hstart⟩ := (hlaw before j after he).start
  have hsub : before ⊆ e.jobs := by
    rw [he]
    exact List.subset_append_left _ _
  have hvm := (job_of_single hvms hlaw (j := j) (by simp [he])).1
  have hn := hend.nodup
  rw [he, List.map_append] at hn
  have hfree := freeAt_of_single hvms hlaw hend he
  have hnonneg : 0 ≤ freeAt before v.id := freeAt_nonneg fun a ha => hend.finish_nonneg hlaw (hsub ha)
  have hinputs : latest inputs ≤ freeAt before v.id := by
    apply latest_le hnonneg
    intro x hx
    obtain ⟨y, -, hy⟩ := exists_of_mem_mapM hin x hx
    cases ha : jobOf? before y with
    | none =>
      rw [ha] at hy
      cases hy
    | some a =>
      rw [ha] at hy
      obtain ⟨ham, -⟩ := (jobOf?_eq_some hn.of_append_left).1 ha
      have hsame := (job_of_single hvms hlaw (hsub ham)).1.trans hvm.symm
      simp only [delivery, if_pos hsame, Except.ok.injEq] at hy
      rw [← hy, hfree]
      exact le_latest (List.mem_map_of_mem ham)
  rw [hstart, hvm, latest_zero_cons hnonneg, max_eq_right hinputs, hfree]

/-- When some jobs have ended, the one VM has worked for as long as their tasks take. -/
theorem latest_of_single (he : e.jobs = before ++ after) : latest (before.map Job.finish) =
    (before.map fun j => w.workflow.share (fun t => t.length / v.mips) j.task).sum := by
  induction before using List.reverseRecOn generalizing after with
  | nil => rfl
  | append_singleton before j ih =>
    have hfree := freeAt_of_single hvms hlaw hend he
    rw [List.append_assoc] at he
    obtain ⟨hvm, hfinish⟩ := job_of_single hvms hlaw (j := j) (by simp [he])
    rw [freeAt_append, if_pos hvm] at hfree
    rw [← hfree, hfinish, start_of_single hvms hlaw hend he, ih he, List.map_append, List.sum_append,
      List.map_singleton, List.sum_singleton]

end

end Execution

/-! ## Runs -/

/-- A roster that is kin of one VM is one VM of the same id and speed. -/
theorem World.exists_single_of_kin {w w' : World ℚ} (h : w.Kin w') {v : Vm ℚ} (hvms : w.vms = [v]) :
    ∃ v', w'.vms = [v'] ∧ v'.id = v.id ∧ v'.mips = v.mips := by
  have hmap := h.vms
  rw [hvms, List.map_singleton, List.map_eq_singleton_iff] at hmap
  obtain ⟨v', hv', hrelease⟩ := hmap
  exact ⟨v', hv', (congrArg Vm.id hrelease :), (congrArg Vm.mips hrelease :)⟩

/-- A run on one VM never leaves it idle before the last job ends: each job starts when the jobs before
it have ended, and the last one ends when all tasks together have taken their time. A plan ends as much
later as its floor. -/
theorem run_on_single (w w' : World ℚ) (v : Vm ℚ) (s : Settings ℚ) (o : Outcome ℚ) (hvms : w.vms = [v])
    (hd : w.workflow.Distinct) (hne : w.workflow.tasks ≠ []) (hrun : World.run s w = .ok o w') :
    (∀ before j after, o.executed = before ++ j :: after → j.start = latest (before.map Job.finish)) ∧
    latest (o.executed.map Job.finish) = (w.workflow.tasks.map Task.length).sum / v.mips ∧
    (s.algorithm.isPlanner = true → ∃ plan, o.plan = some plan ∧
      plan.makespan = s.startFloor + (w.workflow.tasks.map Task.length).sum / v.mips) := by
  have hdiv : (w.workflow.tasks.map Task.length).sum / v.mips =
      (w.workflow.tasks.map fun t => t.length / v.mips).sum := by
    simp only [div_eq_mul_inv]
    exact (List.sum_map_mul_right _ _ _).symm
  obtain ⟨notes, w₁, c, e, htraced⟩ := World.exists_traced hrun
  obtain ⟨hend, hw₁, hlaw⟩ := htraced.exists_executed (htraced.wellFormed hd (by simp [hvms]))
  obtain ⟨v₁, hvms₁, -, hmips⟩ := World.exists_single_of_kin htraced.kin hvms
  rw [htraced.executed] at hlaw ⊢
  refine ⟨fun before j after => Execution.start_of_single hvms₁ hlaw hend, ?_, fun hs => ?_⟩
  · have hall := Execution.latest_of_single hvms₁ hlaw hend (List.append_nil e.jobs).symm
    rw [hmips] at hall
    rw [hall, hdiv, ← Workflow.map_of_kin htraced.kin.workflow (fun _ => rfl),
      ← Workflow.sum_share hend.perm, List.map_map]
    rfl
  · obtain ⟨planner, plan, w₀, hbuilt, hplan, hk, hplanned⟩ := htraced.exists_planned hs
    obtain ⟨v₂, hvms₂, -, hmips₂⟩ := World.exists_single_of_kin hk hvms
    have hmakespan := Planner.makespan_of_single hbuilt hvms₂ (hd.of_kin hk.workflow)
      (fun he => hne (Workflow.tasks_eq_nil_of_kin hk.workflow he)) hplanned
    rw [hmips₂, Workflow.map_of_kin hk.workflow fun _ => rfl, ← hdiv] at hmakespan
    exact ⟨plan, hplan, hmakespan⟩

theorem run_on_single_queueing : ∃ o w' plan, World.run {} Execution.queueing = .ok o w' ∧
    latest (o.executed.map Job.finish) = 5 ∧ o.plan = some plan ∧ plan.makespan = 1 / 10 + 5 := by
  have hw := Execution.wellFormed_queueing
  have hwork : (Execution.queueing.workflow.tasks.map Task.length).sum / 10 = 5 := by decide +kernel
  obtain ⟨o, w', h⟩ := World.exists_run_of_default hw (by decide) (by decide)
  obtain ⟨-, hlatest, hplanned⟩ :=
    run_on_single Execution.queueing w' { id := 0, mips := 10 } {} o rfl hw.distinct (by decide) h
  obtain ⟨plan, hplan, hmakespan⟩ := hplanned rfl
  rw [hwork] at hlatest hmakespan
  exact ⟨o, w', plan, h, hlatest, hplan, hmakespan⟩

end FlowSched

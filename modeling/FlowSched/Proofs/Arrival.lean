import FlowSched.Proofs.Execution.Punctual

/-!
# When inputs arrive in a reconciled schedule

As executed, a job starts when the last of its inputs has arrived. Reconciling moves jobs only
forward and puts each behind its parents, but it knows no transfer times: a parent may be moved while
its child, far enough behind, stays where it was. So a job starts after the arrival of its inputs as
executed, and after their arrival as reconciled exactly if the parent was not moved too far
(`run_arrives`).
-/

namespace FlowSched

open Quantity Step

namespace Reconcile

variable {delay : ℚ} {j j' : Job ℚ}

theorem Shifted.vm (h : Shifted delay j j') : j'.vm = j.vm := by obtain ⟨k, rfl⟩ := h; rfl

theorem Shifted.start_le (h : Shifted delay j j') (hd : 0 ≤ delay) : j.start ≤ j'.start := by
  obtain ⟨k, rfl⟩ := h
  exact le_add_of_nonneg_right (by positivity)

/-- A moved job ends as much later as it starts later. -/
theorem Shifted.finish_eq (h : Shifted delay j j') :
    j'.finish = j.finish + (j'.start - j.start) := by
  obtain ⟨k, rfl⟩ := h
  show j.finish + k * delay = j.finish + (j.start + k * delay - j.start)
  ring

/-- A job is clear of every job at an earlier place. -/
theorem clear_of_lt {jobs : List (Job ℚ)} (h : jobs.Pairwise Clear) {i k : ℕ} (hk : k < i)
    {a : Job ℚ} (ha : jobs[k]? = some a) (hj : jobs[i]? = some j) : Clear a j := by
  obtain ⟨hlt, rfl⟩ := List.getElem?_eq_some_iff.1 ha
  obtain ⟨hlt', rfl⟩ := List.getElem?_eq_some_iff.1 hj
  exact List.pairwise_iff_getElem.1 h k i hlt hlt' hk

end Reconcile

namespace Execution

variable {c : Costs ℚ} {w : World ℚ} {before : List (Job ℚ)} {j : Job ℚ}

/-- A job on another VM delivers after its transfer. -/
theorem delivery_eq_ok {a : Job ℚ} {x : ℚ} (h : delivery c a j = .ok x) (hvm : a.vm ≠ j.vm) :
    ∃ time, c.moving a.task j.task = .ok time ∧ x = a.finish + time := by
  rw [delivery, if_neg hvm, bind_eq_ok] at h
  obtain ⟨time, htime, hx⟩ := h
  exact ⟨time, htime, (Except.ok.inj hx).symm⟩

/-- What the job of a parent delivers is there when a punctual job starts. -/
theorem Punctual.arrived (h : Punctual c w before j) (hn : (before.map Job.task).Nodup) {p : ℤ}
    (hp : p ∈ j.parents) :
    ∃ a ∈ before, a.task = p ∧ ∃ x, delivery c a j = .ok x ∧ x ≤ j.start := by
  obtain ⟨inputs, hin, hstart⟩ := h.start
  obtain ⟨x, hx, hget⟩ := mem_mapM_of_mem hin p hp
  have hle : x ≤ j.start := by
    rw [hstart]
    exact le_latest (by simp [hx])
  cases ha : jobOf? before p with
  | none => rw [ha] at hget; cases hget
  | some a =>
    rw [ha] at hget
    obtain ⟨hmem, htask⟩ := (jobOf?_eq_some hn).1 ha
    exact ⟨a, hmem, htask, x, hget, hle⟩

/-- What the job of a parent made arrives after that job has ended. -/
theorem Ended.finish_le_delivery {rule : Rule} {e : Execution ℚ} (h : Ended rule w e)
    (hw : w.workflow.Checked) (hc : Costs.ofWorkflow w.workflow w.vms = .ok c) {a : Job ℚ}
    (hj : j ∈ e.jobs) (hp : a.task ∈ j.parents) {x : ℚ} (hx : delivery c a j = .ok x) :
    a.finish ≤ x := by
  by_cases hvm : a.vm = j.vm
  · rw [delivery, if_pos hvm] at hx
    exact (Except.ok.inj hx).le
  · obtain ⟨time, htime, rfl⟩ := delivery_eq_ok hx hvm
    obtain ⟨t, ht, hid, hparents⟩ := h.task hj
    obtain ⟨u, hu, hchild⟩ := hw.parent t ht a.task (hparents ▸ hp)
    obtain ⟨hum, hua⟩ := Workflow.find?_eq_some.1 hu
    obtain ⟨time', htime', hnonneg⟩ := moving_eq_ok hc hum hchild
    rw [hua, hid, htime] at htime'
    rw [Except.ok.inj htime']
    exact le_add_of_nonneg_right hnonneg

/-- Where all jobs are punctual, the job of a parent stands before its child and delivers in time. -/
theorem exists_delivery {jobs : List (Job ℚ)} (hn : (jobs.map Job.task).Nodup)
    (hlaw : ∀ before j after, jobs = before ++ j :: after → Punctual c w before j) {i : ℕ}
    (hj : jobs[i]? = some j) {p : ℤ} (hp : p ∈ j.parents) :
    ∃ (k : ℕ) (a : Job ℚ), k < i ∧ jobs[k]? = some a ∧ a.task = p ∧
      ∃ x, delivery c a j = .ok x ∧ x ≤ j.start := by
  obtain ⟨hlt, rfl⟩ := List.getElem?_eq_some_iff.1 hj
  have hsplit : jobs = jobs.take i ++ jobs[i] :: jobs.drop (i + 1) := by
    rw [← List.drop_eq_getElem_cons hlt, List.take_append_drop]
  have hsub : ((jobs.take i).map Job.task).Nodup := hn.sublist ((List.take_sublist i jobs).map _)
  obtain ⟨a, ha, htask, hdelivery⟩ := (hlaw _ _ _ hsplit).arrived hsub hp
  obtain ⟨k, hk⟩ := List.getElem?_of_mem ha
  rw [List.getElem?_take] at hk
  split_ifs at hk with hki
  exact ⟨k, a, hki, hk, htask, hdelivery⟩

end Execution

/-- In a run of a well-formed input under a positive port delay each job starts after the reconciled
end of each parent. If the parent ran on another VM, its data has arrived as the parent was executed;
it has arrived as the parent was reconciled exactly if the parent was moved by no more than the time
that is left between that arrival and the start of the job. -/
theorem run_arrives (w w' : World ℚ) (s : Settings ℚ) (o : Outcome ℚ) (c : Costs ℚ)
    (hw : w.WellFormed) (hd : 0 < s.portDelay) (hc : Costs.ofWorkflow w.workflow w.vms = .ok c)
    (hrun : World.run s w = .ok o w') :
    ∀ (i : ℕ) (j : Job ℚ), o.jobs[i]? = some j → ∃ j₀, o.executed[i]? = some j₀ ∧
      j₀.task = j.task ∧ j₀.vm = j.vm ∧ j₀.start ≤ j.start ∧
      ∀ t ∈ w.workflow.tasks, t.id = j.task → ∀ p ∈ t.parents,
        ∃ (k : ℕ) (a₀ a : Job ℚ), k < i ∧ o.executed[k]? = some a₀ ∧ o.jobs[k]? = some a ∧
          a₀.task = p ∧ a.task = p ∧ a₀.vm = a.vm ∧ a.finish < j.start ∧
          (a.vm ≠ j.vm → ∃ time, c.moving p j.task = .ok time ∧ a₀.finish + time ≤ j₀.start ∧
            (a.finish + time ≤ j.start ↔
              a.start - a₀.start ≤ j.start - (a₀.finish + time))) := by
  obtain ⟨w₁, c₁, e, hran⟩ := World.exists_ran hw hrun
  obtain ⟨notes, plan, hplan⟩ := hran.planned
  obtain ⟨hkin, hw₁, hidle⟩ := World.kept_of_plan hw hplan
  have hprep := Execution.prepared_of_check hw₁.check hw₁.ids hran.costs
  have hcc : c₁ = c := by
    have := hprep.costs
    rw [ofWorkflow_of_kin hkin, hc] at this
    exact (Except.ok.inj this).symm
  subst hcc
  obtain ⟨hend, e₀, now, done, n, -, hontime, rfl⟩ :=
    (Execution.run_keeps hprep (Execution.stable_onTime hprep hw₁.distinct)
      (Execution.onTime_rooted hw₁.ids) fun _ v hv => (hidle v hv).1).of_ok hran.execution
  obtain ⟨-, hall, hclear⟩ := reconcile_of_placed hd s.includeParentStart e₀.jobs hend.nodup
    (hend.not_misplaced hw₁.checked hw₁.distinct)
  rw [hran.executed, hran.jobs]
  intro i j hj
  obtain ⟨j₀, hj₀, hsj⟩ := exists_getElem?_right hall hj
  refine ⟨j₀, hj₀, hsj.task.symm, hsj.vm.symm, hsj.start_le hd.le, fun t ht hid p hp => ?_⟩
  -- the parents of a job are those of its task
  have hp₀ : p ∈ j₀.parents := by
    obtain ⟨t₁, ht₁, hid₁, hpar⟩ := hend.task (List.mem_of_getElem? hj₀)
    have hf := Workflow.find?_self ht₁
    rw [hid₁, ← hsj.task, ← hid] at hf
    rw [← hpar, (Workflow.task_of_kin hkin.workflow (Workflow.find?_self ht) hf).parents]
    exact hp
  obtain ⟨k, a₀, hk, ha₀, htask, x, hx, hle⟩ :=
    Execution.exists_delivery hend.nodup hontime.law hj₀ hp₀
  obtain ⟨a, ha, hsa⟩ := exists_getElem?_left hall ha₀
  have hbehind : a.finish < j.start := (Reconcile.clear_of_lt hclear hk ha hj).parent
    (by rw [hsa.task, htask, hsj.parents]; exact hp₀)
  refine ⟨k, a₀, a, hk, ha₀, ha, htask, hsa.task.trans htask, hsa.vm.symm, hbehind, fun hvm => ?_⟩
  rw [hsa.vm, hsj.vm] at hvm
  obtain ⟨time, htime, rfl⟩ := Execution.delivery_eq_ok hx hvm
  rw [htask, ← hsj.task] at htime
  refine ⟨time, htime, hle, ?_⟩
  rw [hsa.finish_eq]
  constructor <;> intro h <;> linarith

/-- Two tasks that start together, and a child of the second one whose input takes five seconds. -/
def staggered : World ℚ where
  workflow :=
    { tasks := [{ id := 1, length := 10 }, { id := 2, length := 20, children := [3] },
        { id := 3, length := 10, parents := [2], transfers := ⟨[(2, 5)]⟩ }]
      nodup := by decide }
  vms := [{ id := 0, mips := 10 }, { id := 1, mips := 10 }]

theorem wellFormed_staggered : staggered.WellFormed where
  check := rfl
  distinct := ⟨by decide, by decide⟩
  roster := by decide
  ids := by decide
  speeds := by decide
  costs := exists_eq_ok (by decide +kernel)

/-- Settings with a port delay of half a second. -/
def hasty : Settings ℚ := { algorithm := .fcfs, portDelay := 1 / 2 }

theorem run_arrives_staggered : ∃ c o w', Costs.ofWorkflow staggered.workflow staggered.vms = .ok c ∧
    World.run hasty staggered = .ok o w' ∧
    ∀ j ∈ o.jobs, ∀ t ∈ staggered.workflow.tasks, t.id = j.task → ∀ p ∈ t.parents,
      ∃ a ∈ o.jobs, a.task = p ∧ a.finish < j.start := by
  obtain ⟨c, hc⟩ := wellFormed_staggered.costs
  have hrun : (match World.run hasty staggered with
    | .ok _ _ => true
    | .error _ _ => false) = true := by decide +kernel
  cases h : World.run hasty staggered with
  | error fault w' => rw [h] at hrun; cases hrun
  | ok o w' =>
    refine ⟨c, o, w', hc, rfl, fun j hj t ht hid p hp => ?_⟩
    obtain ⟨i, hi⟩ := List.getElem?_of_mem hj
    obtain ⟨j₀, -, -, -, -, hall⟩ := run_arrives staggered w' hasty o c wellFormed_staggered
      (by decide +kernel) hc h i j hi
    obtain ⟨k, a₀, a, -, -, ha, -, htask, -, hlt, -⟩ := hall t ht hid p hp
    exact ⟨a, List.mem_of_getElem? ha, htask, hlt⟩

/-- Whether a job of a run starts before the input from another VM can have arrived. -/
def startsEarly (s : Settings ℚ) (w : World ℚ) : Bool :=
  match Costs.ofWorkflow w.workflow w.vms, World.run s w with
  | .ok c, .ok o _ => o.jobs.any fun a => o.jobs.any fun j =>
      decide (a.task ∈ j.parents ∧ a.vm ≠ j.vm) &&
        match c.moving a.task j.task with
        | .ok time => decide (j.start < a.finish + time)
        | .error _ => false
  | _, _ => false

theorem of_startsEarly {s : Settings ℚ} {w : World ℚ} (h : startsEarly s w = true) :
    ∃ c o w', Costs.ofWorkflow w.workflow w.vms = .ok c ∧ World.run s w = .ok o w' ∧
      ∃ a ∈ o.jobs, ∃ j ∈ o.jobs, a.task ∈ j.parents ∧ a.vm ≠ j.vm ∧
        ∃ time, c.moving a.task j.task = .ok time ∧ j.start < a.finish + time := by
  unfold startsEarly at h
  split at h
  · next c o w' hc hrun =>
    obtain ⟨a, ha, h⟩ := List.any_eq_true.1 h
    obtain ⟨j, hj, h⟩ := List.any_eq_true.1 h
    obtain ⟨hedge, hlate⟩ := Bool.and_eq_true_iff.1 h
    obtain ⟨hp, hvm⟩ := of_decide_eq_true hedge
    refine ⟨c, o, w', hc, hrun, a, ha, j, hj, hp, hvm, ?_⟩
    split at hlate
    · next time htime => exact ⟨time, htime, of_decide_eq_true hlate⟩
    · cases hlate
  · cases h

/-- Reconciling moves the second task by half a second, and its child starts before the input can have
arrived. -/
theorem staggered_starts_early : staggered.WellFormed ∧ 0 < hasty.portDelay ∧
    ∃ c o w', Costs.ofWorkflow staggered.workflow staggered.vms = .ok c ∧
      World.run hasty staggered = .ok o w' ∧
      ∃ a ∈ o.jobs, ∃ j ∈ o.jobs, a.task ∈ j.parents ∧ a.vm ≠ j.vm ∧
        ∃ time, c.moving a.task j.task = .ok time ∧ j.start < a.finish + time :=
  ⟨wellFormed_staggered, by decide +kernel, of_startsEarly (by decide +kernel)⟩

end FlowSched

import FlowSched.Execution
import FlowSched.Proofs.Cost
import FlowSched.Proofs.Credit

/-!
# The state of an execution

Every released task is pending, bound and queued for its start, or started; every started task is
ahead, due at the present instant, or done. The invariant ties the counters, the clock, the records
and the VMs of an execution to these places. It speaks of a workflow that is checked but may list an
edge more than once, so that it also covers executions that stall.
-/

namespace FlowSched.Execution

open Quantity

/-- What an execution relies on: a checked workflow, VMs with distinct ids, and costs. -/
structure Prepared (w : World ℚ) (c : Costs ℚ) : Prop where
  checked : w.workflow.Checked
  ids : (w.vms.map Vm.id).Nodup
  costs : Costs.ofWorkflow w.workflow w.vms = .ok c

/-- The VM that static dispatch leaves a task on. -/
def staticVm (vms : List (Vm ℚ)) (t : Task ℚ) : ℤ :=
  if vms.any (·.id = t.vm) then t.vm else (Batch.fallback? vms).getD unbound

/-- Every VM that a rule may choose for a task is big enough, and there is one. -/
def Fits (rule : Rule) (w : World ℚ) : Prop :=
  match rule with
  | .minMin | .maxMin | .fcfs => ∀ t ∈ w.workflow.tasks, ∃ v ∈ w.vms, Batch.isFeasible t v = true
  | .roundRobin => ∀ t ∈ w.workflow.tasks, ∀ v ∈ w.vms, t.elements ≤ v.elements
  | .static => ∀ t ∈ w.workflow.tasks, ∀ v ∈ w.vms, v.id = staticVm w.vms t → t.elements ≤ v.elements

/-- A task is bound to a VM of the roster, which is big enough if a rule can find such VMs. -/
def Bound (rule : Rule) (w : World ℚ) (t : Task ℚ) : Prop :=
  ∃ v ∈ w.vms, v.id = t.vm ∧ (Fits rule w → t.elements ≤ v.elements)

/-- The tasks that were started. -/
def started (e : Execution ℚ) : List ℤ := e.jobs.map Job.task

/-- What the jobs that end by an instant contribute to a task. -/
def creditsBy (w : Workflow ℚ) (jobs : List (Job ℚ)) (x : ℚ) (t : ℤ) : ℕ :=
  w.credits ((jobs.filter (·.finish ≤ x)).map Job.task) t

/-- What the jobs that end before an instant contribute to a task. -/
def creditsBefore (w : Workflow ℚ) (jobs : List (Job ℚ)) (x : ℚ) (t : ℤ) : ℕ :=
  w.credits ((jobs.filter (·.finish < x)).map Job.task) t

/-- The number of jobs on a VM that are not done. -/
def active (jobs : List (Job ℚ)) (done : List ℤ) (vm : ℤ) : ℕ :=
  (jobs.filter fun j => j.vm = vm ∧ j.task ∉ done).length

/-- A task is released at the instant at which its credits suffice, and a root at once. -/
structure Timely (w : Workflow ℚ) (jobs : List (Job ℚ)) (t : ℤ) (r : ℚ) : Prop where
  reached : w.need t ≤ creditsBy w jobs r t
  before : w.need t ≠ 0 → creditsBefore w jobs r t < w.need t
  root : w.need t = 0 → r = 0

section

variable (rule : Rule) (w : World ℚ) (e : Execution ℚ) (now : ℚ) (queue due done : List ℤ)

/-- Where the tasks are, and what is still counted down. -/
structure Places : Prop where
  nodup : (e.pending ++ (queue ++ e.started)).Nodup
  released : ∀ t, t ∈ e.pending ++ (queue ++ e.started) ↔
    t ∈ w.workflow.ids ∧ w.workflow.need t ≤ w.workflow.credits done t
  running : (e.completions.map Completion.task ++ (due ++ done)).Perm e.started
  remaining : ∀ t ∈ w.workflow.ids,
    (e.remaining.get? t).getD 0 = (w.workflow.need t : ℤ) - w.workflow.credits done t

/-- When the tasks end and when they were released. -/
structure Clock : Prop where
  ahead : ∀ c ∈ e.completions, now ≤ c.finish ∧ ∃ j ∈ e.jobs, j.task = c.task ∧ j.finish = c.finish
  due : ∀ j ∈ e.jobs, j.task ∈ due → j.finish = now
  done : ∀ j ∈ e.jobs, j.task ∈ done → j.finish ≤ now
  release : ∀ t ∈ e.pending ++ (queue ++ e.started),
    ∃ r ≤ now, e.release.get? t = some r ∧ Timely w.workflow e.jobs t r

/-- What a job says is what its task says. -/
structure Recorded (j : Job ℚ) (t : Task ℚ) : Prop where
  vm : t.vm = j.vm
  start : t.start = j.start
  finish : t.finish = j.finish
  parents : t.parents = j.parents
  submission : t.submission = w.session.submitted.length + j.id

/-- What is written on the tasks and in the session. -/
structure Records : Prop where
  kin : w.Kin e.toWorld
  planned : e.session.planned = w.session.planned
  submitted : e.session.submitted = w.session.submitted ++ e.started
  ids : ∀ (i : ℕ) (j : Job ℚ), e.jobs[i]? = some j → j.id = i
  job : ∀ j ∈ e.jobs, ∃ t, e.workflow.find? j.task = some t ∧ Recorded w j t
  queued : ∀ q ∈ queue, ∃ t, e.workflow.find? q = some t ∧ Bound rule w t
  waiting : ∀ t, t ∉ queue → t ∉ e.started → e.workflow.find? t = w.workflow.find? t

/-- What is known of each VM: when it is free, how much it holds, and why it is busy. -/
structure Lanes : Prop where
  free : ∀ v ∈ w.vms, ∃ f, e.vmFree.get? v.id = some f ∧ ∀ j ∈ e.jobs, j.vm = v.id → j.finish ≤ f
  running : ∀ v ∈ w.vms, (e.running.get? v.id).getD 0 = active e.jobs done v.id
  busy : (∀ v ∈ w.vms, v.busy = false) → ∀ v ∈ e.vms, v.busy = true →
    0 < active e.jobs done v.id ∨ ∃ q ∈ queue, ∃ t, e.workflow.find? q = some t ∧ t.vm = v.id

/-- What holds of the jobs in order of submission. -/
structure History : Prop where
  vm : ∀ j ∈ e.jobs, ∃ v ∈ w.vms, v.id = j.vm
  forward : ∀ j ∈ e.jobs, j.start ≤ j.finish
  ordered : e.jobs.Pairwise fun a b => a.vm = b.vm → a.finish ≤ b.start
  released : ∀ j ∈ e.jobs, ∀ r, e.release.get? j.task = some r → r ≤ j.start
  parents : ∀ before j after, e.jobs = before ++ j :: after →
    w.workflow.need j.task ≤ w.workflow.credits (before.map Job.task) j.task

/-- The invariant of an execution at an instant, with the tasks queued for their start, those whose
completion is being processed, and those that are done. -/
structure Inv : Prop where
  places : Places w e queue due done
  clock : Clock w e now queue due done
  records : Records rule w e queue
  lanes : Lanes w e queue done
  history : History w e

end

/-! ## Consequences -/

variable {rule : Rule} {w : World ℚ} {e : Execution ℚ} {now : ℚ} {queue due done : List ℤ}

theorem mem_started {t : ℤ} : t ∈ e.started ↔ ∃ j ∈ e.jobs, j.task = t := by
  simp [started]

namespace Places

variable (h : Places w e queue due done)

include h

theorem nodup_started : e.started.Nodup := h.nodup.of_append_right.of_append_right

theorem nodup_done : done.Nodup :=
  ((h.running.nodup_iff.2 h.nodup_started).of_append_right).of_append_right

theorem mem_started_of_done {t : ℤ} (ht : t ∈ done) : t ∈ e.started :=
  h.running.subset (by simp [ht])

theorem mem_started_of_due {t : ℤ} (ht : t ∈ due) : t ∈ e.started :=
  h.running.subset (by simp [ht])

theorem mem_ids {t : ℤ} (ht : t ∈ e.pending ++ (queue ++ e.started)) : t ∈ w.workflow.ids :=
  ((h.released t).1 ht).1

theorem mem_ids_of_started {t : ℤ} (ht : t ∈ e.started) : t ∈ w.workflow.ids :=
  h.mem_ids (by simp [ht])

end Places

/-- The next queued task is queued once and was not started. -/
theorem Places.head_fresh {t : ℤ} {rest : List ℤ} (h : Places w e (t :: rest) due done) :
    t ∉ rest ∧ t ∉ e.started := by
  have hn := h.nodup.of_append_right
  rw [List.cons_append, List.nodup_cons, List.mem_append, not_or] at hn
  exact hn.1

theorem Records.nodup_vms (h : Records rule w e queue) (hids : (w.vms.map Vm.id).Nodup) :
    (e.vms.map Vm.id).Nodup := by
  rw [World.map_vms_of_kin h.kin fun _ => rfl]
  exact hids

/-- What holds of each element of a list and those before it, when the list grows by one. -/
theorem forall_split_concat {β : Type} {P : List β → β → Prop} {l : List β} {b : β}
    (hl : ∀ before x after, l = before ++ x :: after → P before x) (hb : P l b) :
    ∀ before x after, l ++ [b] = before ++ x :: after → P before x := by
  intro before x after he
  rcases List.eq_nil_or_concat after with rfl | ⟨after, y, rfl⟩
  · obtain ⟨rfl, hx⟩ := List.append_inj' he rfl
    exact (List.cons.inj hx).1 ▸ hb
  · refine hl before x after ?_
    rw [List.concat_eq_append, ← List.cons_append, ← List.append_assoc] at he
    exact (List.append_inj' he rfl).1

/-- No more tasks are started than there are. -/
theorem Inv.length_started_le (h : Inv rule w e now [] [] done) :
    e.completions.length + done.length = e.started.length ∧ e.started.length ≤ w.workflow.size := by
  constructor
  · have := h.places.running.length_eq
    simpa using this
  · have hsub := List.subperm_of_subset h.places.nodup_started
      fun x hx => h.places.mem_ids_of_started hx
    have := hsub.length_le
    rwa [Workflow.ids, List.length_map] at this

/-- Jobs that end before the present instant are done. -/
theorem Inv.done_of_finish_lt (h : Inv rule w e now queue due done) {j : Job ℚ} (hj : j ∈ e.jobs)
    (hlt : j.finish < now) : j.task ∈ done := by
  have hm : j.task ∈ e.completions.map Completion.task ++ (due ++ done) :=
    h.places.running.mem_iff.2 (List.mem_map_of_mem hj)
  simp only [List.mem_append, List.mem_map] at hm
  rcases hm with ⟨c, hc, he⟩ | hdue | hdone
  · obtain ⟨hle, j', hj', ht, hf⟩ := h.clock.ahead c hc
    have hjj : j' = j := List.inj_on_of_nodup_map h.places.nodup_started hj' hj (ht.trans he)
    rw [← hf, hjj] at hle
    exact absurd hlt (not_lt.2 hle)
  · exact absurd (h.clock.due j hj hdue) hlt.ne
  · exact hdone

/-- What has contributed before the present instant is done. -/
theorem Inv.creditsBefore_le (h : Inv rule w e now queue due done) (t : ℤ) :
    creditsBefore w.workflow e.jobs now t ≤ w.workflow.credits done t := by
  refine Workflow.credits_le ?_ fun p hp => ?_
  · exact h.places.nodup_started.sublist (List.filter_sublist.map _)
  · obtain ⟨j, hj, rfl⟩ := List.mem_map.1 hp
    obtain ⟨hj, hlt⟩ := List.mem_filter.1 hj
    exact h.done_of_finish_lt hj (of_decide_eq_true hlt)

/-- Tasks that end by an instant have contributed by then. -/
theorem le_creditsBy {w : Workflow ℚ} {jobs : List (Job ℚ)} {ended : List ℤ} {x : ℚ}
    (hn : ended.Nodup) (h : ∀ p ∈ ended, ∃ j ∈ jobs, j.task = p ∧ j.finish ≤ x) (t : ℤ) :
    w.credits ended t ≤ creditsBy w jobs x t := by
  refine Workflow.credits_le hn fun p hp => ?_
  obtain ⟨j, hj, rfl, hle⟩ := h p hp
  exact List.mem_map_of_mem (List.mem_filter.2 ⟨hj, decide_eq_true hle⟩)

/-- Later jobs leave a task as timely as it was. -/
theorem Timely.append {w : Workflow ℚ} {jobs : List (Job ℚ)} {t : ℤ} {r : ℚ} (h : Timely w jobs t r)
    {j : Job ℚ} (hj : r ≤ j.finish) : Timely w (jobs ++ [j]) t r := by
  refine ⟨?_, fun hne => ?_, h.root⟩
  · refine h.reached.trans ?_
    simp only [creditsBy, List.filter_append, List.map_append, Workflow.credits_append]
    exact Nat.le_add_right _ _
  · have hnone : [j].filter (fun j => decide (j.finish < r)) = [] := by simpa using hj
    rw [creditsBefore, List.filter_append, hnone, List.append_nil]
    exact h.before hne

/-- A task that gets done is active no more. -/
theorem active_cons {jobs : List (Job ℚ)} (hn : (jobs.map Job.task).Nodup) {j : Job ℚ} (hj : j ∈ jobs)
    (hd : j.task ∉ done) (vm : ℤ) :
    active jobs done vm = active jobs (j.task :: done) vm + if j.vm = vm then 1 else 0 := by
  obtain ⟨a, b, rfl⟩ := List.append_of_mem hj
  rw [List.map_append, List.map_cons, List.nodup_middle, List.nodup_cons, List.mem_append,
    not_or] at hn
  have hrest : ∀ l : List (Job ℚ), j.task ∉ l.map Job.task →
      l.filter (fun k => decide (k.vm = vm ∧ k.task ∉ j.task :: done)) =
        l.filter (fun k => decide (k.vm = vm ∧ k.task ∉ done)) := by
    intro l hl
    refine List.filter_congr fun k hk => ?_
    have hne : k.task ≠ j.task := fun e => hl (e ▸ List.mem_map_of_mem hk)
    simp [hne]
  unfold active
  simp only [List.filter_append, hrest a hn.1.1, List.filter_cons, hrest b hn.1.2]
  by_cases hvm : j.vm = vm
  · simp [hvm, hd]
    omega
  · simp [hvm]

theorem active_append (jobs : List (Job ℚ)) (j : Job ℚ) (vm : ℤ) (hj : j.task ∉ done) :
    active (jobs ++ [j]) done vm = active jobs done vm + if j.vm = vm then 1 else 0 := by
  unfold active
  by_cases hvm : j.vm = vm <;> simp [hvm, hj]

end FlowSched.Execution

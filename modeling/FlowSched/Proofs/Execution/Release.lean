import FlowSched.Proofs.Execution.Run

/-!
# When tasks are released

The check of a workflow asks that the ends of each edge name each other, while an execution counts
how often they do. So a checked workflow is executed exactly if no task has more parents than
credits, and a task is released behind a parent exactly if the jobs that end before that parent
leave it short of credits (`fcfs_returns_iff`).
-/

namespace FlowSched.Execution

open Quantity Step

variable {w : Workflow ℚ} {jobs : List (Job ℚ)} {t : ℤ} {r x : ℚ}

theorem creditsBefore_mono (hn : (jobs.map Job.task).Nodup) (h : r ≤ x) :
    creditsBefore w jobs r t ≤ creditsBefore w jobs x t := by
  refine Workflow.credits_le (hn.sublist (List.filter_sublist.map _)) fun p hp => ?_
  obtain ⟨j, hj, rfl⟩ := List.mem_map.1 hp
  obtain ⟨hj, hlt⟩ := List.mem_filter.1 hj
  refine List.mem_map_of_mem (List.mem_filter.2 ⟨hj, ?_⟩)
  exact decide_eq_true ((of_decide_eq_true hlt).trans_le h)

theorem creditsBy_le_creditsBefore (hn : (jobs.map Job.task).Nodup) (h : r < x) :
    creditsBy w jobs r t ≤ creditsBefore w jobs x t := by
  refine Workflow.credits_le (hn.sublist (List.filter_sublist.map _)) fun p hp => ?_
  obtain ⟨j, hj, rfl⟩ := List.mem_map.1 hp
  obtain ⟨hj, hle⟩ := List.mem_filter.1 hj
  refine List.mem_map_of_mem (List.mem_filter.2 ⟨hj, ?_⟩)
  exact decide_eq_true ((of_decide_eq_true hle).trans_lt h)

/-- A task with parents is released at or behind an instant exactly if the jobs that end before that
instant leave it short of credits. -/
theorem Timely.le_iff (h : Timely w jobs t r) (hn : (jobs.map Job.task).Nodup) (hneed : w.need t ≠ 0) :
    x ≤ r ↔ creditsBefore w jobs x t < w.need t := by
  constructor
  · exact fun hle => (creditsBefore_mono hn hle).trans_lt (h.before hneed)
  · intro hlt
    by_contra hgt
    exact absurd (h.reached.trans (creditsBy_le_creditsBefore hn (not_le.1 hgt))) (not_le.2 hlt)

section

variable {rule : Rule} {w : World ℚ} {c : Costs ℚ} {e : Execution ℚ}

theorem prepared_of_check (hcheck : w.workflow.check = .ok ()) (hids : (w.vms.map Vm.id).Nodup)
    (hcosts : prepare w = .ok c) : Prepared w c := by
  refine ⟨Workflow.check_eq_ok.1 hcheck, hids, ?_⟩
  unfold prepare at hcosts
  split_ifs at hcosts with hne
  exact hcosts

/-- A task that was started had its credits. -/
theorem Ended.need_le (h : Ended rule w e) {t : ℤ} (ht : t ∈ w.workflow.ids) :
    w.workflow.need t ≤ w.workflow.credits w.workflow.ids t := by
  obtain ⟨now, done, hinv, -, hperm⟩ := h
  obtain ⟨j, hj, rfl⟩ := mem_started.1 (hperm.mem_iff.2 ht)
  obtain ⟨before, after, he⟩ := List.append_of_mem hj
  refine (hinv.history.parents before j after he).trans (Workflow.credits_le ?_ fun p hp => ?_)
  · have hn := hinv.places.nodup_started
    rw [started, he, List.map_append] at hn
    exact hn.of_append_left
  · refine hperm.subset (List.mem_map.2 ?_)
    obtain ⟨k, hk, rfl⟩ := List.mem_map.1 hp
    exact ⟨k, by rw [he]; exact List.mem_append_left _ hk, rfl⟩

/-- Every task has a release, which lies behind a parent exactly if it needed that parent. -/
theorem Ended.release (h : Ended rule w e) {t : Task ℚ} (ht : t ∈ w.workflow.tasks) :
    ∃ r, e.release.get? t.id = some r ∧ ∀ j ∈ e.jobs, j.task ∈ t.parents →
      (j.finish ≤ r ↔ creditsBefore w.workflow e.jobs j.finish t.id < t.parents.length) := by
  obtain ⟨now, done, hinv, -, hperm⟩ := h
  have hm : t.id ∈ e.started := hperm.mem_iff.2 (Workflow.mem_ids.2 ⟨t, Workflow.find?_self ht⟩)
  obtain ⟨r, -, hr, htimely⟩ := hinv.clock.release t.id (by simp [hm])
  refine ⟨r, hr, fun j _ hp => ?_⟩
  rw [← Workflow.need_eq (Workflow.find?_self ht)]
  refine htimely.le_iff hinv.places.nodup_started ?_
  rw [Workflow.need_eq (Workflow.find?_self ht)]
  exact (List.length_pos_of_mem hp).ne'

/-- Where no edge is listed twice, a task needs every parent. -/
theorem Ended.release_of_distinct (h : Ended rule w e) (hw : w.workflow.Checked)
    (hd : w.workflow.Distinct) {t : Task ℚ} (ht : t ∈ w.workflow.tasks) {j : Job ℚ} (hj : j ∈ e.jobs)
    (hp : j.task ∈ t.parents) :
    creditsBefore w.workflow e.jobs j.finish t.id < t.parents.length := by
  obtain ⟨now, done, hinv, -, hperm⟩ := h
  have hn := hinv.places.nodup_started
  by_contra hge
  have hf := Workflow.find?_self ht
  rw [← Workflow.need_eq hf] at hge
  have hmem := Workflow.mem_of_need_le hd hw hf (hn.sublist (List.filter_sublist.map _))
    (not_lt.1 hge) j.task hp
  obtain ⟨k, hk, hkj⟩ := List.mem_map.1 hmem
  obtain ⟨hk, hlt⟩ := List.mem_filter.1 hk
  rw [List.inj_on_of_nodup_map hn hk hj hkj] at hlt
  exact lt_irrefl _ (of_decide_eq_true hlt)

end

/-! ## First come, first served -/

/-- First come, first served executes a checked workflow exactly if no task lists more parents than
it has credits, and stalls otherwise. An execution that returns has started every task once, and has
released a task behind a parent exactly if the jobs that end before that parent leave it short of
credits. Where no list repeats an id, every execution returns and releases every task behind all its
parents. -/
theorem fcfs_returns_iff (w : World ℚ) (c : Costs ℚ) (hne : w.workflow.tasks ≠ [])
    (hcheck : w.workflow.check = .ok ()) (hids : (w.vms.map Vm.id).Nodup)
    (hfit : ∀ t ∈ w.workflow.tasks, ∃ v ∈ w.vms, Batch.isFeasible t v = true)
    (hcosts : prepare w = .ok c) :
    ((∃ e, run c .fcfs (fresh w) = .ok () e) ↔
      ∀ t ∈ w.workflow.tasks, t.parents.length ≤ w.workflow.credits w.workflow.ids t.id) ∧
    (∀ fault e, run c .fcfs (fresh w) = .error fault e → ∃ stuck, fault = .stalled stuck) ∧
    (∀ e, run c .fcfs (fresh w) = .ok () e → (e.jobs.map Job.task).Perm w.workflow.ids ∧
      ∀ t ∈ w.workflow.tasks, ∃ r, e.release.get? t.id = some r ∧
        ∀ j ∈ e.jobs, j.task ∈ t.parents →
          (j.finish ≤ r ↔ creditsBefore w.workflow e.jobs j.finish t.id < t.parents.length)) ∧
    (w.workflow.Distinct → ∃ e, run c .fcfs (fresh w) = .ok () e ∧
      (e.jobs.map Job.task).Perm w.workflow.ids ∧ ∀ t ∈ w.workflow.tasks,
        ∃ r, e.release.get? t.id = some r ∧ ∀ j ∈ e.jobs, j.task ∈ t.parents → j.finish ≤ r) := by
  have hc := prepared_of_check hcheck hids hcosts
  have hlead := run_leads .fcfs hc (fun h => by cases h)
  have hends : ∀ e, run c .fcfs (fresh w) = .ok () e → Ended .fcfs w e := fun e he =>
    hlead.of_ok he
  have hneed : ∀ t ∈ w.workflow.tasks, w.workflow.need t.id = t.parents.length := fun t ht =>
    Workflow.need_eq (Workflow.find?_self ht)
  have hstall : ∀ fault e, run c .fcfs (fresh w) = .error fault e →
      (∃ stuck, fault = .stalled stuck) ∧ ∃ t ∈ w.workflow.tasks,
        w.workflow.credits w.workflow.ids t.id < w.workflow.need t.id := by
    intro fault e he
    exact (hlead.of_error he).resolve_left (by simpa [Fits, hne] using hfit)
  have hreturns : (∃ e, run c .fcfs (fresh w) = .ok () e) ↔
      ∀ t ∈ w.workflow.tasks, t.parents.length ≤ w.workflow.credits w.workflow.ids t.id := by
    constructor
    · rintro ⟨e, he⟩ t ht
      rw [← hneed t ht]
      exact (hends e he).need_le (Workflow.mem_ids.2 ⟨t, Workflow.find?_self ht⟩)
    · intro hall
      cases hr : run c .fcfs (fresh w) with
      | ok u e => exact ⟨e, rfl⟩
      | error fault e =>
        obtain ⟨-, t, ht, hlt⟩ := hstall fault e hr
        rw [hneed t ht] at hlt
        exact absurd (hall t ht) (not_le.2 hlt)
  refine ⟨hreturns, fun fault e he => (hstall fault e he).1, fun e he => ?_, fun hd => ?_⟩
  · have hend := hends e he
    obtain ⟨-, -, -, -, hperm⟩ := hends e he
    exact ⟨hperm, fun t ht => hend.release ht⟩
  · obtain ⟨e, he⟩ := hreturns.2 fun t ht => by
      rw [← hneed t ht]
      refine Workflow.need_le_of_mem hd hc.checked (Workflow.find?_self ht) fun p hp => ?_
      obtain ⟨u, hu, -⟩ := hc.checked.parent t ht p hp
      exact Workflow.mem_ids.2 ⟨u, hu⟩
    have hend := hends e he
    obtain ⟨-, -, -, -, hperm⟩ := hends e he
    refine ⟨e, he, hperm, fun t ht => ?_⟩
    obtain ⟨r, hr, hiff⟩ := hend.release ht
    exact ⟨r, hr, fun j hj hp =>
      (hiff j hj hp).2 (hend.release_of_distinct hc.checked hd ht hj hp)⟩

/-- The tasks that an execution leaves stuck, where it stalls. -/
def stuck? (rule : Rule) (w : World ℚ) : Option (List ℤ) :=
  match prepare w with
  | .error _ => none
  | .ok c =>
    match run c rule (fresh w) with
    | .error (.stalled stuck) _ => some stuck
    | _ => none

theorem of_stuck? {rule : Rule} {w : World ℚ} {stuck : List ℤ} (h : stuck? rule w = some stuck) :
    ∃ c, prepare w = .ok c ∧ ∃ e, run c rule (fresh w) = .error (.stalled stuck) e := by
  unfold stuck? at h
  cases hc : prepare w with
  | error fault => rw [hc] at h; cases h
  | ok c =>
    rw [hc] at h
    dsimp only at h
    split at h
    · next found e he =>
      rw [Option.some.inj h] at he
      exact ⟨c, rfl, e, he⟩
    · cases h

/-- A task that lists its only parent twice. -/
def twiceListed : World ℚ where
  workflow :=
    { tasks := [{ id := 1, length := 10, children := [2] },
        { id := 2, length := 10, parents := [1, 1] }]
      nodup := by decide }
  vms := [{ id := 0, mips := 10 }]

/-- Its workflow passes the check, but its execution stalls. -/
theorem twiceListed_stalls : twiceListed.workflow.check = .ok () ∧
    ∃ c, prepare twiceListed = .ok c ∧
      ∃ e, run c .fcfs (fresh twiceListed) = .error (.stalled [2]) e :=
  ⟨rfl, of_stuck? (by decide +kernel)⟩

/-- A task with two parents, the first of which names it twice. -/
def twiceNamed : World ℚ where
  workflow :=
    { tasks := [{ id := 1, length := 10, children := [3, 3] },
        { id := 2, length := 90, children := [3] },
        { id := 3, length := 10, parents := [1, 2] }]
      nodup := by decide }
  vms := [{ id := 0, mips := 10 }, { id := 1, mips := 10 }]

/-- Its execution returns, with every task started once. -/
theorem fcfs_returns_iff_twiceNamed : ∃ c e, prepare twiceNamed = .ok c ∧
    run c .fcfs (fresh twiceNamed) = .ok () e ∧
    (e.jobs.map Job.task).Perm twiceNamed.workflow.ids := by
  have hcheck : twiceNamed.workflow.check = .ok () := rfl
  cases hc : prepare twiceNamed with
  | error fault =>
    have : (match prepare twiceNamed with
      | .error _ => false
      | .ok _ => true) = true := by decide +kernel
    rw [hc] at this
    cases this
  | ok c =>
    obtain ⟨hiff, -, hall, -⟩ := fcfs_returns_iff twiceNamed c (by decide) hcheck (by decide)
      (by decide) hc
    obtain ⟨e, he⟩ := hiff.2 (by decide)
    exact ⟨c, e, rfl, he, (hall e he).1⟩

end FlowSched.Execution

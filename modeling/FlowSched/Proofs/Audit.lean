import Mathlib.Data.List.Basic
import FlowSched.Audit
import FlowSched.Proofs.Reconcile

/-!
# Schedules that pass their audit

An audit sorts the jobs of each VM by time and takes the last job of each task. On jobs that stand in
the order of their times the sort changes nothing, so what is known of earlier and later jobs is
known of neighbours (`vmOverlaps_eq_nil`). A reconciled schedule passes the strict audit but for
parents that have no job (`reconcile_clears`).
-/

namespace FlowSched

open Quantity

namespace Audit

/-- The violations of a schedule that only parents without a job cause. -/
def absences (jobs : List (Job ℚ)) : List (Violation ℚ) :=
  jobs.flatMap fun job =>
    (job.parents.filter fun parent => decide (parent ∉ jobs.map Job.task)).map (.unscheduled job.task)

theorem of_mem_neighbours {β : Type} {R : β → β → Prop} {xs : List β} (h : xs.Pairwise R) :
    ∀ p ∈ neighbours xs, R p.1 p.2 := by
  unfold neighbours
  induction xs with
  | nil => simp
  | cons x xs ih =>
    obtain ⟨hx, hxs⟩ := List.pairwise_cons.1 h
    cases xs with
    | nil => simp
    | cons y ys =>
      intro p hp
      rcases List.mem_cons.1 hp with rfl | hp
      · exact hx y List.mem_cons_self
      · exact ih hxs p hp

/-- Jobs whose starts and ends both ascend are in order already. -/
theorem byTime_of_ascending {jobs : List (Job ℚ)}
    (h : jobs.Pairwise fun a b => a.start ≤ b.start ∧ a.finish ≤ b.finish) : byTime jobs = jobs := by
  refine List.mergeSort_of_pairwise (h.imp fun {a b} hab => ?_)
  obtain ⟨hs, hf⟩ := hab
  split_ifs <;> simp [hs, hf]

variable {ε : ℚ} {strict : Bool} {jobs : List (Job ℚ)}

/-- Jobs that each end before a later job of their VM starts do not overlap. -/
theorem vmOverlaps_eq_nil (hε : 0 ≤ ε) (hle : ∀ j ∈ jobs, j.start ≤ j.finish)
    (h : jobs.Pairwise fun a b => a.vm = b.vm → a.finish ≤ b.start) : vmOverlaps ε jobs = [] := by
  refine List.flatMap_eq_nil_iff.2 fun vm _ => List.filterMap_eq_nil_iff.2 fun p hp => ?_
  have hvm : (jobs.filter (·.vm = vm)).Pairwise fun a b =>
      a.start ≤ a.finish ∧ a.finish ≤ b.start ∧ b.start ≤ b.finish := by
    refine List.Pairwise.imp_of_mem (fun {a b} ha hb hab => ?_)
      (h.sublist (List.filter_sublist (p := fun j : Job ℚ => decide (j.vm = vm))))
    have hva := List.mem_filter.1 ha
    have hvb := List.mem_filter.1 hb
    exact ⟨hle a hva.1, hab ((of_decide_eq_true hva.2).trans (of_decide_eq_true hvb.2).symm),
      hle b hvb.1⟩
  rw [byTime_of_ascending (hvm.imp fun {a b} hab => ⟨by linarith [hab.1, hab.2.1], by
    linarith [hab.2.1, hab.2.2]⟩)] at hp
  have hp := (of_mem_neighbours hvm p hp).2.1
  exact if_neg (not_lt.2 (by linarith))

/-- Where no job starts too early for a parent, only absent parents are reported. -/
theorem dependencies_eq_absences
    (h : ∀ j ∈ jobs, ∀ p ∈ j.parents, ∀ a, jobOf? jobs p = some a →
      startsEarly ε strict a j = false) : dependencies ε strict jobs = absences jobs := by
  refine List.flatMap_congr fun j hj => ?_
  have row : ∀ p ∈ j.parents, dependency? ε strict jobs j p =
      if p ∉ jobs.map Job.task then some (.unscheduled j.task p) else none := by
    intro p hp
    unfold dependency?
    cases ha : jobOf? jobs p with
    | none => exact (if_pos (jobOf?_eq_none.1 ha)).symm
    | some a =>
      have hmem : ¬ p ∉ jobs.map Job.task := fun hn => by
        rw [jobOf?_eq_none.2 hn] at ha
        cases ha
      simp only [h j hj p hp a ha, Bool.false_eq_true, if_false, if_neg hmem]
  rw [List.filterMap_congr row]
  generalize jobs.map Job.task = tasks, j.parents = parents
  induction parents with
  | nil => rfl
  | cons p ps ih => by_cases hp : p ∈ tasks <;> simpa [hp] using ih

theorem absences_eq_nil (h : ∀ j ∈ jobs, ∀ p ∈ j.parents, p ∈ jobs.map Job.task) :
    absences jobs = [] := by
  refine List.flatMap_eq_nil_iff.2 fun j hj => ?_
  rw [List.map_eq_nil_iff, List.filter_eq_nil_iff]
  intro p hp
  simpa using h j hj p hp

/-- Jobs that start at no end of an earlier job, nor at an instant seen before, share none. -/
theorem duplicates_eq_nil {seen : List ℚ} (hseen : ∀ j ∈ jobs, j.start ∉ seen)
    (h : jobs.Pairwise fun a b => b.start ≠ a.start ∧ b.start ≠ a.finish) :
    duplicates seen jobs = [] := by
  induction jobs generalizing seen with
  | nil => rfl
  | cons j jobs ih =>
    obtain ⟨hj, hjobs⟩ := List.pairwise_cons.1 h
    have hfresh : j.start ∉ seen := hseen j List.mem_cons_self
    have hrest : duplicates (j.start :: j.finish :: seen) jobs = [] := by
      refine ih (fun k hk => ?_) hjobs
      simp only [List.mem_cons, not_or]
      exact ⟨(hj k hk).1, (hj k hk).2, hseen k (List.mem_cons_of_mem j hk)⟩
    simp [duplicates, hfresh, hrest]

/-- Jobs that are clear of each other pass the strict audit, but for absent parents. -/
theorem schedule_of_clear (hε : 0 ≤ ε) (hn : (jobs.map Job.task).Nodup)
    (hle : ∀ j ∈ jobs, j.start ≤ j.finish) (hplaced : ¬ Reconcile.Misplaced jobs)
    (hclear : jobs.Pairwise Reconcile.Clear) : schedule ε true jobs = absences jobs := by
  have hdep : dependencies ε true jobs = absences jobs := by
    refine dependencies_eq_absences fun j hj p hp a ha => ?_
    obtain ⟨haj, rfl⟩ := (jobOf?_eq_some hn).1 ha
    -- the parent's job stands before the job, as no job is misplaced
    obtain ⟨before, after, rfl⟩ := List.append_of_mem hj
    have hbefore : a ∈ before := by
      rcases List.mem_append.1 haj with h | h
      · exact h
      · exact absurd ⟨before, j, after, rfl, a.task, hp, List.mem_map_of_mem h⟩ hplaced
    have hlt := (((List.pairwise_append.1 hclear).2.2) a hbefore j List.mem_cons_self).parent hp
    simpa [startsEarly] using hlt
  rw [schedule, vmOverlaps_eq_nil hε hle (hclear.imp fun {a b} hab hv => (hab.vm hv).le), hdep,
    if_pos rfl, duplicates_eq_nil (by simp) (hclear.imp fun {a b} hab => ⟨hab.start_ne, hab.finish_ne⟩)]
  simp

end Audit

/-! ## The audit of a reconciled schedule -/

open Reconcile Audit

/-- Reconciling jobs of distinct tasks that do not end before they start fails exactly if a parent's
job stands at the job's own place or behind it. Otherwise each job is moved by whole port delays and
starts clear of every earlier one, and the strict audit reports exactly the parents without a
job. -/
theorem reconcile_clears (delay : ℚ) (withStart : Bool) (jobs : List (Job ℚ)) (hd : 0 < delay)
    (hn : (jobs.map Job.task).Nodup) (hle : ∀ j ∈ jobs, j.start ≤ j.finish) :
    (Misplaced jobs → ∃ fault, (reconcile delay withStart jobs).fault = some fault ∧
      fault.kind = .invalidInput) ∧
    (¬ Misplaced jobs → (reconcile delay withStart jobs).fault = none ∧
      List.Forall₂ (Shifted delay) jobs (reconcile delay withStart jobs).jobs ∧
      (reconcile delay withStart jobs).jobs.Pairwise Clear ∧
      ∀ ε : ℚ, 0 ≤ ε → Audit.schedule ε true (reconcile delay withStart jobs).jobs =
        absences (reconcile delay withStart jobs).jobs) := by
  constructor
  · intro hmis
    obtain ⟨j, p, hfault⟩ := reconcile_of_misplaced hd withStart jobs hn hmis
    exact ⟨_, hfault, rfl⟩
  · intro hplaced
    obtain ⟨hfault, hall, hclear⟩ := reconcile_of_placed hd withStart jobs hn hplaced
    refine ⟨hfault, hall, hclear, fun ε hε => ?_⟩
    exact schedule_of_clear hε (by rwa [map_task_of_shifted hall])
      (start_le_finish_of_shifted hall hle) (by rwa [misplaced_iff_of_shifted hall]) hclear

/-- Two jobs on one VM, ten seconds from `0` and from `8`, the second depending on the first and on
a task without a job: the second moves to `13`. -/
theorem reconcile_clears_overlap :
    0 < (5 : ℚ) ∧
    (reconcile (5 : ℚ) true
      [{ id := 0, task := 1, vm := 0, start := 0, finish := 10 },
        { id := 1, task := 2, vm := 0, start := 8, finish := 18, parents := [1, 7] }]).jobs.Pairwise
      Clear :=
  ⟨by decide, ((reconcile_clears 5 true _ (by decide) (by decide) (by decide)).2 (by
    simp [misplaced_cons, not_misplaced_nil])).2.2.1⟩

end FlowSched

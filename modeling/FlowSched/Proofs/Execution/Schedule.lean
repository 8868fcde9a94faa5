import FlowSched.Proofs.Audit
import FlowSched.Proofs.Execution.Release

/-!
# The schedule of an execution

Where no list repeats an id, an execution that has ended leaves a schedule without violations: each
VM works off its jobs one after the other, and a job starts when all its parents have ended, which
also stand before it in order of submission (`Ended.schedule_eq_nil`, `Ended.not_misplaced`).
-/

namespace FlowSched.Execution

open Quantity

variable {rule : Rule} {w : World ℚ} {e : Execution ℚ}

section

variable (h : Ended rule w e)

include h

theorem Ended.nodup : (e.jobs.map Job.task).Nodup := by
  obtain ⟨now, done, hinv, -, -⟩ := h
  exact hinv.places.nodup_started

theorem Ended.perm : (e.jobs.map Job.task).Perm w.workflow.ids := by
  obtain ⟨now, done, -, -, hperm⟩ := h
  exact hperm

theorem Ended.start_le_finish : ∀ j ∈ e.jobs, j.start ≤ j.finish := by
  obtain ⟨now, done, hinv, -, -⟩ := h
  exact hinv.history.forward

theorem Ended.ordered : e.jobs.Pairwise fun a b => a.vm = b.vm → a.finish ≤ b.start := by
  obtain ⟨now, done, hinv, -, -⟩ := h
  exact hinv.history.ordered

/-- A job names the parents of its task. -/
theorem Ended.task {j : Job ℚ} (hj : j ∈ e.jobs) :
    ∃ t ∈ w.workflow.tasks, t.id = j.task ∧ t.parents = j.parents := by
  obtain ⟨now, done, hinv, -, -⟩ := h
  obtain ⟨t', ht', hrec⟩ := hinv.records.job j hj
  obtain ⟨t, ht, hk⟩ := Workflow.exists_of_kin hinv.records.kin.workflow.symm ht'
  obtain ⟨hmem, hid⟩ := Workflow.find?_eq_some.1 ht
  exact ⟨t, hmem, hid, hk.parents.trans hrec.parents⟩

variable (hw : w.workflow.Checked)

include hw

/-- Every parent of a job has a job. -/
theorem Ended.parents_known : ∀ j ∈ e.jobs, ∀ p ∈ j.parents, p ∈ e.jobs.map Job.task := by
  intro j hj p hp
  obtain ⟨t, ht, -, hpar⟩ := h.task hj
  obtain ⟨u, hu, -⟩ := hw.parent t ht p (hpar ▸ hp)
  exact h.perm.mem_iff.2 (Workflow.mem_ids.2 ⟨u, hu⟩)

variable (hd : w.workflow.Distinct)

include hd

/-- A job starts when its parents have ended. -/
theorem Ended.parent_le_start {j a : Job ℚ} (hj : j ∈ e.jobs) (ha : a ∈ e.jobs)
    (hp : a.task ∈ j.parents) : a.finish ≤ j.start := by
  obtain ⟨t, ht, hid, hpar⟩ := h.task hj
  obtain ⟨r, hr, hiff⟩ := h.release ht
  have hpt : a.task ∈ t.parents := hpar ▸ hp
  have hle : a.finish ≤ r := (hiff a ha hpt).2 (h.release_of_distinct hw hd ht ha hpt)
  obtain ⟨now, done, hinv, -, -⟩ := h
  exact hle.trans (hinv.history.released j hj r (hid ▸ hr))

/-- Tasks are submitted behind their parents. -/
theorem Ended.topological : w.workflow.Topological (e.jobs.map Job.task) := by
  refine ⟨h.perm, fun t ht ahead behind he => ?_⟩
  have hn := h.nodup
  obtain ⟨before, _, hjobs, rfl, hrest⟩ := List.map_eq_append_iff.1 he
  obtain ⟨j, after, rfl, hid, -⟩ := List.map_eq_cons_iff.1 hrest
  rw [hjobs, List.map_append] at hn
  obtain ⟨now, done, hinv, -, -⟩ := h
  have hneed := hinv.history.parents before j after hjobs
  rw [hid] at hneed
  exact Workflow.mem_of_need_le hd hw (Workflow.find?_self ht) hn.of_append_left hneed

/-- The jobs of the parents were submitted earlier. -/
theorem Ended.not_misplaced : ¬ Reconcile.Misplaced e.jobs := by
  rintro ⟨before, j, after, he, p, hp, hmem⟩
  obtain ⟨t, ht, hid, hpar⟩ := h.task (j := j) (by simp [he])
  have hn := h.nodup
  rw [he, List.map_append] at hn
  have hbefore := (h.topological hw hd).first t ht (before.map Job.task) (after.map Job.task)
    (by rw [he, List.map_append, List.map_cons, hid]) p (hpar ▸ hp)
  exact List.disjoint_of_nodup_append hn hbefore hmem

/-- The schedule has no violations. -/
theorem Ended.schedule_eq_nil : Audit.schedule 0 false e.jobs = [] := by
  have hdep : Audit.dependencies 0 false e.jobs = Audit.absences e.jobs := by
    refine Audit.dependencies_eq_absences fun j hj p hp a ha => ?_
    obtain ⟨haj, rfl⟩ := (jobOf?_eq_some h.nodup).1 ha
    have hle := h.parent_le_start hw hd hj haj hp
    simpa [Audit.startsEarly] using hle
  rw [Audit.schedule, Audit.vmOverlaps_eq_nil (le_refl 0) h.start_le_finish h.ordered, hdep,
    Audit.absences_eq_nil (h.parents_known hw)]
  rfl

end

end FlowSched.Execution

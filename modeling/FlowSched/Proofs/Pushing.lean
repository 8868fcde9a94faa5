import FlowSched.Proofs.Reconcile

/-!
# How far reconciling moves a job

Reconciling pushes one job after the other past the jobs before it (`reconcile_pushed`). What it
returns is read here place by place (`Pushed.at`): each job is its original moved by the least number
of delays at which it passes every job returned before it. Whether a start passes does not depend on
the order in which the parents are named, and a least number is the only one, so neither does the
schedule (`Pushed.reordered`).
-/

namespace FlowSched

namespace Reconcile

variable {delay : ℚ} {withStart : Bool} {settled settled' jobs jobs' out out' : List (Job ℚ)}
  {a a' j j' k k' : Job ℚ} {x : ℚ}

/-! ## Place by place -/

theorem Pushed.at (h : Pushed delay withStart settled jobs out) {i : ℕ} (hi : jobs[i]? = some j) :
    ∃ j', out[i]? = some j' ∧ PushedPast delay withStart (settled ++ out.take i) j j' := by
  induction h generalizing i with
  | nil => simp at hi
  | @cons settled jobs out k k' hk _ ih =>
    cases i with
    | zero =>
      obtain rfl : k = j := by simpa using hi
      exact ⟨k', rfl, by simpa using hk⟩
    | succ i =>
      obtain ⟨j', hj', hpast⟩ := ih (by simpa using hi)
      exact ⟨j', by simpa using hj', by simpa using hpast⟩

/-- A parent with a job has it before the job, where none is misplaced. -/
theorem mem_take_of_placed (hplaced : ¬ Misplaced jobs) {i : ℕ} (hi : jobs[i]? = some j) {p : ℤ}
    (hp : p ∈ j.parents) (hjobs : p ∈ jobs.map Job.task) : p ∈ (jobs.take i).map Job.task := by
  obtain ⟨hlt, rfl⟩ := List.getElem?_eq_some_iff.1 hi
  have hsplit : jobs = jobs.take i ++ jobs[i] :: jobs.drop (i + 1) := by
    rw [List.getElem_cons_drop, List.take_append_drop]
  rw [hsplit, List.map_append, List.mem_append] at hjobs
  exact hjobs.resolve_right fun h => hplaced ⟨_, _, _, hsplit, p, hp, h⟩

/-! ## The order of the parents -/

/-- The same job with its parents named in another order. -/
def Reordered (j j' : Job ℚ) : Prop := ∃ ps : List ℤ, ps.Perm j.parents ∧ j' = { j with parents := ps }

theorem Reordered.task (h : Reordered j j') : j'.task = j.task := by obtain ⟨ps, -, rfl⟩ := h; rfl

theorem Reordered.mem_parents (h : Reordered j j') (p : ℤ) : p ∈ j'.parents ↔ p ∈ j.parents := by
  obtain ⟨ps, hps, rfl⟩ := h
  exact hps.mem_iff

theorem Reordered.passes_iff (ha : Reordered a a') (hj : Reordered j j') :
    Passes withStart a' j' x ↔ Passes withStart a j x := by
  obtain ⟨_, -, rfl⟩ := ha
  obtain ⟨ps, hps, rfl⟩ := hj
  constructor
  · rintro ⟨hvm, hparent, hstart, hfinish⟩
    exact ⟨hvm, fun hp => hparent (hps.mem_iff.2 hp), hstart, hfinish⟩
  · rintro ⟨hvm, hparent, hstart, hfinish⟩
    exact ⟨hvm, fun hp => hparent (hps.mem_iff.1 hp), hstart, hfinish⟩

theorem forall_passes_iff (hs : List.Forall₂ Reordered settled settled') (hj : Reordered j j') :
    (∀ a ∈ settled', Passes withStart a j' x) ↔ ∀ a ∈ settled, Passes withStart a j x := by
  induction hs with
  | nil => simp
  | cons ha _ ih => rw [List.forall_mem_cons, List.forall_mem_cons, ih, ha.passes_iff hj]

/-- The same numbers of delays take both jobs past what is settled, so the least is the same. -/
theorem PushedPast.reordered (h : PushedPast delay withStart settled j k)
    (h' : PushedPast delay withStart settled' j' k')
    (hs : List.Forall₂ Reordered settled settled') (hj : Reordered j j') : Reordered k k' := by
  obtain ⟨m, rfl, hm⟩ := h
  obtain ⟨m', rfl, hm'⟩ := h'
  simp only [forall_passes_iff hs hj] at hm'
  obtain ⟨ps, hps, rfl⟩ := hj
  obtain rfl : m = m' := hm.unique hm'
  exact ⟨ps, hps, rfl⟩

theorem Pushed.reordered (h : Pushed delay withStart settled jobs out)
    (h' : Pushed delay withStart settled' jobs' out')
    (hs : List.Forall₂ Reordered settled settled') (hjobs : List.Forall₂ Reordered jobs jobs') :
    List.Forall₂ Reordered out out' := by
  induction h generalizing settled' jobs' out' with
  | nil =>
    cases hjobs
    cases h'
    exact .nil
  | cons hk _ ih =>
    cases hjobs with
    | cons hj hjobs =>
      cases h' with
      | cons hk' h' =>
        have hout := hk.reordered hk' hs hj
        exact .cons hout (ih h' (List.rel_append hs (.cons hout .nil)) hjobs)

end Reconcile

open Reconcile

/-- Reconciling jobs of distinct tasks, where it does not fail, moves each job as little as it can:
by the least number of delays at which it starts behind all that was returned before it on its VM,
behind each parent with a job, and at no start or end returned before it. All such parents stand
before the job. No job moves backwards or changes its length, and naming parents in another order
changes nothing else. -/
theorem reconcile_least (delay : ℚ) (withStart : Bool) (jobs : List (Job ℚ)) (hd : 0 < delay)
    (hn : (jobs.map Job.task).Nodup) (hok : (reconcile delay withStart jobs).fault = none) :
    (reconcile delay withStart jobs).jobs.length = jobs.length ∧
    (∀ (i : ℕ) (j : Job ℚ), jobs[i]? = some j →
      (∃ k : ℕ, (reconcile delay withStart jobs).jobs[i]? =
          some { j with start := j.start + k * delay, finish := j.finish + k * delay } ∧
        IsLeast {k : ℕ | ∀ a ∈ (reconcile delay withStart jobs).jobs.take i,
          Passes withStart a j (j.start + k * delay)} k) ∧
      ∀ p ∈ j.parents, p ∈ jobs.map Job.task →
        p ∈ ((reconcile delay withStart jobs).jobs.take i).map Job.task) ∧
    List.Forall₂ (fun j j' => j.start ≤ j'.start ∧ j'.duration = j.duration) jobs
      (reconcile delay withStart jobs).jobs ∧
    ∀ jobs' : List (Job ℚ), List.Forall₂ Reordered jobs jobs' →
      (reconcile delay withStart jobs').fault = none ∧
        List.Forall₂ Reordered (reconcile delay withStart jobs).jobs
          (reconcile delay withStart jobs').jobs := by
  have hplaced : ¬ Misplaced jobs := by
    intro hmis
    obtain ⟨j, p, hfault⟩ := reconcile_of_misplaced hd withStart jobs hn hmis
    rw [hok] at hfault
    cases hfault
  obtain ⟨-, hpushed⟩ := reconcile_pushed hd withStart jobs hn hplaced
  refine ⟨hpushed.shifted.length_eq.symm, fun i j hi => ⟨?_, fun p hp hjobs => ?_⟩, ?_,
    fun jobs' hjobs' => ?_⟩
  · obtain ⟨j', hj', k, rfl, hk⟩ := hpushed.at hi
    exact ⟨k, hj', hk⟩
  · rw [map_task_of_shifted (List.forall₂_take i hpushed.shifted)]
    exact mem_take_of_placed hplaced hi hp hjobs
  · refine hpushed.shifted.imp ?_
    rintro j _ ⟨k, rfl⟩
    constructor
    · exact le_add_of_nonneg_right (by positivity)
    · exact add_sub_add_right_eq_sub _ _ _
  · have htask := map_task_of_forall₂ hjobs' fun _ _ => Reordered.task
    have hplaced' : ¬ Misplaced jobs' := by
      rwa [misplaced_iff_of_forall₂ hjobs' (fun _ _ => Reordered.task) fun _ _ =>
        Reordered.mem_parents]
    obtain ⟨hok', hpushed'⟩ := reconcile_pushed hd withStart jobs' (by rwa [htask]) hplaced'
    exact ⟨hok', hpushed.reordered hpushed' .nil hjobs'⟩

/-- Three jobs under a delay of `1`. The second is a child of the first, and starts at `3` behind it.
The third shares a VM with the first, and at `3` and `4` the second starts and ends. -/
def crowd : List (Job ℚ) :=
  [{ id := 0, task := 1, vm := 0, start := 0, finish := 2 },
    { id := 1, task := 2, vm := 1, start := 1, finish := 2, parents := [1] },
    { id := 2, task := 3, vm := 0, start := 2, finish := 3, parents := [9, 1] }]

/-- The third job is moved by three delays and not by one, although it is past its VM and its parent
after one. -/
theorem reconcile_least_crowd :
    (0 : ℚ) < 1 ∧ (crowd.map Job.task).Nodup ∧ (reconcile 1 true crowd).fault = none ∧
    (reconcile 1 true crowd).jobs.map Job.start = [0, 3, 5] ∧
    IsLeast {k : ℕ | ∀ a ∈ (reconcile 1 true crowd).jobs.take 2,
      Passes true a { id := 2, task := 3, vm := 0, start := 2, finish := 3, parents := [9, 1] }
        (2 + k * 1)} 3 := by
  have hok : (reconcile 1 true crowd).fault = none := by decide +kernel
  have hstarts : (reconcile 1 true crowd).jobs.map Job.start = [0, 3, 5] := by decide +kernel
  refine ⟨by decide, by decide, hok, hstarts, ?_⟩
  obtain ⟨⟨k, hk, hleast⟩, -⟩ :=
    (reconcile_least 1 true crowd (by decide) (by decide) hok).2.1 2 _ rfl
  have hthird := congrArg (fun xs : List ℚ => xs[2]?) hstarts
  rw [List.getElem?_map, hk] at hthird
  have hk3 : (2 : ℚ) + k * 1 = 5 := by simpa using hthird
  obtain rfl : k = 3 := by
    have : (k : ℚ) = 3 := by linarith
    exact_mod_cast this
  exact hleast

end FlowSched

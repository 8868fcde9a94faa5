import FlowSched.Proofs.Run

/-!
# When jobs start

Over the rationals a job of an execution starts at the latest of three instants: zero, the arrival of
its last input, and the finish of the job that its VM was given before (`Punctual`). The instant of
the dispatch never holds a job back: a task that is dispatched was released at that very instant, or
it waited for a VM that works until then at least (`OnTime`). So no other start times for the same
order of submission are earlier anywhere (`start_le_of_admissible`).
-/

namespace FlowSched.Execution

open Quantity Step

/-! ## The law -/

/-- The last job that a VM was given. -/
def lastOn? (jobs : List (Job ℚ)) (vm : ℤ) : Option (Job ℚ) := jobs.findRev? (·.vm = vm)

/-- When a VM has worked off the jobs it was given. -/
def freeAt (jobs : List (Job ℚ)) (vm : ℤ) : ℚ := ((lastOn? jobs vm).map Job.finish).getD 0

/-- When what a job made is there for another one: at once on the same VM, else after its transfer. -/
def delivery (c : Costs ℚ) (a j : Job ℚ) : Except (Fault ℚ) ℚ :=
  if a.vm = j.vm then .ok a.finish
  else do
    let time ← c.moving a.task j.task
    .ok (a.finish + time)

/-- When the inputs of a job arrive, one for each parent, from the jobs before it. -/
def deliveries (c : Costs ℚ) (before : List (Job ℚ)) (j : Job ℚ) : Except (Fault ℚ) (List ℚ) :=
  j.parents.mapM fun p =>
    match jobOf? before p with
    | none => .error (.missing p)
    | some a => delivery c a j

/-- A job starts as soon as its inputs have arrived and its VM is free, and takes its time there. -/
structure Punctual (c : Costs ℚ) (w : World ℚ) (before : List (Job ℚ)) (j : Job ℚ) : Prop where
  start : ∃ inputs, deliveries c before j = .ok inputs ∧
    j.start = latest (0 :: freeAt before j.vm :: inputs)
  finish : ∃ t ∈ w.workflow.tasks, ∃ v ∈ w.vms, t.id = j.task ∧ t.parents = j.parents ∧
    v.id = j.vm ∧ j.finish = j.start + t.length / v.mips

/-- A job starts neither before zero nor before its VM is free or an input has arrived. -/
structure Admissible (c : Costs ℚ) (before : List (Job ℚ)) (j : Job ℚ) : Prop where
  nonneg : 0 ≤ j.start
  free : freeAt before j.vm ≤ j.start
  arrived : ∀ inputs, deliveries c before j = .ok inputs → ∀ x ∈ inputs, x ≤ j.start

/-- The same job at another time. -/
structure Retimed (j k : Job ℚ) : Prop where
  task : k.task = j.task
  vm : k.vm = j.vm
  parents : k.parents = j.parents
  duration : k.duration = j.duration

variable {c : Costs ℚ} {w : World ℚ} {jobs before : List (Job ℚ)} {j : Job ℚ} {vm : ℤ}

theorem lastOn?_append : lastOn? (jobs ++ [j]) vm = if j.vm = vm then some j else lastOn? jobs vm := by
  unfold lastOn?
  rw [List.findRev?_eq_find?_reverse, List.findRev?_eq_find?_reverse, List.reverse_append]
  by_cases h : j.vm = vm <;> simp [h]

theorem freeAt_append :
    freeAt (jobs ++ [j]) vm = if j.vm = vm then j.finish else freeAt jobs vm := by
  unfold freeAt
  rw [lastOn?_append]
  split_ifs <;> rfl

@[simp] theorem freeAt_nil : freeAt [] vm = 0 := rfl

/-- A VM is needed until zero or until one of its jobs ends. -/
theorem freeAt_eq (jobs : List (Job ℚ)) (vm : ℤ) :
    freeAt jobs vm = 0 ∨ ∃ j ∈ jobs, j.vm = vm ∧ freeAt jobs vm = j.finish := by
  unfold freeAt
  cases hl : lastOn? jobs vm with
  | none => exact Or.inl rfl
  | some j =>
    unfold lastOn? at hl
    rw [List.findRev?_eq_find?_reverse] at hl
    exact Or.inr ⟨j, List.mem_reverse.1 (List.mem_of_find?_eq_some hl),
      by simpa using List.find?_some hl, rfl⟩

theorem freeAt_nonneg (h : ∀ j ∈ jobs, 0 ≤ j.finish) : 0 ≤ freeAt jobs vm := by
  rcases freeAt_eq jobs vm with h0 | ⟨j, hj, -, he⟩
  · exact h0.ge
  · exact he ▸ h j hj

theorem Punctual.nonneg (h : Punctual c w before j) : 0 ≤ j.start := by
  obtain ⟨inputs, -, hstart⟩ := h.start
  rw [hstart]
  exact le_latest List.mem_cons_self

/-- Where all jobs are punctual, none ends before zero. -/
theorem Ended.finish_nonneg {rule : Rule} {e : Execution ℚ} (hend : Ended rule w e)
    (hlaw : ∀ before j after, e.jobs = before ++ j :: after → Punctual c w before j)
    (hj : j ∈ e.jobs) : 0 ≤ j.finish := by
  obtain ⟨before, after, he⟩ := List.append_of_mem hj
  exact (hlaw before j after he).nonneg.trans (hend.start_le_finish j hj)

/-- A job on a VM that is needed until some instant leaves it needed until then. -/
theorem le_freeAt_append {x : ℚ} (hx : x ≤ freeAt jobs vm) (hj : x ≤ j.finish) :
    x ≤ freeAt (jobs ++ [j]) vm := by
  rw [freeAt_append]
  split_ifs
  · exact hj
  · exact hx

/-! ## The least schedule -/

/-- The same job, not earlier. -/
structure Delayed (j k : Job ℚ) : Prop extends Retimed j k where
  start_le : j.start ≤ k.start

section

variable {before' : List (Job ℚ)} {k : Job ℚ}

theorem Delayed.finish_le (h : Delayed j k) : j.finish ≤ k.finish := by
  have hd := h.duration
  have hs := h.start_le
  simp only [Job.duration] at hd
  linarith

/-- Where jobs are related, so are those that are found by what the relation keeps. -/
theorem findRev?_rel {R : Job ℚ → Job ℚ → Prop} {f : Job ℚ → Bool} (h : List.Forall₂ R before before')
    (hf : ∀ a b, R a b → f b = f a) :
    (before.findRev? f = none ∧ before'.findRev? f = none) ∨
      ∃ a b, before.findRev? f = some a ∧ before'.findRev? f = some b ∧ R a b := by
  have hrev := List.forall₂_reverse_iff.2 h
  rw [List.findRev?_eq_find?_reverse, List.findRev?_eq_find?_reverse]
  generalize before.reverse = as, before'.reverse = bs at hrev
  induction hrev with
  | nil => exact Or.inl ⟨rfl, rfl⟩
  | @cons a b _ _ hab _ ih =>
    rw [List.find?_cons, List.find?_cons, hf a b hab]
    split
    · exact Or.inr ⟨a, b, rfl, rfl, hab⟩
    · exact ih

variable (h : List.Forall₂ Delayed before before')

include h

theorem freeAt_le : freeAt before vm ≤ freeAt before' vm := by
  unfold freeAt lastOn?
  rcases findRev?_rel (f := fun j => decide (j.vm = vm)) h fun a b hab => by rw [hab.vm] with
    ⟨ha, hb⟩ | ⟨a, b, ha, hb, hab⟩
  · rw [ha, hb]
  · rw [ha, hb]
    exact hab.finish_le

theorem deliveries_le (hjk : Retimed j k) {inputs : List ℚ} (hin : deliveries c before j = .ok inputs) :
    ∃ inputs', deliveries c before' k = .ok inputs' ∧ List.Forall₂ (· ≤ ·) inputs inputs' := by
  unfold deliveries jobOf? at hin ⊢
  rw [hjk.parents]
  refine mapM_rel hin fun p _ x hx => ?_
  rcases findRev?_rel (f := fun j => decide (j.task = p)) h fun a b hab => by rw [hab.task] with
    ⟨ha, hb⟩ | ⟨a, b, ha, hb, hab⟩
  · rw [ha] at hx
    cases hx
  · rw [ha] at hx
    rw [hb]
    dsimp only [delivery] at hx ⊢
    rw [hab.vm, hjk.vm, hab.task, hjk.task]
    split_ifs at hx ⊢
    · exact ⟨_, rfl, Except.ok.inj hx ▸ hab.finish_le⟩
    · obtain ⟨time, htime, hx⟩ := bind_eq_ok.1 hx
      rw [htime, ok_bind]
      refine ⟨_, rfl, ?_⟩
      rw [← Except.ok.inj hx]
      linarith [hab.finish_le]

/-- A punctual job is not later than an admissible one behind later jobs. -/
theorem Punctual.start_le (hj : Punctual c w before j) (hjk : Retimed j k)
    (hk : Admissible c before' k) : j.start ≤ k.start := by
  obtain ⟨inputs, hin, hstart⟩ := hj.start
  obtain ⟨inputs', hin', hle⟩ := deliveries_le h hjk hin
  rw [hstart]
  have hm : latest (0 :: freeAt before j.vm :: inputs) ∈ 0 :: freeAt before j.vm :: inputs :=
    latest_mem (by simp)
  rcases List.mem_cons.1 hm with he | hm
  · rw [he]
    exact hk.nonneg
  · rcases List.mem_cons.1 hm with he | hm
    · rw [he, ← hjk.vm]
      exact (freeAt_le h).trans hk.free
    · have hne := List.ne_nil_of_mem hm
      refine (le_latest hm).trans ((latest_le_latest hle).trans (hk.arrived inputs' hin' _ ?_))
      exact latest_mem fun hnil => hne (by
        subst hnil
        cases hle
        rfl)

end

/-- Punctual jobs start no later than any admissible ones in the same order of submission. -/
theorem start_le_of_admissible {others : List (Job ℚ)} (hall : List.Forall₂ Retimed jobs others)
    (hlaw : ∀ before j after, jobs = before ++ j :: after → Punctual c w before j)
    (hadm : ∀ before k after, others = before ++ k :: after → Admissible c before k) :
    List.Forall₂ (fun j k => j.start ≤ k.start) jobs others := by
  suffices hgen : ∀ before before', List.Forall₂ Delayed before before' →
      (∀ b j after, before ++ jobs = b ++ j :: after → Punctual c w b j) →
      (∀ b k after, before' ++ others = b ++ k :: after → Admissible c b k) →
      List.Forall₂ (fun j k => j.start ≤ k.start) jobs others from hgen [] [] .nil hlaw hadm
  clear hlaw hadm
  induction hall with
  | nil => exact fun _ _ _ _ _ => .nil
  | @cons j k jobs others hjk _ ih =>
    intro before before' hb hlaw hadm
    have hle := (hlaw before j jobs rfl).start_le hb hjk (hadm before' k others rfl)
    refine .cons hle (ih (before ++ [j]) (before' ++ [k]) ?_ ?_ ?_)
    · exact List.rel_append hb (.cons ⟨hjk, hle⟩ .nil)
    · simpa using hlaw
    · simpa using hadm

/-! ## Releases -/

/-- A task is released when the last of its parents ends. -/
theorem Timely.eq_latest {w : Workflow ℚ} {t : ℤ} {r : ℚ} (h : Timely w jobs t r) (hw : w.Checked)
    (hd : w.Distinct) (hn : (jobs.map Job.task).Nodup) {u : Task ℚ} (hu : w.find? t = some u)
    {ends : List ℚ}
    (hends : List.Forall₂ (fun p x => ∃ a ∈ jobs, a.task = p ∧ a.finish = x) u.parents ends) :
    r = latest ends := by
  rcases eq_or_ne ends [] with rfl | hne
  · have hp : u.parents = [] := List.forall₂_nil_right_iff.1 hends
    refine h.root ?_
    rw [Workflow.need_eq hu, hp]
    rfl
  have hsub : ∀ (f : Job ℚ → Bool), ((jobs.filter f).map Job.task).Nodup := fun f =>
    hn.sublist (List.filter_sublist.map _)
  apply le_antisymm
  · -- were all parents done earlier, the task would have been released earlier
    by_contra hlt
    have hneed : w.need t ≤ creditsBefore w jobs r t := by
      refine Workflow.need_le_of_mem hd hw hu fun p hp => ?_
      obtain ⟨x, hx, a, ha, rfl, rfl⟩ := exists_of_forall₂_left hends p hp
      refine List.mem_map_of_mem (List.mem_filter.2 ⟨ha, decide_eq_true ?_⟩)
      exact (le_latest hx).trans_lt (not_le.1 hlt)
    refine absurd (h.before ?_) (not_lt.2 hneed)
    rw [Workflow.need_eq hu]
    intro h0
    rw [List.length_eq_zero_iff.1 h0] at hends
    exact hne (List.forall₂_nil_left_iff.1 hends)
  · obtain ⟨p, hp, a, ha, rfl, hx⟩ := exists_of_forall₂_right hends _ (latest_mem hne)
    have hm := Workflow.mem_of_need_le hd hw hu (hsub _) h.reached a.task hp
    obtain ⟨b, hb, hba⟩ := List.mem_map.1 hm
    obtain ⟨hb, hle⟩ := List.mem_filter.1 hb
    rw [← hx, ← List.inj_on_of_nodup_map hn hb ha hba]
    exact of_decide_eq_true hle

/-! ## The invariant -/

/-- Jobs have been punctual, and what waits was released at the present instant or waits for a VM that
is needed until then. -/
structure OnTime (c : Costs ℚ) (rule : Rule) (w : World ℚ) (e : Execution ℚ) (now : ℚ)
    (queue : List ℤ) : Prop where
  free : ∀ v ∈ w.vms, e.vmFree.get? v.id = some (freeAt e.jobs v.id)
  law : ∀ before j after, e.jobs = before ++ j :: after → Punctual c w before j
  pending : ∀ x ∈ e.pending, e.release.get? x = some now ∨
    rule = .roundRobin ∧ ∀ v ∈ e.vms, v.busy = false → now ≤ freeAt e.jobs v.id
  queued : ∀ q ∈ queue, e.release.get? q = some now ∨
    ∃ t, e.workflow.find? q = some t ∧ now ≤ freeAt e.jobs t.vm

section

variable {rule : Rule} {e : Execution ℚ} {now : ℚ} {queue rest due done : List ℤ} {t : Task ℚ}
  {v : Vm ℚ} {place : ℕ} {s : ℚ}

theorem OnTime.freeAt_nonneg (h : OnTime c rule w e now queue) (hh : History w e) (vm : ℤ) :
    0 ≤ freeAt e.jobs vm := by
  refine Execution.freeAt_nonneg fun j hj => ?_
  obtain ⟨before, after, he⟩ := List.append_of_mem hj
  exact (h.law before j after he).nonneg.trans (hh.forward j hj)

/-- A VM is needed until all its jobs have ended. -/
theorem OnTime.finish_le (h : OnTime c rule w e now queue) (hl : Lanes w e rest done) {j : Job ℚ}
    (hj : j ∈ e.jobs) (hv : v ∈ w.vms) (hjv : j.vm = v.id) : j.finish ≤ freeAt e.jobs v.id := by
  obtain ⟨f, hf, hle⟩ := hl.free v hv
  rw [h.free v hv] at hf
  exact Option.some.inj hf ▸ hle j hj hjv

/-- Every parent of a task that is released has a job, which is written on the parent. -/
theorem Inv.parent_job (h : Inv rule w e now queue due done) (hw : w.workflow.Checked)
    (hd : w.workflow.Distinct) (ht : e.workflow.find? t.id = some t)
    (hm : t.id ∈ e.pending ++ (queue ++ e.started)) :
    ∀ p ∈ t.parents, ∃ a ∈ e.jobs, a.task = p ∧ ∃ u, e.workflow.find? p = some u ∧ Recorded w a u := by
  intro p hp
  obtain ⟨r, -, -, htimely⟩ := h.clock.release t.id hm
  obtain ⟨u, hu, hk⟩ := Workflow.exists_of_kin h.records.kin.workflow.symm ht
  have hmem := Workflow.mem_of_need_le hd hw hu
    (h.places.nodup_started.sublist (List.filter_sublist.map _)) htimely.reached p (hk.parents ▸ hp)
  obtain ⟨a, ha, rfl⟩ := List.mem_map.1 hmem
  have ha := List.mem_of_mem_filter ha
  exact ⟨a, ha, rfl, h.records.job a ha⟩

/-- Submitting a task changes none of its parents: they have their jobs already. -/
theorem Inv.parent_submitted (h : Inv rule w e now (t.id :: rest) due done)
    (hw : w.workflow.Checked) (hd : w.workflow.Distinct) (ht : e.workflow.find? t.id = some t)
    {p : ℤ} (hp : p ∈ t.parents) {q : Task ℚ} (hq : (submit t.id e).workflow.get p = .ok q) :
    ∃ a ∈ e.jobs, a.task = p ∧ q.id = p ∧ Recorded w a q := by
  obtain ⟨a, ha, rfl, u, hu, hrec⟩ := h.parent_job hw hd ht (by simp) p hp
  have hne : a.task ≠ t.id := fun he => h.places.head_fresh.2 (he ▸ List.mem_map_of_mem ha)
  have hsame : (submit t.id e).workflow.find? a.task = e.workflow.find? a.task :=
    Workflow.find?_modify_of_ne hne
  rw [Workflow.get_eq_ok, hsame, hu] at hq
  obtain rfl := Option.some.inj hq
  exact ⟨a, ha, rfl, (Workflow.find?_eq_some.1 hu).2, hrec⟩

/-- The next queued task was released when the last of its parents ended. -/
theorem Inv.release_eq (h : Inv rule w e now (t.id :: rest) due done) (hw : w.workflow.Checked)
    (hd : w.workflow.Distinct) (ht : e.workflow.find? t.id = some t) {ps : List (Task ℚ)}
    (hps : (submit t.id e).workflow.getAll t.parents = .ok ps) :
    e.release.get? t.id = some (latest (ps.map Task.finish)) := by
  obtain ⟨u, hu, hku⟩ := Workflow.exists_of_kin h.records.kin.workflow.symm ht
  obtain ⟨r, -, hr, htimely⟩ := h.clock.release t.id (by simp)
  rw [hr, htimely.eq_latest hw hd h.places.nodup_started hu]
  rw [hku.parents, List.forall₂_map_right_iff]
  refine forall₂_of_mapM hps fun p hp q hq => ?_
  obtain ⟨a, ha, hap, -, hrec⟩ := h.parent_submitted hw hd ht hp hq
  exact ⟨a, ha, hap, hrec.finish.symm⟩

/-- What the next queued task waits for is what its parents' jobs deliver. -/
theorem Inv.deliveries_eq (h : Inv rule w e now (t.id :: rest) due done) (hw : w.workflow.Checked)
    (hd : w.workflow.Distinct) (hs : Startable e now t v place s) {ps : List (Task ℚ)}
    (hps : (submit t.id e).workflow.getAll t.parents = .ok ps) {inputs : List ℚ}
    (hin : ps.mapM (arrival c t) = .ok inputs) :
    deliveries c e.jobs (jobAt t v s e) = .ok inputs := by
  refine mapM_trans hps hin fun p hp q x hq hx => ?_
  obtain ⟨a, ha, hap, hqp, hrec⟩ := h.parent_submitted hw hd hs.task hp hq
  rw [(jobOf?_eq_some h.places.nodup_started).2 ⟨ha, hap⟩]
  unfold arrival at hx
  simp only [delivery, jobAt, hs.bound, hap]
  rwa [hrec.vm, hrec.finish, hqp] at hx

/-- The next queued task starts punctually. -/
theorem punctual_jobAt (hc : Prepared w c) (hd : w.workflow.Distinct)
    (h : Inv rule w e now (t.id :: rest) due done) (ho : OnTime c rule w e now (t.id :: rest))
    (hs : Startable e now t v place s) (hstart : startTime c now (submit t.id e) t v.id = .ok s) :
    Punctual c w e.jobs (jobAt t v s e) := by
  obtain ⟨u, hu, hku⟩ := Workflow.exists_of_kin h.records.kin.workflow.symm hs.task
  obtain ⟨hum, huid⟩ := Workflow.find?_eq_some.1 hu
  obtain ⟨v₀, hv₀, hkv⟩ := World.exists_vm_of_kin h.records.kin hs.vm
  have hv₀m := List.mem_of_getElem? hv₀
  have hid₀ : v₀.id = v.id := (congrArg Vm.id hkv :).symm
  have hk : w.workflow.Kin (submit t.id e).workflow :=
    h.records.kin.workflow.trans (Workflow.kin_modify e.workflow t.id fun _ => rfl)
  obtain ⟨ps, inputs, hps, hin, hle⟩ := arrivals_ok hc hk (t := t) fun p hp => by
    obtain ⟨q, hq, hm⟩ := hc.checked.parent u hum p (hku.parents ▸ hp)
    obtain ⟨q', hq', hkq⟩ := Workflow.exists_of_kin hk hq
    exact ⟨q', hq', by rw [hkq.children, ← huid]; exact hm⟩
  have hrel := h.release_eq hc.checked hd hs.task hps
  have hfree := ho.free v₀ hv₀m
  rw [hid₀] at hfree
  -- the instant of the dispatch does not hold the job back
  have hnow : now ≤ max (latest inputs) (freeAt e.jobs v.id) := by
    rcases ho.queued t.id List.mem_cons_self with hq | ⟨t', ht', hq⟩
    · rw [hrel] at hq
      rw [← Option.some.inj hq]
      exact (latest_le_latest hle).trans (le_max_left _ _)
    · rw [hs.task] at ht'
      rw [hs.bound, Option.some.inj ht']
      exact hq.trans (le_max_right _ _)
  have hstart' : s = latest (0 :: freeAt e.jobs v.id :: inputs) := by
    have hr' : (submit t.id e).release.get? t.id = some (latest (ps.map Task.finish)) := hrel
    have hf' : (submit t.id e).vmFree.get? v.id = some (freeAt e.jobs v.id) := hfree
    simp only [startTime, hr', transferDelay_eq hps hin hle, hf', ok_bind, later_eq_max,
      add_sub_cancel] at hstart
    rw [← Except.ok.inj hstart, latest_zero_cons (ho.freeAt_nonneg h.history v.id), max_right_comm]
    exact max_eq_left hnow
  refine ⟨⟨inputs, h.deliveries_eq hc.checked hd hs hps hin, hstart'⟩, u, hum, v₀, hv₀m, huid,
    hku.parents, hid₀, ?_⟩
  have hmips : v.mips = v₀.mips := (congrArg Vm.mips hkv :)
  show s + t.length / v.mips = s + u.length / v₀.mips
  rw [hku.length, hmips]

theorem OnTime.deal (h : OnTime c rule w e now []) {b : Batch ℚ} (hh : Handed w e.batch)
    (hm : Batch.dispatch rule e.batch = .ok () b) (hb : Dealing rule w e.batch b)
    (hd : Drained rule (e.dealt b)) : OnTime c rule w (e.dealt b) now b.bound where
  free := h.free
  law := h.law
  pending x hx := by
    rcases hd with he | ⟨hr, hbusy⟩
    · rw [he] at hx
      cases hx
    · exact Or.inr ⟨hr, fun v hv hidle => absurd (hbusy v hv) (by simp [hidle])⟩
  queued q hq := by
    rcases h.pending q (hb.perm.subset (List.mem_append_left _ hq)) with hr | ⟨rfl, hidle⟩
    · exact Or.inl hr
    · obtain ⟨t, ht, u, hu, hid, hfree⟩ := (inTurn_of_dispatch hh hm).bound q hq
      exact Or.inr ⟨t, ht, hid ▸ hidle u hu hfree⟩

theorem OnTime.startAt (ho : OnTime c rule w e now (t.id :: rest)) (hc : Prepared w c)
    (hd : w.workflow.Distinct) (h : Inv rule w e now (t.id :: rest) [] done)
    (hs : Startable e now t v place s) (hstart : startTime c now (submit t.id e) t v.id = .ok s) :
    OnTime c rule w (startAt t v place s e) now rest := by
  have hfin : now ≤ (jobAt t v s e).finish := by
    show now ≤ s + t.length / v.mips
    linarith [hs.now_le, hs.length]
  refine ⟨fun u hu => ?_, ?_, fun x hx => ?_, fun q hq => ?_⟩
  · rw [vmFree_startAt, Table.get?_set, jobs_startAt, freeAt_append]
    show (if v.id = u.id then _ else _) = some (if v.id = u.id then _ else _)
    split_ifs
    · rfl
    · exact ho.free u hu
  · rw [jobs_startAt]
    exact forall_split_concat ho.law (punctual_jobAt hc hd h ho hs hstart)
  · rw [pending_startAt] at hx
    rw [release_startAt, jobs_startAt]
    refine (ho.pending x hx).imp_right fun ⟨hr, hidle⟩ => ⟨hr, fun u hu hub => ?_⟩
    rw [vms_startAt] at hu
    rcases of_mem_modify hs.vm hu with rfl | ⟨i, -, hi⟩
    · cases hub
    · exact le_freeAt_append (hidle u (List.mem_of_getElem? hi) hub) hfin
  · rw [release_startAt, jobs_startAt]
    refine (ho.queued q (List.mem_cons_of_mem _ hq)).imp_right fun ⟨u, hu, hle⟩ => ⟨u, ?_, ?_⟩
    · rw [find?_startAt_of_ne t v place s e fun he => h.places.head_fresh.1 (he ▸ hq)]
      exact hu
    · exact le_freeAt_append hle hfin

theorem OnTime.complete {e' : Execution ℚ} {freed : List ℤ} (ho : OnTime c rule w e now [])
    (h : Inv rule w e now [] (t.id :: rest) done) (hcomp : Completed now t v place freed e e') :
    OnTime c rule w e' now [] := by
  refine ⟨?_, ?_, fun x hx => ?_, by simp⟩
  · rw [hcomp.counted.vmFree, hcomp.jobs]
    exact ho.free
  · rw [hcomp.jobs]
    exact ho.law
  rw [hcomp.counted.release, hcomp.jobs]
  by_cases hf : x ∈ freed
  · exact Or.inl (if_pos hf)
  rw [if_neg hf]
  rw [hcomp.counted.pending, List.mem_append] at hx
  refine (ho.pending x (hx.resolve_right hf)).imp_right fun ⟨hr, hidle⟩ => ⟨hr, fun u hu hub => ?_⟩
  rw [hcomp.counted.world] at hu
  rcases of_mem_modify hcomp.vm hu with rfl | ⟨i, -, hi⟩
  · -- the VM that the completed task leaves was needed until now
    obtain ⟨a, ha, hat⟩ := mem_started.1 (h.places.mem_started_of_due List.mem_cons_self)
    obtain ⟨q, hq, hrec⟩ := h.records.job a ha
    obtain ⟨v₀, hv₀, hkv⟩ := World.exists_vm_of_kin h.records.kin hcomp.vm
    have hid₀ : v₀.id = v.id := (congrArg Vm.id hkv :).symm
    have havm : a.vm = v₀.id := by
      rw [hat, hcomp.task] at hq
      rw [hid₀, hcomp.bound, Option.some.inj hq, hrec.vm]
    have hend := h.clock.due a ha (hat ▸ List.mem_cons_self)
    have hle := ho.finish_le h.lanes ha (List.mem_of_getElem? hv₀) havm
    rw [hend, hid₀] at hle
    split_ifs
    · exact hle
    · exact hle
  · exact hidle u (List.mem_of_getElem? hi) hub

/-- Every move of an execution keeps it on time. -/
theorem stable_onTime (hc : Prepared w c) (hd : w.workflow.Distinct) :
    Stable c rule w fun e now queue _ _ => OnTime c rule w e now queue where
  deal h ho hm hb hdr := ho.deal h.handed hm hb hdr
  start h ho hs hstart := ho.startAt hc hd h hs hstart
  due h hdr ho _ := by
    refine ⟨ho.free, ho.law, fun x hx => ?_, by simp⟩
    rcases hdr with he | ⟨hr, hbusy⟩
    · rw [he] at hx
      cases hx
    · exact Or.inr ⟨hr, fun v hv hidle => absurd (hbusy v hv) (by simp [hidle])⟩
  complete h ho hcomp := ho.complete h hcomp

theorem onTime_rooted (hids : (w.vms.map Vm.id).Nodup) : OnTime c rule w (rooted w) 0 [] := by
  have h := rooted_rooted w
  refine ⟨fun v hv => ?_, ?_, fun x hx => Or.inl ?_, by simp⟩
  · rw [h.vmFree_eq hids hv, h.jobs]
    rfl
  · simp [h.jobs]
  · rw [h.pending] at hx
    exact h.release x hx

end

/-! ## Whole executions -/

/-- Every job of an execution that returns is punctual with respect to the jobs submitted before it:
it starts at the latest of zero, the arrival of its inputs and the finish of the previous job of its
VM, and takes the length of its task over the speed of its VM. So jobs of one VM do not overlap, and
no start times that are admissible for the same order of submission are earlier for any job. -/
theorem run_punctual (w : World ℚ) (c : Costs ℚ) (rule : Rule) (e : Execution ℚ) (hw : w.WellFormed)
    (hidle : ∀ v ∈ w.vms, v.busy = false) (hc : prepare w = .ok c)
    (hrun : run c rule (fresh w) = .ok () e) :
    (e.jobs.map Job.task).Perm w.workflow.ids ∧
    (∀ before j after, e.jobs = before ++ j :: after → Punctual c w before j) ∧
    (e.jobs.Pairwise fun a b => a.vm = b.vm → a.finish ≤ b.start) ∧
    ∀ others, List.Forall₂ Retimed e.jobs others →
      (∀ before k after, others = before ++ k :: after → Admissible c before k) →
      List.Forall₂ (fun j k => j.start ≤ k.start) e.jobs others := by
  have hprep := prepared_of_check hw.check hw.ids hc
  obtain ⟨hend, e₀, now, done, n, -, ho, rfl⟩ := (run_keeps hprep (stable_onTime hprep hw.distinct)
    (onTime_rooted hw.ids) fun _ => hidle).of_ok hrun
  exact ⟨hend.perm, ho.law, hend.ordered, fun others hall => start_le_of_admissible hall ho.law⟩

/-- Two tasks on one VM, which has the second one wait, and a third that needs both. -/
def queueing : World ℚ := { fork with vms := [{ id := 0, mips := 10 }] }

theorem wellFormed_queueing : queueing.WellFormed where
  check := rfl
  distinct := ⟨by decide, by decide⟩
  roster := by decide
  ids := by decide
  speeds := by decide
  costs := exists_eq_ok (by decide +kernel)

theorem run_punctual_queueing : ∃ c e, prepare queueing = .ok c ∧
    run c .roundRobin (fresh queueing) = .ok () e ∧
    ∀ before j after, e.jobs = before ++ j :: after → Punctual c queueing before j := by
  have hw := wellFormed_queueing
  obtain ⟨c, hc⟩ : ∃ c, prepare queueing = .ok c := exists_eq_ok (by decide +kernel)
  have hlead := run_leads .roundRobin (prepared_of_check hw.check hw.ids hc) fun _ => by decide
  cases hrun : run c .roundRobin (fresh queueing) with
  | ok u e =>
    exact ⟨c, e, hc, hrun, (run_punctual queueing c .roundRobin e hw (by decide) hc hrun).2.1⟩
  | error fault e =>
    have hfits : ∀ t ∈ queueing.workflow.tasks, ∀ v ∈ queueing.vms, t.elements ≤ v.elements := by
      decide
    rcases hlead.of_error hrun with (hF | hnil) | ⟨-, t, ht, hlt⟩
    · exact absurd hfits hF
    · cases hnil
    · exact absurd (hw.need_le ht) (not_le.2 hlt)

end FlowSched.Execution

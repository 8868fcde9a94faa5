import FlowSched.Proofs.Execution.Invariant

/-!
# Starting a task

A queued task is started on the VM it is bound to: not before the present instant, not before its
release, and behind everything the VM was given earlier (`startTask_leads`). That keeps the invariant
(`Inv.startAt`); it fails only if the VM is too small.
-/

namespace FlowSched.Execution

open Quantity Step

/-- The execution after a task was started on the VM at a place. -/
def startAt (t : Task ℚ) (v : Vm ℚ) (place : ℕ) (s : ℚ) (e : Execution ℚ) : Execution ℚ :=
  launch t v place s (submit t.id e)

/-- The job that starting a task adds. -/
def jobAt (t : Task ℚ) (v : Vm ℚ) (s : ℚ) (e : Execution ℚ) : Job ℚ :=
  { id := e.jobs.length, task := t.id, vm := v.id, start := s, finish := s + t.length / v.mips
    parents := t.parents, datacenter := v.datacenter }

/-- A task may start on a VM at an instant. -/
structure Startable (e : Execution ℚ) (now : ℚ) (t : Task ℚ) (v : Vm ℚ) (place : ℕ) (s : ℚ) :
    Prop where
  task : e.workflow.find? t.id = some t
  vm : e.vms[place]? = some v
  bound : v.id = t.vm
  now_le : now ≤ s
  release_le : ∀ r, e.release.get? t.id = some r → r ≤ s
  free_le : ∀ j ∈ e.jobs, j.vm = v.id → j.finish ≤ s
  length : 0 ≤ t.length / v.mips

section

variable (t : Task ℚ) (v : Vm ℚ) (place : ℕ) (s : ℚ) (e : Execution ℚ)

@[simp] theorem jobs_startAt : (startAt t v place s e).jobs = e.jobs ++ [jobAt t v s e] := by
  simp only [startAt, launch, submit, jobAt]

@[simp] theorem pending_startAt : (startAt t v place s e).pending = e.pending := by
  simp only [startAt, launch, submit]

@[simp] theorem release_startAt : (startAt t v place s e).release = e.release := by
  simp only [startAt, launch, submit]

@[simp] theorem remaining_startAt : (startAt t v place s e).remaining = e.remaining := by
  simp only [startAt, launch, submit]

@[simp] theorem completions_startAt : (startAt t v place s e).completions =
    e.completions ++ [{ finish := s + t.length / v.mips, task := t.id }] := by
  simp only [startAt, launch, submit]

@[simp] theorem started_startAt : (startAt t v place s e).started = e.started ++ [t.id] := by
  simp [started, jobAt]

theorem vms_startAt : (startAt t v place s e).vms =
    e.vms.modify place fun u => { u with busy := true, load := u.load + u.mips } := by
  simp only [startAt, launch, submit, World.editTask, World.editVm, World.note]

theorem vmFree_startAt : (startAt t v place s e).vmFree =
    e.vmFree.set v.id (s + t.length / v.mips) := by
  simp only [startAt, launch, submit]

theorem running_startAt : (startAt t v place s e).running =
    e.running.set v.id ((e.running.get? v.id).getD 0 + 1) := by
  simp only [startAt, launch, submit]

theorem session_startAt : (startAt t v place s e).session =
    { e.session with submitted := e.session.submitted ++ [t.id] } := by
  simp only [startAt, launch, submit, World.editTask, World.editVm, World.note]

theorem workflow_startAt : (startAt t v place s e).workflow =
    (e.workflow.modify t.id fun u => { u with submission := e.session.submitted.length }).modify t.id
      fun u => { u with start := s, finish := s + t.length / v.mips } := by
  simp only [startAt, launch, submit, World.editTask, World.editVm, World.note]

theorem kin_startAt : e.toWorld.Kin (startAt t v place s e).toWorld := by
  have h₁ := World.kin_editTask e.toWorld t.id (f := fun u =>
    { u with submission := (e.session.submitted.length : ℤ) }) fun _ => rfl
  have h₂ := World.kin_editTask (submit t.id e).toWorld t.id (f := fun u =>
    { u with start := s, finish := s + t.length / v.mips }) fun _ => rfl
  have h₃ := World.kin_editVm ((submit t.id e).toWorld.editTask t.id fun u =>
    { u with start := s, finish := s + t.length / v.mips }) place (f := fun u =>
    { u with busy := true, load := u.load + u.mips }) fun _ => rfl
  exact (h₁.trans ⟨h₂.workflow, h₂.vms⟩).trans ⟨h₃.workflow, h₃.vms⟩

theorem find?_startAt_of_ne {x : ℤ} (hx : x ≠ t.id) :
    (startAt t v place s e).workflow.find? x = e.workflow.find? x := by
  rw [workflow_startAt, Workflow.find?_modify_of_ne hx, Workflow.find?_modify_of_ne hx]

theorem find?_startAt_self (h : e.workflow.find? t.id = some t) :
    (startAt t v place s e).workflow.find? t.id = some
      { t with
        submission := e.session.submitted.length, start := s, finish := s + t.length / v.mips } := by
  rw [workflow_startAt, Workflow.find?_modify_self (Workflow.find?_modify_self h)]

end

/-! ## The invariant -/

section

variable {rule : Rule} {w : World ℚ} {e : Execution ℚ} {now : ℚ} {rest due done : List ℤ}
  {t : Task ℚ} {v : Vm ℚ} {place : ℕ} {s : ℚ}

theorem Places.startAt (h : Places w e (t.id :: rest) due done) :
    Places w (startAt t v place s e) rest due done := by
  have hperm : (e.pending ++ (rest ++ (e.started ++ [t.id]))).Perm
      (e.pending ++ (t.id :: rest ++ e.started)) := by
    refine List.Perm.append_left _ ?_
    rw [← List.append_assoc]
    exact List.perm_append_singleton _ _
  refine ⟨?_, fun x => ?_, ?_, ?_⟩
  · rw [pending_startAt, started_startAt]
    exact hperm.nodup_iff.2 h.nodup
  · rw [pending_startAt, started_startAt, hperm.mem_iff]
    exact h.released x
  · rw [completions_startAt, started_startAt, List.map_append, List.append_assoc]
    refine (List.Perm.append_left _ List.perm_append_comm).trans ?_
    rw [← List.append_assoc]
    exact h.running.append_right _
  · rw [remaining_startAt]
    exact h.remaining

theorem Clock.startAt (h : Clock w e now (t.id :: rest) due done)
    (hp : Places w e (t.id :: rest) due done) (hs : Startable e now t v place s) :
    Clock w (Execution.startAt t v place s e) now rest due done := by
  have hfresh : t.id ∉ e.started := hp.head_fresh.2
  have hfin : now ≤ (jobAt t v s e).finish := by
    show now ≤ s + t.length / v.mips
    linarith [hs.now_le, hs.length]
  refine ⟨?_, ?_, ?_, ?_⟩
  · rw [completions_startAt, jobs_startAt]
    intro c hc
    rcases List.mem_append.1 hc with hc | hc
    · obtain ⟨hle, j, hj, hjc⟩ := h.ahead c hc
      exact ⟨hle, j, List.mem_append_left _ hj, hjc⟩
    · obtain rfl := List.mem_singleton.1 hc
      exact ⟨hfin, jobAt t v s e, by simp, rfl, rfl⟩
  · rw [jobs_startAt]
    intro j hj hd
    rcases List.mem_append.1 hj with hj | hj
    · exact h.due j hj hd
    · obtain rfl := List.mem_singleton.1 hj
      exact absurd (hp.mem_started_of_due hd) hfresh
  · rw [jobs_startAt]
    intro j hj hd
    rcases List.mem_append.1 hj with hj | hj
    · exact h.done j hj hd
    · obtain rfl := List.mem_singleton.1 hj
      exact absurd (hp.mem_started_of_done hd) hfresh
  · rw [pending_startAt, started_startAt, release_startAt, jobs_startAt]
    intro x hx
    obtain ⟨r, hr, hget, htimely⟩ := h.release x (by simpa [or_comm, or_left_comm] using hx)
    exact ⟨r, hr, hget, htimely.append (hr.trans hfin)⟩

theorem Records.startAt (h : Records rule w e (t.id :: rest))
    (hp : Places w e (t.id :: rest) due done) (hs : Startable e now t v place s) :
    Records rule w (Execution.startAt t v place s e) rest := by
  have hn := hp.head_fresh
  refine ⟨h.kin.trans (kin_startAt t v place s e), ?_, ?_, ?_, ?_, ?_, ?_⟩
  · rw [session_startAt]
    exact h.planned
  · rw [session_startAt, started_startAt, h.submitted, List.append_assoc]
  · rw [jobs_startAt]
    intro i j hj
    rcases lt_or_ge i e.jobs.length with hi | hi
    · rw [List.getElem?_append_left hi] at hj
      exact h.ids i j hj
    · rw [List.getElem?_append_right hi] at hj
      obtain ⟨hi', rfl⟩ := List.getElem?_eq_some_iff.1 hj
      have hlen : i = e.jobs.length := by
        simp only [List.length_singleton] at hi'
        omega
      simp [jobAt, hlen]
  · rw [jobs_startAt]
    intro j hj
    rcases List.mem_append.1 hj with hj | hj
    · obtain ⟨u, hu, hrec⟩ := h.job j hj
      have hne : j.task ≠ t.id := fun he => hn.2 (he ▸ List.mem_map_of_mem hj)
      exact ⟨u, by rw [find?_startAt_of_ne t v place s e hne]; exact hu, hrec⟩
    · obtain rfl := List.mem_singleton.1 hj
      refine ⟨_, find?_startAt_self t v place s e hs.task, ?_⟩
      constructor
      · exact hs.bound.symm
      · rfl
      · rfl
      · rfl
      · show ((e.session.submitted.length : ℕ) : ℤ) = _
        rw [h.submitted, List.length_append]
        simp [jobAt, started]
  · intro q hq
    obtain ⟨u, hu, hb⟩ := h.queued q (List.mem_cons_of_mem _ hq)
    have hne : q ≠ t.id := fun he => hn.1 (he ▸ hq)
    exact ⟨u, by rw [find?_startAt_of_ne t v place s e hne]; exact hu, hb⟩
  · intro x hq hx
    rw [started_startAt, List.mem_append, List.mem_singleton, not_or] at hx
    rw [find?_startAt_of_ne t v place s e hx.2]
    exact h.waiting x (by simp [hq, hx.2]) hx.1

theorem active_startAt (hnew : t.id ∉ done) (x : ℤ) :
    active (Execution.startAt t v place s e).jobs done x =
      active e.jobs done x + if v.id = x then 1 else 0 := by
  rw [jobs_startAt]
  exact active_append e.jobs (jobAt t v s e) x hnew

theorem Lanes.startAt (h : Lanes w e (t.id :: rest) done) (hp : Places w e (t.id :: rest) due done)
    (hs : Startable e now t v place s) :
    Lanes w (Execution.startAt t v place s e) rest done := by
  have hn := hp.head_fresh
  have hnew : t.id ∉ done := fun hd => hn.2 (hp.mem_started_of_done hd)
  refine ⟨fun u hu => ?_, fun u hu => ?_, fun hidle u hu hbusy => ?_⟩
  · obtain ⟨f, hf, hle⟩ := h.free u hu
    rw [vmFree_startAt, Table.get?_set, jobs_startAt]
    by_cases hid : v.id = u.id
    · refine ⟨_, if_pos hid, fun j hj hjv => ?_⟩
      rcases List.mem_append.1 hj with hj | hj
      · linarith [hs.free_le j hj (hjv.trans hid.symm), hs.length]
      · obtain rfl := List.mem_singleton.1 hj
        exact le_refl _
    · refine ⟨f, by rw [if_neg hid]; exact hf, fun j hj hjv => ?_⟩
      rcases List.mem_append.1 hj with hj | hj
      · exact hle j hj hjv
      · obtain rfl := List.mem_singleton.1 hj
        exact absurd hjv hid
  · rw [running_startAt, Table.get?_set, active_startAt hnew]
    by_cases hid : v.id = u.id
    · rw [if_pos hid, if_pos hid, hid, h.running u hu]
      rfl
    · rw [if_neg hid, if_neg hid, h.running u hu]
      rfl
  · rw [active_startAt hnew]
    by_cases hid : v.id = u.id
    · left
      rw [if_pos hid]
      omega
    · rw [if_neg hid, Nat.add_zero]
      -- the VM is not the one the task was started on, so it is busy as before
      rw [vms_startAt] at hu
      obtain ⟨i, -, hi⟩ := (of_mem_modify hs.vm hu).resolve_left fun he => hid (he ▸ rfl)
      rcases h.busy hidle u (List.mem_of_getElem? hi) hbusy with hact | ⟨q, hq, x, hx, hxv⟩
      · exact Or.inl hact
      · right
        rcases List.mem_cons.1 hq with rfl | hq
        · rw [hs.task] at hx
          exact absurd (hs.bound.trans (by rw [Option.some.inj hx, hxv])) hid
        · have hne : q ≠ t.id := fun he => hn.1 (he ▸ hq)
          exact ⟨q, hq, x, by rw [find?_startAt_of_ne t v place s e hne]; exact hx, hxv⟩

theorem History.startAt (h : History w e) (hp : Places w e (t.id :: rest) due done)
    (hr : Records rule w e (t.id :: rest)) (hs : Startable e now t v place s) :
    History w (Execution.startAt t v place s e) := by
  refine ⟨?_, ?_, ?_, ?_, ?_⟩
  · rw [jobs_startAt]
    intro j hj
    rcases List.mem_append.1 hj with hj | hj
    · exact h.vm j hj
    · obtain rfl := List.mem_singleton.1 hj
      obtain ⟨u, hu, x, hx, hid, -⟩ := hr.queued t.id List.mem_cons_self
      rw [hs.task] at hu
      obtain rfl := Option.some.inj hu
      exact ⟨x, hx, hid.trans hs.bound.symm⟩
  · rw [jobs_startAt]
    intro j hj
    rcases List.mem_append.1 hj with hj | hj
    · exact h.forward j hj
    · obtain rfl := List.mem_singleton.1 hj
      show s ≤ s + t.length / v.mips
      linarith [hs.length]
  · rw [jobs_startAt, List.pairwise_append]
    refine ⟨h.ordered, List.pairwise_singleton _ _, fun j hj k hk hvm => ?_⟩
    obtain rfl := List.mem_singleton.1 hk
    exact hs.free_le j hj hvm
  · rw [jobs_startAt, release_startAt]
    intro j hj r hget
    rcases List.mem_append.1 hj with hj | hj
    · exact h.released j hj r hget
    · obtain rfl := List.mem_singleton.1 hj
      exact hs.release_le r hget
  · rw [jobs_startAt]
    refine forall_split_concat h.parents ?_
    refine (((hp.released t.id).1 (by simp)).2).trans ?_
    exact Workflow.credits_le hp.nodup_done fun x hx => hp.mem_started_of_done hx

/-- Starting the next task keeps the invariant. -/
theorem Inv.startAt (h : Inv rule w e now (t.id :: rest) due done)
    (hs : Startable e now t v place s) :
    Inv rule w (Execution.startAt t v place s e) now rest due done where
  places := h.places.startAt
  clock := h.clock.startAt h.places hs
  records := h.records.startAt h.places hs
  lanes := h.lanes.startAt h.places hs
  history := h.history.startAt h.places h.records hs

end

/-- Nothing is left pending, or tasks are dealt out in turn and every VM is busy. -/
def Drained (rule : Rule) (e : Execution ℚ) : Prop :=
  e.pending = [] ∨ rule = .roundRobin ∧ ∀ v ∈ e.vms, v.busy = true

theorem Drained.startAt {rule : Rule} {e : Execution ℚ} (h : Drained rule e) (t : Task ℚ) (v : Vm ℚ)
    (place : ℕ) (s : ℚ) : Drained rule (Execution.startAt t v place s e) := by
  refine h.imp (fun hp => by rw [pending_startAt]; exact hp) fun ⟨hr, hb⟩ => ⟨hr, fun u hu => ?_⟩
  obtain ⟨i, hi⟩ := List.getElem?_of_mem hu
  rw [vms_startAt, List.getElem?_modify] at hi
  obtain ⟨u', hu', rfl⟩ := Option.map_eq_some_iff.1 hi
  split
  · rfl
  · exact hb u' (List.mem_of_getElem? hu')

/-! ## The step -/

theorem vmAt_eq_ok {vms : List (Vm ℚ)} {id : ℤ} (h : ∃ v ∈ vms, v.id = id) :
    ∃ v place, vmAt vms id = .ok (v, place) ∧ vms[place]? = some v ∧ v.id = id := by
  unfold vmAt
  rw [List.findRev?_eq_find?_reverse]
  cases hf : vms.zipIdx.reverse.find? (fun (v, _) => decide (v.id = id)) with
  | none =>
    obtain ⟨v, hv, hid⟩ := h
    obtain ⟨i, hi⟩ := List.getElem?_of_mem hv
    rw [List.find?_eq_none] at hf
    refine absurd (hf (v, i) ?_) (by simp [hid])
    rw [List.mem_reverse, List.mk_mem_zipIdx_iff_getElem?]
    exact hi
  | some found =>
    obtain ⟨v, i⟩ := found
    have hm := List.mem_of_find?_eq_some hf
    rw [List.mem_reverse, List.mk_mem_zipIdx_iff_getElem?] at hm
    exact ⟨v, i, rfl, hm, by simpa using List.find?_some hf⟩

section

variable {w : World ℚ} {c : Costs ℚ} (hc : Prepared w c)

include hc

/-- The parents of a task are found, and moving their data is priced: the inputs arrive, none before its
parent has ended. -/
theorem arrivals_ok {w' : Workflow ℚ} (hk : w.workflow.Kin w') {t : Task ℚ}
    (ht : ∀ p ∈ t.parents, ∃ u, w'.find? p = some u ∧ t.id ∈ u.children) :
    ∃ ps inputs, w'.getAll t.parents = .ok ps ∧ ps.mapM (arrival c t) = .ok inputs ∧
      List.Forall₂ (· ≤ ·) (ps.map Task.finish) inputs := by
  obtain ⟨ps, hps⟩ := exists_mapM_ok (f := w'.get) fun p hp => by
    obtain ⟨u, hu, -⟩ := ht p hp
    exact ⟨u, Workflow.get_eq_ok.2 hu⟩
  have harrival : ∀ p ∈ ps, ∃ x, arrival c t p = .ok x ∧ p.finish ≤ x := by
    intro p hp
    obtain ⟨id, hid, hget⟩ := exists_of_mem_mapM hps p hp
    obtain ⟨-, rfl⟩ := Workflow.find?_eq_some.1 (Workflow.get_eq_ok.1 hget)
    obtain ⟨u, hu, hm⟩ := ht p.id hid
    obtain ⟨p₀, hp₀, hkp⟩ := Workflow.exists_of_kin hk.symm hu
    rw [← hkp.children] at hm
    obtain ⟨hp₀m, hp₀id⟩ := Workflow.find?_eq_some.1 hp₀
    obtain ⟨time, htime, hnn⟩ := moving_eq_ok hc.costs hp₀m hm
    rw [hp₀id] at htime
    unfold arrival
    split
    · exact ⟨_, rfl, le_refl _⟩
    · rw [htime, ok_bind]
      exact ⟨_, rfl, le_add_of_nonneg_right hnn⟩
  obtain ⟨inputs, hinputs⟩ := exists_mapM_ok (f := arrival c t) fun p hp =>
    (harrival p hp).imp fun _ hx => hx.1
  refine ⟨ps, inputs, hps, hinputs, ?_⟩
  rw [List.forall₂_map_left_iff]
  refine forall₂_of_mapM hinputs fun p hp x hx => ?_
  obtain ⟨y, hy, hle⟩ := harrival p hp
  rw [hx] at hy
  exact Except.ok.inj hy ▸ hle

omit hc in
/-- A task waits for its inputs from the latest end of a parent to the latest arrival. -/
theorem transferDelay_eq {w' : Workflow ℚ} {t : Task ℚ} {ps : List (Task ℚ)} {inputs : List ℚ}
    (hps : w'.getAll t.parents = .ok ps) (hinputs : ps.mapM (arrival c t) = .ok inputs)
    (hle : List.Forall₂ (· ≤ ·) (ps.map Task.finish) inputs) :
    transferDelay c w' t = .ok (latest inputs - latest (ps.map Task.finish)) := by
  unfold transferDelay
  simp only [hps, ok_bind]
  cases hl : latest? (ps.map Task.finish) with
  | none =>
    have hnil := latest?_eq_none.1 hl
    rw [hnil] at hle ⊢
    cases hle
    simp
  | some last =>
    have hlast : latest (ps.map Task.finish) = last := by
      unfold latest
      rw [hl]
      rfl
    have hne : inputs ≠ [] := by
      intro he
      rw [he] at hle
      rw [List.forall₂_nil_right_iff.1 hle] at hl
      cases hl
    dsimp only
    rw [foldlM_of_mapM hinputs later last, ok_bind, hlast]
    congr 2
    show latest (last :: inputs) = _
    rw [latest_cons last hne, ← hlast]
    exact max_eq_right (latest_le_latest hle)

variable {rule : Rule} {e : Execution ℚ} {now : ℚ} {q : ℤ} {rest due done : List ℤ}

/-- A queued task gets a start: not before now or its release, and behind all jobs of its VM. -/
theorem exists_startable (h : Inv rule w e now (q :: rest) due done) {t : Task ℚ}
    (ht : e.workflow.find? q = some t) {v : Vm ℚ} {place : ℕ} (hv : e.vms[place]? = some v)
    (hid : v.id = t.vm) :
    ∃ s, startTime c now (submit q e) t v.id = .ok s ∧ Startable e now t v place s := by
  obtain ⟨hmem, rfl⟩ := Workflow.find?_eq_some.1 ht
  obtain ⟨r, hrnow, hr, -⟩ := h.clock.release t.id (by simp)
  obtain ⟨v₀, hv₀, hkv⟩ := World.exists_vm_of_kin h.records.kin hv
  have hv₀m := List.mem_of_getElem? hv₀
  have hid₀ : v₀.id = v.id := (congrArg Vm.id hkv :).symm
  obtain ⟨f, hf, hfree⟩ := h.lanes.free v₀ hv₀m
  rw [hid₀] at hf hfree
  have hk : w.workflow.Kin (submit t.id e).workflow :=
    h.records.kin.workflow.trans (Workflow.kin_modify e.workflow t.id fun _ => rfl)
  have hchecked := hc.checked.of_kin h.records.kin.workflow
  obtain ⟨ps, inputs, hps, hinputs, hle⟩ := arrivals_ok hc hk (t := t) fun p hp => by
    obtain ⟨u, hu, hm⟩ := hchecked.parent t hmem p hp
    obtain ⟨u', hu', hku⟩ := Workflow.exists_of_kin (h.records.kin.workflow.symm.trans hk) hu
    exact ⟨u', hu', hku.children ▸ hm⟩
  have hdelay := transferDelay_eq hps hinputs hle
  have hnn : 0 ≤ latest inputs - latest (ps.map Task.finish) := sub_nonneg.2 (latest_le_latest hle)
  refine ⟨later (later (r + (latest inputs - latest (ps.map Task.finish))) now) f, ?_, ht, hv, hid,
    ?_, ?_, ?_, ?_⟩
  · have hr' : (submit t.id e).release.get? t.id = some r := hr
    have hf' : (submit t.id e).vmFree.get? v.id = some f := hf
    simp only [startTime, hr', hdelay, hf', ok_bind]
  · exact (le_later_right _ _).trans (le_later_left _ _)
  · intro r' hr'
    rw [hr] at hr'
    obtain rfl := Option.some.inj hr'
    refine le_trans ?_ ((le_later_left _ now).trans (le_later_left _ f))
    linarith
  · exact fun j hj hvm => (hfree j hj hvm).trans (le_later_right _ _)
  · have hmips : v.mips = v₀.mips := (congrArg Vm.mips hkv :)
    rw [hmips]
    exact div_nonneg (hchecked.length t hmem) ((roster_of_costs hc.costs).2 v₀ hv₀m).le

/-- Starting the next queued task launches it on the VM it is bound to, and fails only if the rule cannot
fit the workflow. -/
theorem startTask_leads (h : Inv rule w e now (q :: rest) due done) :
    Leads (startTask c now q) e
      (fun _ e' => ∃ t v place s, t.id = q ∧ Startable e now t v place s ∧
        startTime c now (submit q e) t v.id = .ok s ∧ e' = Execution.startAt t v place s e)
      fun _ _ => ¬ Fits rule w := by
  obtain ⟨t, ht, v₀, hv₀, hid₀, hfit⟩ := h.records.queued q List.mem_cons_self
  have hvm : ∃ v ∈ e.vms, v.id = t.vm := by
    have hids := World.map_vms_of_kin h.records.kin (f := Vm.id) fun _ => rfl
    have hm : t.vm ∈ e.vms.map Vm.id := by
      rw [hids, ← hid₀]
      exact List.mem_map_of_mem hv₀
    exact List.mem_map.1 hm
  obtain ⟨v, place, hat, hplace, hid⟩ := vmAt_eq_ok hvm
  obtain ⟨s, hstart, hs⟩ := exists_startable hc h ht hplace hid
  obtain ⟨-, rfl⟩ := Workflow.find?_eq_some.1 ht
  unfold startTask
  rw [leads_bind]
  refine leads_query_ok (Workflow.get_eq_ok.2 ht) ?_
  rw [leads_bind]
  refine leads_query_ok hat ?_
  dsimp only
  split_ifs with hsmall
  · -- the VM is too small, so the one the rule found is, which is no other
    rw [leads_bind, leads_throw]
    intro hF
    have hle := hfit hF
    obtain ⟨v₁, hv₁, hkv⟩ := World.exists_vm_of_kin h.records.kin hplace
    have hid₁ : v₁.id = v₀.id := ((congrArg Vm.id hkv :).symm.trans hid).trans hid₀.symm
    have hv₁₀ := List.inj_on_of_nodup_map hc.ids (List.mem_of_getElem? hv₁) hv₀ hid₁
    have hel : v.elements = v₀.elements := hv₁₀ ▸ (congrArg Vm.elements hkv :)
    omega
  · rw [leads_bind, leads_modify, leads_bind]
    refine leads_query_ok hstart ?_
    rw [leads_modify]
    exact ⟨t, v, place, s, rfl, hs, hstart, rfl⟩

end

end FlowSched.Execution

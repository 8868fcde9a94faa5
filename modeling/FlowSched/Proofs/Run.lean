import FlowSched.Run
import FlowSched.Proofs.Execution.Schedule
import FlowSched.Proofs.Planning.Frame

/-!
# Whole runs

A run of a well-formed input plans, executes and reconciles. Planning leaves alone all that an
execution relies on, so whatever the plan is, the jobs of a run that returns are one for each task,
numbered in order of submission, and both schedules pass their audits (`run_sound`).
-/

namespace FlowSched

open Quantity Step

/-- What a run asks of its input: a workflow that passes its check and lists no edge twice, and VMs
with distinct ids and positive speeds that it can be priced on. -/
structure World.WellFormed (w : World ℚ) : Prop where
  check : w.workflow.check = .ok ()
  distinct : w.workflow.Distinct
  roster : w.vms ≠ []
  ids : (w.vms.map Vm.id).Nodup
  speeds : ∀ v ∈ w.vms, 0 < v.mips
  costs : ∃ c, Costs.ofWorkflow w.workflow w.vms = .ok c

/-- What is promised of the outcome of a run: one job for each task, numbered in order of submission,
in the session as on the tasks, and two schedules without violations. -/
structure Outcome.Sound (w w' : World ℚ) (o : Outcome ℚ) : Prop where
  tasks : (o.jobs.map Job.task).Perm w.workflow.ids
  ids : ∀ (i : ℕ) (j : Job ℚ), o.jobs[i]? = some j → j.id = i
  submitted : o.session.submitted = o.jobs.map Job.task
  submission : ∀ j ∈ o.jobs, ∃ t, w'.workflow.find? j.task = some t ∧ t.submission = j.id
  executed : Audit.schedule 0 false o.executed = []
  reconciled : ∀ ε : ℚ, 0 ≤ ε → Audit.schedule ε true o.jobs = []

namespace World

variable {w w' : World ℚ}

theorem WellFormed.checked (hw : w.WellFormed) : w.workflow.Checked :=
  Workflow.check_eq_ok.1 hw.check

theorem WellFormed.of_kin (hw : w.WellFormed) (h : w.Kin w') : w'.WellFormed where
  check := Workflow.check_eq_ok.2 (hw.checked.of_kin h.workflow)
  distinct := hw.distinct.of_kin h.workflow
  roster he := hw.roster (List.map_eq_nil_iff.1 (by rw [← h.vms, he, List.map_nil]))
  ids := by
    rw [map_vms_of_kin h fun _ => rfl]
    exact hw.ids
  speeds v' hv' := by
    obtain ⟨i, hi⟩ := List.getElem?_of_mem hv'
    obtain ⟨v, hv, he⟩ := exists_vm_of_kin h hi
    have hmips : v'.mips = v.mips := (congrArg Vm.mips he :)
    rw [hmips]
    exact hw.speeds v (List.mem_of_getElem? hv)
  costs := by
    rw [ofWorkflow_of_kin h]
    exact hw.costs

/-- Every task has all its credits once all tasks are done. -/
theorem WellFormed.need_le (hw : w.WellFormed) {t : Task ℚ} (ht : t ∈ w.workflow.tasks) :
    w.workflow.need t.id ≤ w.workflow.credits w.workflow.ids t.id :=
  Workflow.need_le_of_mem hw.distinct hw.checked (Workflow.find?_self ht)
    fun _ hp => hw.checked.mem_ids_of_parent ht hp

/-! ## Reconciling -/

theorem reconcile_leads (delay : ℚ) (withStart : Bool) (jobs : List (Job ℚ)) (w : World ℚ) :
    Leads (reconcile delay withStart jobs) w
      (fun out w' => (FlowSched.reconcile delay withStart jobs).fault = none ∧
        out = (FlowSched.reconcile delay withStart jobs).jobs ∧
        w'.workflow = w.workflow ∧ w'.session = w.session ∧ w'.vms = w.vms)
      fun fault _ => (FlowSched.reconcile delay withStart jobs).fault = some fault := by
  unfold Leads reconcile
  dsimp only
  cases hf : (FlowSched.reconcile delay withStart jobs).fault with
  | none =>
    obtain ⟨hworkflow, hvms, hsession⟩ :=
      noteAll_eq w (FlowSched.reconcile delay withStart jobs).notes
    exact ⟨rfl, rfl, hworkflow, hsession, hvms⟩
  | some fault => rfl

/-- Reporting the jobs changes neither the session nor the VMs nor the place at which a task was
submitted. -/
theorem foldl_report (jobs : List (Job ℚ)) (w : World ℚ) :
    (jobs.foldl report w).session = w.session ∧ (jobs.foldl report w).vms = w.vms ∧
      ∀ x t, w.workflow.find? x = some t → ∃ t', (jobs.foldl report w).workflow.find? x = some t' ∧
        t'.submission = t.submission := by
  induction jobs generalizing w with
  | nil => exact ⟨rfl, rfl, fun x t ht => ⟨t, ht, rfl⟩⟩
  | cons j jobs ih =>
    obtain ⟨hsession, hvms, hfind⟩ := ih (w.report j)
    refine ⟨hsession, hvms, fun x t ht => ?_⟩
    by_cases hx : x = j.task
    · subst hx
      obtain ⟨t', ht', he⟩ := hfind _ _ (Workflow.find?_modify_self ht)
      exact ⟨t', ht', he⟩
    · exact hfind x t ((Workflow.find?_modify_of_ne hx).trans ht)

/-! ## The run -/

theorem keeps_plan (s : Settings ℚ) : Keeps id (plan s) := by
  unfold plan
  refine keeps_get.bind fun w => (keeps_ofExcept _).bind fun planner =>
    (keeps_modify fun w => kept_note w _).bind fun _ => ?_
  cases planner with
  | none => exact keeps_pure none
  | some planner => exact planner.keeps_run.map

/-- Jobs that were shifted are audited like clear ones, as every parent has a job. -/
theorem schedule_of_ended {rule : Rule} {e : Execution ℚ} {delay ε : ℚ} {out : List (Job ℚ)}
    (hw : w.WellFormed) (he : Execution.Ended rule w e)
    (hall : List.Forall₂ (Reconcile.Shifted delay) e.jobs out) (hclear : out.Pairwise Reconcile.Clear)
    (hε : 0 ≤ ε) : Audit.schedule ε true out = [] := by
  have htask := Reconcile.map_task_of_shifted hall
  rw [Audit.schedule_of_clear hε (by rw [htask]; exact he.nodup)
    (Reconcile.start_le_finish_of_shifted hall he.start_le_finish)
    (by rw [Reconcile.misplaced_iff_of_shifted hall]; exact he.not_misplaced hw.checked hw.distinct)
    hclear]
  refine Audit.absences_eq_nil fun j hj p hp => ?_
  obtain ⟨i, hi⟩ := List.getElem?_of_mem hj
  obtain ⟨j₀, hj₀, hs⟩ := exists_getElem?_right hall hi
  rw [htask]
  exact he.parents_known hw.checked j₀ (List.mem_of_getElem? hj₀) p (hs.parents ▸ hp)

/-- An outcome is sound if it reports the jobs of an execution that ended, shifted so that they are
clear of each other. -/
theorem sound_of_ended {rule : Rule} {e : Execution ℚ} {delay : ℚ} {o : Outcome ℚ} {w₂ : World ℚ}
    {out : List (Job ℚ)} (hw : w.WellFormed) (hsub : w.session.submitted = [])
    (he : Execution.Ended rule w e) (hworkflow : w₂.workflow = e.workflow) (hjobs : o.jobs = out)
    (hsession : o.session = e.session) (hexecuted : o.executed = e.jobs)
    (hall : List.Forall₂ (Reconcile.Shifted delay) e.jobs out)
    (hclear : out.Pairwise Reconcile.Clear) : o.Sound w (out.foldl report w₂) := by
  subst hjobs
  obtain ⟨now, done, hinv, -, -⟩ := id he
  have htask := Reconcile.map_task_of_shifted hall
  constructor
  case tasks =>
    rw [htask]
    exact he.perm
  case ids =>
    intro i j hj
    obtain ⟨j₀, hj₀, hs⟩ := exists_getElem?_right hall hj
    exact hs.id.trans (hinv.records.ids i j₀ hj₀)
  case submitted =>
    rw [hsession, hinv.records.submitted, hsub, htask]
    rfl
  case submission =>
    intro j hj
    obtain ⟨i, hi⟩ := List.getElem?_of_mem hj
    obtain ⟨j₀, hj₀, hs⟩ := exists_getElem?_right hall hi
    obtain ⟨t, ht, hrec⟩ := hinv.records.job j₀ (List.mem_of_getElem? hj₀)
    obtain ⟨t', ht', hsubm⟩ := (foldl_report o.jobs w₂).2.2 j₀.task t (hworkflow ▸ ht)
    refine ⟨t', hs.task ▸ ht', ?_⟩
    rw [hsubm, hrec.submission, hsub, hs.id]
    simp
  case executed =>
    rw [hexecuted]
    exact he.schedule_eq_nil hw.checked hw.distinct
  case reconciled => exact fun ε hε => schedule_of_ended hw he hall hclear hε

/-- Executing and reconciling fails only if the rule cannot fit the workflow or if there are no tasks.
Its outcome is sound under a positive delay. -/
theorem carryOut_leads (s : Settings ℚ) (plan : Option (Plan ℚ)) (hw : w.WellFormed)
    (hsub : w.session.submitted = []) (hidle : ∀ v ∈ w.vms, v.busy = false) (hd : 0 ≤ s.portDelay) :
    Leads (carryOut s plan) w (fun o w' => 0 < s.portDelay → o.Sound w w')
      fun _ _ => ¬ Execution.Fits s.algorithm.rule w ∨ w.workflow.tasks = [] := by
  obtain ⟨c, hcosts⟩ := hw.costs
  have hprep : Execution.Prepared w c := ⟨hw.checked, hw.ids, hcosts⟩
  have hc : Execution.prepare w = .ok c := by
    unfold Execution.prepare
    rw [if_neg fun he => hw.roster (List.isEmpty_iff.1 he), hcosts]
  unfold carryOut
  rw [leads_bind]
  refine leads_query_ok hc ?_
  rw [leads_bind, leads_within]
  -- an execution does not stall where every task has its credits
  refine (Execution.run_leads s.algorithm.rule hprep fun _ => hidle).mono (fun _ e he => ?_)
    fun _ _ he => he.resolve_right fun ⟨_, t, ht, hlt⟩ => hlt.not_ge (hw.need_le ht)
  dsimp only
  have hplaced := he.not_misplaced hw.checked hw.distinct
  refine ((reconcile_leads s.portDelay s.includeParentStart e.jobs e.toWorld).mono
    (fun _ _ h => h) fun _ _ hf => ?_).bind fun out w₂ hout => ?_
  · rw [fault_of_placed hd s.includeParentStart he.nodup hplaced] at hf
    cases hf
  · obtain ⟨-, rfl, hworkflow, hsession, -⟩ := hout
    rw [leads_bind, leads_modify, leads_bind, leads_get, leads_pure]
    intro hpos
    obtain ⟨-, hall, hclear⟩ := reconcile_of_placed hpos s.includeParentStart e.jobs he.nodup hplaced
    exact sound_of_ended hw hsub he hworkflow rfl ((foldl_report _ w₂).1.trans hsession) rfl hall hclear

theorem schedule_leads (s : Settings ℚ) (hw : w.WellFormed) (hsub : w.session.submitted = [])
    (hidle : ∀ v ∈ w.vms, v.busy = false) (hd : 0 < s.portDelay) :
    Leads (schedule s) w (fun o w' => o.Sound w w') fun _ _ => True := by
  refine ((keeps_plan s w).mono (fun _ _ h => h) fun _ _ _ => trivial).bind fun plan w₁ hk => ?_
  refine (carryOut_leads s plan (hw.of_kin hk.kin) (hk.submitted.trans hsub) ?_ hd.le).mono
    (fun o w' ho => ?_) fun _ _ _ => trivial
  · rw [hk.vms]
    exact hidle
  · replace ho := ho hd
    exact ⟨(Workflow.ids_of_kin hk.kin.workflow) ▸ ho.tasks, ho.ids, ho.submitted, ho.submission,
      ho.executed, ho.reconciled⟩

/-- The world that a run plans in. -/
def start (s : Settings ℚ) (w : World ℚ) (notes : Array (Note ℚ)) : World ℚ :=
  { w.reset (s.algorithm = .static) with session := {}, notes }

theorem kin_start (s : Settings ℚ) (w : World ℚ) (notes : Array (Note ℚ)) : Kin w (start s w notes) :=
  have h := kin_reset w (s.algorithm = .static)
  ⟨h.workflow, h.vms⟩

theorem idle_start (s : Settings ℚ) (w : World ℚ) (notes : Array (Note ℚ)) :
    ∀ v ∈ (start s w notes).vms, v.busy = false := by
  intro v hv
  obtain ⟨u, -, rfl⟩ := List.mem_map.1 hv
  rfl

/-- A run of a well-formed input comes down to its settings and to its schedule. -/
theorem run_leads (s : Settings ℚ) (hw : w.WellFormed) {Q : Outcome ℚ → World ℚ → Prop}
    {E : Fault ℚ → Prop}
    (hcheck : ∀ notes, Leads s.check notes (fun _ _ => True) fun fault _ => E fault)
    (hschedule : ∀ notes, Leads (schedule s) (start s w notes)
      (fun o w' => ∀ session, Q o { w' with session }) fun fault _ => E fault) :
    Leads (run s) w Q fun fault _ => E fault := by
  unfold run
  rw [leads_bind, leads_get, leads_bind, noting, leads_zoom]
  refine (hcheck w.notes).mono (fun _ notes _ => ?_) fun _ _ h => h
  rw [leads_bind, leads_get]
  have hne : ¬ w.vms.isEmpty = true := fun he => hw.roster (List.isEmpty_iff.1 he)
  dsimp only
  rw [if_neg hne, hw.check]
  refine Leads.bind (P := fun _ t => t = { w with notes }) (leads_query_ok rfl rfl) fun _ t ht => ?_
  subst ht
  rw [leads_bind, leads_modify, leads_zoom]
  exact (hschedule notes).mono (fun o w' h => h w.session) fun _ _ h => h

/-- What a run that returns is made of: a plan, an execution of the world that was planned in, and the
reconciling of its jobs. -/
structure Ran (s : Settings ℚ) (w w₁ : World ℚ) (c : Costs ℚ) (e : Execution ℚ) (o : Outcome ℚ)
    (w' : World ℚ) : Prop where
  planned : ∃ notes plan, World.plan s (start s w notes) = .ok plan w₁
  costs : Execution.prepare w₁ = .ok c
  execution : Execution.run c s.algorithm.rule (Execution.fresh w₁) = .ok () e
  executed : o.executed = e.jobs
  jobs : o.jobs = (FlowSched.reconcile s.portDelay s.includeParentStart e.jobs).jobs
  vms : w'.vms = e.vms

/-- Planning leaves a world from which an execution can start. -/
theorem kept_of_plan (hw : w.WellFormed) {s : Settings ℚ} {notes : Array (Note ℚ)}
    {plan : Option (Plan ℚ)} {w₁ : World ℚ} (hplan : World.plan s (start s w notes) = .ok plan w₁) :
    Kin w w₁ ∧ w₁.WellFormed ∧ ∀ v ∈ w₁.vms, v.busy = false ∧ v.load = 0 := by
  have hk : Kept (start s w notes) w₁ := (keeps_plan s _).of_ok hplan
  have hkin := (kin_start s w notes).trans hk.kin
  refine ⟨hkin, hw.of_kin hkin, fun v hv => ?_⟩
  rw [hk.vms] at hv
  obtain ⟨u, -, rfl⟩ := List.mem_map.1 hv
  exact ⟨rfl, rfl⟩

/-- Carrying a plan out prices the world, executes it, and reconciles and reports the jobs that were
executed. -/
theorem carryOut_traces (s : Settings ℚ) (plan : Option (Plan ℚ)) (w₁ : World ℚ) :
    Leads (carryOut s plan) w₁ (fun o w' => o.plan = plan ∧ ∃ c e, Execution.prepare w₁ = .ok c ∧
      Execution.run c s.algorithm.rule (Execution.fresh w₁) = .ok () e ∧ o.executed = e.jobs ∧
      o.jobs = (FlowSched.reconcile s.portDelay s.includeParentStart e.jobs).jobs ∧ w'.vms = e.vms)
      fun _ _ => True := by
  unfold carryOut
  rw [leads_bind, leads_query]
  refine ⟨fun c hc => ?_, fun _ _ => trivial⟩
  rw [leads_bind, leads_within]
  refine leads_self.mono (fun u e he => ?_) fun _ _ _ => trivial
  refine ((reconcile_leads s.portDelay s.includeParentStart e.jobs e.toWorld).mono
    (fun _ _ h => h) fun _ _ _ => trivial).bind fun out w₂ hout => ?_
  obtain ⟨-, hjobs, -, -, hvms⟩ := hout
  rw [leads_bind, leads_modify, leads_bind, leads_get, leads_pure]
  exact ⟨rfl, c, e, hc, he, rfl, hjobs, (foldl_report out w₂).2.1.trans hvms⟩

theorem exists_ran {s : Settings ℚ} {o : Outcome ℚ} (hw : w.WellFormed)
    (hrun : World.run s w = .ok o w') : ∃ w₁ c e, Ran s w w₁ c e o w' := by
  have hlead : Leads (World.run s) w (fun o w' => ∃ w₁ c e, Ran s w w₁ c e o w') fun _ _ => True := by
    refine run_leads s hw (fun _ => leads_true) fun notes => ?_
    refine (leads_self.mono (fun _ _ h => h) fun _ _ _ => trivial).bind fun plan w₁ hplan => ?_
    refine (carryOut_traces s plan w₁).mono (fun o w' ho session => ?_) fun _ _ _ => trivial
    obtain ⟨-, c, e, hc, he, hexecuted, hjobs, hvms⟩ := ho
    exact ⟨w₁, c, e, ⟨notes, plan, hplan⟩, hc, he, hexecuted, hjobs, hvms⟩
  exact hlead.of_ok hrun

end World

/-- A run of a well-formed input under a positive port delay, when it returns, has one job for each
task, numbered in order of submission, and schedules that pass their audits: the executed one without
tolerance, the reconciled one strictly and under any tolerance. -/
theorem run_sound (w w' : World ℚ) (s : Settings ℚ) (o : Outcome ℚ) (hw : w.WellFormed)
    (hd : 0 < s.portDelay) (hrun : World.run s w = .ok o w') : o.Sound w w' := by
  have hlead : Leads (World.run s) w (fun o w' => o.Sound w w') fun _ _ => True := by
    refine World.run_leads s hw (fun _ => leads_true) fun notes => ?_
    have hk := World.kin_start s w notes
    refine (World.schedule_leads s (hw.of_kin hk) rfl (World.idle_start s w notes) hd).mono
      (fun o w' ho session => ?_) fun _ _ _ => trivial
    exact ⟨Workflow.ids_of_kin hk.workflow ▸ ho.tasks, ho.ids, ho.submitted, ho.submission,
      ho.executed, ho.reconciled⟩
  exact hlead.of_ok hrun

/-- Three tasks, the last of which needs the others, and two VMs. -/
def fork : World ℚ where
  workflow :=
    { tasks := [{ id := 1, length := 10, children := [3] }, { id := 2, length := 30, children := [3] },
        { id := 3, length := 10, parents := [1, 2] }]
      nodup := by decide }
  vms := [{ id := 0, mips := 10 }, { id := 1, mips := 10 }]

theorem wellFormed_fork : fork.WellFormed where
  check := rfl
  distinct := ⟨by decide, by decide⟩
  roster := by decide
  ids := by decide
  speeds := by decide
  costs := exists_eq_ok (by decide +kernel)

/-- Settings with a port delay of one second. -/
def patient : Settings ℚ := { algorithm := .minMin, portDelay := 1 }

theorem run_sound_fork : ∃ o w', World.run patient fork = .ok o w' ∧ o.Sound fork w' := by
  have hrun : (match World.run patient fork with
    | .ok _ _ => true
    | .error _ _ => false) = true := by decide +kernel
  cases h : World.run patient fork with
  | ok o w' => exact ⟨o, w', rfl, run_sound fork w' patient o wellFormed_fork (by decide) h⟩
  | error fault w' => rw [h] at hrun; cases hrun

end FlowSched

import FlowSched.Proofs.Again
import FlowSched.Proofs.Execution.Course
import FlowSched.Proofs.Planning.Recorded
import FlowSched.Proofs.Return

/-!
# Runs that follow a plan

A run that plans first carries out its plan: every task runs on the VM it was planned on and stays bound
to it, the planned order is what the session reports, and each batch is submitted in that order
(`run_follows`). It holds however the run splits the tasks into batches, and however numbers are
rounded.
-/

namespace FlowSched

open Quantity Step Holder

variable {α : Type} [Quantity α]

/-! ## Tables of bindings -/

/-- A table of distinct keys does not depend on the order in which they were entered. -/
theorem Table.get?_ofList_of_perm {β : Type} {pairs pairs' : List (ℤ × β)}
    (hn : (pairs.map Prod.fst).Nodup) (h : pairs.Perm pairs') (k : ℤ) :
    (ofList pairs').get? k = (ofList pairs).get? k := by
  have hget : ∀ {l : List (ℤ × β)}, (l.map Prod.fst).Nodup → ∀ v,
      (ofList l).get? k = some v ↔ (k, v) ∈ l := fun hl _ =>
    get?_ofList_eq_some fun k u v hu hv => (Prod.mk.inj (List.inj_on_of_nodup_map hl hu hv rfl)).2
  ext v
  rw [hget hn v, hget ((h.map Prod.fst).nodup_iff.1 hn) v, h.mem_iff]

theorem Workflow.nodup_bindings (w : Workflow α) : (w.bindings.map Prod.fst).Nodup := by
  rw [map_fst_bindings]
  exact w.nodup

namespace Plan.Recorded

variable {plan : Plan α} {w w' : World α} (h : plan.Recorded w w')

include h

/-- A plan assigns each task to the VM that it is bound to. -/
theorem get?_assignment (x : ℤ) :
    plan.assignment.get? x = (Table.ofList w'.workflow.bindings).get? x := by
  have hpairs : w'.workflow.ids.map (fun id => (id, ((w'.workflow.find? id).map Task.vm).getD unbound)) =
      w'.workflow.bindings := by
    unfold Workflow.ids Workflow.bindings
    rw [List.map_map]
    refine List.map_congr_left fun t ht => ?_
    simp [Workflow.find?_self ht]
  have hperm := h.order.map fun id => (id, ((w'.workflow.find? id).map Task.vm).getD unbound)
  rw [hpairs] at hperm
  rw [h.assignment]
  exact Table.get?_ofList_of_perm w'.workflow.nodup_bindings hperm.symm x

theorem mem_planned (hs : w.session = {}) {x : ℤ} (hx : x ∈ w'.workflow.ids) :
    x ∈ w'.session.planned := by
  rw [h.planned, hs]
  exact h.order.mem_iff.2 hx

theorem nodup_planned (hs : w.session = {}) : w'.session.planned.Nodup := by
  rw [h.planned, hs]
  exact h.order.nodup_iff.2 w'.workflow.nodup

end Plan.Recorded

/-! ## Reconciling -/

namespace Reconcile

theorem settle_keeps {delay : α} {withStart : Bool} {submitted : List ℤ} {settled : List (Job α)}
    {j j' : Job α} (h : settle delay withStart submitted settled j = .ok j') :
    j'.task = j.task ∧ j'.vm = j.vm := by
  obtain ⟨_, -, h⟩ := bind_eq_ok.1 h
  obtain ⟨_, -, h⟩ := bind_eq_ok.1 h
  obtain ⟨_, -, h⟩ := bind_eq_ok.1 h
  rw [← Except.ok.inj h]
  exact ⟨rfl, rfl⟩

/-- Settling keeps the tasks and VMs of all jobs, and tells of no fallback VM. -/
theorem settleAll_keeps (delay : α) (withStart : Bool) (submitted : List ℤ) (rest settled : List (Job α))
    (notes : List (Note α)) (hnotes : ∀ n ∈ notes, n.isRebound = false) :
    (settleAll delay withStart submitted settled notes rest).1.map (fun j => (j.task, j.vm)) =
        (settled ++ rest).map (fun j => (j.task, j.vm)) ∧
      ∀ n ∈ (settleAll delay withStart submitted settled notes rest).2.1, n.isRebound = false := by
  induction rest generalizing settled notes with
  | nil => exact ⟨by rw [List.append_nil]; rfl, hnotes⟩
  | cons j rest ih =>
    unfold settleAll
    cases hj : settle delay withStart submitted settled j with
    | error fault => exact ⟨rfl, hnotes⟩
    | ok j' =>
      obtain ⟨htask, hvm⟩ := settle_keeps hj
      obtain ⟨hmap, hrest⟩ := ih (settled ++ [j']) (notes ++ (shiftNote? j j').toList) fun n hn => by
        rcases List.mem_append.1 hn with hn | hn
        · exact hnotes n hn
        · unfold shiftNote? at hn
          split at hn
          · cases hn
          · rw [List.mem_singleton.1 hn]
            rfl
      refine ⟨hmap.trans ?_, hrest⟩
      simp [htask, hvm]

end Reconcile

theorem reconcile_keeps (delay : α) (withStart : Bool) (jobs : List (Job α)) :
    (reconcile delay withStart jobs).jobs.map (fun j => (j.task, j.vm)) =
        jobs.map (fun j => (j.task, j.vm)) ∧
      ∀ n ∈ (reconcile delay withStart jobs).notes, n.isRebound = false := by
  obtain ⟨hmap, hnotes⟩ := Reconcile.settleAll_keeps delay withStart (jobs.map Job.task) jobs [] []
    fun _ hn => by cases hn
  unfold reconcile
  split
  · exact ⟨rfl, fun _ hn => by cases hn⟩
  · split
    · exact ⟨rfl, fun _ hn => by cases hn⟩
    · dsimp only
      split
      · exact ⟨hmap, hnotes⟩
      · refine ⟨hmap, fun n hn => ?_⟩
        rcases List.mem_append.1 hn with hn | hn
        · exact hnotes n hn
        · rw [List.mem_singleton.1 hn]
          rfl

/-! ## The run -/

/-- Telling of no fallback VM lasts while no such note is taken. -/
theorem lasting_rebounds (l : List (Note α)) :
    World.Lasting (fun w => rebounds w.notes = l) (fun n => n.isRebound = false) fun _ _ => True where
  note w _ h hn := (rebounds_push hn w.notes).trans h
  editTask _ _ _ h _ := h
  editVm _ _ _ h _ := h
  record _ _ h _ := h

theorem Settings.check_rebounds (s : Settings α) (notes : Array (Note α)) :
    Leads s.check notes (fun _ notes' => rebounds notes' = rebounds notes) fun _ _ => True := by
  unfold check
  refine Leads.unless (P := fun t => t = notes) (fun _ => trivial) (fun _ => rfl) fun t ht => ?_
  refine Leads.unless (P := fun t => t = notes) (fun _ => trivial) (fun _ => ht) fun t ht => ?_
  refine Leads.unless (P := fun t => t = notes) (fun _ => trivial) (fun _ => ht) fun t ht => ?_
  refine Leads.unless (P := fun t => t = notes) (fun _ => trivial) (fun _ => ht) fun t ht => ?_
  subst ht
  refine Leads.unless (P := fun t' => rebounds t' = rebounds t) (fun _ => ?_) (fun _ => rfl)
    fun t' ht => ?_
  · exact leads_modify.2 (rebounds_push rfl t)
  · split
    · exact trivial
    · exact ht

namespace World

variable {s : Settings α} {w : World α}

/-- An algorithm that plans makes a plan, which it records. -/
theorem plan_records (hs : s.algorithm.isPlanner = true) :
    Leads (plan s) w (fun plan w' => ∃ p, plan = some p ∧ p.Recorded w w' ∧
      w'.session.submitted = w.session.submitted ∧ rebounds w'.notes = rebounds w.notes)
      fun _ _ => True := by
  unfold plan
  rw [leads_bind, leads_get, leads_bind, leads_ofExcept]
  refine ⟨fun planner hplanner => ?_, fun _ _ => trivial⟩
  have hmap : ∀ r : Except (Fault α) (Planner α), some <$> r = .ok planner → ∃ p, planner = some p := by
    intro r hr
    cases r with
    | error e => cases hr
    | ok p => exact ⟨p, (Except.ok.inj hr).symm⟩
  have hsome : ∃ p, planner = some p := by
    unfold Settings.planner? at hplanner
    cases ha : s.algorithm with
    | heft | ocs =>
      rw [ha] at hplanner
      exact hmap _ hplanner
    | minMin | maxMin | fcfs | roundRobin | static =>
      rw [ha] at hs
      cases hs
  obtain ⟨p, rfl⟩ := hsome
  rw [leads_bind, leads_modify]
  dsimp only
  rw [leads_map]
  generalize hw : World.note (.running s.algorithm w.workflow.size w.vms.length) w = w₀
  have hrebounds : rebounds w₀.notes = rebounds w.notes := hw ▸ rebounds_push rfl w.notes
  refine (((p.run_records w₀).and (p.keeps_run w₀)).and ((p.blind_run (lasting_rebounds _)
    (fun _ h => h) fun _ _ => trivial).leads rfl hrebounds)).mono (fun plan w' h => ?_)
      fun _ _ _ => trivial
  obtain ⟨⟨hrec, hk⟩, hnotes⟩ := h
  exact ⟨plan, rfl, hrec.of_session (hw ▸ rfl), hk.submitted.trans (hw ▸ rfl), hnotes⟩

/-- Reporting jobs keeps the session, the notes and the bindings. -/
theorem report_keeps (jobs : List (Job α)) (w : World α) :
    (jobs.foldl report w).session = w.session ∧ (jobs.foldl report w).notes = w.notes ∧
      (jobs.foldl report w).workflow.bindings = w.workflow.bindings := by
  induction jobs generalizing w with
  | nil => exact ⟨rfl, rfl, rfl⟩
  | cons j jobs ih =>
    obtain ⟨hsession, hnotes, hbindings⟩ := ih (w.report j)
    exact ⟨hsession, hnotes, hbindings.trans (Workflow.bindings_modify _ _ fun _ => rfl)⟩

theorem reconcile_rebounds (delay : α) (withStart : Bool) (jobs : List (Job α)) (w : World α) :
    Leads (reconcile delay withStart jobs) w
      (fun out w' => out.map (fun j => (j.task, j.vm)) = jobs.map (fun j => (j.task, j.vm)) ∧
        w'.workflow = w.workflow ∧ w'.session = w.session ∧ rebounds w'.notes = rebounds w.notes)
      fun _ _ => True := by
  obtain ⟨hmap, hnotes⟩ := reconcile_keeps delay withStart jobs
  unfold Leads reconcile
  dsimp only
  cases (FlowSched.reconcile delay withStart jobs).fault with
  | some fault => exact trivial
  | none =>
    obtain ⟨hworkflow, -, hsession⟩ := noteAll_eq w (FlowSched.reconcile delay withStart jobs).notes
    exact ⟨hmap, hworkflow, hsession, (lasting_rebounds (rebounds w.notes)).noteAll hnotes rfl⟩

end World

/-- A run carries its plan out, in some batches: every task runs on the VM that it was planned on and is
still bound to, in planned order within each batch, and none is given the fallback VM. -/
structure Outcome.Follows (o : Outcome α) (w w' : World α) (plan : Plan α) (batches : List (List ℤ)) :
    Prop where
  planned : o.plan = some plan
  assignment : ∀ x, o.assignment.get? x = plan.assignment.get? x
  bound : ∀ t ∈ w'.workflow.tasks, plan.assignment.get? t.id = some t.vm
  order : o.session.planned = plan.order
  submitted : o.session.submitted = batches.flatten
  sorted : ∀ batch ∈ batches, batch.Sublist plan.order
  rebound : rebounds w'.notes = rebounds w.notes

/-- The batches that a run dispatches: those of the execution that comes after its planning. -/
def World.Dispatches (s : Settings α) (w : World α) (o : Outcome α) (batches : List (List ℤ)) : Prop :=
  ∃ notes w₁ c e, World.plan s { w.reset (s.algorithm = .static) with session := {}, notes } =
      .ok o.plan w₁ ∧ Execution.prepare w₁ = .ok c ∧
    Execution.Course c s.algorithm.rule w₁ batches e ∧ e.jobs = o.executed

/-- An execution of a planned world has one job for each task, on the VM that the task is bound to. -/
theorem Execution.OnPlan.jobs_perm {w : World α} {e : Execution α} (h : OnPlan w [] e)
    (hsize : e.jobs.length = e.workflow.size) :
    (e.jobs.map fun j => (j.task, j.vm)).Perm w.workflow.bindings := by
  have hnodup : (e.jobs.map fun j => (j.task, j.vm)).Nodup := by
    have hn := (List.nodup_append.1 h.nodup).2.1
    rw [List.nil_append, h.jobs] at hn
    refine List.Nodup.of_map Prod.fst ?_
    rwa [List.map_map]
  have hsub : (e.jobs.map fun j => (j.task, j.vm)) ⊆ w.workflow.bindings := by
    intro p hp
    obtain ⟨j, hj, rfl⟩ := List.mem_map.1 hp
    exact h.placed j hj
  refine (List.subperm_of_subset hnodup hsub).perm_of_length_le ?_
  have hlength : e.workflow.bindings.length = e.workflow.size := List.length_map _
  rw [List.length_map, hsize, ← h.bindings, hlength]

theorem Outcome.Follows.of_session {o : Outcome α} {w w' : World α} {plan : Plan α}
    {batches : List (List ℤ)} (h : o.Follows w w' plan batches) (session : Session) :
    o.Follows w { w' with session } plan batches :=
  ⟨h.planned, h.assignment, h.bound, h.order, h.submitted, h.sorted, h.rebound⟩

/-- Carrying a plan out on the bindings that it recorded follows the plan. -/
theorem World.carryOut_follows {s : Settings α} {w w₀ w₁ : World α} {plan : Plan α}
    (hrule : s.algorithm.rule = .static) (hrec : plan.Recorded w₀ w₁)
    (hfresh : w₀.session = {}) (hsubmitted : w₁.session.submitted = [])
    (hnotes : rebounds w₁.notes = rebounds w.notes) :
    Leads (carryOut s (some plan)) w₁ (fun o w' => ∃ batches c e, o.plan = some plan ∧
      Execution.prepare w₁ = .ok c ∧ Execution.Course c s.algorithm.rule w₁ batches e ∧
        e.jobs = o.executed ∧ o.Follows w w' plan batches) fun _ _ => True := by
  unfold carryOut
  rw [leads_bind, leads_query]
  refine ⟨fun c hc => ?_, fun _ _ => trivial⟩
  rw [leads_bind, leads_within]
  refine (Execution.run_course c s.algorithm.rule w₁).mono (fun _ e he => ?_) fun _ _ _ => trivial
  obtain ⟨batches, e, makespan, hcourse, hsize, rfl⟩ := he
  obtain ⟨hon, hflat, hsorted⟩ := (hrule ▸ hcourse).onPlan hsubmitted (hrec.nodup_planned hfresh)
    (fun x hx => hrec.mem_planned hfresh hx) hrec.placed
  refine (reconcile_rebounds s.portDelay s.includeParentStart e.jobs _).bind fun out w₂ hout => ?_
  obtain ⟨hjobs, hworkflow, hsession, hnotes₂⟩ := hout
  obtain ⟨hsession', hnotes', hbindings'⟩ := report_keeps out w₂
  rw [leads_bind, leads_modify, leads_bind, leads_get, leads_pure]
  have horder : w₁.session.planned = plan.order := by
    rw [hrec.planned, hfresh]
    rfl
  have hpairs : out.map (fun j => (j.task, j.vm)) = e.jobs.map (fun j => (j.task, j.vm)) := hjobs
  have hkept : w₂.workflow.bindings = w₁.workflow.bindings :=
    (congrArg Workflow.bindings hworkflow).trans hon.bindings
  refine ⟨batches, c, e, rfl, hc, hcourse, rfl, ?_⟩
  constructor
  case planned => rfl
  case assignment =>
    intro x
    show (Table.ofList (out.map fun j => (j.task, j.vm))).get? x = plan.assignment.get? x
    rw [hpairs, hrec.get?_assignment]
    exact Table.get?_ofList_of_perm w₁.workflow.nodup_bindings (hon.jobs_perm hsize).symm x
  case bound =>
    intro t ht
    rw [hrec.get?_assignment, ← hkept, ← hbindings']
    exact Table.get?_ofList_map (f := fun t : Task α => (t.id, t.vm)) (Workflow.nodup _) ht
  case order =>
    show (out.foldl report w₂).session.planned = plan.order
    rw [hsession', hsession]
    exact hon.planned.trans horder
  case submitted =>
    show (out.foldl report w₂).session.submitted = batches.flatten
    rw [hsession', hsession]
    exact hflat
  case sorted => exact fun batch hb => horder ▸ hsorted batch hb
  case rebound =>
    show rebounds (out.foldl report w₂).notes = rebounds w.notes
    rw [hnotes', hnotes₂]
    exact (rebounds_push rfl _).trans (hon.rebound.trans hnotes)

/-- A run of an algorithm that plans follows its plan. -/
theorem run_follows (w w' : World α) (s : Settings α) (o : Outcome α)
    (hs : s.algorithm.isPlanner = true) (hrun : World.run s w = .ok o w') :
    ∃ plan batches, World.Dispatches s w o batches ∧ o.Follows w w' plan batches := by
  have hrule : s.algorithm.rule = .static := by
    cases ha : s.algorithm with
    | heft | ocs => rfl
    | minMin | maxMin | fcfs | roundRobin | static =>
      rw [ha] at hs
      cases hs
  have hlead : Leads (World.run s) w (fun o w' => ∃ plan batches, World.Dispatches s w o batches ∧
      o.Follows w w' plan batches) fun _ _ => True := by
    refine World.run_schedule s w ((s.check_rebounds w.notes).mono (fun _ _ h => h)
      fun _ _ _ => trivial) (fun _ _ _ => trivial) fun notes hnotes => ?_
    refine ((leads_self.and (World.plan_records hs)).mono (fun _ _ h => h)
      fun _ _ _ => trivial).bind fun plan w₁ hplan => ?_
    obtain ⟨hplan, plan, rfl, hrec, hsubmitted, hrebounds⟩ := hplan
    refine (World.carryOut_follows hrule hrec rfl hsubmitted (hrebounds.trans hnotes)).mono
      (fun o w' ho => ?_) fun _ _ _ => trivial
    obtain ⟨batches, c, e, hp, hc, hcourse, hjobs, hfollows⟩ := ho
    exact ⟨plan, batches, ⟨notes, w₁, c, e, hp ▸ hplan, hc, hcourse, hjobs⟩,
      hfollows.of_session w.session⟩
  exact hlead.of_ok hrun

theorem run_follows_fork : ∃ o w' plan batches, World.run {} fork = .ok o w' ∧
    World.Dispatches {} fork o batches ∧ o.Follows fork w' plan batches := by
  obtain ⟨o, w', h⟩ := World.exists_run_of_default wellFormed_fork (by decide) (by decide)
  obtain ⟨plan, batches, hbatches, hfollows⟩ := run_follows fork w' {} o rfl h
  exact ⟨o, w', plan, batches, h, hbatches, hfollows⟩

end FlowSched

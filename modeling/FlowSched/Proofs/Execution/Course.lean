import FlowSched.Execution
import FlowSched.Proofs.Blind
import FlowSched.Proofs.Dispatch
import FlowSched.Proofs.Table

/-!
# The course of a planned execution

An execution that returns has dispatched one batch after the other (`Course`). If every task is bound to
a VM of the roster, static dispatch takes each batch in planned order and changes no binding, and every
task is started once, on the VM that it is bound to (`OnPlan`). None of this depends on how numbers
are rounded.
-/

namespace FlowSched

open Quantity Step

variable {α : Type} [Quantity α]

/-! ## Bindings -/

namespace Workflow

/-- The tasks with the VMs they are bound to. -/
def bindings (w : Workflow α) : List (ℤ × ℤ) := w.tasks.map fun t => (t.id, t.vm)

variable {w w' : Workflow α} {x vm : ℤ} {t : Task α}

theorem map_fst_bindings : w.bindings.map Prod.fst = w.ids := by
  unfold bindings ids
  rw [List.map_map]
  rfl

theorem ids_of_bindings (h : w'.bindings = w.bindings) : w'.ids = w.ids := by
  rw [← map_fst_bindings, h, map_fst_bindings]

theorem mem_bindings : (x, vm) ∈ w.bindings ↔ ∃ t, w.find? x = some t ∧ t.vm = vm := by
  constructor
  · intro h
    obtain ⟨t, ht, he⟩ := List.mem_map.1 h
    obtain ⟨rfl, rfl⟩ := Prod.mk.inj he
    exact ⟨t, find?_self ht, rfl⟩
  · rintro ⟨t, ht, rfl⟩
    obtain ⟨hm, rfl⟩ := find?_eq_some.1 ht
    exact List.mem_map.2 ⟨t, hm, rfl⟩

/-- An edit that keeps the VM keeps all bindings. -/
theorem bindings_modify (w : Workflow α) (id : ℤ) {f : Task α → Task α} (hf : ∀ t, (f t).vm = t.vm) :
    (w.modify id f).bindings = w.bindings := by
  unfold bindings modify
  rw [List.map_map]
  refine List.map_congr_left fun t _ => ?_
  show ((t.edit id f).id, (t.edit id f).vm) = (t.id, t.vm)
  unfold Task.edit
  split
  · rw [hf]
  · rfl

end Workflow

/-! ## Static dispatch -/

/-- Bound tasks are taken as they are. -/
theorem Batch.foldl_keepBinding_of_bound (fallback : ℤ) {tasks : List ℤ} {b : Batch α}
    (hperm : b.ready.Perm tasks)
    (hbound : ∀ x ∈ tasks, ∃ t, b.workflow.find? x = some t ∧ ∃ v ∈ b.vms, v.id = t.vm) :
    tasks.foldl (Batch.keepBinding fallback) b = { b with ready := [], bound := b.bound ++ tasks } := by
  induction tasks generalizing b with
  | nil =>
    have hready : b.ready = [] := hperm.eq_nil
    rw [List.append_nil, List.foldl_nil, ← hready]
  | cons x rest ih =>
    obtain ⟨t, ht, v, hv, hid⟩ := hbound x List.mem_cons_self
    have hany : b.vms.any (fun v => decide (v.id = t.vm)) = true :=
      List.any_eq_true.2 ⟨v, hv, decide_eq_true hid⟩
    have hkeep : Batch.keepBinding fallback b x =
        { b with ready := b.ready.erase x, bound := b.bound ++ [x] } := by
      simp only [Batch.keepBinding, ht, Option.map_some, Option.getD_some, hany, if_true]
    rw [List.foldl_cons, hkeep, ih]
    · simp only [List.append_assoc, List.singleton_append]
    · exact (List.cons_perm_iff_perm_erase.1 hperm.symm).2.symm
    · exact fun y hy => hbound y (List.mem_cons_of_mem x hy)

namespace Execution

/-! ## The batches of an execution -/

/-- The execution in which the tasks without parents are released. -/
def opened (w : World α) : Execution α :=
  w.workflow.roots.foldl (fun e t => e.releaseTask 0 t.id) (fresh w)

/-- A batch is bound, and its tasks are started one after the other. -/
def Dispatched (c : Costs α) (rule : Rule) (now : α) (e : Execution α) (batch : List ℤ)
    (e' : Execution α) : Prop :=
  ∃ e₁, bindPending rule e = .ok batch e₁ ∧ each (startTask c now) batch e₁ = .ok () e'

/-- The course of an execution: after the roots are released, and whenever the completions of an instant
have been processed, a batch is dispatched. -/
inductive Course (c : Costs α) (rule : Rule) (w : World α) : List (List ℤ) → Execution α → Prop
  | root {batch : List ℤ} {e : Execution α} :
    Dispatched c rule 0 (opened w) batch e → Course c rule w [batch] e
  | next {batches : List (List ℤ)} {batch : List ℤ} {first : Completion α} {e e₁ e₂ : Execution α} :
    Course c rule w batches e → earliest? e.completions = some first →
    each (complete first.finish) ((e.completions.filter (isDue first)).map Completion.task)
      { e with completions := e.completions.filter fun c => !isDue first c } = .ok () e₁ →
    Dispatched c rule first.finish e₁ batch e₂ → Course c rule w (batches ++ [batch]) e₂

section

variable {c : Costs α} {rule : Rule} {w : World α} {e : Execution α} {now : α}

theorem dispatch_dispatched : Leads (dispatch c rule now) e
    (fun _ e' => ∃ batch, Dispatched c rule now e batch e') fun _ _ => True := by
  refine (leads_self.mono (fun _ _ h => h) fun _ _ _ => trivial).bind fun batch e₁ hbind => ?_
  exact leads_self.mono (fun _ e' he => ⟨batch, e₁, hbind, he⟩) fun _ _ _ => trivial

theorem loop_course (fuel : ℕ) {batches : List (List ℤ)} (h : Course c rule w batches e) :
    Leads (loop c rule fuel) e (fun _ e' => ∃ batches, Course c rule w batches e') fun _ _ => True := by
  induction fuel generalizing e batches with
  | zero => exact ⟨batches, h⟩
  | succ fuel ih =>
    unfold loop
    rw [leads_bind, leads_get]
    cases hf : earliest? e.completions with
    | none => exact ⟨batches, h⟩
    | some first =>
      dsimp only
      unfold tick
      rw [leads_bind, leads_bind, leads_get, leads_bind, leads_set]
      refine (leads_self.mono (fun _ _ h => h) fun _ _ _ => trivial).bind fun _ e₁ hall => ?_
      refine dispatch_dispatched.mono (fun _ e₂ hd => ?_) fun _ _ _ => trivial
      obtain ⟨batch, hd⟩ := hd
      exact ih (h.next hf hall hd)

/-- An execution that returns has run its course, with one job for each task. -/
theorem run_course (c : Costs α) (rule : Rule) (w : World α) :
    Leads (run c rule) (fresh w) (fun _ e => ∃ batches e₀ makespan, Course c rule w batches e₀ ∧
      e₀.jobs.length = e₀.workflow.size ∧
      e = { e₀ with toWorld := e₀.toWorld.note (.executed rule e₀.jobs.length makespan) })
      fun _ _ => True := by
  unfold run
  rw [leads_bind, leads_get, leads_bind, leads_modify]
  refine dispatch_dispatched.bind fun _ e₁ hd => ?_
  obtain ⟨batch, hd⟩ := hd
  rw [leads_bind, leads_get]
  refine (loop_course _ (.root hd)).bind fun _ e₂ hcourse => ?_
  obtain ⟨batches, hcourse⟩ := hcourse
  rw [leads_bind, leads_get]
  refine Leads.unless (P := fun t => t = e₂ ∧ e₂.jobs.length = e₂.workflow.size) (fun _ => trivial)
    (fun h => ⟨rfl, not_not.1 h⟩) fun t ht => ?_
  obtain ⟨rfl, hsize⟩ := ht
  cases latest? (t.jobs.map Job.finish) with
  | none => exact trivial
  | some makespan => exact ⟨batches, t, makespan, hcourse, hsize, rfl⟩

end

/-! ## On plan -/

/-- An execution of a planned world, with a queue of tasks that are about to be started: bindings, VM ids
and the planned order are those of the plan, no task was released twice, and each job ran on the VM that
its task is bound to. -/
structure OnPlan (w : World α) (queue : List ℤ) (e : Execution α) : Prop where
  bindings : e.workflow.bindings = w.workflow.bindings
  vms : e.vms.map Vm.id = w.vms.map Vm.id
  planned : e.session.planned = w.session.planned
  nodup : (e.pending ++ (queue ++ e.session.submitted)).Nodup
  known : ∀ x ∈ e.pending ++ (queue ++ e.session.submitted), x ∈ w.workflow.ids
  spent : ∀ x ∈ e.pending ++ (queue ++ e.session.submitted), (e.remaining.get? x).getD 0 ≤ 0
  jobs : e.session.submitted = e.jobs.map Job.task
  placed : ∀ j ∈ e.jobs, (j.task, j.vm) ∈ w.workflow.bindings
  rebound : rebounds e.notes = rebounds w.notes

section

variable {w : World α} {queue : List ℤ} {e : Execution α} {c : Costs α} {now : α} {x : ℤ}

theorem OnPlan.ids (h : OnPlan w queue e) : e.workflow.ids = w.workflow.ids :=
  Workflow.ids_of_bindings h.bindings

theorem dispatch_static (b : Batch α) :
    Batch.dispatch .static b = match Batch.fallback? b.vms with
      | none => .error .emptyRoster b
      | some fallback => .ok () (b.dispatchStatic fallback) := by
  unfold Batch.dispatch
  rw [get_bind]
  cases Batch.fallback? b.vms <;> rfl

/-- A ready batch becomes the queue, in planned order. -/
theorem OnPlan.handOver (h : OnPlan w [] e) (hn : w.session.planned.Nodup)
    (hids : ∀ x ∈ w.workflow.ids, x ∈ w.session.planned) :
    OnPlan w (e.session.orderByPlan e.pending) { e with pending := [] } ∧
      (e.session.orderByPlan e.pending).Sublist w.session.planned := by
  have hperm : ([] ++ (e.session.orderByPlan e.pending ++ e.session.submitted)).Perm
      (e.pending ++ ([] ++ e.session.submitted)) :=
    (Session.orderByPlan_perm e.session e.pending).append_right _
  refine ⟨?_, ?_⟩
  · exact { h with
      nodup := hperm.nodup_iff.2 h.nodup
      known := fun x hx => h.known x (hperm.subset hx)
      spent := fun x hx => h.spent x (hperm.subset hx) }
  · have hsub : e.pending ⊆ w.session.planned := fun x hx =>
      hids x (h.known x (List.mem_append_left _ hx))
    rw [Session.orderByPlan_eq (h.planned.symm ▸ hn) (List.nodup_append.1 h.nodup).1
      (h.planned.symm ▸ hsub), h.planned]
    exact List.filter_sublist

/-- Static dispatch of bound tasks takes them in planned order and changes nothing else. -/
theorem OnPlan.bindPending_leads (h : OnPlan w [] e) (hn : w.session.planned.Nodup)
    (hids : ∀ x ∈ w.workflow.ids, x ∈ w.session.planned)
    (hbound : ∀ t ∈ w.workflow.tasks, ∃ v ∈ w.vms, v.id = t.vm) :
    Leads (bindPending .static) e
      (fun batch e' => OnPlan w batch e' ∧ e'.session = e.session ∧ batch.Sublist w.session.planned)
      fun _ _ => True := by
  obtain ⟨hplan, hsub⟩ := h.handOver hn hids
  have hready : ∀ x ∈ e.session.orderByPlan e.pending, ∃ t, e.workflow.find? x = some t ∧
      ∃ v ∈ e.vms, v.id = t.vm := by
    intro x hx
    have hx := h.known x (List.mem_append_left _ ((Session.orderByPlan_perm _ _).subset hx))
    obtain ⟨t, ht⟩ := Workflow.mem_ids.1 (h.ids ▸ hx)
    obtain ⟨u, hu, hvm⟩ := Workflow.mem_bindings.1 (h.bindings ▸ Workflow.mem_bindings.2 ⟨t, ht, rfl⟩)
    obtain ⟨v, hv, hid⟩ := hbound u (Workflow.find?_eq_some.1 hu).1
    obtain ⟨v', hv', hid'⟩ := List.mem_map.1 (h.vms.symm ▸ List.mem_map_of_mem (f := Vm.id) hv)
    exact ⟨t, ht, v', hv', by rw [hid', hid, hvm]⟩
  have htaken : ∀ fallback, Batch.dispatchStatic fallback { toWorld := e.toWorld, ready := e.pending } =
      { toWorld := e.toWorld, ready := [], bound := [] ++ e.session.orderByPlan e.pending } :=
    fun fallback => Batch.foldl_keepBinding_of_bound fallback
      (Session.orderByPlan_perm e.session e.pending).symm hready
  unfold Leads bindPending
  by_cases hnone : e.pending.isEmpty = true
  · rw [if_pos hnone]
    exact ⟨h, rfl, List.nil_sublist _⟩
  · rw [if_neg hnone, dispatch_static]
    dsimp only
    cases Batch.fallback? e.vms with
    | none => exact trivial
    | some fallback =>
      dsimp only
      rw [htaken, List.nil_append]
      exact ⟨hplan, rfl, hsub⟩

theorem OnPlan.launch (h : OnPlan w (x :: queue) e) {task : Task α}
    (ht : e.workflow.find? x = some task) {vm : Vm α} (hvm : vm.id = task.vm) (place : ℕ) (start : α) :
    OnPlan w queue (launch task vm place start (submit x e)) := by
  have hsubmitted : (Execution.launch task vm place start (submit x e)).session.submitted =
      e.session.submitted ++ [x] := rfl
  have hperm : (e.pending ++ (queue ++ (e.session.submitted ++ [x]))).Perm
      (e.pending ++ (x :: queue ++ e.session.submitted)) := by
    refine List.Perm.append_left _ ?_
    rw [← List.append_assoc]
    exact List.perm_append_comm
  constructor
  case bindings =>
    have hworkflow : (Execution.launch task vm place start (submit x e)).workflow =
        (e.workflow.modify x fun t => { t with submission := e.session.submitted.length }).modify task.id
          fun t => { t with start, finish := start + task.length / vm.mips } := rfl
    rw [hworkflow, Workflow.bindings_modify, Workflow.bindings_modify]
    · exact h.bindings
    · exact fun _ => rfl
    · exact fun _ => rfl
  case vms =>
    have hkin : e.toWorld.Kin (e.toWorld.editVm place fun v =>
        { v with busy := true, load := v.load + v.mips }) := World.kin_editVm _ _ fun _ => rfl
    have hids := World.map_vms_of_kin hkin (f := Vm.id) fun _ => rfl
    exact hids.trans h.vms
  case planned => exact h.planned
  case nodup => exact hperm.nodup_iff.2 h.nodup
  case known => exact fun y hy => h.known y (hperm.subset hy)
  case spent => exact fun y hy => h.spent y (hperm.subset hy)
  case jobs =>
    have hjobs : (Execution.launch task vm place start (submit x e)).jobs.map Job.task =
        e.jobs.map Job.task ++ [task.id] := List.map_append
    rw [hsubmitted, hjobs, h.jobs, (Workflow.find?_eq_some.1 ht).2]
  case placed =>
    intro j hj
    rcases List.mem_append.1 hj with hj | hj
    · exact h.placed j hj
    · rw [List.mem_singleton.1 hj, ← h.bindings]
      exact Workflow.mem_bindings.2 ⟨task, (Workflow.find?_eq_some.1 ht).2 ▸ ht, hvm.symm⟩
  case rebound => exact (rebounds_push rfl e.notes).trans h.rebound

/-- A task is started once, on the VM it is bound to. -/
theorem OnPlan.startTask_leads (h : OnPlan w (x :: queue) e) :
    Leads (startTask c now x) e (fun _ e' => OnPlan w queue e' ∧
      e'.session.submitted = e.session.submitted ++ [x]) fun _ _ => True := by
  unfold startTask
  rw [leads_bind, leads_query]
  refine ⟨fun task htask => ?_, fun _ _ => trivial⟩
  rw [leads_bind, leads_query]
  refine ⟨fun choice hat => ?_, fun _ _ => trivial⟩
  have hvm : choice.1.id = task.vm := by
    unfold vmAt at hat
    split at hat
    · next found hfound =>
      obtain rfl := Except.ok.inj hat
      rw [List.findRev?_eq_find?_reverse] at hfound
      simpa using List.find?_some hfound
    · cases hat
  refine Leads.unless (P := fun t => t = e) (fun _ => trivial) (fun _ => rfl) fun t ht => ?_
  subst ht
  rw [leads_bind, leads_modify, leads_bind, leads_query]
  refine ⟨fun start _ => ?_, fun _ _ => trivial⟩
  rw [leads_modify]
  exact ⟨h.launch (Workflow.get_eq_ok.1 htask) hvm choice.2 start, rfl⟩

theorem OnPlan.startAll_leads (h : OnPlan w queue e) :
    Leads (each (startTask c now) queue) e (fun _ e' => OnPlan w [] e' ∧
      e'.session.submitted = e.session.submitted ++ queue) fun _ _ => True := by
  have hloop := Leads.each (f := startTask c now) (E := fun _ _ => True) (l := queue)
    (I := fun rest e' => OnPlan w rest e' ∧
      e'.session.submitted ++ rest = e.session.submitted ++ queue)
    (fun x rest e' hI => hI.1.startTask_leads.mono (fun _ e'' h'' => ⟨h''.1, by
      rw [h''.2, ← hI.2, List.append_assoc]
      rfl⟩) fun _ _ _ => trivial) ⟨h, rfl⟩
  exact hloop.mono (fun _ e' h' => ⟨h'.1, by rw [← h'.2, List.append_nil]⟩) fun _ _ _ => trivial

/-- Counting down releases a task only if it was not released before. -/
theorem OnPlan.countDown (h : OnPlan w [] e) (hx : x ∈ w.workflow.ids) :
    OnPlan w [] (countDown now e x) ∧ (countDown now e x).session = e.session := by
  generalize hleft : (e.remaining.get? x).getD 0 - 1 = left
  have hget : ∀ y, ((e.remaining.set x left).get? y).getD 0 =
      if x = y then left else (e.remaining.get? y).getD 0 := by
    intro y
    rw [Table.get?_set]
    split <;> rfl
  have hspent : ∀ y ∈ e.pending ++ ([] ++ e.session.submitted),
      ((e.remaining.set x left).get? y).getD 0 ≤ 0 := by
    intro y hy
    have hle := h.spent y hy
    rw [hget]
    split
    · next he =>
      subst he
      omega
    · exact hle
  unfold Execution.countDown
  dsimp only
  rw [hleft]
  split
  · next hzero =>
    -- the last entry that is waited for was still open, so the task is not released yet
    have hnew : x ∉ e.pending ++ ([] ++ e.session.submitted) := fun hm => by
      have hle := h.spent x hm
      omega
    have hperm : (e.pending ++ [x] ++ ([] ++ e.session.submitted)).Perm
        (x :: (e.pending ++ ([] ++ e.session.submitted))) := by
      rw [List.append_assoc]
      exact List.perm_middle
    refine ⟨{ h with
      nodup := hperm.nodup_iff.2 (List.nodup_cons.2 ⟨hnew, h.nodup⟩)
      known := fun y hy => ?_
      spent := fun y hy => ?_ }, rfl⟩
    · rcases List.mem_cons.1 (hperm.subset hy) with rfl | hy
      · exact hx
      · exact h.known y hy
    · rcases List.mem_cons.1 (hperm.subset hy) with rfl | hy
      · show ((e.remaining.set y left).get? y).getD 0 ≤ 0
        rw [hget, if_pos rfl, hzero]
      · exact hspent y hy
  · exact ⟨{ h with spent := hspent }, rfl⟩

/-- Completing a task releases tasks that were not released before. -/
theorem OnPlan.complete_leads (h : OnPlan w [] e) :
    Leads (complete now x) e (fun _ e' => OnPlan w [] e' ∧ e'.session = e.session)
      fun _ _ => True := by
  have hfold : ∀ (children : List ℤ) (e : Execution α), OnPlan w [] e →
      (∀ y ∈ children, y ∈ w.workflow.ids) →
      OnPlan w [] (children.foldl (Execution.countDown now) e) ∧
        (children.foldl (Execution.countDown now) e).session = e.session := by
    intro children
    induction children with
    | nil => exact fun e h _ => ⟨h, rfl⟩
    | cons y children ih =>
      intro e h hids
      obtain ⟨hstep, hsession⟩ := h.countDown (hids y List.mem_cons_self)
      obtain ⟨hrest, hsession'⟩ := ih _ hstep fun z hz => hids z (List.mem_cons_of_mem y hz)
      exact ⟨hrest, hsession'.trans hsession⟩
  unfold complete
  rw [leads_bind, leads_query]
  refine ⟨fun task _ => ?_, fun _ _ => trivial⟩
  rw [leads_bind, leads_query]
  refine ⟨fun choice _ => ?_, fun _ _ => trivial⟩
  rw [leads_bind, leads_modify, leads_bind, leads_query]
  refine ⟨fun children hchildren => ?_, fun _ _ => trivial⟩
  have hunload : OnPlan w [] (unload choice.1 choice.2 e) := by
    refine { h with vms := ?_ }
    have hkin : e.toWorld.Kin (unload choice.1 choice.2 e).toWorld :=
      World.kin_editVm _ _ fun v => by split <;> rfl
    exact (World.map_vms_of_kin hkin (f := Vm.id) fun _ => rfl).trans h.vms
  rw [leads_modify]
  refine (hfold _ _ hunload fun y hy => ?_).imp_right fun hs => hs.trans rfl
  obtain ⟨t, ht, rfl⟩ := List.mem_map.1 hy
  rw [← hunload.ids]
  exact Workflow.mem_ids.2 ⟨t, Workflow.find?_of_getAll hchildren ht⟩

theorem OnPlan.completeAll_leads (h : OnPlan w [] e) (due : List ℤ) :
    Leads (each (complete now) due) e (fun _ e' => OnPlan w [] e' ∧ e'.session = e.session)
      fun _ _ => True :=
  Leads.each (f := complete now) (E := fun _ _ => True) (l := due)
    (I := fun _ e' => OnPlan w [] e' ∧ e'.session = e.session)
    (fun _ _ _ hI => hI.1.complete_leads.mono (fun _ _ h => ⟨h.1, h.2.trans hI.2⟩) fun _ _ _ => trivial)
    ⟨h, rfl⟩

theorem opened_eq (w : World α) : opened w =
    { fresh w with pending := w.workflow.roots.map Task.id, release := (opened w).release } := by
  have hfold : ∀ (ts : List (Task α)) (e : Execution α),
      ts.foldl (fun e t => e.releaseTask 0 t.id) e =
        { e with
          pending := e.pending ++ ts.map Task.id
          release := (ts.foldl (fun e t => e.releaseTask 0 t.id) e).release } := by
    intro ts
    induction ts with
    | nil => simp
    | cons t ts ih =>
      intro e
      rw [List.foldl_cons, ih]
      simp [releaseTask]
  exact hfold w.workflow.roots (fresh w)

/-- A root waits for no parent. -/
theorem spent_root (h : x ∈ w.workflow.roots.map Task.id) :
    ((fresh w).remaining.get? x).getD 0 ≤ 0 := by
  obtain ⟨t, ht, rfl⟩ := List.mem_map.1 h
  obtain ⟨hm, hroot⟩ := List.mem_filter.1 ht
  cases hget : (fresh w).remaining.get? t.id with
  | none => exact le_refl _
  | some left =>
    obtain ⟨u, hu, he⟩ := List.mem_map.1 (Table.mem_of_find hget)
    obtain ⟨hid, rfl⟩ := Prod.mk.inj he
    obtain rfl := List.inj_on_of_nodup_map w.workflow.nodup hu hm hid
    simp [List.isEmpty_iff.1 hroot]

/-- At first the roots are released, once each. -/
theorem onPlan_opened (w : World α) (hs : w.session.submitted = []) : OnPlan w [] (opened w) := by
  rw [opened_eq]
  have hreleased : w.workflow.roots.map Task.id ++ ([] ++ w.session.submitted) =
      w.workflow.roots.map Task.id := by rw [hs, List.nil_append, List.append_nil]
  constructor
  case bindings => rfl
  case vms => rfl
  case planned => rfl
  case nodup =>
    show (w.workflow.roots.map Task.id ++ ([] ++ w.session.submitted)).Nodup
    rw [hreleased]
    exact w.workflow.nodup.sublist (List.filter_sublist.map _)
  case known =>
    show ∀ x ∈ w.workflow.roots.map Task.id ++ ([] ++ w.session.submitted), x ∈ w.workflow.ids
    rw [hreleased]
    exact fun x hx => (List.filter_sublist.map _).subset hx
  case spent =>
    show ∀ x ∈ w.workflow.roots.map Task.id ++ ([] ++ w.session.submitted), _
    rw [hreleased]
    exact fun x hx => spent_root hx
  case jobs => exact hs
  case placed => exact fun j hj => by cases hj
  case rebound => rfl

end

/-- Every batch of an execution of a planned world is in planned order, and the tasks are submitted
batch by batch. -/
theorem Course.onPlan {c : Costs α} {w : World α} {batches : List (List ℤ)} {e : Execution α}
    (h : Course c .static w batches e) (hs : w.session.submitted = []) (hn : w.session.planned.Nodup)
    (hids : ∀ x ∈ w.workflow.ids, x ∈ w.session.planned)
    (hbound : ∀ t ∈ w.workflow.tasks, ∃ v ∈ w.vms, v.id = t.vm) :
    OnPlan w [] e ∧ e.session.submitted = batches.flatten ∧
      ∀ batch ∈ batches, batch.Sublist w.session.planned := by
  have hdispatch : ∀ {now : α} {e e' : Execution α} {batch : List ℤ}, OnPlan w [] e →
      Dispatched c .static now e batch e' → OnPlan w [] e' ∧
        e'.session.submitted = e.session.submitted ++ batch ∧ batch.Sublist w.session.planned := by
    intro now e e' batch h hd
    obtain ⟨e₁, hbind, hstart⟩ := hd
    obtain ⟨h₁, hsession, hsub⟩ := (h.bindPending_leads hn hids hbound).of_ok hbind
    obtain ⟨h', hsubmitted⟩ := h₁.startAll_leads.of_ok hstart
    exact ⟨h', hsession ▸ hsubmitted, hsub⟩
  induction h with
  | root hd =>
    obtain ⟨he, hsubmitted, hsub⟩ := hdispatch (onPlan_opened w hs) hd
    have hsession : (opened w).session = w.session := by rw [opened_eq]; rfl
    refine ⟨he, ?_, fun batch hb => List.mem_singleton.1 hb ▸ hsub⟩
    rw [hsubmitted, hsession, hs, List.nil_append, List.flatten_singleton]
  | @next batches batch first e e₁ e₂ _ _ hall hd ih =>
    obtain ⟨he, hflat, hsubs⟩ := ih
    have hpop : OnPlan w [] { e with completions := e.completions.filter fun c => !isDue first c } :=
      { he with }
    obtain ⟨h₁, hsession⟩ := (hpop.completeAll_leads _).of_ok hall
    obtain ⟨h₂, hsubmitted, hsub⟩ := hdispatch h₁ hd
    refine ⟨h₂, ?_, fun b hb => ?_⟩
    · rw [hsubmitted, hsession, List.flatten_append, List.flatten_singleton]
      exact congrArg (· ++ batch) hflat
    · rcases List.mem_append.1 hb with hb | hb
      · exact hsubs b hb
      · exact List.mem_singleton.1 hb ▸ hsub

end Execution

end FlowSched

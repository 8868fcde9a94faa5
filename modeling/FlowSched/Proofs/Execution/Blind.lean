import FlowSched.Proofs.Blind

/-!
# Executing does not look at the notes

Dispatching, starting and completing tasks are blind, and keep what survives every note, every record
in the session, and the edits of tasks and VMs that a reset undoes.
-/

namespace FlowSched

open Quantity Step Holder

variable {α : Type} [Quantity α] {P : World α → Prop}

section

variable (h : World.Lasting P (fun _ => True) fun _ _ => True)

include h

/-! ## Dispatching -/

namespace Batch

variable {b : Batch α}

theorem lasting_bind (hP : P b.toWorld) (rule : Rule) (task vm : ℤ) :
    P (b.bind rule task vm).toWorld :=
  h.note _ _ (h.editTask _ _ _ hP fun _ => rfl) trivial

theorem lasting_occupy (hP : P b.toWorld) (place : ℕ) : P (b.occupy place).toWorld :=
  h.editVm _ _ _ hP fun _ => rfl

theorem blind_bindNext (rule : Rule) : Blind P (atomic (bindNext rule : Batch α → _)) := by
  refine blind_atomic fun b ns hP => Matching.bind (b.workflow.getAll b.ready) fun tasks => ?_
  cases next? rule tasks with
  | none => exact ⟨⟨ns, rfl⟩, hP⟩
  | some t =>
    exact Matching.bind (select t b.vms) fun choice =>
      ⟨⟨ns.push _, rfl⟩, lasting_bind h (lasting_occupy h hP choice.2) rule t.id choice.1.id⟩

theorem blind_dispatchList (rule : Rule) : Blind P (dispatchList rule : Step (Fault α) (Batch α) Unit) :=
  get_blind (fun _ => blind_each (fun _ => blind_bindNext h rule) _) fun _ _ => rfl

omit h in
theorem renote_dealOut (tasks : List ℤ) (b : Batch α) (ns : Array (Note α)) :
    ∃ ns', (renote ns b).dealOut tasks = renote ns' (b.dealOut tasks) := by
  induction tasks generalizing b ns with
  | nil => exact ⟨ns, rfl⟩
  | cons task rest ih =>
    have hvms : (renote ns b).vms = b.vms := rfl
    unfold dealOut
    rw [hvms]
    cases (placesById b.vms).find? fun p => !p.1.busy with
    | none => exact ⟨ns, rfl⟩
    | some choice =>
      exact ih ((b.occupy choice.2).bind .roundRobin task choice.1.id) (ns.push _)

theorem lasting_dealOut (tasks : List ℤ) (hP : P b.toWorld) : P (b.dealOut tasks).toWorld := by
  induction tasks generalizing b with
  | nil => exact hP
  | cons task rest ih =>
    unfold dealOut
    cases (placesById b.vms).find? fun p => !p.1.busy with
    | none => exact hP
    | some choice => exact ih (lasting_bind h (lasting_occupy h hP choice.2) _ task choice.1.id)

omit h in
theorem renote_keepBinding (fallback task : ℤ) (b : Batch α) (ns : Array (Note α)) :
    ∃ ns', (renote ns b).keepBinding fallback task = renote ns' (b.keepBinding fallback task) := by
  have hvms : (renote ns b).vms = b.vms := rfl
  have hworkflow : (renote ns b).workflow = b.workflow := rfl
  unfold keepBinding
  dsimp only
  rw [hvms, hworkflow]
  split
  · exact ⟨ns, rfl⟩
  · exact ⟨ns.push _, rfl⟩

theorem lasting_keepBinding (fallback task : ℤ) (hP : P b.toWorld) :
    P (b.keepBinding fallback task).toWorld := by
  unfold keepBinding
  dsimp only
  split
  · exact hP
  · exact h.editTask _ _ _ (h.note _ _ hP trivial) fun _ => rfl

omit h in
theorem renote_dispatchStatic (fallback : ℤ) (b : Batch α) (ns : Array (Note α)) :
    ∃ ns', (renote ns b).dispatchStatic fallback = renote ns' (b.dispatchStatic fallback) := by
  have hfold : ∀ (tasks : List ℤ) (b : Batch α) (ns : Array (Note α)), ∃ ns',
      tasks.foldl (keepBinding fallback) (renote ns b) =
        renote ns' (tasks.foldl (keepBinding fallback) b) := by
    intro tasks
    induction tasks with
    | nil => exact fun b ns => ⟨ns, rfl⟩
    | cons task rest ih =>
      intro b ns
      obtain ⟨ns', he⟩ := renote_keepBinding fallback task b ns
      rw [List.foldl_cons, he]
      exact ih _ ns'
  exact hfold _ b ns

theorem lasting_dispatchStatic (fallback : ℤ) (hP : P b.toWorld) :
    P (b.dispatchStatic fallback).toWorld := by
  unfold dispatchStatic
  generalize b.session.orderByPlan b.ready = tasks
  induction tasks generalizing b with
  | nil => exact hP
  | cons task rest ih => exact ih (lasting_keepBinding h fallback task hP)

theorem blind_dispatch (rule : Rule) : Blind P (dispatch rule : Step (Fault α) (Batch α) Unit) := by
  unfold dispatch
  refine get_blind (fun b => ?_) fun _ _ => rfl
  cases fallback? b.vms with
  | none => exact blind_throw _
  | some fallback =>
    cases rule with
    | roundRobin =>
      exact blind_modify (fun b ns => renote_dealOut _ b ns) fun b hP => lasting_dealOut h _ hP
    | static =>
      exact blind_modify (renote_dispatchStatic fallback)
        fun b hP => lasting_dispatchStatic h fallback hP
    | minMin => exact blind_dispatchList h _
    | maxMin => exact blind_dispatchList h _
    | fcfs => exact blind_dispatchList h _

end Batch

/-! ## Executing -/

namespace Execution

/-- The released tasks as a batch. -/
def handOver (e : Execution α) : Batch α := { toWorld := e.toWorld, ready := e.pending }

/-- The execution after a batch was dispatched. -/
def takeBack (b : Batch α) (e : Execution α) : Execution α :=
  { e with toWorld := b.toWorld, pending := b.ready }

omit h in
/-- Binding the released tasks is dispatching them as a batch, if there are any. -/
theorem bindPending_eq (rule : Rule) (e : Execution α) :
    bindPending rule e =
      if e.pending.isEmpty then .ok [] e
      else zoom handOver takeBack (Batch.dispatch rule >>= fun _ => Batch.bound <$> get) e := by
  unfold bindPending
  by_cases hempty : e.pending.isEmpty = true
  · rw [if_pos hempty, if_pos hempty]
  · rw [if_neg hempty, if_neg hempty]
    show _ = zoom handOver takeBack (EStateM.bind (Batch.dispatch rule) _) e
    unfold zoom EStateM.bind handOver
    cases Batch.dispatch rule { toWorld := e.toWorld, ready := e.pending } <;> rfl

theorem blind_bindPending (rule : Rule) :
    Blind P (bindPending rule : Step (Fault α) (Execution α) (List ℤ)) := by
  have hbatch : Blind P (zoom handOver takeBack
      (Batch.dispatch rule >>= fun _ => (Batch.bound <$> get : Step (Fault α) (Batch α) _))) :=
    blind_zoom (fun _ _ => rfl) (fun _ => rfl) (fun _ _ _ ns' => ⟨ns', rfl⟩) (fun _ _ => rfl)
      ((Batch.blind_dispatch h rule).bind fun _ =>
        get_blind (fun b => blind_pure b.bound) fun _ _ => rfl)
  intro e ns hP
  have hempty : (renote ns e).pending.isEmpty = e.pending.isEmpty := rfl
  by_cases hnone : e.pending.isEmpty = true
  · exact (both_congr (by rw [bindPending_eq, if_pos hnone]; rfl)
      (by rw [bindPending_eq, if_pos (hempty.trans hnone)]; rfl)).2 (blind_pure [] e ns hP)
  · exact (both_congr (by rw [bindPending_eq, if_neg hnone])
      (by rw [bindPending_eq, if_neg fun hn => hnone (hempty.symm.trans hn)])).2 (hbatch e ns hP)

theorem blind_startTask (costs : Costs α) (now : α) (id : ℤ) : Blind P (startTask costs now id) := by
  unfold startTask
  refine (blind_query fun _ _ => rfl).bind fun task => (blind_query fun _ _ => rfl).bind fun choice =>
    (blind_throw _).unless fun _ => (blind_modify (fun _ ns => ⟨ns, rfl⟩) fun e hP => ?_).bind fun _ =>
    (blind_query fun _ _ => rfl).bind fun start => blind_modify (fun _ ns => ⟨ns.push _, rfl⟩)
    fun e hP => ?_
  · exact h.record _ _ (h.editTask e.toWorld id _ hP fun _ => rfl) trivial
  · exact h.note _ _ (h.editVm _ _ _ (h.editTask e.toWorld task.id _ hP fun _ => rfl) fun _ => rfl)
      trivial

theorem blind_dispatchPending (costs : Costs α) (rule : Rule) (now : α) :
    Blind P (dispatch costs rule now) :=
  (blind_bindPending h rule).bind fun _ => blind_each (blind_startTask h costs now) _

omit h in
/-- Changes that leave the world alone do so one after the other. -/
theorem foldl_aside {β : Type} {f : Execution α → β → Execution α}
    (hf : ∀ e b ns, (f e b).toWorld = e.toWorld ∧ f (renote ns e) b = renote ns (f e b))
    (bs : List β) (e : Execution α) (ns : Array (Note α)) :
    (bs.foldl f e).toWorld = e.toWorld ∧ bs.foldl f (renote ns e) = renote ns (bs.foldl f e) := by
  induction bs generalizing e with
  | nil => exact ⟨rfl, rfl⟩
  | cons b bs ih =>
    rw [List.foldl_cons, List.foldl_cons, (hf e b ns).2]
    exact ⟨(ih _).1.trans (hf e b ns).1, (ih _).2⟩

omit h in
theorem countDown_aside (now : α) (e : Execution α) (child : ℤ) (ns : Array (Note α)) :
    (countDown now e child).toWorld = e.toWorld ∧
      countDown now (renote ns e) child = renote ns (countDown now e child) := by
  have hremaining : (renote ns e).remaining = e.remaining := rfl
  unfold countDown
  dsimp only
  rw [hremaining]
  split <;> exact ⟨rfl, rfl⟩

omit h in
/-- A change that leaves the world alone is blind. -/
theorem blind_aside {g : Execution α → Execution α}
    (hg : ∀ e ns, (g e).toWorld = e.toWorld ∧ g (renote ns e) = renote ns (g e)) :
    Blind P (modify g : Step (Fault α) (Execution α) PUnit) :=
  blind_modify (fun e ns => ⟨ns, (hg e ns).2⟩) fun e hP => by
    show P (g e).toWorld
    rw [(hg e e.notes).1]
    exact hP

theorem blind_complete (now : α) (id : ℤ) :
    Blind P (complete now id : Step (Fault α) (Execution α) Unit) := by
  unfold complete
  refine (blind_query fun _ _ => rfl).bind fun task => (blind_query fun _ _ => rfl).bind fun choice =>
    (blind_modify (fun _ ns => ⟨ns, rfl⟩) fun e hP => ?_).bind fun _ =>
    (blind_query fun _ _ => rfl).bind fun children =>
    blind_aside fun e ns => foldl_aside (countDown_aside now) _ e ns
  refine h.editVm e.toWorld _ _ hP fun v => ?_
  split <;> rfl

theorem blind_tick (costs : Costs α) (rule : Rule) (first : Completion α) :
    Blind P (tick costs rule first) := by
  intro e ns hP
  unfold tick
  refine get_both.2 (Both.bind (Q := fun _ t _ t' => t' = renote ns t ∧ P t.toWorld)
    (both_set.2 ⟨rfl, hP⟩) fun _ t _ t' ht => ?_)
  obtain ⟨rfl, hPt⟩ := ht
  exact ((blind_each (blind_complete h first.finish) _).bind fun _ =>
    blind_dispatchPending h costs rule first.finish) t ns hPt

theorem blind_loop (costs : Costs α) (rule : Rule) (fuel : ℕ) : Blind P (loop costs rule fuel) := by
  induction fuel with
  | zero => exact blind_pure ()
  | succ fuel ih =>
    unfold loop
    refine get_blind (fun e => ?_) fun _ _ => rfl
    cases earliest? e.completions with
    | none => exact blind_pure ()
    | some first => exact (blind_tick h costs rule first).bind fun _ => ih

theorem blind_run (costs : Costs α) (rule : Rule) : Blind P (run costs rule) := by
  have hroots : ∀ roots : List (Task α), Blind P
      (modify fun e => roots.foldl (fun e t => e.releaseTask 0 t.id) e :
        Step (Fault α) (Execution α) PUnit) := fun roots =>
    blind_aside (foldl_aside (f := fun e (t : Task α) => e.releaseTask 0 t.id)
      (fun _ _ _ => ⟨rfl, rfl⟩) roots)
  unfold run
  refine get_blind (fun e => ?_) fun _ _ => rfl
  refine (hroots e.workflow.roots).bind fun _ =>
    (blind_dispatchPending h costs rule 0).bind fun _ => ?_
  refine get_blind (fun e => (blind_loop h costs rule _).bind fun _ => ?_) fun _ _ => rfl
  refine get_blind (fun e => ?_) fun _ _ => rfl
  refine (blind_throw _).unless fun _ => ?_
  cases latest? (e.jobs.map Job.finish) with
  | none => exact blind_throw _
  | some makespan =>
    exact blind_modify (fun _ ns => ⟨ns.push _, rfl⟩) fun e hP => h.note e.toWorld _ hP trivial

end Execution

end

end FlowSched

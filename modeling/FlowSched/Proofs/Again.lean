import FlowSched.Proofs.Execution.Blind
import FlowSched.Proofs.Planning.Blind
import FlowSched.Proofs.Run

/-!
# Runs after other runs

Whatever earlier runs have left on a workflow and its roster, failing ones included, is kin of what
they began with. A run checks only what kin share, resets the rest before it reads it, and never looks
at the notes. So it ends as it would have ended on the original (`run_after`), unless it is told to
keep the VMs that tasks are bound to.
-/

namespace FlowSched

open Quantity Step Holder

variable {α : Type} [Quantity α]

/-! ## What a check reads -/

namespace Workflow

variable (w : Workflow α) (keep : Bool)

@[simp] theorem contains_reset (id : ℤ) : (w.reset keep).contains id = w.contains id := by
  unfold contains reset
  rw [List.any_map]
  rfl

theorem awaited_reset (tasks : List (Task α)) (id : ℤ) :
    awaited (tasks.map (Task.reset keep)) id = awaited tasks id := by
  unfold awaited
  rw [List.any_map]
  rfl

theorem orderFrom_reset (fuel : ℕ) (remaining : List (Task α)) :
    (w.reset keep).orderFrom fuel (remaining.map (Task.reset keep)) =
      (w.orderFrom fuel remaining).map (List.map (Task.reset keep)) := by
  induction fuel generalizing remaining with
  | zero => rfl
  | succ fuel ih =>
    have hfind : (remaining.map (Task.reset keep)).find?
        (fun t => !awaited (remaining.map (Task.reset keep)) t.id) =
        (remaining.find? fun t => !awaited remaining t.id).map (Task.reset keep) := by
      rw [List.find?_map]
      simp only [awaited_reset]
      rfl
    unfold orderFrom
    rw [hfind]
    cases remaining.find? fun t => !awaited remaining t.id with
    | none =>
      dsimp only [Option.map_none]
      rw [List.isEmpty_map]
      split <;> rfl
    | some t =>
      have hrest : (remaining.map (Task.reset keep)).filter (·.id ≠ (t.reset keep).id) =
          (remaining.filter (·.id ≠ t.id)).map (Task.reset keep) := by
        rw [List.filter_map]
        rfl
      dsimp only [Option.map_some]
      rw [hrest]
      simp only [contains_reset, awaited_reset]
      have hchildren : (t.reset keep).children = t.children := rfl
      rw [hchildren]
      cases t.children.find? fun c =>
        !w.contains c && !awaited (remaining.filter (·.id ≠ t.id)) c with
      | some c => rfl
      | none =>
        dsimp only
        rw [ih]
        cases w.orderFrom fuel (remaining.filter (·.id ≠ t.id)) <;> rfl

theorem isAcyclic_reset : (w.reset keep).isAcyclic = w.isAcyclic := by
  have hsize : (w.reset keep).size = w.size := List.length_map _
  have htasks : (w.reset keep).tasks = w.tasks.map (Task.reset keep) := rfl
  unfold isAcyclic topologicalOrder
  rw [hsize, htasks, orderFrom_reset]
  cases w.orderFrom w.size w.tasks <;> rfl

theorem nodes_reset : (w.reset keep).nodes = w.nodes := by
  have hids : (w.reset keep).ids = w.ids := by
    simp [ids, reset, Function.comp_def, Task.reset]
  have hchildren : (w.reset keep).tasks.flatMap Task.children = w.tasks.flatMap Task.children := by
    simp [reset, List.flatMap_map, Task.reset]
  unfold nodes
  rw [hids, hchildren]
  simp only [contains_reset]

theorem walk_reset (start : ℤ) : (w.reset keep).walk start = w.walk start := by
  have hsuccessors : (w.reset keep).successors = w.successors := by
    funext id
    unfold successors
    rw [find?_reset]
    cases w.find? id <;> rfl
  have hedges : (w.reset keep).edges = w.edges := by
    simp [edges, reset, List.flatMap_map, Task.reset]
  unfold walk
  rw [hedges, nodes_reset, hsuccessors]

theorem cycleFrom_reset (starts explored : List ℤ) :
    (w.reset keep).cycleFrom explored starts = w.cycleFrom explored starts := by
  induction starts generalizing explored with
  | nil => rfl
  | cons start rest ih =>
    unfold cycleFrom
    rw [walk_reset]
    simp only [ih]

theorem checkTask_reset (t : Task α) : (w.reset keep).checkTask (t.reset keep) = w.checkTask t := by
  have hchild : (w.reset keep).checkChild (t.reset keep) = w.checkChild t := by
    funext c
    unfold checkChild
    rw [find?_reset]
    cases w.find? c <;> rfl
  have hparent : (w.reset keep).checkParent (t.reset keep) = w.checkParent t := by
    funext p
    unfold checkParent
    rw [find?_reset]
    cases w.find? p <;> rfl
  unfold checkTask
  rw [hchild, hparent]
  rfl

/-- A check reads nothing that a reset changes. -/
theorem check_reset : (w.reset keep).check = w.check := by
  have htasks : (w.reset keep).tasks.forM (w.reset keep).checkTask = w.tasks.forM w.checkTask := by
    show forM (w.tasks.map (Task.reset keep)) (w.reset keep).checkTask = forM w.tasks w.checkTask
    rw [List.forM_map]
    congr 1
    funext t
    exact checkTask_reset w keep t
  unfold check findCycle
  rw [htasks, isAcyclic_reset, nodes_reset, cycleFrom_reset]

end Workflow

theorem Workflow.check_of_kin {w w' : Workflow α} (h : w.Kin w') : w'.check = w.check := by
  rw [← check_reset w' false, ← check_reset w false, h]

/-! ## Runs are blind -/

namespace World

variable {P : World α → Prop}

theorem renote_report (jobs : List (Job α)) (w : World α) (ns : Array (Note α)) :
    jobs.foldl report (renote ns w) = renote ns (jobs.foldl report w) := by
  induction jobs generalizing w with
  | nil => rfl
  | cons j jobs ih => exact ih (w.report j)

section

variable (h : Lasting P (fun _ => True) fun _ _ => True)

include h

theorem lasting_report (jobs : List (Job α)) {w : World α} (hP : P w) : P (jobs.foldl report w) := by
  induction jobs generalizing w with
  | nil => exact hP
  | cons j jobs ih => exact ih (h.editTask w j.task _ hP fun _ => rfl)

theorem blind_plan (s : Settings α) : Blind P (plan s) := by
  unfold plan
  refine get_blind (fun w => (blind_ofExcept _).bind fun planner => (blind_modify
    (fun _ ns => ⟨ns.push _, rfl⟩) fun w hP => h.note w _ hP trivial).bind fun _ => ?_) fun _ _ => rfl
  cases planner with
  | none => exact blind_pure none
  | some planner => exact (planner.blind_run h (fun _ _ => trivial) fun _ _ => trivial).map

theorem blind_reconcile (delay : α) (withStart : Bool) (jobs : List (Job α)) :
    Blind P (reconcile delay withStart jobs) := by
  intro w ns hP
  obtain ⟨ns', hns⟩ := renote_noteAll (FlowSched.reconcile delay withStart jobs).notes w ns
  have hPt : P (w.noteAll (FlowSched.reconcile delay withStart jobs).notes) :=
    h.noteAll (fun _ _ => trivial) hP
  unfold Both reconcile
  dsimp only
  rw [hns]
  cases (FlowSched.reconcile delay withStart jobs).fault with
  | none => exact ⟨rfl, ⟨ns', rfl⟩, hPt⟩
  | some fault => exact ⟨rfl, ⟨ns', rfl⟩, hPt⟩

theorem blind_schedule (s : Settings α) : Blind P (schedule s) := by
  refine (blind_plan h s).bind fun plan => ?_
  unfold carryOut
  refine (blind_query fun _ _ => rfl).bind fun costs => blind_within (fun _ _ => rfl) (fun _ _ => rfl)
    (fun _ => rfl) (fun _ => rfl) (Execution.blind_run h costs _) (fun _ e => ?_) fun _ _ _ => rfl
  refine (blind_reconcile h _ _ _).bind fun jobs =>
    (blind_modify (fun w ns => ⟨ns, renote_report jobs w ns⟩) fun w hP => lasting_report h jobs hP).bind
      fun _ => ?_
  exact get_blind (fun w => blind_pure _) fun _ _ => rfl

end

/-! ## What runs leave behind -/

/-- Being kin of a world lasts. -/
theorem lasting_kin (w₀ : World α) : Lasting (Kin w₀) (fun _ => True) fun _ _ => True where
  note _ _ h _ := h.trans ⟨rfl, rfl⟩
  editTask w id _ h hf := h.trans (kin_editTask w id hf)
  editVm w place _ h hf := h.trans (kin_editVm w place hf)
  record _ _ h _ := h.trans ⟨rfl, rfl⟩

/-- A run comes down to the check of its settings and to its schedule. -/
theorem run_schedule (s : Settings α) (w : World α) {C : Array (Note α) → Prop}
    {Q : Outcome α → World α → Prop} {E : Fault α → World α → Prop}
    (hcheck : Leads s.check w.notes (fun _ notes => C notes) fun e notes => E e { w with notes })
    (hstay : ∀ e notes, C notes → E e { w with notes })
    (hschedule : ∀ notes, C notes →
      Leads (schedule s) { w.reset (s.algorithm = .static) with session := {}, notes }
        (fun o t => Q o { t with session := w.session }) fun e t => E e { t with session := w.session }) :
    Leads (run s) w Q E := by
  unfold run
  rw [leads_bind, leads_get, leads_bind, noting, leads_zoom]
  refine hcheck.mono (fun _ notes hn => ?_) fun _ _ h => h
  rw [leads_bind, leads_get]
  refine Leads.unless (P := fun t => t = { w with notes }) (fun _ => hstay _ notes hn) (fun _ => rfl)
    fun t ht => ?_
  subst ht
  rw [leads_bind, leads_ofExcept]
  refine ⟨fun _ _ => ?_, fun e _ => hstay e notes hn⟩
  rw [leads_bind, leads_modify, leads_zoom]
  exact hschedule notes hn

/-- A run leaves kin behind, whether it returns or fails. -/
theorem run_kin (s : Settings α) (w : World α) :
    Leads (run s) w (fun _ t => w.Kin t) fun _ t => w.Kin t := by
  have hnotes : ∀ notes : Array (Note α), w.Kin { w with notes } := fun _ => ⟨rfl, rfl⟩
  refine run_schedule (C := fun _ => True) s w (leads_true.mono (fun _ _ h => h) fun _ notes _ =>
    hnotes notes) (fun _ notes _ => hnotes notes) fun notes _ => ?_
  have hreset := kin_reset w (s.algorithm = .static)
  have hstart : w.Kin { w.reset (s.algorithm = .static) with session := {}, notes } :=
    ⟨hreset.workflow, hreset.vms⟩
  refine ((blind_schedule (lasting_kin w) s).leads rfl hstart).mono (fun _ u hu => ?_) fun _ u hu => ?_
  · exact ⟨hu.workflow, hu.vms⟩
  · exact ⟨hu.workflow, hu.vms⟩

/-- What a run leaves behind, whether it returns or fails. -/
def leftBy (s : Settings α) (w : World α) : World α :=
  match run s w with
  | .ok _ t => t
  | .error _ t => t

/-- The world after a sequence of runs. -/
def after (w : World α) (earlier : List (Settings α)) : World α :=
  earlier.foldl (fun w s => leftBy s w) w

theorem kin_leftBy (s : Settings α) (w : World α) : w.Kin (leftBy s w) := by
  have h := run_kin s w
  unfold Leads at h
  unfold leftBy
  cases hrun : run s w with
  | ok o t =>
    rw [hrun] at h
    exact h
  | error e t =>
    rw [hrun] at h
    exact h

theorem kin_after (w : World α) (earlier : List (Settings α)) : w.Kin (w.after earlier) := by
  unfold after
  induction earlier generalizing w with
  | nil => exact .refl w
  | cons s earlier ih => exact (kin_leftBy s w).trans (ih (leftBy s w))

/-! ## Runs on kin -/

/-- Settings are checked alike, whatever notes there are. -/
theorem check_both (s : Settings α) (ns ns' : Array (Note α)) :
    Both s.check ns s.check ns' (fun _ _ _ _ => True) fun e _ e' _ => e' = e := by
  have hunless : ∀ {c : Prop} [Decidable c] {m : Step (Fault α) (Array (Note α)) Unit}
      {f : Unit → Step (Fault α) (Array (Note α)) Unit} (ns ns' : Array (Note α)),
      (∀ ns ns', Both m ns m ns' (fun _ _ _ _ => True) fun e _ e' _ => e' = e) →
      (∀ ns ns', Both (f ()) ns (f ()) ns' (fun _ _ _ _ => True) fun e _ e' _ => e' = e) →
      Both (if c then m >>= f else f ()) ns (if c then m >>= f else f ()) ns' (fun _ _ _ _ => True)
        fun e _ e' _ => e' = e := fun ns ns' hm hf =>
    Both.unless Iff.rfl (fun _ => hm ns ns') (fun _ => trivial) fun t t' _ => hf t t'
  unfold Settings.check
  refine hunless ns ns' (fun _ _ => both_throw.2 rfl) fun ns ns' =>
    hunless ns ns' (fun _ _ => both_throw.2 rfl) fun ns ns' =>
    hunless ns ns' (fun _ _ => both_throw.2 rfl) fun ns ns' =>
    hunless ns ns' (fun _ _ => both_throw.2 rfl) fun ns ns' =>
    hunless ns ns' (fun _ _ => both_modify.2 trivial) fun ns ns' => ?_
  split
  · exact both_throw.2 rfl
  · exact both_pure.2 trivial

/-- Kin have the same reset, but for the notes. -/
theorem reset_of_kin {w w' : World α} (h : w.Kin w') (ns ns' : Array (Note α)) :
    ({ reset false (renote ns' w') with session := {} } : World α) =
      renote ns' ({ reset false (renote ns w) with session := {} } : World α) := by
  show ({ workflow := w'.workflow.reset false, vms := w'.vms.map Vm.release, session := {},
          notes := ns' } : World α) = _
  rw [h.workflow, h.vms]
  rfl

/-- Runs on kin end alike. -/
theorem run_both {s : Settings α} (hs : s.algorithm ≠ .static) {w w' : World α} (h : w.Kin w') :
    Both (run s) w (run s) w'
      (fun o w₁ o' w₁' => o' = o ∧ w₁'.workflow = w₁.workflow ∧ w₁'.vms = w₁.vms)
      fun e _ e' _ => e' = e := by
  have hempty : w.vms.isEmpty = true ↔ w'.vms.isEmpty = true := by
    rw [← List.isEmpty_map (f := Vm.release), ← h.vms, List.isEmpty_map]
  unfold run
  refine get_both.2 (Both.bind (Q := fun _ t _ t' => ∃ ns ns', t = renote ns w ∧ t' = renote ns' w')
    (both_zoom.2 ((check_both s w.notes w'.notes).mono (fun _ ns _ ns' _ => ⟨ns, ns', rfl, rfl⟩)
      fun _ _ _ _ he => he)) fun _ t _ t' ht => ?_)
  obtain ⟨ns, ns', rfl, rfl⟩ := ht
  refine get_both.2 (Both.unless (P := fun t t' => t = renote ns w ∧ t' = renote ns' w') hempty
    (fun _ => both_throw.2 rfl) (fun _ => ⟨rfl, rfl⟩) fun t t' ht => ?_)
  obtain ⟨rfl, rfl⟩ := ht
  refine Both.bind (Q := fun _ t _ t' => t = renote ns w ∧ t' = renote ns' w')
    (both_query (fun b hb => ⟨b, ?_, rfl, rfl⟩) fun e he => ⟨e, ?_, rfl⟩) fun _ t _ t' ht => ?_
  · exact (Workflow.check_of_kin h.workflow).trans hb
  · exact (Workflow.check_of_kin h.workflow).trans he
  obtain ⟨rfl, rfl⟩ := ht
  rw [decide_eq_false hs]
  refine Both.bind (Q := fun _ t _ t' => t = reset false (renote ns w) ∧
    t' = reset false (renote ns' w')) (both_modify.2 ⟨rfl, rfl⟩) fun _ t _ t' ht => ?_
  obtain ⟨rfl, rfl⟩ := ht
  rw [both_zoom, reset_of_kin h ns ns']
  -- from here on the two runs differ in their notes only
  have hlasting : Lasting (fun _ : World α => True) (fun _ => True) fun _ _ => True :=
    ⟨fun _ _ _ _ => trivial, fun _ _ _ _ _ => trivial, fun _ _ _ _ _ => trivial,
      fun _ _ _ _ => trivial⟩
  refine (blind_schedule hlasting s _ ns' trivial).mono (fun o t o' t' ht => ?_) fun e _ e' _ he => he.1
  obtain ⟨rfl, ⟨ns, rfl⟩, -⟩ := ht
  exact ⟨rfl, rfl, rfl⟩

/-- After any runs, returned or failed, a run that does not keep bindings ends as on the original: in
the same outcome, workflow and roster, or in the same fault. -/
theorem run_after (w : World α) (earlier : List (Settings α)) (s : Settings α)
    (hs : s.algorithm ≠ .static) :
    Both (run s) w (run s) (w.after earlier)
      (fun o w₁ o' w₁' => o' = o ∧ w₁'.workflow = w₁.workflow ∧ w₁'.vms = w₁.vms)
      fun e _ e' _ => e' = e :=
  run_both hs (kin_after w earlier)

/-- Two runs before: one is refused, and one stops midway, at a task that is too big for the VM it falls
back to. The bindings and the busy VM they leave behind do not show in a third run. -/
theorem run_after_detour : ∃ o w₁ w₁', run patient detour = .ok o w₁ ∧
    (detour.after [{ startFloor := -1 }, { algorithm := .static }]).vms.map Vm.busy = [true, false] ∧
    run patient (detour.after [{ startFloor := -1 }, { algorithm := .static }]) = .ok o w₁' := by
  have hrun : (match run patient detour with
    | .ok _ _ => true
    | .error _ _ => false) = true := by decide +kernel
  cases h : run patient detour with
  | ok o w₁ =>
    obtain ⟨o', w₁', hafter, rfl, -, -⟩ :=
      (run_after detour [{ startFloor := -1 }, { algorithm := .static }] patient (by decide)).of_ok h
    exact ⟨o', w₁, w₁', rfl, by decide +kernel, hafter⟩
  | error fault w₁ =>
    rw [h] at hrun
    cases hrun

end World

end FlowSched

import FlowSched.Proofs.Dispatch
import FlowSched.Proofs.Execution.Start

/-!
# Binding ready tasks

In a run, every rule binds ready tasks to VMs of the roster that are big enough if the rule can find
such VMs (`Dealing`), and it fails only if it cannot fit the workflow. Dealing out in turn binds
tasks to idle VMs only (`InTurn`).
-/

namespace FlowSched.Execution

open Quantity Step

/-- What a rule has done to a batch so far. -/
structure Dealing (rule : Rule) (w : World ℚ) (b₀ b : Batch ℚ) : Prop where
  kin : w.Kin b.toWorld
  session : b.session = b₀.session
  perm : (b.bound ++ b.ready).Perm b₀.ready
  untouched : ∀ x, x ∉ b.bound → b.workflow.find? x = b₀.workflow.find? x
  chosen : ∀ x ∈ b.bound, ∃ t, b.workflow.find? x = some t ∧ Bound rule w t
  busy : ∀ v ∈ b.vms, v.busy = true → (∃ u ∈ b₀.vms, u.id = v.id ∧ u.busy = true) ∨
    ∃ x ∈ b.bound, ∃ t, b.workflow.find? x = some t ∧ t.vm = v.id

/-- A batch that a rule may start with. -/
structure Handed (w : World ℚ) (b₀ : Batch ℚ) : Prop where
  kin : w.Kin b₀.toWorld
  bound : b₀.bound = []
  nodup : b₀.ready.Nodup
  known : ∀ x ∈ b₀.ready, x ∈ w.workflow.ids
  waiting : ∀ x ∈ b₀.ready, b₀.workflow.find? x = w.workflow.find? x

variable {rule : Rule} {w : World ℚ} {b₀ b : Batch ℚ}

theorem Handed.fresh (h : Handed w b₀) : b₀.Fresh where
  bound := h.bound
  nodup := h.nodup
  known x hx := by
    rw [Workflow.ids_of_kin h.kin.workflow]
    exact h.known x hx

/-! ## The VMs that a rule may choose -/

theorem fallback?_eq (vms : List (Vm ℚ)) : Batch.fallback? vms =
    ((vms.map Vm.id).find? (· = 0)).or (vms.map Vm.id).head? := by
  unfold Batch.fallback?
  rw [List.find?_map, List.head?_map, Option.map_or]
  rfl

/-- Which VM a plan leaves a task on depends on the ids of the roster alone. -/
theorem staticVm_congr {vms vms' : List (Vm ℚ)} (h : vms'.map Vm.id = vms.map Vm.id) (t : Task ℚ) :
    staticVm vms' t = staticVm vms t := by
  have hany : ∀ l : List (Vm ℚ), l.any (fun v => decide (v.id = t.vm)) =
      (l.map Vm.id).any fun x => decide (x = t.vm) := fun l => by
    rw [List.any_map]
    rfl
  unfold staticVm
  rw [fallback?_eq, fallback?_eq, hany, hany, h]

/-- The VM that static dispatch may choose is the one it leaves a task on. -/
theorem staticVm_of_eligible {vms : List (Vm ℚ)} {t : Task ℚ} {v : Vm ℚ} (hv : v ∈ vms)
    (he : Batch.Eligible .static vms t v) : staticVm vms t = v.id := by
  unfold staticVm
  rcases he with hid | ⟨hunknown, hf⟩
  · rw [if_pos (List.any_eq_true.2 ⟨v, hv, decide_eq_true hid⟩), hid]
  · rw [if_neg, hf]
    · rfl
    · intro hany
      obtain ⟨u, hu, hid⟩ := List.any_eq_true.1 hany
      exact hunknown (List.mem_map.2 ⟨u, hu, of_decide_eq_true hid⟩)

/-- A VM that a rule may choose is big enough if the rule can find such VMs. -/
theorem bound_of_eligible (h₀ : Handed w b₀) {x : ℤ} (hx : x ∈ b₀.ready) {t : Task ℚ}
    (ht : b₀.workflow.find? x = some t) {v : Vm ℚ} (hv : v ∈ b₀.vms)
    (he : Batch.Eligible rule b₀.vms t v) : Bound rule w { t with vm := v.id } := by
  rw [h₀.waiting x hx] at ht
  have htm : t ∈ w.workflow.tasks := (Workflow.find?_eq_some.1 ht).1
  have hids : b₀.vms.map Vm.id = w.vms.map Vm.id := World.map_vms_of_kin h₀.kin fun _ => rfl
  obtain ⟨i, hi⟩ := List.getElem?_of_mem hv
  obtain ⟨u, hu, hk⟩ := World.exists_vm_of_kin h₀.kin hi
  have hum : u ∈ w.vms := List.mem_of_getElem? hu
  refine ⟨u, hum, (congrArg Vm.id hk :).symm, fun hF => ?_⟩
  have hlist : Batch.isFeasible t v = true → t.elements ≤ u.elements := fun hf => by
    rw [Batch.isFeasible_of_kin hk, Batch.isFeasible, Bool.and_eq_true, decide_eq_true_eq] at hf
    exact hf.1
  cases rule with
  | minMin => exact hlist he
  | maxMin => exact hlist he
  | fcfs => exact hlist he
  | roundRobin => exact hF t htm u hum
  | static =>
    refine hF t htm u hum ?_
    rw [← staticVm_congr hids, staticVm_of_eligible hv he]
    exact (congrArg Vm.id hk :).symm

/-- What a rule has done to a batch of a run. -/
theorem dealing_of_dealt (h₀ : Handed w b₀) (h : b₀.Dealt rule b) : Dealing rule w b₀ b where
  kin := h₀.kin.trans h.kin
  session := h.session
  perm := h.perm
  untouched := h.untouched
  chosen x hx := by
    obtain ⟨t, ht, v, hv, he, hb⟩ := h.chosen x hx
    exact ⟨_, hb, bound_of_eligible h₀ (h.perm.subset (List.mem_append_left _ hx)) ht hv he⟩
  busy := h.busy

/-! ## Dispatching in a run -/

/-- A list rule that fits the workflow finds a feasible VM for every ready task. -/
theorem not_fits_of_hopeless (h₀ : Handed w b₀) (hr : Batch.isListRule rule)
    (h : b₀.Hopeless) : ¬ Fits rule w := by
  intro hF
  obtain ⟨x, hx, t, ht, hno⟩ := h
  rw [h₀.waiting x hx] at ht
  have hF : ∀ t ∈ w.workflow.tasks, ∃ v ∈ w.vms, Batch.isFeasible t v = true := by
    rcases hr with rfl | rfl | rfl <;> exact hF
  obtain ⟨v, hv, hf⟩ := hF t (Workflow.find?_eq_some.1 ht).1
  obtain ⟨i, hi⟩ := List.getElem?_of_mem hv
  obtain ⟨u, hu, hk⟩ := World.exists_vm_of_kin h₀.kin.symm hi
  rw [Batch.isFeasible_of_kin hk, hno u (List.mem_of_getElem? hu)] at hf
  cases hf

/-- A rule binds ready tasks to VMs of the roster, and fails only if it cannot fit the workflow. -/
theorem dispatch_leads (rule : Rule) (h₀ : Handed w b₀) (hne : w.vms ≠ []) :
    Leads (Batch.dispatch rule) b₀
      (fun _ b => Dealing rule w b₀ b ∧
        (b.ready = [] ∨ rule = .roundRobin ∧ ∀ v ∈ b.vms, v.busy = true))
      fun _ _ => ¬ Fits rule w := by
  refine (Batch.dispatch_leads rule h₀.fresh).mono
    (fun _ b hb => ⟨dealing_of_dealt h₀ hb.1, hb.2⟩) fun _ _ he => ?_
  rcases he with he | ⟨hr, hno⟩
  · refine absurd ?_ hne
    have hids : b₀.vms.map Vm.id = w.vms.map Vm.id := World.map_vms_of_kin h₀.kin fun _ => rfl
    rw [he] at hids
    exact List.map_eq_nil_iff.1 hids.symm
  · exact not_fits_of_hopeless h₀ hr hno

/-- Tasks were bound only to VMs that were idle at first, and those still idle were so at first. -/
structure InTurn (b₀ b : Batch ℚ) : Prop where
  idle : ∀ v ∈ b.vms, v.busy = false → ∃ u ∈ b₀.vms, u.id = v.id ∧ u.busy = false
  bound : ∀ x ∈ b.bound, ∃ t, b.workflow.find? x = some t ∧ ∃ u ∈ b₀.vms, u.id = t.vm ∧ u.busy = false

/-- Dealing out in turn binds tasks only to VMs that were idle. -/
theorem inTurn_of_dispatch (h₀ : Handed w b₀) (hm : Batch.dispatch .roundRobin b₀ = .ok () b) :
    InTurn b₀ b := by
  obtain ⟨hd, -⟩ := (Batch.dispatch_leads .roundRobin h₀.fresh).of_ok hm
  refine ⟨fun v hv hidle => ?_, fun x hx => ?_⟩
  · obtain ⟨u, hu, huv⟩ := hd.exists_vm hv
    obtain rfl := huv.eq_of_idle hidle
    exact ⟨v, hu, rfl, hidle⟩
  · obtain ⟨t, -, v, hv, hidle, hb⟩ := hd.chosen x hx
    exact ⟨_, hb, v, hv, rfl, hidle⟩

end FlowSched.Execution

import Mathlib.Data.Int.Notation
import Mathlib.Data.List.Nodup
import FlowSched.Proofs.Step
import FlowSched.Proofs.Table
import FlowSched.World

/-!
# What planning and execution leave alone

Planning and execution write the binding, the estimate and the report of a task, and whether a VM is
busy. Tasks, workflows and worlds are kin if they agree in everything else: resetting them gives the
same. Whatever reads none of the written fields has the same answer on kin (`map_of_kin`).
-/

namespace FlowSched

variable {α : Type} [Quantity α]

namespace Task

/-- Tasks that agree in all that planning and execution never write. -/
structure Kin (t t' : Task α) : Prop where
  id : t'.id = t.id
  length : t'.length = t.length
  elements : t'.elements = t.elements
  parents : t'.parents = t.parents
  children : t'.children = t.children
  files : t'.files = t.files
  transfers : t'.transfers = t.transfers
  depth : t'.depth = t.depth
  offload : t'.offload = t.offload
  latency : t'.latency = t.latency

theorem kin_iff {t t' : Task α} : t.Kin t' ↔ t'.reset false = t.reset false := by
  constructor
  · intro h
    simp only [reset, h.id, h.length, h.elements, h.parents, h.children, h.files, h.transfers, h.depth,
      h.offload, h.latency, Bool.false_eq_true, if_false]
  · intro h
    injection h
    constructor <;> assumption

theorem Kin.symm {t t' : Task α} (h : t.Kin t') : t'.Kin t := kin_iff.2 (kin_iff.1 h).symm

/-- An edit that leaves ids alone. -/
theorem edit_eq {f : Task α → Task α} (hf : ∀ t, (f t).id = t.id) (id : ℤ) (t : Task α) :
    t.edit id f = if t.id = id then f t else t := by
  unfold edit
  rw [← hf t]

end Task

namespace Workflow

section

variable {w : Workflow α} {t : Task α} {id x : ℤ}

/-- A workflow is determined by its tasks. -/
theorem eq_of_tasks {w' : Workflow α} (h : w'.tasks = w.tasks) : w' = w := by
  cases w
  cases w'
  simpa using h

/-- The task of an id is the one that bears it. -/
theorem find?_eq_some : w.find? id = some t ↔ t ∈ w.tasks ∧ t.id = id := find?_key_eq_some w.nodup

theorem find?_self (ht : t ∈ w.tasks) : w.find? t.id = some t := find?_eq_some.2 ⟨ht, rfl⟩

theorem mem_ids : id ∈ w.ids ↔ ∃ t, w.find? id = some t := by
  simp only [ids, List.mem_map, find?_eq_some]

theorem contains_iff {id : ℤ} : w.contains id = true ↔ id ∈ w.ids := by
  simp [contains, ids]

theorem get_eq_ok : w.get id = .ok t ↔ w.find? id = some t := by
  unfold get
  cases w.find? id <;> simp

/-- Known ids are looked up together. -/
theorem getAll_eq_ok {ids : List ℤ} (h : ∀ id ∈ ids, ∃ t, w.find? id = some t) :
    ∃ ts, w.getAll ids = .ok ts ∧ ts.map Task.id = ids := by
  induction ids with
  | nil => exact ⟨[], rfl, rfl⟩
  | cons id ids ih =>
    obtain ⟨t, ht⟩ := h id List.mem_cons_self
    obtain ⟨ts, hts, hmap⟩ := ih fun x hx => h x (List.mem_cons_of_mem _ hx)
    refine ⟨t :: ts, ?_, by rw [List.map_cons, hmap, (find?_eq_some.1 ht).2]⟩
    unfold getAll at hts ⊢
    rw [List.mapM_cons, get_eq_ok.2 ht, ok_bind, hts]
    rfl

theorem find?_of_getAll {ids : List ℤ} {ts : List (Task α)} (h : w.getAll ids = .ok ts)
    (ht : t ∈ ts) : w.find? t.id = some t := by
  obtain ⟨id, -, hget⟩ := exists_of_mem_mapM h t ht
  rw [get_eq_ok] at hget
  rwa [(find?_eq_some.1 hget).2]

theorem find?_modify (f : Task α → Task α) :
    (w.modify id f).find? x = (w.find? x).map (Task.edit id f) := by
  unfold find? modify
  rw [List.find?_map]
  congr 2
  funext t
  simp

theorem find?_modify_self {f : Task α → Task α} (h : w.find? id = some t) :
    (w.modify id f).find? id = some { f t with id := id } := by
  rw [find?_modify, h, Option.map_some, Task.edit, if_pos (find?_eq_some.1 h).2,
    (find?_eq_some.1 h).2]

theorem find?_modify_of_ne {f : Task α → Task α} (h : x ≠ id) :
    (w.modify id f).find? x = w.find? x := by
  rw [find?_modify]
  cases ht : w.find? x with
  | none => rfl
  | some t => rw [Option.map_some, Task.edit, if_neg (fun e => h ((find?_eq_some.1 ht).2.symm.trans e))]

theorem find?_reset (keep : Bool) : (w.reset keep).find? x = (w.find? x).map (Task.reset keep) := by
  unfold find? reset
  rw [List.find?_map]
  rfl

end

/-! ## Kin -/

/-- Workflows that agree in all that planning and execution never write. -/
def Kin (w w' : Workflow α) : Prop := w'.reset false = w.reset false

theorem reset_reset (w : Workflow α) (keep : Bool) : (w.reset keep).reset false = w.reset false := by
  simp only [reset, List.map_map]
  rfl

theorem Kin.symm {w w' : Workflow α} (h : Kin w w') : Kin w' w := Eq.symm h

theorem Kin.trans {w w' w'' : Workflow α} (h : Kin w w') (h' : Kin w' w'') : Kin w w'' :=
  Eq.trans h' h

theorem kin_reset (w : Workflow α) (keep : Bool) : Kin w (w.reset keep) := reset_reset w keep

/-- An edit that a reset undoes leads to kin. -/
theorem kin_modify (w : Workflow α) (id : ℤ) {f : Task α → Task α}
    (hf : ∀ t, (f t).reset false = t.reset false) : Kin w (w.modify id f) := by
  unfold Kin
  simp only [reset, modify, List.map_map]
  congr 1
  refine List.map_congr_left fun t _ => ?_
  show (t.edit id f).reset false = t.reset false
  unfold Task.edit
  split
  · rw [← hf t]
    simp only [Task.reset]
    congr 1
    exact (congrArg Task.id (hf t)).symm
  · rfl

section

variable {w w' : Workflow α} (h : Kin w w')

include h

theorem map_of_kin {β : Type} {f : Task α → β} (hf : ∀ t, f (t.reset false) = f t) :
    w'.tasks.map f = w.tasks.map f := by
  have key := congrArg (fun w => w.tasks.map f) h
  simpa [reset, List.map_map, Function.comp_def, hf] using key

theorem ids_of_kin : w'.ids = w.ids := map_of_kin h fun _ => rfl

theorem size_of_kin : w'.size = w.size := by
  have := congrArg List.length (ids_of_kin h)
  simpa [ids, size] using this

theorem tasks_eq_nil_of_kin (he : w'.tasks = []) : w.tasks = [] := by
  have hsize := size_of_kin h
  rw [size, he] at hsize
  exact List.length_eq_zero_iff.1 hsize.symm

theorem find?_of_kin (id : ℤ) :
    (w'.find? id).map (Task.reset false) = (w.find? id).map (Task.reset false) := by
  rw [← find?_reset, ← find?_reset, h]

/-- The task of an id has a counterpart in a kin. -/
theorem exists_of_kin {id : ℤ} {t : Task α} (ht : w.find? id = some t) :
    ∃ t', w'.find? id = some t' ∧ t.Kin t' := by
  have key := find?_of_kin h id
  rw [ht, Option.map_some, Option.map_eq_some_iff] at key
  obtain ⟨t', ht', he⟩ := key
  exact ⟨t', ht', Task.kin_iff.2 he⟩

theorem mem_of_kin {t' : Task α} (ht : t' ∈ w'.tasks) : ∃ t ∈ w.tasks, t.Kin t' := by
  obtain ⟨t, ht, hk⟩ := exists_of_kin h.symm (find?_self ht)
  exact ⟨t, (find?_eq_some.1 ht).1, hk.symm⟩

/-- The tasks of an id in kin are kin. -/
theorem task_of_kin {id : ℤ} {t t' : Task α} (ht : w.find? id = some t)
    (ht' : w'.find? id = some t') : t.Kin t' := by
  obtain ⟨u, hu, hk⟩ := exists_of_kin h ht
  rw [ht'] at hu
  exact Option.some.inj hu ▸ hk

end

end Workflow

/-- VMs with distinct ids stand at one place each. -/
theorem Vm.place_inj {vms : List (Vm α)} (hn : (vms.map Vm.id).Nodup) {i j : ℕ} {u v : Vm α}
    (hi : vms[i]? = some u) (hj : vms[j]? = some v) (he : u.id = v.id) : i = j := by
  refine (List.getElem?_inj (l := vms.map Vm.id) ?_ hn).1 ?_
  · rw [List.length_map]
    exact (List.getElem?_eq_some_iff.1 hi).1
  · rw [List.getElem?_map, List.getElem?_map, hi, hj, Option.map_some, Option.map_some, he]

/-- When the element at a place is changed, an element is that one or stands at another place. -/
theorem of_mem_modify {β : Type} {l : List β} {place : ℕ} {v x : β} (hv : l[place]? = some v)
    {f : β → β} (hx : x ∈ l.modify place f) : x = f v ∨ ∃ i, place ≠ i ∧ l[i]? = some x := by
  obtain ⟨i, hi⟩ := List.getElem?_of_mem hx
  rw [List.getElem?_modify] at hi
  obtain ⟨u, hu, rfl⟩ := Option.map_eq_some_iff.1 hi
  by_cases hp : place = i
  · rw [← hp, hv] at hu
    rw [if_pos hp, Option.some.inj hu]
    exact Or.inl rfl
  · rw [if_neg hp]
    exact Or.inr ⟨i, hp, hu⟩

/-- When the VM at a place is changed, a VM of the roster is that one or another one as it was. -/
theorem Vm.mem_modify {vms : List (Vm α)} (hn : (vms.map Vm.id).Nodup) {place : ℕ} {v x : Vm α}
    (hv : vms[place]? = some v) {f : Vm α → Vm α} (hx : x ∈ vms.modify place f) :
    x = f v ∨ x ∈ vms ∧ x.id ≠ v.id := by
  refine (of_mem_modify hv hx).imp_right fun ⟨i, hp, hi⟩ => ?_
  exact ⟨List.mem_of_getElem? hi, fun he => hp (place_inj hn hv hi he.symm)⟩

namespace World

/-- Worlds that agree in all that planning and execution never write. -/
structure Kin (w w' : World α) : Prop where
  workflow : w.workflow.Kin w'.workflow
  vms : w'.vms.map Vm.release = w.vms.map Vm.release

theorem Kin.refl (w : World α) : Kin w w := ⟨rfl, rfl⟩

theorem Kin.symm {w w' : World α} (h : Kin w w') : Kin w' w := ⟨h.workflow.symm, h.vms.symm⟩

theorem Kin.trans {w w' w'' : World α} (h : Kin w w') (h' : Kin w' w'') : Kin w w'' :=
  ⟨h.workflow.trans h'.workflow, h'.vms.trans h.vms⟩

theorem kin_reset (w : World α) (keep : Bool) : Kin w (w.reset keep) := by
  refine ⟨Workflow.kin_reset w.workflow keep, ?_⟩
  simp only [reset, List.map_map]
  rfl

theorem kin_editTask (w : World α) (id : ℤ) {f : Task α → Task α}
    (hf : ∀ t, (f t).reset false = t.reset false) : Kin w (w.editTask id f) :=
  ⟨Workflow.kin_modify w.workflow id hf, rfl⟩

theorem kin_editVm (w : World α) (place : ℕ) {f : Vm α → Vm α}
    (hf : ∀ v, (f v).release = v.release) : Kin w (w.editVm place f) := by
  refine ⟨rfl, ?_⟩
  refine List.ext_getElem? fun i => ?_
  simp only [editVm, List.getElem?_map, List.getElem?_modify]
  cases w.vms[i]? with
  | none => rfl
  | some v => by_cases hi : place = i <;> simp [hi, hf]

theorem map_vms_of_kin {w w' : World α} (h : Kin w w') {β : Type} {f : Vm α → β}
    (hf : ∀ v, f v.release = f v) : w'.vms.map f = w.vms.map f := by
  have key := congrArg (List.map f) h.vms
  simpa [List.map_map, Function.comp_def, hf] using key

/-- A VM has a counterpart in a kin, at the same place. -/
theorem exists_vm_of_kin {w w' : World α} (h : Kin w w') {i : ℕ} {v' : Vm α}
    (hv : w'.vms[i]? = some v') : ∃ v, w.vms[i]? = some v ∧ v'.release = v.release := by
  have key := congrArg (·[i]?) h.vms
  simp only [List.getElem?_map, hv, Option.map_some] at key
  obtain ⟨v, hv, he⟩ := Option.map_eq_some_iff.1 key.symm
  exact ⟨v, hv, he.symm⟩

end World

end FlowSched

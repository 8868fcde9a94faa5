import Mathlib.Data.List.Sort
import FlowSched.Proofs.Dispatch

/-!
# Dealing out in turn

For every task the VMs are looked through again in order of their ids, while the ones that were given a
task turn busy. All the same each step meets the next of the VMs that were idle at first (`dealOut_eq`). So
the least ready id goes to the least idle VM, the next one to the next, until either run out, and nothing
else changes (`dispatch_in_turn`).
-/

namespace FlowSched.Batch

open Quantity Step

variable {α : Type} [Quantity α] {vms : List (Vm α)} {b b₀ : Batch α}

/-- The idle VMs of a roster with their places, in order of their ids. -/
def idleById (vms : List (Vm α)) : List (Vm α × ℕ) := (placesById vms).filter fun (v, _) => !v.busy

/-- Binds a task to the VM at a place, which turns busy. -/
def deal (b : Batch α) (p : ℤ × Vm α × ℕ) : Batch α := (b.occupy p.2.2).bind .roundRobin p.1 p.2.1.id

/-- A roster in which the VM at a place has turned busy. -/
def turnBusy (place : ℕ) (vms : List (Vm α)) : List (Vm α) :=
  vms.modify place fun v => { v with busy := true }

/-! ## Idle VMs in order -/

theorem zipIdx_modify {β : Type} (place : ℕ) (f : β → β) (l : List β) :
    (l.modify place f).zipIdx = l.zipIdx.map fun p => if p.2 = place then (f p.1, p.2) else p := by
  refine List.ext_getElem? fun i => ?_
  simp only [List.getElem?_zipIdx, List.getElem?_modify, List.getElem?_map, Nat.zero_add, Option.map_map]
  cases l[i]? with
  | none => rfl
  | some x => by_cases h : place = i <;> simp [h, eq_comm]

/-- A VM that turns busy keeps its place in the order of ids. -/
theorem placesById_turnBusy (place : ℕ) (vms : List (Vm α)) : placesById (turnBusy place vms) =
    (placesById vms).map fun p => if p.2 = place then ({ p.1 with busy := true }, p.2) else p := by
  unfold placesById turnBusy
  rw [zipIdx_modify]
  refine (List.map_mergeSort fun a _ b _ => ?_).symm
  have hid : ∀ p : Vm α × ℕ,
      (if p.2 = place then ({ p.1 with busy := true }, p.2) else p).1.id = p.1.id := fun p => by
    split <;> rfl
  rw [hid, hid]

theorem nodup_places (vms : List (Vm α)) : ((placesById vms).map Prod.snd).Nodup := by
  refine ((List.mergeSort_perm _ _).map Prod.snd).nodup_iff.2 ?_
  rw [List.zipIdx_map_snd]
  exact List.nodup_range'

theorem mem_idleById {v : Vm α} {place : ℕ} :
    (v, place) ∈ idleById vms ↔ vms[place]? = some v ∧ v.busy = false := by
  rw [idleById, List.mem_filter, mem_placesById, Bool.not_eq_true']

/-- Once the first idle VM has turned busy, the others are idle. -/
theorem idleById_turnBusy {v : Vm α} {place : ℕ} {rest : List (Vm α × ℕ)}
    (h : idleById vms = (v, place) :: rest) : idleById (turnBusy place vms) = rest := by
  have hfilter : idleById (turnBusy place vms) = (idleById vms).filter fun p => p.2 ≠ place := by
    unfold idleById
    rw [placesById_turnBusy, List.filter_map, List.filter_filter]
    refine (List.map_congr_left fun p hp => ?_).trans ((List.map_id _).trans ?_)
    · have hp := (List.mem_filter.1 hp).2
      have hne : p.2 ≠ place := fun he => by simp [he] at hp
      rw [if_neg hne]
      rfl
    · refine List.filter_congr fun p _ => ?_
      by_cases he : p.2 = place <;> simp [he]
  have hn : ((idleById vms).map Prod.snd).Nodup :=
    (nodup_places vms).sublist (List.filter_sublist.map _)
  rw [h, List.map_cons, List.nodup_cons] at hn
  rw [hfilter, h, List.filter_cons_of_neg (by simp), List.filter_eq_self]
  intro p hp
  have hne : p.2 ≠ place := fun he => hn.1 (List.mem_map.2 ⟨p, hp, he⟩)
  simpa using hne

/-- Dealing out brings the tasks together with the VMs that were idle, in order of their ids. -/
theorem dealOut_eq (tasks : List ℤ) (b : Batch α) :
    b.dealOut tasks = (tasks.zip (idleById b.vms)).foldl deal b := by
  induction tasks generalizing b with
  | nil => rfl
  | cons x rest ih =>
    have hfirst : (placesById b.vms).find? (fun (v, _) => !v.busy) = (idleById b.vms).head? :=
      List.head?_filter.symm
    unfold dealOut
    rw [hfirst]
    cases hidle : idleById b.vms with
    | nil => rfl
    | cons p others =>
      obtain ⟨v, place⟩ := p
      rw [List.zip_cons_cons, List.foldl_cons, ← idleById_turnBusy hidle]
      exact ih _

/-- Ids in ascending order. -/
theorem pairwise_mergeSort_lt {ids : List ℤ} (hn : ids.Nodup) :
    (ids.mergeSort fun a b => decide (a ≤ b)).Pairwise (· < ·) := by
  have hle := List.pairwise_mergeSort' (fun a b : ℤ => a ≤ b) ids
  exact (hle.and ((List.mergeSort_perm _ _).nodup_iff.2 hn)).imp fun h => lt_of_le_of_ne h.1 h.2

/-- The idle VMs in order of their ids are the idle ones of the roster, ascending. -/
theorem idleById_sorted (hn : (vms.map Vm.id).Nodup) :
    ((idleById vms).map Prod.fst).Perm (vms.filter fun v => !v.busy) ∧
      ((idleById vms).map Prod.fst).Pairwise fun u v : Vm α => u.id < v.id := by
  have hperm : ((placesById vms).map Prod.fst).Perm vms := by
    have := (List.mergeSort_perm vms.zipIdx fun a b => decide (a.1.id ≤ b.1.id)).map Prod.fst
    rwa [List.zipIdx_map_fst] at this
  have hfilter : (idleById vms).map Prod.fst =
      ((placesById vms).map Prod.fst).filter fun v => !v.busy := by
    rw [idleById, List.filter_map]
    rfl
  have hids : (placesById vms).map (fun p => p.1.id) =
      (vms.map Vm.id).mergeSort fun a b => decide (a ≤ b) := by
    have hroster : vms.zipIdx.map (fun p => p.1.id) = vms.map Vm.id := by
      have := congrArg (List.map Vm.id) (List.zipIdx_map_fst 0 vms)
      rwa [List.map_map] at this
    rw [← hroster]
    exact List.map_mergeSort fun _ _ _ _ => rfl
  have hsorted : ((placesById vms).map Prod.fst).Pairwise fun u v : Vm α => u.id < v.id := by
    rw [List.pairwise_map]
    exact List.pairwise_map.1 (hids ▸ pairwise_mergeSort_lt hn)
  rw [hfilter]
  exact ⟨hperm.filter _, hsorted.sublist List.filter_sublist⟩

/-! ## What was dealt -/

section

variable (ps : List (ℤ × Vm α × ℕ))

theorem bound_foldl_deal (b : Batch α) : (ps.foldl deal b).bound = b.bound ++ ps.map Prod.fst := by
  induction ps generalizing b with
  | nil => simp
  | cons p ps ih =>
    rw [List.foldl_cons, ih]
    exact List.append_assoc _ _ _

theorem ready_foldl_deal (b : Batch α) : (ps.foldl deal b).ready = b.ready.diff (ps.map Prod.fst) := by
  induction ps generalizing b with
  | nil => rfl
  | cons p ps ih =>
    rw [List.foldl_cons, ih, List.map_cons, List.diff_cons]
    rfl

theorem vms_foldl_deal (b : Batch α) (i : ℕ) : (ps.foldl deal b).vms[i]? =
    b.vms[i]?.map fun v => if i ∈ ps.map (fun p => p.2.2) then { v with busy := true } else v := by
  induction ps generalizing b with
  | nil => simp
  | cons p ps ih =>
    rw [List.foldl_cons, ih]
    show (turnBusy p.2.2 b.vms)[i]?.map _ = _
    rw [turnBusy, List.getElem?_modify]
    cases b.vms[i]? with
    | none => rfl
    | some v =>
      have hmem : i ∈ (p :: ps).map (fun p => p.2.2) ↔ i = p.2.2 ∨ i ∈ ps.map fun p => p.2.2 :=
        List.mem_cons
      by_cases he : i = p.2.2
      · simp [he]
      · simp only [hmem, he, Ne.symm he, false_or, if_false, Option.map_some]
        rfl

theorem find?_foldl_deal_of_not_mem (b : Batch α) {x : ℤ} (hx : x ∉ ps.map Prod.fst) :
    (ps.foldl deal b).workflow.find? x = b.workflow.find? x := by
  induction ps generalizing b with
  | nil => rfl
  | cons p ps ih =>
    rw [List.map_cons, List.mem_cons, not_or] at hx
    rw [List.foldl_cons, ih _ hx.2]
    exact Workflow.find?_modify_of_ne hx.1

/-- A task that was dealt is bound to the VM it was dealt to. -/
theorem find?_foldl_deal (b : Batch α) (hn : (ps.map Prod.fst).Nodup) {p : ℤ × Vm α × ℕ} (hp : p ∈ ps)
    {t : Task α} (ht : b.workflow.find? p.1 = some t) :
    (ps.foldl deal b).workflow.find? p.1 = some { t with vm := p.2.1.id } := by
  induction ps generalizing b with
  | nil => cases hp
  | cons q ps ih =>
    rw [List.map_cons, List.nodup_cons] at hn
    rw [List.foldl_cons]
    rcases List.mem_cons.1 hp with rfl | hp
    · obtain ⟨-, hid⟩ := Workflow.find?_eq_some.1 ht
      rw [find?_foldl_deal_of_not_mem ps _ hn.1]
      refine (Workflow.find?_modify_self ht).trans ?_
      rw [← hid]
    · have hne : p.1 ≠ q.1 := fun he => hn.1 (he ▸ List.mem_map_of_mem hp)
      exact ih _ hn.2 hp ((Workflow.find?_modify_of_ne hne).trans ht)

end

/-- Ready tasks and idle VMs, both in order of their ids, brought together one to one. -/
structure DealtOut (b₀ b : Batch α) (ids : List ℤ) (idle : List (Vm α)) : Prop where
  ids_perm : ids.Perm b₀.ready
  ids_sorted : ids.Pairwise (· < ·)
  idle_perm : idle.Perm (b₀.vms.filter fun v => !v.busy)
  idle_sorted : idle.Pairwise fun u v : Vm α => u.id < v.id
  bound : b.bound = ids.take idle.length
  length : b.bound.length = min b₀.ready.length idle.length
  chosen : ∀ (i : ℕ) (x : ℤ) (v : Vm α), ids[i]? = some x → idle[i]? = some v →
    ∃ t, b₀.workflow.find? x = some t ∧ b.workflow.find? x = some { t with vm := v.id }
  vms : b.vms = b₀.vms.map fun v =>
    if v.id ∈ (idle.take ids.length).map Vm.id then { v with busy := true } else v
  ready : b.ready = b₀.ready.filter fun x => x ∉ b.bound
  others : ∀ x, x ∉ b.bound → b.workflow.find? x = b₀.workflow.find? x
  workflow : b₀.workflow.Kin b.workflow
  session : b.session = b₀.session

/-- With distinct ids, VMs can be told by their places or by their ids. -/
theorem mem_places_iff (hn : (vms.map Vm.id).Nodup) {ps : List (Vm α × ℕ)}
    (hps : ∀ p ∈ ps, vms[p.2]? = some p.1) {i : ℕ} {v : Vm α} (hv : vms[i]? = some v) :
    i ∈ ps.map Prod.snd ↔ v.id ∈ (ps.map Prod.fst).map Vm.id := by
  simp only [List.mem_map]
  constructor
  · rintro ⟨p, hp, rfl⟩
    obtain rfl := Option.some.inj ((hps p hp).symm.trans hv)
    exact ⟨p.1, ⟨p, hp, rfl⟩, rfl⟩
  · rintro ⟨_, ⟨p, hp, rfl⟩, he⟩
    exact ⟨p, hp, Vm.place_inj hn (hps p hp) hv he⟩

theorem map_fst_zip {β γ : Type} (xs : List β) (ys : List γ) :
    (xs.zip ys).map Prod.fst = xs.take ys.length := by
  induction xs generalizing ys with
  | nil => simp
  | cons x xs ih => cases ys <;> simp [ih]

theorem map_snd_zip {β γ : Type} (xs : List β) (ys : List γ) :
    (xs.zip ys).map Prod.snd = ys.take xs.length := by
  induction xs generalizing ys with
  | nil => simp
  | cons x xs ih => cases ys <;> simp [ih]

/-- What dealing out the ready tasks has done. -/
theorem dealtOut (h₀ : Fresh b₀) (hn : (b₀.vms.map Vm.id).Nodup)
    (hd : Dealt .roundRobin b₀ (dispatchRoundRobin b₀)) :
    DealtOut b₀ (dispatchRoundRobin b₀) (b₀.ready.mergeSort fun a b => decide (a ≤ b))
      ((idleById b₀.vms).map Prod.fst) := by
  have heq : dispatchRoundRobin b₀ = _ := dealOut_eq _ b₀
  obtain ⟨hidle, hascending⟩ := idleById_sorted hn
  have hperm : (b₀.ready.mergeSort fun a b => decide (a ≤ b)).Perm b₀.ready := List.mergeSort_perm _ _
  have hsorted := pairwise_mergeSort_lt h₀.nodup
  generalize b₀.ready.mergeSort (fun a b => decide (a ≤ b)) = ids at *
  have hplaces : ∀ p ∈ idleById b₀.vms, b₀.vms[p.2]? = some p.1 := fun p hp => (mem_idleById.1 hp).1
  generalize idleById b₀.vms = idle at *
  have hfst := map_fst_zip ids idle
  have hsnd := map_snd_zip ids idle
  generalize hps : ids.zip idle = ps at *
  have hbound : (dispatchRoundRobin b₀).bound = ids.take idle.length := by
    rw [heq, bound_foldl_deal, h₀.bound, List.nil_append, hfst]
  refine ⟨hperm, hsorted, hidle, hascending, ?_, ?_, fun i x v hx hv => ?_, ?_, ?_, hd.untouched,
    hd.workflow, hd.session⟩
  · rw [hbound, List.length_map]
  · rw [hbound, List.length_take, List.length_map, hperm.length_eq, min_comm]
  · obtain ⟨p, hp, rfl⟩ := Option.map_eq_some_iff.1 ((List.getElem?_map ..).symm.trans hv)
    have hmem : (x, p) ∈ ps := List.mem_of_getElem? (hps ▸ List.getElem?_zip_eq_some.2 ⟨hx, hp⟩)
    obtain ⟨t, ht⟩ := Workflow.mem_ids.1 (h₀.known x (hperm.subset (List.mem_of_getElem? hx)))
    refine ⟨t, ht, heq ▸ find?_foldl_deal ps b₀ ?_ hmem ht⟩
    rw [hfst]
    exact (hperm.nodup_iff.2 h₀.nodup).sublist (List.take_sublist _ _)
  · refine List.ext_getElem? fun i => ?_
    rw [heq, vms_foldl_deal, List.getElem?_map]
    cases hv : b₀.vms[i]? with
    | none => rfl
    | some v =>
      have hsub : ∀ p ∈ ps.map Prod.snd, b₀.vms[p.2]? = some p.1 := fun p hp =>
        hplaces p (List.mem_of_mem_take (hsnd ▸ hp))
      have hiff := mem_places_iff hn hsub hv
      rw [List.map_map, hsnd, List.map_take] at hiff
      simp only [Option.map_some, ← hiff]
      rfl
  · rw [hbound, heq, ready_foldl_deal, h₀.nodup.sdiff_eq_filter, hfst]

/-- Dealing out takes place wherever there is a VM. -/
theorem dispatch_roundRobin_eq_ok :
    dispatch .roundRobin b₀ = .ok () b ↔ b₀.vms ≠ [] ∧ dispatchRoundRobin b₀ = b := by
  unfold dispatch
  rw [get_bind]
  cases hf : fallback? b₀.vms with
  | none => exact ⟨fun h => (by cases h), fun h => absurd (fallback?_eq_none hf) h.1⟩
  | some fallback =>
    have hne : b₀.vms ≠ [] := fun hnil => by
      rw [hnil] at hf
      cases hf
    show EStateM.Result.ok () (dispatchRoundRobin b₀) = .ok () b ↔ _
    simp [hne]

/-- Dealing out binds as many tasks as there are both ready tasks and idle VMs: the ready ids in
ascending order to the idle VMs in ascending order. Those VMs turn busy, and the other tasks stay ready as
they were. -/
theorem dispatch_in_turn (b₀ : Batch α) (h₀ : Fresh b₀) (hne : b₀.vms ≠ [])
    (hn : (b₀.vms.map Vm.id).Nodup) :
    ∃ b ids idle, dispatch .roundRobin b₀ = .ok () b ∧ DealtOut b₀ b ids idle := by
  have hrun := dispatch_roundRobin_eq_ok.2 ⟨hne, rfl⟩
  exact ⟨_, _, _, hrun, dealtOut h₀ hn ((dispatch_leads .roundRobin h₀).of_ok hrun).1⟩

/-- Three tasks and two idle VMs, none of them in order of their ids. -/
def shuffled : Batch ℚ where
  workflow := { tasks := [{ id := 1, length := 10 }, { id := 2, length := 10 }, { id := 3, length := 10 }]
                nodup := by decide }
  vms := [{ id := 2, mips := 10 }, { id := 0, mips := 10, busy := true }, { id := 1, mips := 10 }]
  ready := [3, 1, 2]

theorem dispatch_in_turn_shuffled : shuffled.Fresh ∧ shuffled.vms ≠ [] ∧ (shuffled.vms.map Vm.id).Nodup ∧
    ∃ b ids idle, dispatch .roundRobin shuffled = .ok () b ∧ DealtOut shuffled b ids idle ∧
      b.bound.length = 2 := by
  have hfresh : shuffled.Fresh := ⟨rfl, by decide, by decide⟩
  have hne : shuffled.vms ≠ [] := by decide
  have hn : (shuffled.vms.map Vm.id).Nodup := by decide
  obtain ⟨b, ids, idle, hrun, hdealt⟩ := dispatch_in_turn shuffled hfresh hne hn
  have hidle : idle.length = 2 := hdealt.idle_perm.length_eq
  exact ⟨hfresh, hne, hn, b, ids, idle, hrun, hdealt, by rw [hdealt.length, hidle]; rfl⟩

end FlowSched.Batch

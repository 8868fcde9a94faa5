import FlowSched.Proofs.Cost

/-!
# Edges listed in another order

The edges of a workflow can be added in any order. Workflows that come of two orders are relisted: they
hold the same tasks in the same places, and each edge list and each table of transfer times holds the
same entries, in whatever order. Relisting changes neither the outcome of the check, nor a place in
topological order, nor any cost.
-/

namespace FlowSched

open Quantity

/-! ## Tables -/

namespace Table

variable {β : Type}

/-- Tables of one entry for each key that were filled in two orders. -/
structure Relisted (t t' : Table β) : Prop where
  entries : t'.entries.Perm t.entries
  keys : t.keys.Nodup

variable {t t' : Table β} (h : t.Relisted t')

include h

theorem Relisted.symm : t'.Relisted t :=
  ⟨h.entries.symm, (h.entries.map Prod.fst).nodup_iff.2 h.keys⟩

theorem Relisted.get? (k : ℤ) : t'.get? k = t.get? k := by
  ext v
  rw [Table.get?, Table.get?, find_eq_some h.keys, find_eq_some h.symm.keys, h.entries.mem_iff]

theorem Relisted.isEmpty : t'.entries.isEmpty = t.entries.isEmpty := h.entries.isEmpty_eq

end Table

/-! ## Tasks -/

namespace Task

/-- A task without its edges. -/
def unlinked (t : Task ℚ) : Task ℚ := { t with parents := [], children := [], transfers := {} }

/-- Tasks that differ only in the order in which their edges are listed. -/
structure Relisted (t t' : Task ℚ) : Prop where
  same : t'.unlinked = t.unlinked
  parents : t'.parents.Perm t.parents
  children : t'.children.Perm t.children
  transfers : t.transfers.Relisted t'.transfers

variable {t t' p p' : Task ℚ} (h : t.Relisted t')

include h

theorem Relisted.symm : t'.Relisted t :=
  ⟨h.same.symm, h.parents.symm, h.children.symm, h.transfers.symm⟩

/-- What does not depend on edges is the same in relisted tasks. -/
theorem Relisted.field {β : Type} (f : Task ℚ → β) (hf : ∀ t, f t.unlinked = f t) : f t' = f t := by
  rw [← hf t', h.same, hf t]

theorem Relisted.id : t'.id = t.id := h.field _ fun _ => rfl

theorem Relisted.vm : t'.vm = t.vm := h.field _ fun _ => rfl

theorem Relisted.isEstimated : t'.isEstimated = t.isEstimated := h.field _ fun _ => rfl

omit h in
theorem map_eq_of_relisted {ts ts' : List (Task ℚ)} (h : List.Forall₂ Task.Relisted ts ts') {β : Type}
    {f : Task ℚ → β} (hf : ∀ t, f t.unlinked = f t) : ts'.map f = ts.map f :=
  map_eq_map (List.Forall₂.imp (fun _ _ ht => Task.Relisted.field ht f hf) h)

end Task

/-! ## Workflows -/

/-- Workflows of the same tasks in the same places, with edges listed in another order. -/
def Workflow.Relisted (w w' : Workflow ℚ) : Prop := List.Forall₂ Task.Relisted w.tasks w'.tasks

namespace Workflow

variable {w w' : Workflow ℚ}

theorem Relisted.symm (h : w.Relisted w') : w'.Relisted w :=
  List.Forall₂.imp (fun _ _ ht => Task.Relisted.symm ht) h.flip

theorem Relisted.ids (h : w.Relisted w') : w'.ids = w.ids := Task.map_eq_of_relisted h fun _ => rfl

theorem Relisted.contains (h : w.Relisted w') (x : ℤ) : w'.contains x = w.contains x := by
  rw [Bool.eq_iff_iff, contains_iff, contains_iff, h.ids]

theorem Relisted.find? (h : w.Relisted w') (x : ℤ) :
    Option.Rel Task.Relisted (w.find? x) (w'.find? x) :=
  rel_find? (fun _ _ ht => by rw [ht.id]) h

theorem Relisted.exists_find? (h : w.Relisted w') {x : ℤ} {t : Task ℚ} (ht : w.find? x = some t) :
    ∃ t', w'.find? x = some t' ∧ t.Relisted t' := by
  have hfind := h.find? x
  rw [ht] at hfind
  generalize w'.find? x = r at hfind
  cases hfind with
  | some hr => exact ⟨_, rfl, hr⟩

/-- A task of a relisted workflow has been relisted. -/
theorem Relisted.exists_mem (h : w.Relisted w') {t' : Task ℚ} (ht : t' ∈ w'.tasks) :
    ∃ t ∈ w.tasks, t.Relisted t' := exists_of_forall₂_right h t' ht

/-- Relisting keeps a workflow checked. -/
theorem Checked.of_relisted (hw : w.Checked) (h : w.Relisted w') : w'.Checked := by
  obtain ⟨rank, hrank⟩ := hw.ranked
  refine ⟨⟨fun t' ht' x hx => ?_, fun t' ht' x hx => ?_⟩, fun t' ht' => ?_, fun t' ht' => ?_,
    fun t' ht' x hx => ?_, rank, fun t' ht' x hx => ?_⟩
  all_goals obtain ⟨t, ht, hr⟩ := h.exists_mem ht'
  · obtain ⟨u, hu, hm⟩ := hw.child t ht x (hr.children.mem_iff.1 hx)
    obtain ⟨u', hu', hru⟩ := h.exists_find? hu
    exact ⟨u', hu', hru.parents.mem_iff.2 (hr.id ▸ hm)⟩
  · obtain ⟨u, hu, hm⟩ := hw.parent t ht x (hr.parents.mem_iff.1 hx)
    obtain ⟨u', hu', hru⟩ := h.exists_find? hu
    exact ⟨u', hu', hru.children.mem_iff.2 (hr.id ▸ hm)⟩
  · rw [hr.field Task.length fun _ => rfl]
    exact hw.length t ht
  · rw [hr.field Task.elements fun _ => rfl]
    exact hw.elements t ht
  · exact hw.transfers t ht x ((hr.transfers.entries.map Prod.snd).mem_iff.1 hx)
  · rw [hr.id]
    exact hrank t ht x (hr.children.mem_iff.1 hx)

/-- An edit that does not look at edges. -/
theorem Relisted.modify (h : w.Relisted w') (x : ℤ) {f : Task ℚ → Task ℚ} (hid : ∀ t, (f t).id = t.id)
    (hf : ∀ t t', t.Relisted t' → (f t).Relisted (f t')) : (w.modify x f).Relisted (w'.modify x f) := by
  refine List.forall₂_map_left_iff.2 (List.forall₂_map_right_iff.2 (List.Forall₂.imp ?_ h))
  intro t t' ht
  rw [Task.edit_eq hid, Task.edit_eq hid, ht.id]
  split
  · exact hf t t' ht
  · exact ht

/-! ### Topological order -/

theorem awaited_relisted {ts ts' : List (Task ℚ)} (h : List.Forall₂ Task.Relisted ts ts') (x : ℤ) :
    awaited ts' x = awaited ts x := by
  unfold awaited
  induction h with
  | nil => rfl
  | cons ht _ ih => rw [List.any_cons, List.any_cons, ih, ht.children.contains_eq]

/-- Relisted tasks are ordered alike. -/
theorem orderFrom_relisted (h : w.Relisted w') {fuel : ℕ} {ts ts' order : List (Task ℚ)}
    (hts : List.Forall₂ Task.Relisted ts ts') (ho : w.orderFrom fuel ts = .ok order) :
    ∃ order', w'.orderFrom fuel ts' = .ok order' ∧ List.Forall₂ Task.Relisted order order' := by
  induction fuel generalizing ts ts' order with
  | zero => exact ⟨[], rfl, Except.ok.inj ho ▸ .nil⟩
  | succ fuel ih =>
    unfold orderFrom at ho ⊢
    have hfirst : Option.Rel Task.Relisted (ts.find? fun t => !awaited ts t.id)
        (ts'.find? fun t => !awaited ts' t.id) :=
      rel_find? (fun _ _ ht => by rw [ht.id, awaited_relisted hts]) hts
    generalize ts.find? _ = r at hfirst ho
    generalize ts'.find? _ = r' at hfirst ⊢
    cases hfirst with
    | none =>
      have hempty : ts'.isEmpty = ts.isEmpty := by cases hts <;> rfl
      dsimp only at ho ⊢
      rw [hempty]
      split at ho
      · rw [if_pos ‹_›]
        exact ⟨[], rfl, Except.ok.inj ho ▸ .nil⟩
      · cases ho
    | @some t t' ht =>
      have hrest : List.Forall₂ Task.Relisted (ts.filter (·.id ≠ t.id)) (ts'.filter (·.id ≠ t'.id)) :=
        List.rel_filter (fun _ _ hu => by simp [hu.id, ht.id]) hts
      dsimp only at ho ⊢
      split at ho
      · cases ho
      · next hnone =>
        obtain ⟨rest, hok, horder⟩ := bind_eq_ok.1 ho
        obtain ⟨rest', hok', hrel⟩ := ih hrest hok
        have hnone' : t'.children.find? (fun c => !w'.contains c &&
            !awaited (ts'.filter (·.id ≠ t'.id)) c) = none := by
          rw [List.find?_eq_none] at hnone ⊢
          intro c hc
          rw [h.contains, awaited_relisted hrest]
          exact hnone c (ht.children.mem_iff.1 hc)
        rw [hnone']
        refine ⟨t' :: rest', by rw [hok']; rfl, ?_⟩
        rw [← Except.ok.inj horder]
        exact .cons ht hrel

/-- Relisting changes no topological order. -/
theorem topologicalOrder_relisted (h : w.Relisted w') {order : List (Task ℚ)}
    (ho : w.topologicalOrder = .ok order) :
    ∃ order', w'.topologicalOrder = .ok order' ∧ order'.map Task.id = order.map Task.id := by
  have hsize : w'.size = w.size := (List.Forall₂.length_eq h).symm
  obtain ⟨order', ho', hrel⟩ := orderFrom_relisted h h ho
  exact ⟨order', by rw [topologicalOrder, hsize]; exact ho', Task.map_eq_of_relisted hrel fun _ => rfl⟩

end Workflow

/-! ## Costs -/

/-- Costs that agree on all that planners look up. -/
structure Costs.Agree (c c' : Costs ℚ) : Prop where
  compute : c'.compute = c.compute
  moving : ∀ p x time, c'.moving p x = .ok time ↔ c.moving p x = .ok time

section

variable {w w' : Workflow ℚ} {vms : List (Vm ℚ)} {c c' : Costs ℚ}

theorem Costs.Agree.symm (h : c.Agree c') : c'.Agree c :=
  ⟨h.compute.symm, fun p x time => (h.moving p x time).symm⟩

theorem Costs.Agree.average (h : c.Agree c') (x : ℤ) : c'.average x = c.average x := by
  rw [Costs.average, h.compute]
  rfl

theorem Costs.Agree.computing (h : c.Agree c') (x vm : ℤ) : c'.computing x vm = c.computing x vm := by
  rw [Costs.computing, h.compute]
  rfl

theorem transferTime_relisted {p p' t t' : Task ℚ} (hp : p.Relisted p') (ht : t.Relisted t')
    (bandwidth : ℚ) : transferTime p' t' bandwidth = transferTime p t bandwidth := by
  have hbytes : sharedBytes p' t' = sharedBytes p t := by
    unfold sharedBytes
    rw [hp.field Task.outputs fun _ => rfl, ht.field Task.inputs fun _ => rfl]
  unfold transferTime fileTransferTime
  rw [hbytes, hp.id, ht.id, ht.transfers.isEmpty, ht.transfers.get?]

/-- Computing times do not depend on edges. -/
theorem computeTimes_relisted (h : w.Relisted w') :
    computeTimes w'.tasks vms = computeTimes w.tasks vms := by
  have hrows : ∀ f : Task ℚ → Except (Fault ℚ) (ℤ × Table (Duration ℚ)), (∀ t, f t.unlinked = f t) →
      w'.tasks.mapM f = w.tasks.mapM f := by
    intro f hf
    have hmap := congrArg (List.mapM id) (Task.map_eq_of_relisted h hf)
    rwa [List.mapM_map, List.mapM_map] at hmap
  unfold computeTimes
  rw [hrows _ fun _ => rfl]

/-- A relisted workflow can be priced, too. -/
theorem exists_costs_of_relisted (h : w.Relisted w') (hc : Costs.ofWorkflow w vms = .ok c) :
    ∃ c', Costs.ofWorkflow w' vms = .ok c' := by
  obtain ⟨hbandwidth, hcompute, hrows⟩ := ofWorkflow_eq_ok.1 hc
  obtain ⟨rows', hrows'⟩ : ∃ rows', transferTimes w' c.bandwidth = .ok rows' := by
    refine exists_transferTimes.2 fun t' ht' => exists_transferRow.2 fun x hx => ?_
    obtain ⟨t, ht, hr⟩ := h.exists_mem ht'
    obtain ⟨u, time, hu, htime⟩ := exists_transferRow.1 (exists_transferTimes.1 ⟨_, hrows⟩ t ht) x
      (hr.children.mem_iff.1 hx)
    obtain ⟨u', hu', hru⟩ := h.exists_find? hu
    exact ⟨u', time, hu', (transferTime_relisted hr hru _).trans htime⟩
  exact ⟨⟨c.bandwidth, c.compute, rows'⟩,
    ofWorkflow_eq_ok.2 ⟨hbandwidth, (computeTimes_relisted h).trans hcompute, hrows'⟩⟩

/-- Data of a relisted workflow is moved in the same time. -/
theorem moving_relisted (h : w.Relisted w') (hc : Costs.ofWorkflow w vms = .ok c)
    (hc' : Costs.ofWorkflow w' vms = .ok c') {p x : ℤ} {time : ℚ} (hm : c.moving p x = .ok time) :
    c'.moving p x = .ok time := by
  obtain ⟨t, u, ht, hx, hu, htime⟩ := (moving_iff hc).1 hm
  obtain ⟨t', ht', hrt⟩ := h.exists_find? ht
  obtain ⟨u', hu', hru⟩ := h.exists_find? hu
  have hbandwidth : c'.bandwidth = c.bandwidth :=
    Except.ok.inj ((ofWorkflow_eq_ok.1 hc').1.symm.trans (ofWorkflow_eq_ok.1 hc).1)
  refine (moving_iff hc').2 ⟨t', u', ht', hrt.children.mem_iff.2 hx, hu', ?_⟩
  rw [transferTime_relisted hrt hru, hbandwidth]
  exact htime

/-- Relisting changes no costs. -/
theorem agree_of_relisted (h : w.Relisted w') (hc : Costs.ofWorkflow w vms = .ok c)
    (hc' : Costs.ofWorkflow w' vms = .ok c') : c.Agree c' := by
  refine ⟨?_, fun _ _ _ => ⟨moving_relisted h.symm hc' hc, moving_relisted h hc hc'⟩⟩
  exact Except.ok.inj ((ofWorkflow_eq_ok.1 hc').2.1.symm.trans
    ((computeTimes_relisted h).trans (ofWorkflow_eq_ok.1 hc).2.1))

end

end FlowSched

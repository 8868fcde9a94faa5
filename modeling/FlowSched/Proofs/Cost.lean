import Mathlib.Tactic.Positivity
import FlowSched.Cost.Model
import FlowSched.Proofs.Checked
import FlowSched.Proofs.Table

/-!
# What a cost model promises

A cost model that could be built prices every edge of its workflow, at no negative time, and every
task on every VM. It reads nothing that planning or execution writes, so kin have the same costs
(`ofWorkflow_of_kin`).
-/

namespace FlowSched

open Quantity

/-! ## Means -/

theorem foldl_add (xs : List ℚ) (a : ℚ) : xs.foldl (· + ·) a = a + xs.sum := by
  induction xs generalizing a with
  | nil => simp
  | cons x xs ih => rw [List.foldl_cons, ih, List.sum_cons, add_assoc]

theorem sumLanes_eq (r0 r1 r2 r3 r4 r5 r6 r7 : ℚ) (xs : List ℚ) :
    sumLanes r0 r1 r2 r3 r4 r5 r6 r7 xs = r0 + r1 + r2 + r3 + r4 + r5 + r6 + r7 + xs.sum := by
  fun_induction sumLanes with
  | case1 r0 r1 r2 r3 r4 r5 r6 r7 x0 x1 x2 x3 x4 x5 x6 x7 rest ih =>
    rw [ih]
    simp only [List.sum_cons]
    ring
  | case2 r0 r1 r2 r3 r4 r5 r6 r7 rest h =>
    rw [foldl_add]
    ring

theorem sumBlock_eq (xs : List ℚ) : sumBlock xs = xs.sum := by
  unfold sumBlock
  split
  · rw [sumLanes_eq]
    simp only [List.sum_cons]
    ring
  · rw [foldl_add, zero_add]

theorem sumHalves_eq (fuel : ℕ) (xs : List ℚ) : sumHalves fuel xs = xs.sum := by
  induction fuel generalizing xs with
  | zero => exact sumBlock_eq xs
  | succ fuel ih =>
    unfold sumHalves
    split
    · exact sumBlock_eq xs
    · show sumHalves fuel (xs.take _) + sumHalves fuel (xs.drop _) = _
      rw [ih, ih, ← List.sum_append, List.take_append_drop]

/-- Without rounding the pairwise sum is the plain one. -/
theorem pairwiseSum_eq (xs : List ℚ) : pairwiseSum xs = xs.sum := by
  rw [pairwiseSum, sumHalves_eq, zero_add]

theorem mean_nonneg {xs : List ℚ} (h : ∀ x ∈ xs, 0 ≤ x) : 0 ≤ mean xs := by
  rw [mean, pairwiseSum_eq]
  exact div_nonneg (List.sum_nonneg h) (by positivity)

/-! ## Edges and tasks -/

section

variable {w : Workflow ℚ} {vms : List (Vm ℚ)} {c : Costs ℚ}

/-- Every VM is fast enough to be priced. -/
theorem checkSpeeds_eq_ok : checkSpeeds vms = .ok () ↔ ∀ v ∈ vms, 0 < v.mips := by
  rw [checkSpeeds, forM_eq_ok]
  refine forall₂_congr fun v _ => ?_
  by_cases hv : v.mips ≤ 0
  · simp [hv]
  · simpa [hv] using not_le.1 hv

theorem transferTime_nonneg {p t : Task ℚ} {bandwidth x : ℚ}
    (h : transferTime p t bandwidth = .ok x) : 0 ≤ x := by
  have hcheck : ∀ {m : Except (Fault ℚ) ℚ}, (m >>= fun time =>
      if time < 0 then .error (.negativeEdge p.id t.id) else .ok time) = .ok x → 0 ≤ x := by
    intro m hm
    obtain ⟨time, -, hx⟩ := bind_eq_ok.1 hm
    split_ifs at hx with hneg
    rw [← Except.ok.inj hx]
    exact not_lt.1 hneg
  unfold transferTime at h
  dsimp only at h
  split at h
  · exact hcheck h
  · split at h
    · exact hcheck h
    · exact hcheck h

/-- The shared bytes are the sizes of the inputs that match an output. -/
theorem sharedBytes_eq (p t : Task ℚ) : sharedBytes p t =
    ((p.outputs.filterMap fun file => t.inputs.find? (·.name = file.name)).map DataFile.size).sum := by
  rw [← zero_add (List.sum _), ← foldl_add, List.foldl_map, List.foldl_filterMap]
  unfold sharedBytes
  congr 1
  funext sum file
  cases t.inputs.find? (·.name = file.name) <;> rfl

/-- Over a positive bandwidth files are moved in the time of their shared bytes. -/
theorem fileTransferTime_eq {p t : Task ℚ} {bandwidth : ℚ} (hb : 0 < bandwidth) :
    fileTransferTime p t bandwidth = .ok (sharedBytes p t / 1000000 * 8 / bandwidth) := by
  unfold fileTransferTime
  by_cases hzero : sharedBytes p t = 0
  · simp [hzero]
  · simp [hzero, not_le.2 hb]

theorem computeTime_eq {t : Task ℚ} {v : Vm ℚ} :
    computeTime t v = if v.elements < t.elements then none else some (t.length / v.mips) := by
  unfold computeTime
  split_ifs with h
  · rfl
  · simp at *

/-- Where ids are distinct, every VM is the one that its id names. -/
theorem named?_eq_some (hn : (vms.map Vm.id).Nodup) {v : Vm ℚ} (hv : v ∈ vms) :
    Vm.named? vms v.id = some v :=
  (findRev?_eq_some hn).2 ⟨hv, rfl⟩

theorem ofWorkflow_eq_ok : Costs.ofWorkflow w vms = .ok c ↔
    meanBandwidth vms = .ok c.bandwidth ∧ computeTimes w.tasks vms = .ok c.compute ∧
      transferTimes w c.bandwidth = .ok c.transfer := by
  obtain ⟨b, ct, tt⟩ := c
  unfold Costs.ofWorkflow
  simp only [bind_eq_ok, Except.ok.injEq, Costs.mk.injEq]
  constructor
  · rintro ⟨b', hb, ct', hc, tt', ht, rfl, rfl, rfl⟩
    exact ⟨hb, hc, ht⟩
  · rintro ⟨hb, hc, ht⟩
    exact ⟨b, hb, ct, hc, tt, ht, rfl, rfl, rfl⟩

/-! ### Moving data -/

section

variable {t : Task ℚ} {bandwidth : ℚ}

/-- One entry of a row of moving times: a child and the time to move data to it. -/
def transferCell (w : Workflow ℚ) (bandwidth : ℚ) (t : Task ℚ) (x : ℤ) : Except (Fault ℚ) (ℤ × ℚ) := do
  let child ← w.get x
  let time ← transferTime t child bandwidth
  .ok (x, time)

theorem transferCell_eq_ok {x y : ℤ} {time : ℚ} : transferCell w bandwidth t x = .ok (y, time) ↔
    y = x ∧ ∃ u, w.find? x = some u ∧ transferTime t u bandwidth = .ok time := by
  simp only [transferCell, bind_eq_ok, Workflow.get_eq_ok, Except.ok.injEq, Prod.mk.injEq]
  constructor
  · rintro ⟨u, hu, time', ht, rfl, rfl⟩
    exact ⟨rfl, u, hu, ht⟩
  · rintro ⟨rfl, u, hu, ht⟩
    exact ⟨u, hu, time, ht, rfl, rfl⟩

/-- A row can be had exactly if every child is known and its data can be moved. -/
theorem exists_transferRow : (∃ row, transferRow w bandwidth t = .ok row) ↔ ∀ x ∈ t.children,
    ∃ u time, w.find? x = some u ∧ transferTime t u bandwidth = .ok time := by
  constructor
  · rintro ⟨row, hrow⟩ x hx
    obtain ⟨pairs, hpairs, -⟩ := bind_eq_ok.1 hrow
    obtain ⟨⟨_, time⟩, -, hcell⟩ := mem_mapM_of_mem hpairs x hx
    obtain ⟨-, u, hu, htime⟩ := transferCell_eq_ok.1 hcell
    exact ⟨u, time, hu, htime⟩
  · intro h
    obtain ⟨pairs, hpairs⟩ := exists_mapM_ok (f := transferCell w bandwidth t) fun x hx => by
      obtain ⟨u, time, hu, htime⟩ := h x hx
      exact ⟨(x, time), transferCell_eq_ok.2 ⟨rfl, u, hu, htime⟩⟩
    exact ⟨Table.ofList pairs, bind_eq_ok.2 ⟨pairs, hpairs, rfl⟩⟩

/-- A row holds the time to each child. -/
theorem get?_transferRow {row : Table ℚ} (h : transferRow w bandwidth t = .ok row) {x : ℤ} {time : ℚ} :
    row.get? x = some time ↔
      x ∈ t.children ∧ ∃ u, w.find? x = some u ∧ transferTime t u bandwidth = .ok time := by
  obtain ⟨pairs, hpairs, he⟩ := bind_eq_ok.1 h
  have hmem : ∀ k v, (k, v) ∈ pairs ↔
      k ∈ t.children ∧ ∃ u, w.find? k = some u ∧ transferTime t u bandwidth = .ok v := by
    refine fun k v => ⟨fun hm => ?_, fun hm => ?_⟩
    · obtain ⟨x, hx, hcell⟩ := exists_of_mem_mapM hpairs _ hm
      obtain ⟨rfl, hu⟩ := transferCell_eq_ok.1 hcell
      exact ⟨hx, hu⟩
    · obtain ⟨e, he, hcell⟩ := mem_mapM_of_mem hpairs k hm.1
      obtain rfl := Except.ok.inj (hcell.symm.trans (transferCell_eq_ok.2 ⟨rfl, hm.2⟩))
      exact he
  rw [← Except.ok.inj he, Table.get?_ofList_eq_some fun k v v' hv hv' => ?_, hmem]
  obtain ⟨-, u, hu, htime⟩ := (hmem k v).1 hv
  obtain ⟨-, u', hu', htime'⟩ := (hmem k v').1 hv'
  obtain rfl := Option.some.inj (hu.symm.trans hu')
  exact Except.ok.inj (htime.symm.trans htime')

/-- Moving times can be had exactly if there is a row for each task. -/
theorem exists_transferTimes : (∃ rows, transferTimes w bandwidth = .ok rows) ↔
    ∀ t ∈ w.tasks, ∃ row, transferRow w bandwidth t = .ok row := by
  constructor
  · rintro ⟨rows, hrows⟩ t ht
    obtain ⟨entries, hentries, -⟩ := bind_eq_ok.1 hrows
    obtain ⟨_, -, hrow⟩ := mem_mapM_of_mem hentries t ht
    obtain ⟨row, hrow, -⟩ := bind_eq_ok.1 hrow
    exact ⟨row, hrow⟩
  · intro h
    obtain ⟨entries, hentries⟩ := exists_mapM_ok (l := w.tasks) (f := fun t => do
        let row ← transferRow w bandwidth t
        .ok (t.id, row)) fun t ht => by
      obtain ⟨row, hrow⟩ := h t ht
      exact ⟨(t.id, row), by rw [hrow]; rfl⟩
    exact ⟨⟨entries⟩, bind_eq_ok.2 ⟨entries, hentries, rfl⟩⟩

/-- The rows are found by the ids of their tasks. -/
theorem get?_transferTimes {rows : Table (Table ℚ)} (h : transferTimes w bandwidth = .ok rows) {p : ℤ}
    {row : Table ℚ} :
    rows.get? p = some row ↔ ∃ t, w.find? p = some t ∧ transferRow w bandwidth t = .ok row := by
  obtain ⟨entries, hentries, he⟩ := bind_eq_ok.1 h
  have hall : List.Forall₂ (fun t e => e.1 = t.id ∧ transferRow w bandwidth t = .ok e.2) w.tasks
      entries := by
    refine forall₂_of_mapM hentries fun t _ e he => ?_
    obtain ⟨row, hrow, he⟩ := bind_eq_ok.1 he
    rw [← Except.ok.inj he]
    exact ⟨rfl, hrow⟩
  have hkeys : entries.map Prod.fst = w.ids := map_eq_map (hall.imp fun _ _ hte => hte.1)
  rw [← Except.ok.inj he, Table.get?, Table.find_eq_some (hkeys ▸ w.nodup)]
  constructor
  · intro hm
    obtain ⟨t, ht, hid, hrow⟩ := exists_of_forall₂_right hall _ hm
    exact ⟨t, Workflow.find?_eq_some.2 ⟨ht, hid.symm⟩, hrow⟩
  · rintro ⟨t, ht, hrow⟩
    obtain ⟨htm, rfl⟩ := Workflow.find?_eq_some.1 ht
    obtain ⟨⟨k, r⟩, hm, rfl, hr⟩ := exists_of_forall₂_left hall t htm
    obtain rfl := Except.ok.inj (hrow.symm.trans hr)
    exact hm

end

theorem lookup_eq_ok {β : Type} {rows : Table (Table β)} {p x : ℤ} {b : β} :
    Costs.lookup (α := ℚ) rows p x = .ok b ↔ ∃ row, rows.get? p = some row ∧ row.get? x = some b := by
  unfold Costs.lookup
  cases rows.get? p with
  | none => simp
  | some row => cases hx : row.get? x <;> simp [hx]

/-- Computing times can be had on VMs with a speed, if no length is negative. -/
theorem exists_computeTimes (hne : vms ≠ []) (hv : ∀ v ∈ vms, 0 < v.mips)
    (hlen : ∀ t ∈ w.tasks, 0 ≤ t.length) : ∃ rows, computeTimes w.tasks vms = .ok rows := by
  obtain ⟨rows, hrows⟩ := exists_mapM_ok (l := w.tasks) (f := fun t : Task ℚ =>
      if t.length < 0 then .error (Fault.negativeLength t.id t.length)
      else .ok (t.id, computeRow vms t))
    fun t ht => ⟨_, if_neg (not_lt.2 (hlen t ht))⟩
  refine ⟨Table.ofList rows, ?_⟩
  unfold computeTimes
  dsimp only
  rw [if_neg (by simpa using hne), checkSpeeds_eq_ok.2 hv, ok_bind, hrows]
  rfl

/-- Costs can be had if computing times and moving times can. -/
theorem exists_costs {bandwidth : ℚ} (hb : meanBandwidth vms = .ok bandwidth)
    (hv : ∀ v ∈ vms, 0 < v.mips) (hlen : ∀ t ∈ w.tasks, 0 ≤ t.length)
    (hmove : ∀ t ∈ w.tasks, ∀ x ∈ t.children,
      ∃ u time, w.find? x = some u ∧ transferTime t u bandwidth = .ok time) :
    ∃ c, Costs.ofWorkflow w vms = .ok c ∧ c.bandwidth = bandwidth := by
  have hne : vms ≠ [] := by
    rintro rfl
    cases hb
  obtain ⟨compute, hc⟩ := exists_computeTimes hne hv hlen
  obtain ⟨transfer, ht⟩ := exists_transferTimes.2 fun t ht => exists_transferRow.2 (hmove t ht)
  exact ⟨⟨bandwidth, compute, transfer⟩, ofWorkflow_eq_ok.2 ⟨hb, hc, ht⟩, rfl⟩

/-! ### Costs that could be built -/

variable (h : Costs.ofWorkflow w vms = .ok c)

include h

theorem roster_of_costs : vms ≠ [] ∧ ∀ v ∈ vms, 0 < v.mips := by
  obtain ⟨-, hc, -⟩ := ofWorkflow_eq_ok.1 h
  unfold computeTimes at hc
  dsimp only at hc
  split at hc
  · cases hc
  · next he =>
    obtain ⟨_, hs, -⟩ := bind_eq_ok.1 hc
    exact ⟨fun hn => he (by rw [hn]; rfl), checkSpeeds_eq_ok.1 hs⟩

theorem compute_eq : c.compute = Table.ofList (w.tasks.map fun t => (t.id, computeRow vms t)) := by
  obtain ⟨-, hc, -⟩ := ofWorkflow_eq_ok.1 h
  unfold computeTimes at hc
  dsimp only at hc
  split at hc
  · cases hc
  · obtain ⟨_, -, hc⟩ := bind_eq_ok.1 hc
    obtain ⟨rows, hrows, hc⟩ := bind_eq_ok.1 hc
    rw [← Except.ok.inj hc]
    refine congrArg _ (eq_map_of_mapM (fun t row ht => ?_) hrows)
    split_ifs at ht
    exact (Except.ok.inj ht).symm

/-- The time to move data along an edge is that from the one task to the other. -/
theorem moving_iff {p x : ℤ} {time : ℚ} : c.moving p x = .ok time ↔
    ∃ t u, w.find? p = some t ∧ x ∈ t.children ∧ w.find? x = some u ∧
      transferTime t u c.bandwidth = .ok time := by
  obtain ⟨-, -, hrows⟩ := ofWorkflow_eq_ok.1 h
  rw [Costs.moving, lookup_eq_ok]
  constructor
  · rintro ⟨row, hrow, hx⟩
    obtain ⟨t, ht, hrow⟩ := (get?_transferTimes hrows).1 hrow
    obtain ⟨hx, u, hu, htime⟩ := (get?_transferRow hrow).1 hx
    exact ⟨t, u, ht, hx, hu, htime⟩
  · rintro ⟨t, u, ht, hx, hu, htime⟩
    obtain ⟨row, hrow⟩ := exists_transferTimes.1 ⟨_, hrows⟩ t (Workflow.find?_eq_some.1 ht).1
    exact ⟨row, (get?_transferTimes hrows).2 ⟨t, ht, hrow⟩, (get?_transferRow hrow).2 ⟨hx, u, hu, htime⟩⟩

/-- Every edge is priced, at no negative time. -/
theorem moving_eq_ok {t : Task ℚ} (ht : t ∈ w.tasks) {x : ℤ} (hx : x ∈ t.children) :
    ∃ time, c.moving t.id x = .ok time ∧ 0 ≤ time := by
  obtain ⟨-, -, hrows⟩ := ofWorkflow_eq_ok.1 h
  obtain ⟨u, time, hu, htime⟩ := exists_transferRow.1 (exists_transferTimes.1 ⟨_, hrows⟩ t ht) x hx
  exact ⟨time, (moving_iff h).2 ⟨t, u, Workflow.find?_self ht, hx, hu, htime⟩, transferTime_nonneg htime⟩

omit h in
/-- A row holds the time on the VM that an id names. -/
theorem computeRow_eq (t : Task ℚ) (id : ℤ) :
    (computeRow vms t).get? id = (Vm.named? vms id).map (computeTime t) := by
  unfold computeRow Vm.named?
  rw [Table.get?_ofList, List.findRev?_eq_find?_reverse, List.findRev?_eq_find?_reverse,
    ← List.map_reverse, List.find?_map, Option.map_map]
  rfl

omit h in
/-- A finite time in a row is that on a VM which is big enough. -/
theorem of_mem_computeRow {t : Task ℚ} {time : ℚ} (ht : some time ∈ (computeRow vms t).values) :
    ∃ v ∈ vms, t.elements ≤ v.elements ∧ time = t.length / v.mips := by
  obtain ⟨k, hk⟩ := Table.mem_values_ofList ht
  obtain ⟨v, hv, he⟩ := List.mem_map.1 hk
  have hcell := (Prod.mk.inj he).2
  rw [computeTime_eq] at hcell
  split_ifs at hcell with hbig
  exact ⟨v, hv, not_lt.1 hbig, (Option.some.inj hcell).symm⟩

theorem compute_row {t : Task ℚ} (ht : t ∈ w.tasks) :
    c.compute.get? t.id = some (computeRow vms t) := by
  rw [compute_eq h]
  exact Table.get?_ofList_map (f := fun t : Task ℚ => (t.id, computeRow vms t)) w.nodup ht

/-- Every task is priced on every VM. -/
theorem computing_eq_ok (hn : (vms.map Vm.id).Nodup) {t : Task ℚ} (ht : t ∈ w.tasks) {v : Vm ℚ}
    (hv : v ∈ vms) : c.computing t.id v.id = .ok (computeTime t v) := by
  simp only [Costs.computing, Costs.lookup, compute_row h ht, computeRow_eq, named?_eq_some hn hv,
    Option.map_some]

/-- A computing time is not negative, whatever the ids of the VMs. -/
theorem computing_nonneg (hlen : ∀ t ∈ w.tasks, 0 ≤ t.length) {x vm : ℤ} {time : ℚ}
    (hcell : c.computing x vm = .ok (some time)) : 0 ≤ time := by
  unfold Costs.computing Costs.lookup at hcell
  split at hcell
  · cases hcell
  · next row hrow =>
    rw [compute_eq h] at hrow
    obtain ⟨t, ht, he⟩ := List.mem_map.1 (Table.mem_of_get?_ofList hrow)
    obtain ⟨-, rfl⟩ := Prod.mk.inj he
    split at hcell
    · cases hcell
    · next value hvalue =>
      obtain rfl := Except.ok.inj hcell
      obtain ⟨v, hv, -, rfl⟩ := of_mem_computeRow (Table.mem_values hvalue)
      exact div_nonneg (hlen t ht) ((roster_of_costs h).2 v hv).le

/-- An average time is not negative. -/
theorem average_nonneg {t : Task ℚ} (ht : t ∈ w.tasks) (hlen : 0 ≤ t.length) {time : ℚ}
    (ha : c.average t.id = .ok time) : 0 ≤ time := by
  have hpos : ∀ x ∈ ((computeRow vms t).values.filterMap id).filter isFinite, 0 ≤ x := by
    intro x hx
    obtain ⟨time, hm, rfl⟩ := List.mem_filterMap.1 (List.mem_of_mem_filter hx)
    obtain ⟨v, hv, -, rfl⟩ := of_mem_computeRow hm
    exact div_nonneg hlen ((roster_of_costs h).2 v hv).le
  simp only [Costs.average, compute_row h ht, Costs.averageOf] at ha
  split at ha
  · cases ha
  · exact Except.ok.inj ha ▸ mean_nonneg hpos

/-- A task has an average time only if some VM is big enough. -/
theorem exists_fit_of_average {t : Task ℚ} (ht : t ∈ w.tasks) {time : ℚ}
    (ha : c.average t.id = .ok time) : ∃ v ∈ vms, t.elements ≤ v.elements := by
  simp only [Costs.average, compute_row h ht, Costs.averageOf] at ha
  split at ha
  · cases ha
  · next hne =>
    obtain ⟨x, hx⟩ := List.exists_mem_of_ne_nil _ hne
    obtain ⟨time, hm, rfl⟩ := List.mem_filterMap.1 (List.mem_of_mem_filter hx)
    obtain ⟨v, hv, hfit, -⟩ := of_mem_computeRow hm
    exact ⟨v, hv, hfit⟩

/-- A task has an average time if a VM that its id names is big enough. -/
theorem average_eq_ok {t : Task ℚ} (ht : t ∈ w.tasks) {v : Vm ℚ}
    (hv : Vm.named? vms v.id = some v) (hfit : t.elements ≤ v.elements) :
    ∃ time, c.average t.id = .ok time := by
  have hcell : (computeRow vms t).get? v.id = some (some (t.length / v.mips)) := by
    rw [computeRow_eq, hv, Option.map_some, computeTime_eq, if_neg (not_lt.2 hfit)]
  have hmem : t.length / v.mips ∈ ((computeRow vms t).values.filterMap id).filter isFinite := by
    rw [List.mem_filter, List.mem_filterMap]
    exact ⟨⟨_, Table.mem_values hcell, rfl⟩, isFinite_rat _⟩
  simp only [Costs.average, compute_row h ht]
  unfold Costs.averageOf
  split
  · next hnil =>
    rw [hnil] at hmem
    cases hmem
  · exact ⟨_, rfl⟩

/-- A task without an average time is too big for every VM, and the fault names it. -/
theorem average_eq_error (hn : (vms.map Vm.id).Nodup) {t : Task ℚ} (ht : t ∈ w.tasks) {fault : Fault ℚ}
    (ha : c.average t.id = .error fault) :
    fault = .noVm t.id ∧ ∀ v ∈ vms, v.elements < t.elements := by
  constructor
  · simp only [Costs.average, compute_row h ht] at ha
    unfold Costs.averageOf at ha
    split at ha
    · exact (Except.error.inj ha).symm
    · cases ha
  · intro v hv
    by_contra hfit
    obtain ⟨time, htime⟩ := average_eq_ok h ht (named?_eq_some hn hv) (not_lt.1 hfit)
    rw [htime] at ha
    cases ha

end

/-! ## Kin -/

section

variable (w : Workflow ℚ) (vms : List (Vm ℚ))

theorem get_reset (id : ℤ) :
    (w.reset false).get id = (w.get id).map (Task.reset false) := by
  unfold Workflow.get
  rw [Workflow.find?_reset]
  cases w.find? id <;> rfl

theorem transferRow_reset (bandwidth : ℚ) (t : Task ℚ) :
    transferRow (w.reset false) bandwidth (t.reset false) = transferRow w bandwidth t := by
  unfold transferRow
  congr 1
  show List.mapM _ t.children = _
  congr 1
  funext id
  rw [get_reset]
  cases w.get id <;> rfl

theorem checkSpeeds_release : checkSpeeds (vms.map Vm.release) = checkSpeeds vms := by
  unfold checkSpeeds
  induction vms with
  | nil => rfl
  | cons v vms ih => exact bind_congr fun _ => ih

theorem computeRow_reset (t : Task ℚ) :
    computeRow (vms.map Vm.release) (t.reset false) = computeRow vms t := by
  simp only [computeRow, List.map_map]
  rfl

theorem computeTimes_reset :
    computeTimes (w.reset false).tasks (vms.map Vm.release) = computeTimes w.tasks vms := by
  have hrow : ∀ t : Task ℚ, (if (t.reset false).length < 0 then
        Except.error (Fault.negativeLength (t.reset false).id (t.reset false).length)
      else .ok ((t.reset false).id, computeRow (vms.map Vm.release) (t.reset false))) =
      if t.length < 0 then Except.error (Fault.negativeLength t.id t.length)
      else .ok (t.id, computeRow vms t) := by
    intro t
    rw [computeRow_reset]
    rfl
  simp only [computeTimes, List.isEmpty_map, checkSpeeds_release, Workflow.reset, List.mapM_map,
    Function.comp_def, hrow]

theorem transferTimes_reset (bandwidth : ℚ) :
    transferTimes (w.reset false) bandwidth = transferTimes w bandwidth := by
  show (List.mapM _ (w.tasks.map (Task.reset false)) >>= _) = _
  rw [List.mapM_map]
  simp only [Function.comp_def, transferRow_reset]
  rfl

theorem meanBandwidth_release : meanBandwidth (vms.map Vm.release) = meanBandwidth vms := by
  simp only [meanBandwidth, List.isEmpty_map, List.map_map]
  rfl

/-- Resetting changes no costs. -/
theorem ofWorkflow_reset :
    Costs.ofWorkflow (w.reset false) (vms.map Vm.release) = Costs.ofWorkflow w vms := by
  unfold Costs.ofWorkflow
  simp only [meanBandwidth_release, computeTimes_reset, transferTimes_reset]

end

/-- Kin have the same costs. -/
theorem ofWorkflow_of_kin {w w' : World ℚ} (h : w.Kin w') :
    Costs.ofWorkflow w'.workflow w'.vms = Costs.ofWorkflow w.workflow w.vms := by
  rw [← ofWorkflow_reset w'.workflow, ← ofWorkflow_reset w.workflow, h.workflow, h.vms]

end FlowSched

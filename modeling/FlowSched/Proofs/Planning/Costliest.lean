import FlowSched.Cost.Model
import FlowSched.Proofs.Ordered
import FlowSched.Proofs.Table
import FlowSched.Proofs.Planning.Enumeration
import FlowSched.Proofs.Planning.Path

/-!
# The first costliest path

Costs that could be built are not negative, and no sum of them is (`pathCost_sign`). So the first path is
always taken, and a later one only if it costs more: the critical path is the first of the
costliest in the order of the paths (`paths_and_critical`). Sums may be rounded.
-/

namespace FlowSched

open Quantity

/-- Signs of sums and quotients as doubles have them. What is no number is not negative. -/
structure Quantity.Signed (α : Type) [Quantity α] : Prop where
  natCast : ∀ n : ℕ, ¬ ((n + 1 : ℕ) : α) ≤ 0
  add : ∀ a b : α, ¬ a < 0 → ¬ b < 0 → ¬ a + b < 0
  div : ∀ a b : α, ¬ a < 0 → ¬ b ≤ 0 → ¬ a / b < 0
  neg : ∀ a : α, IsNumber a → ¬ a < 0 → belowTop (-a) = true

theorem Quantity.signed_rat : Quantity.Signed ℚ where
  natCast n := not_le.2 (by positivity)
  add _ _ ha hb := not_lt.2 (add_nonneg (not_lt.1 ha) (not_lt.1 hb))
  div _ _ ha hb := not_lt.2 (div_nonneg (not_lt.1 ha) (not_le.1 hb).le)
  neg _ _ _ := rfl

variable {α : Type} [Quantity α]

/-! ## Means -/

section

variable (hα : Ordered α) (hσ : Signed α)

include hσ

theorem foldl_add_sign {xs : List α} (h : ∀ x ∈ xs, ¬ x < 0) {a : α} (ha : ¬ a < 0) :
    ¬ xs.foldl (· + ·) a < 0 := by
  induction xs generalizing a with
  | nil => exact ha
  | cons x xs ih =>
    exact ih (fun y hy => h y (List.mem_cons_of_mem x hy)) (hσ.add a x ha (h x List.mem_cons_self))

theorem sumLanes_sign {r0 r1 r2 r3 r4 r5 r6 r7 : α} {xs : List α}
    (h : ∀ x ∈ r0 :: r1 :: r2 :: r3 :: r4 :: r5 :: r6 :: r7 :: xs, ¬ x < 0) :
    ¬ sumLanes r0 r1 r2 r3 r4 r5 r6 r7 xs < 0 := by
  fun_induction sumLanes with
  | case1 r0 r1 r2 r3 r4 r5 r6 r7 x0 x1 x2 x3 x4 x5 x6 x7 rest ih =>
    simp only [List.forall_mem_cons] at h ih
    obtain ⟨h0, h1, h2, h3, h4, h5, h6, h7, k0, k1, k2, k3, k4, k5, k6, k7, hrest⟩ := h
    exact ih ⟨hσ.add _ _ h0 k0, hσ.add _ _ h1 k1, hσ.add _ _ h2 k2, hσ.add _ _ h3 k3,
      hσ.add _ _ h4 k4, hσ.add _ _ h5 k5, hσ.add _ _ h6 k6, hσ.add _ _ h7 k7, hrest⟩
  | case2 r0 r1 r2 r3 r4 r5 r6 r7 rest _ =>
    simp only [List.forall_mem_cons] at h
    obtain ⟨h0, h1, h2, h3, h4, h5, h6, h7, hrest⟩ := h
    exact foldl_add_sign hσ hrest (hσ.add _ _ (hσ.add _ _ (hσ.add _ _ h0 h1) (hσ.add _ _ h2 h3))
      (hσ.add _ _ (hσ.add _ _ h4 h5) (hσ.add _ _ h6 h7)))

include hα

theorem sumBlock_sign {xs : List α} (h : ∀ x ∈ xs, ¬ x < 0) : ¬ sumBlock xs < 0 := by
  unfold sumBlock
  split
  · exact sumLanes_sign hσ h
  · exact foldl_add_sign hσ h (hα.irrefl 0)

theorem sumHalves_sign (fuel : ℕ) {xs : List α} (h : ∀ x ∈ xs, ¬ x < 0) : ¬ sumHalves fuel xs < 0 := by
  induction fuel generalizing xs with
  | zero => exact sumBlock_sign hα hσ h
  | succ fuel ih =>
    unfold sumHalves
    split
    · exact sumBlock_sign hα hσ h
    · exact hσ.add _ _ (ih fun x hx => h x (List.mem_of_mem_take hx))
        (ih fun x hx => h x (List.mem_of_mem_drop hx))

/-- The mean of some values that are not negative is not negative. -/
theorem mean_sign {xs : List α} (hne : xs ≠ []) (h : ∀ x ∈ xs, ¬ x < 0) : ¬ mean xs < 0 := by
  cases xs with
  | nil => exact absurd rfl hne
  | cons x xs =>
    exact hσ.div _ _ (hσ.add _ _ (hα.irrefl 0) (sumHalves_sign hα hσ _ h)) (hσ.natCast xs.length)

end

/-! ## Costs that could be built -/

section

variable {w : Workflow α} {vms : List (Vm α)} {c : Costs α} (h : Costs.ofWorkflow w vms = .ok c)

include h

theorem parts_of_costs : computeTimes w.tasks vms = .ok c.compute ∧ ∃ bandwidth,
    transferTimes w bandwidth = .ok c.transfer := by
  obtain ⟨bandwidth, -, h⟩ := bind_eq_ok.1 h
  obtain ⟨compute, hc, h⟩ := bind_eq_ok.1 h
  obtain ⟨transfer, ht, h⟩ := bind_eq_ok.1 h
  obtain rfl := Except.ok.inj h
  exact ⟨hc, bandwidth, ht⟩

/-- Computing times are those of a task of no negative length, on VMs with a speed. -/
theorem row_of_compute {x : ℤ} {row : Table (Duration α)} (hrow : c.compute.get? x = some row) :
    (∀ v ∈ vms, ¬ v.mips ≤ 0) ∧ ∃ t : Task α, ¬ t.length < 0 ∧ row = computeRow vms t := by
  have hc := (parts_of_costs h).1
  unfold computeTimes at hc
  dsimp only at hc
  split at hc
  · cases hc
  obtain ⟨_, hspeeds, hc⟩ := bind_eq_ok.1 hc
  obtain ⟨rows, hrows, hc⟩ := bind_eq_ok.1 hc
  constructor
  · intro v hv hslow
    have hcheck := forM_eq_ok.1 hspeeds v hv
    rw [if_pos hslow] at hcheck
    cases hcheck
  · rw [← Except.ok.inj hc] at hrow
    obtain ⟨t, -, ht⟩ := exists_of_mem_mapM hrows _ (Table.mem_of_get?_ofList hrow)
    split_ifs at ht with hneg
    exact ⟨t, hneg, (Prod.mk.inj (Except.ok.inj ht)).2.symm⟩

omit h in
/-- The last step of pricing an edge refuses negative times. -/
theorem transferTime_sign {p t : Task α} {bandwidth time : α}
    (ht : transferTime p t bandwidth = .ok time) : ¬ time < 0 := by
  have hlast : ∀ {m : Except (Fault α) α}, (m >>= fun time =>
      if time < 0 then .error (.negativeEdge p.id t.id) else .ok time) = .ok time → ¬ time < 0 := by
    intro m hm
    obtain ⟨first, -, hfirst⟩ := bind_eq_ok.1 hm
    split_ifs at hfirst with hneg
    exact Except.ok.inj hfirst ▸ hneg
  unfold transferTime at ht
  dsimp only at ht
  split at ht
  · exact hlast ht
  · split at ht
    · exact hlast ht
    · exact hlast ht

/-- Moving data takes no negative time. -/
theorem moving_sign {x y : ℤ} {time : α} (hm : c.moving x y = .ok time) : ¬ time < 0 := by
  obtain ⟨-, bandwidth, ht⟩ := parts_of_costs h
  obtain ⟨rows, hrows, ht⟩ := bind_eq_ok.1 ht
  unfold Costs.moving Costs.lookup at hm
  rw [← Except.ok.inj ht] at hm
  split at hm
  · cases hm
  · next row hrow =>
    split at hm
    · cases hm
    · next cost hcost =>
      obtain rfl := Except.ok.inj hm
      obtain ⟨t, -, hentry⟩ := exists_of_mem_mapM hrows _ (Table.mem_of_find hrow)
      obtain ⟨_, hcells, hentry⟩ := bind_eq_ok.1 hentry
      obtain ⟨-, rfl⟩ := Prod.mk.inj (Except.ok.inj hentry)
      obtain ⟨pairs, hpairs, htable⟩ := bind_eq_ok.1 hcells
      rw [← Except.ok.inj htable] at hcost
      obtain ⟨_, -, hcell⟩ := exists_of_mem_mapM hpairs _ (Table.mem_of_get?_ofList hcost)
      obtain ⟨u, -, hcell⟩ := bind_eq_ok.1 hcell
      obtain ⟨_, htime, hcell⟩ := bind_eq_ok.1 hcell
      obtain ⟨-, rfl⟩ := Prod.mk.inj (Except.ok.inj hcell)
      exact transferTime_sign htime

variable (hα : Ordered α) (hσ : Signed α)

include hα hσ

/-- An average time is not negative. -/
theorem average_sign {x : ℤ} {time : α} (ha : c.average x = .ok time) : ¬ time < 0 := by
  unfold Costs.average at ha
  split at ha
  · cases ha
  · next row hrow =>
    obtain ⟨hspeeds, t, hlen, rfl⟩ := row_of_compute h hrow
    have hsign : ∀ y ∈ ((computeRow vms t).values.filterMap id).filter isFinite, ¬ y < 0 := by
      intro y hy
      obtain ⟨_, hm, rfl⟩ := List.mem_filterMap.1 (List.mem_of_mem_filter hy)
      obtain ⟨_, hk⟩ := Table.mem_values_ofList hm
      obtain ⟨v, hv, he⟩ := List.mem_map.1 hk
      have hcell := (Prod.mk.inj he).2
      unfold computeTime at hcell
      dsimp only at hcell
      split_ifs at hcell
      exact Option.some.inj hcell ▸ hσ.div _ _ hlen (hspeeds v hv)
    unfold Costs.averageOf at ha
    split at ha
    · cases ha
    · next hne =>
      rw [← Except.ok.inj ha]
      exact mean_sign hα hσ hne hsign

theorem pathCostFrom_sign {path : List ℤ} {counted cost : α} (hcounted : ¬ counted < 0)
    (hcost : c.pathCostFrom counted path = .ok cost) : ¬ cost < 0 := by
  fun_induction Costs.pathCostFrom with
  | case1 counted => exact Except.ok.inj hcost ▸ hcounted
  | case2 counted last =>
    obtain ⟨time, htime, he⟩ := bind_eq_ok.1 hcost
    exact Except.ok.inj he ▸ hσ.add _ _ hcounted (average_sign h hα hσ htime)
  | case3 counted task next rest ih =>
    obtain ⟨time, htime, hcost⟩ := bind_eq_ok.1 hcost
    obtain ⟨move, hmove, hcost⟩ := bind_eq_ok.1 hcost
    exact ih time move (hσ.add _ _ hcounted
      (hσ.add _ _ (average_sign h hα hσ htime) (moving_sign h hmove))) hcost

/-- The cost of a path is not negative. -/
theorem pathCost_sign {path : List ℤ} {cost : α} (hcost : c.pathCost path = .ok cost) : ¬ cost < 0 :=
  pathCostFrom_sign h hα hσ (hα.irrefl 0) hcost

end

/-! ## The critical path -/

/-- Past the first path the scan keeps the best one so far with its cost. -/
theorem foldlM_costlier {c : Costs α} {cost : List ℤ → α} {paths : List (List ℤ)}
    (hcost : ∀ p ∈ paths, c.pathCost p = .ok (cost p)) (best : List ℤ) :
    paths.foldlM (fun best path => do
      let cost ← c.pathCost path
      .ok (Costs.costlier best path cost)) (some (best, cost best)) =
    .ok (some (paths.foldl (fun best p => if cost best < cost p then p else best) best,
      cost (paths.foldl (fun best p => if cost best < cost p then p else best) best))) := by
  induction paths generalizing best with
  | nil => rfl
  | cons p paths ih =>
    have hstep : Costs.costlier (some (best, cost best)) p (cost p) =
        some (if cost best < cost p then p else best, cost (if cost best < cost p then p else best)) := by
      show (if cost best < cost p then some (p, cost p) else some (best, cost best)) = _
      split <;> rfl
    rw [List.foldlM_cons, hcost p List.mem_cons_self, ok_bind, ok_bind, hstep]
    exact ih (fun q hq => hcost q (List.mem_cons_of_mem p hq)) _

/-- Of paths with costs that are numbers and not negative the first of the costliest is critical. -/
theorem criticalPath_first (hα : Ordered α) (hσ : Signed α) {c : Costs α} {cost : List ℤ → α}
    {paths : List (List ℤ)} (hne : paths ≠ [])
    (hcost : ∀ p ∈ paths, c.pathCost p = .ok (cost p) ∧ IsNumber (cost p) ∧ ¬ cost p < 0) :
    ∃ front critical rear, c.criticalPath paths = .ok critical ∧ paths = front ++ critical :: rear ∧
      (∀ p ∈ front, cost p < cost critical) ∧ ∀ p ∈ paths, ¬ cost critical < cost p := by
  cases paths with
  | nil => exact absurd rfl hne
  | cons p paths =>
    obtain ⟨front, critical, rear, hfold, hsplit, hfront, hbest⟩ :=
      foldl_greatest p paths hα cost fun q hq => (hcost q hq).2.1
    obtain ⟨hp, hnum, hsign⟩ := hcost p List.mem_cons_self
    have hfirst : Costs.costlier none p (cost p) = some (p, cost p) := if_pos (hσ.neg _ hnum hsign)
    refine ⟨front, critical, rear, ?_, hsplit, hfront, hbest⟩
    rw [Costs.criticalPath, List.foldlM_cons, hp, ok_bind, ok_bind, hfirst,
      foldlM_costlier fun q hq => (hcost q (List.mem_cons_of_mem p hq)).1, hfold]
    rfl

/-- The paths are enumerated from root to exit, each once and in order. -/
structure Workflow.Enumerated (w : Workflow α) : Prop where
  ends : ∃ n, ∀ fuel, n ≤ fuel → w.pathsByStack fuel = some w.paths
  complete : ∀ path, path ∈ w.paths ↔ w.Through path
  nodup : w.paths.Nodup
  ordered : w.paths.Pairwise w.Earlier

/-- For a workflow that passes its check and repeats no id in an edge list, the walk ends with all paths, each
once and in lexicographic order by root. Where they have costs, the first of the costliest is critical. -/
theorem paths_and_critical (hα : Ordered α) (hσ : Signed α) (w : Workflow α) (hw : w.check = .ok ())
    (hd : w.Distinct) :
    w.Enumerated ∧ ∀ (vms : List (Vm α)) (c : Costs α) (cost : List ℤ → α),
      Costs.ofWorkflow w vms = .ok c → w.tasks ≠ [] →
      (∀ p ∈ w.paths, c.pathCost p = .ok (cost p) ∧ IsNumber (cost p)) →
      ∃ front critical rear, c.criticalPath w.paths = .ok critical ∧
        w.paths = front ++ critical :: rear ∧ (∀ p ∈ front, cost p < cost critical) ∧
        ∀ p ∈ w.paths, ¬ cost critical < cost p := by
  obtain ⟨rank, hwoven⟩ := Workflow.exists_woven hw
  constructor
  · exact ⟨Workflow.exists_pathsByStack hwoven, fun _ => Workflow.mem_paths_iff hwoven,
      Workflow.nodup_paths hd, Workflow.pairwise_paths w⟩
  · intro vms c cost hc hne hcost
    refine criticalPath_first hα hσ (Workflow.paths_ne_nil hwoven hne) fun p hp => ?_
    obtain ⟨hok, hnum⟩ := hcost p hp
    exact ⟨hok, hnum, pathCost_sign hc hα hσ hok⟩

theorem paths_and_critical_detour : detour.workflow.check = .ok () ∧ detour.workflow.Distinct ∧
    detour.workflow.tasks ≠ [] ∧ detour.workflow.Enumerated ∧
    ∃ (c : Costs ℚ) (cost : List ℤ → ℚ), Costs.ofWorkflow detour.workflow detour.vms = .ok c ∧
      (∀ p ∈ detour.workflow.paths, c.pathCost p = .ok (cost p) ∧ IsNumber (cost p)) ∧
      ∃ front critical rear, c.criticalPath detour.workflow.paths = .ok critical ∧
        detour.workflow.paths = front ++ critical :: rear ∧ (∀ p ∈ front, cost p < cost critical) ∧
        ∀ p ∈ detour.workflow.paths, ¬ cost critical < cost p := by
  have hcheck : detour.workflow.check = .ok () := rfl
  have hd : detour.workflow.Distinct := ⟨by decide, by decide⟩
  have hne : detour.workflow.tasks ≠ [] := by decide
  obtain ⟨hall, hcritical⟩ := paths_and_critical ordered_rat signed_rat detour.workflow hcheck hd
  obtain ⟨c, hpriced⟩ := priced_detour 0
  have hcost : ∀ p ∈ detour.workflow.paths, ∃ x, c.pathCost p = .ok x := fun p hp =>
    pathCost_ok hpriced.rated ((Workflow.mem_paths hpriced.checked).1 hp).1
  choose! cost hcost using hcost
  have hnum : ∀ p ∈ detour.workflow.paths, c.pathCost p = .ok (cost p) ∧ IsNumber (cost p) :=
    fun p hp => ⟨hcost p hp, isNumber_rat _⟩
  exact ⟨hcheck, hd, hne, hall, c, cost, hpriced.costs, hnum,
    hcritical detour.vms c cost hpriced.costs hne hnum⟩

end FlowSched

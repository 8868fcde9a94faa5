import FlowSched.Proofs.Run
import FlowSched.Proofs.Planning.Planner

/-!
# Runs that return

A run of a well-formed input under valid settings returns if its algorithm finds a VM that is big
enough for every task. Only planning by estimate may refuse a group of siblings that is too wide
(`run_returns`).
-/

namespace FlowSched

open Quantity Step

/-! ## Settings -/

/-- Settings within their bounds. -/
structure Settings.Valid (s : Settings ℚ) : Prop where
  delay : 0 ≤ s.portDelay
  floor : 0 ≤ s.startFloor
  width : 2 ≤ s.maxWidth
  warning : 2 ≤ s.warnWidth
  latency : 0 < s.fallbackLatency

/-- Settings pass their check exactly if they are valid. -/
theorem Settings.check_leads (s : Settings ℚ) (notes : Array (Note ℚ)) :
    Leads s.check notes (fun _ _ => s.Valid) fun _ _ => ¬ s.Valid := by
  unfold check
  refine Leads.unless (P := fun _ => 0 ≤ s.portDelay) (fun hlt h => not_le.2 hlt h.delay)
    (fun hn => not_lt.1 hn) fun _ hdelay => ?_
  refine Leads.unless (P := fun _ => 0 ≤ s.startFloor) (fun hlt h => not_le.2 hlt h.floor)
    (fun hn => not_lt.1 hn) fun _ hfloor => ?_
  refine Leads.unless (P := fun _ => 2 ≤ s.maxWidth) (fun hlt h => not_le.2 hlt h.width)
    (fun hn => not_lt.1 hn) fun _ hwidth => ?_
  refine Leads.unless (P := fun _ => 2 ≤ s.warnWidth) (fun hlt h => not_le.2 hlt h.warning)
    (fun hn => not_lt.1 hn) fun _ hwarning => ?_
  refine Leads.unless (P := fun _ => True) (fun _ => trivial) (fun _ => trivial) fun t _ => ?_
  split
  · next hle => exact fun h => not_lt.2 hle h.latency
  · next hn => exact ⟨hdelay, hfloor, hwidth, hwarning, not_le.1 hn⟩

/-- Valid settings make a sane planner, of the algorithm that is asked for. -/
theorem Settings.Valid.planner? {s : Settings ℚ} (hs : s.Valid) :
    (∃ planner, s.planner? = .ok (some planner) ∧ planner.Sane ∧ planner.algorithm = s.algorithm) ∨
      (s.planner? = .ok none ∧ s.algorithm.isPlanner = false) := by
  unfold Settings.planner? Planner.byRank Planner.byEstimate
  have hfloor := not_lt.2 hs.floor
  have hwidth := not_lt.2 hs.width
  have hlatency := not_le.2 hs.latency
  cases ha : s.algorithm with
  | heft =>
    dsimp only
    rw [if_neg hfloor]
    exact Or.inl ⟨_, rfl, trivial, rfl⟩
  | ocs =>
    dsimp only
    rw [if_neg hfloor, if_neg hwidth, if_neg hlatency]
    exact Or.inl ⟨_, rfl, hs.latency, rfl⟩
  | minMin | maxMin | fcfs | roundRobin | static => exact Or.inr ⟨rfl, rfl⟩

/-! ## Where a run starts -/

/-- What an algorithm asks of the sizes of the VMs. A planner is free to choose the VM of a task, and
any other algorithm is bound to what its rule chooses. -/
def Suits (a : Algorithm) (w : World ℚ) : Prop :=
  match a with
  | .heft | .ocs => ∀ t ∈ w.workflow.tasks, ∃ v ∈ w.vms, t.elements ≤ v.elements
  | .minMin | .maxMin | .fcfs | .roundRobin | .static => Execution.Fits a.rule w

namespace World

variable {w : World ℚ} {s : Settings ℚ}

/-- Clearing what earlier runs left behind makes no VM smaller and no task bigger, and where the
bindings count it keeps them. -/
theorem suits_start (notes : Array (Note ℚ)) (h : Suits s.algorithm w) :
    Suits s.algorithm (start s w notes) := by
  unfold start
  generalize s.algorithm = a at h ⊢
  have hvm : ∀ v ∈ w.vms, v.release ∈ w.vms.map Vm.release := fun v hv => List.mem_map_of_mem hv
  cases a with
  | heft | ocs =>
    intro t' ht'
    obtain ⟨t, ht, rfl⟩ := List.mem_map.1 ht'
    obtain ⟨v, hv, hle⟩ := h t ht
    exact ⟨v.release, hvm v hv, hle⟩
  | minMin | maxMin | fcfs =>
    intro t' ht'
    obtain ⟨t, ht, rfl⟩ := List.mem_map.1 ht'
    obtain ⟨v, hv, hfeasible⟩ := h t ht
    exact ⟨v.release, hvm v hv, hfeasible⟩
  | roundRobin =>
    intro t' ht' v' hv'
    obtain ⟨t, ht, rfl⟩ := List.mem_map.1 ht'
    obtain ⟨v, hv, rfl⟩ := List.mem_map.1 hv'
    exact h t ht v hv
  | static =>
    intro t' ht' v' hv' hid
    obtain ⟨t, ht, rfl⟩ := List.mem_map.1 ht'
    obtain ⟨v, hv, rfl⟩ := List.mem_map.1 hv'
    refine h t ht v hv (hid.trans ?_)
    have hids : (w.vms.map Vm.release).map Vm.id = w.vms.map Vm.id := by
      rw [List.map_map]
      rfl
    exact Execution.staticVm_congr hids t

/-! ## Planning and execution -/

/-- Static dispatch runs placed tasks where they are placed. -/
theorem fits_of_allPlaced (hids : (w.vms.map Vm.id).Nodup) (h : AllPlaced w) :
    Execution.Fits .static w := by
  intro t ht v hv hid
  obtain ⟨u, hu, hut, hle⟩ := h t ht
  have hany : w.vms.any (·.id = t.vm) = true := List.any_eq_true.2 ⟨u, hu, decide_eq_true hut⟩
  rw [Execution.staticVm, if_pos hany] at hid
  rwa [List.inj_on_of_nodup_map hids hv hu (hid.trans hut.symm)]

/-- After planning, the rule of the algorithm fits the workflow. -/
theorem plan_leads (hw : w.WellFormed) (hs : s.Valid) (hfit : Suits s.algorithm w) :
    Leads (plan s) w (fun _ w' => Execution.Fits s.algorithm.rule w')
      fun fault _ => s.algorithm = .ocs ∧ fault.kind = .conflict := by
  unfold plan
  rw [leads_bind, leads_get, leads_bind]
  rcases hs.planner? with ⟨planner, hplanner, hsane, halgorithm⟩ | ⟨hplanner, hnone⟩
  · refine leads_query_ok hplanner ?_
    rw [leads_bind, leads_modify, leads_map]
    obtain ⟨c, hcosts⟩ := hw.costs
    have hroomy : ∀ t ∈ w.workflow.tasks, ∃ v ∈ w.vms, t.elements ≤ v.elements := by
      rw [← halgorithm] at hfit
      unfold Planner.algorithm at hfit
      split at hfit
      · exact hfit
      · exact hfit
    have hrule : s.algorithm.rule = .static := by
      rw [← halgorithm]
      unfold Planner.algorithm
      split <;> rfl
    have hk := kept_note w (.running s.algorithm w.workflow.size w.vms.length)
    generalize w.note _ = w₁ at hk ⊢
    have hp : Priced { vms := w.vms, costs := c, floor := planner.floor } w :=
      ⟨hw.checked, hw.ids, rfl, hcosts, hroomy⟩
    rw [← hk.vms] at hp
    refine ((planner.keeps_run w₁).and (planner.run_places hsane (hp.of_kept hk)
      (hw.distinct.of_kin hk.kin.workflow))).mono (fun _ w₂ h => ?_) fun _ _ h => ?_
    · have hkept : Kept w w₂ := hk.trans h.1
      rw [hrule]
      refine fits_of_allPlaced ?_ h.2
      rw [hkept.vms]
      exact hw.ids
    · obtain ⟨-, options, hstrategy, -, hkind⟩ := h
      exact ⟨by rw [← halgorithm, Planner.algorithm, hstrategy], hkind⟩
  · refine leads_query_ok hplanner ?_
    rw [leads_bind, leads_modify, leads_pure]
    cases ha : s.algorithm with
    | heft | ocs => rw [ha] at hnone; cases hnone
    | minMin | maxMin | fcfs | roundRobin | static => rw [ha] at hfit; exact hfit

theorem schedule_returns (hw : w.WellFormed) (hne : w.workflow.tasks ≠ []) (hs : s.Valid)
    (hfit : Suits s.algorithm w) (hsub : w.session.submitted = [])
    (hidle : ∀ v ∈ w.vms, v.busy = false) :
    Leads (schedule s) w (fun _ _ => True)
      fun fault _ => s.algorithm = .ocs ∧ fault.kind = .conflict := by
  refine (((keeps_plan s w).and (plan_leads hw hs hfit)).mono (fun _ _ h => h)
    fun _ _ h => h.2).bind fun plan w₁ h => ?_
  obtain ⟨hk, hfits⟩ : Kept w w₁ ∧ Execution.Fits s.algorithm.rule w₁ := h
  refine (carryOut_leads s plan (hw.of_kin hk.kin) (hk.submitted.trans hsub) ?_ hs.delay).mono
    (fun _ _ _ => trivial) fun _ _ hfail => ?_
  · rw [hk.vms]
    exact hidle
  · rcases hfail with hunfit | hempty
    · exact absurd hfits hunfit
    · exact absurd (Workflow.tasks_eq_nil_of_kin hk.kin.workflow hempty) hne

theorem run_ends (hw : w.WellFormed) (hne : w.workflow.tasks ≠ []) (hs : s.Valid)
    (hfit : Suits s.algorithm w) :
    Leads (run s) w (fun _ _ => True) fun fault _ => s.algorithm = .ocs ∧ fault.kind = .conflict := by
  refine run_leads s hw (fun notes => ?_) fun notes => ?_
  · exact (s.check_leads notes).mono (fun _ _ _ => trivial) fun _ _ hn => absurd hs hn
  · have hk := kin_start s w notes
    have hne' : (start s w notes).workflow.tasks ≠ [] := fun he =>
      hne (Workflow.tasks_eq_nil_of_kin hk.workflow he)
    exact (schedule_returns (hw.of_kin hk) hne' hs (suits_start notes hfit) rfl
      (idle_start s w notes)).mono (fun _ _ _ _ => trivial) fun _ _ h => h

/-- Under default settings the plan is made by rank, and a run whose tasks all have a VM returns. -/
theorem exists_run_of_default (hw : w.WellFormed) (hne : w.workflow.tasks ≠ [])
    (hroomy : ∀ t ∈ w.workflow.tasks, ∃ v ∈ w.vms, t.elements ≤ v.elements) :
    ∃ o w', run {} w = .ok o w' := by
  have hs : ({} : Settings ℚ).Valid := by constructor <;> decide +kernel
  have hfit : Suits .heft w := hroomy
  cases h : run {} w with
  | ok o w' => exact ⟨o, w', rfl⟩
  | error fault w' =>
    have hocs := ((run_ends hw hne hs hfit).of_error h).1
    cases hocs

end World

/-- A run of a well-formed input with at least one task, under valid settings and an algorithm that
suits the roster, returns. Only planning by estimate may refuse the input instead, for a group of
siblings that is too wide. -/
theorem run_returns (w : World ℚ) (s : Settings ℚ) (hw : w.WellFormed)
    (hne : w.workflow.tasks ≠ []) (hs : s.Valid) (hfit : Suits s.algorithm w) :
    (∃ o w', World.run s w = .ok o w') ∨
      s.algorithm = .ocs ∧ ∃ fault w', World.run s w = .error fault w' ∧ fault.kind = .conflict := by
  cases hrun : World.run s w with
  | ok o w' => exact Or.inl ⟨o, w', rfl⟩
  | error fault w' =>
    obtain ⟨hocs, hkind⟩ := (World.run_ends hw hne hs hfit).of_error hrun
    exact Or.inr ⟨hocs, fault, w', rfl, hkind⟩

theorem run_returns_fork : ∃ o w', World.run {} fork = .ok o w' := by
  have hs : ({} : Settings ℚ).Valid := by constructor <;> decide +kernel
  have hfit : Suits .heft fork := by
    show ∀ t ∈ fork.workflow.tasks, ∃ v ∈ fork.vms, t.elements ≤ v.elements
    decide
  exact (run_returns fork {} wellFormed_fork (by decide) hs hfit).resolve_right fun h => by cases h.1

end FlowSched

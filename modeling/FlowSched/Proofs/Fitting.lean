import FlowSched.Proofs.InTurn

/-!
# Which tasks fit their VMs

A rule that takes the shortest, the longest or the oldest task looks for a feasible VM, so that every task it
binds fits its VM. Dealing out in turn and following a plan do not look. They bind every task to a feasible
VM exactly if the VM that falls to it happens to be feasible (`dispatch_binds`); a task may get a VM that is
too small for it while a bigger one is idle (`wide_misfits`).
-/

namespace FlowSched.Batch

open Quantity Step

variable {α : Type} [Quantity α] {rule : Rule} {b₀ b : Batch α} {x : ℤ} {t : Task α} {u v : Vm α}

/-- Every task that was bound was bound to a VM of the roster that is feasible for it. -/
def Fits (b₀ b : Batch α) : Prop :=
  ∀ x ∈ b.bound, ∃ t, b₀.workflow.find? x = some t ∧
    ∃ v ∈ b₀.vms, isFeasible t v = true ∧ b.workflow.find? x = some { t with vm := v.id }

/-- The ready tasks in order of their ids, each with the idle VM whose turn it is. -/
def turns (b₀ : Batch α) : List (ℤ × Vm α) :=
  (b₀.ready.mergeSort fun a b => decide (a ≤ b)).zip ((idleById b₀.vms).map Prod.fst)

/-- The VMs that a rule takes without looking are feasible: those whose turn it is, or those that the tasks
are bound to, with the fallback VM in place of one that is not there. -/
def Suited (rule : Rule) (b₀ : Batch α) : Prop :=
  match rule with
  | .minMin | .maxMin | .fcfs => True
  | .roundRobin => ∀ p ∈ b₀.turns, ∀ t, b₀.workflow.find? p.1 = some t → isFeasible t p.2 = true
  | .static => ∀ x ∈ b₀.ready, ∀ t, b₀.workflow.find? x = some t →
      ∀ v ∈ b₀.vms, Eligible .static b₀.vms t v → isFeasible t v = true

/-- What a list rule has bound fits. -/
theorem fits_of_isListRule (hr : isListRule rule) (hd : Dealt rule b₀ b) : b₀.Fits b := by
  intro x hx
  obtain ⟨t, ht, v, hv, he, hb⟩ := hd.chosen x hx
  exact ⟨t, ht, v, hv, (eligible_of_isListRule hr).1 he, hb⟩

/-- A planned task may take one VM only. -/
theorem Eligible.id_eq {vms : List (Vm α)} (hu : u ∈ vms) (hv : v ∈ vms) (h : Eligible .static vms t u)
    (h' : Eligible .static vms t v) : u.id = v.id := by
  rcases h with h | ⟨hnone, h⟩
  · rcases h' with h' | ⟨hnone, -⟩
    · exact h.trans h'.symm
    · exact absurd (h ▸ List.mem_map_of_mem hu) hnone
  · rcases h' with h' | ⟨-, h'⟩
    · exact absurd (h' ▸ List.mem_map_of_mem hv) hnone
    · exact Option.some.inj (h.symm.trans h')

section

variable (hn : (b₀.vms.map Vm.id).Nodup)

include hn

/-- Where tasks fit, the VM that a task was bound to is feasible for it. -/
theorem Fits.feasible (h : b₀.Fits b) (hx : x ∈ b.bound) (ht : b₀.workflow.find? x = some t)
    (hv : v ∈ b₀.vms) (hb : b.workflow.find? x = some { t with vm := v.id }) : isFeasible t v = true := by
  obtain ⟨t', ht', u, hu, hf, hb'⟩ := h x hx
  obtain rfl := Option.some.inj (ht.symm.trans ht')
  have hid : v.id = u.id := congrArg Task.vm (Option.some.inj (hb.symm.trans hb'))
  rw [List.inj_on_of_nodup_map hn hv hu hid]
  exact hf

/-- Tasks that were dealt out fit exactly if each is feasible on the VM that it was brought together with. -/
theorem DealtOut.fits_iff {ids : List ℤ} {idle : List (Vm α)} (hd : DealtOut b₀ b ids idle) :
    b₀.Fits b ↔ ∀ p ∈ ids.zip idle, ∀ t, b₀.workflow.find? p.1 = some t → isFeasible t p.2 = true := by
  constructor
  · rintro h ⟨x, v⟩ hp t ht
    obtain ⟨i, hi⟩ := List.getElem?_of_mem hp
    obtain ⟨hx, hv⟩ := List.getElem?_zip_eq_some.1 hi
    obtain ⟨t', ht', hb⟩ := hd.chosen i x v hx hv
    obtain rfl := Option.some.inj (ht'.symm.trans ht)
    have hlt : i < idle.length := (List.getElem?_eq_some_iff.1 hv).1
    have hbound : x ∈ b.bound := by
      rw [hd.bound]
      exact List.mem_of_getElem? ((List.getElem?_take_of_lt hlt).trans hx)
    exact h.feasible hn hbound ht (List.mem_of_mem_filter (hd.idle_perm.subset (List.mem_of_getElem? hv))) hb
  · intro h x hx
    rw [hd.bound] at hx
    obtain ⟨i, hi⟩ := List.getElem?_of_mem hx
    rw [List.getElem?_take] at hi
    obtain ⟨hlt, hx⟩ : i < idle.length ∧ ids[i]? = some x := by simpa using hi
    have hv := List.getElem?_eq_getElem hlt
    obtain ⟨t, ht, hb⟩ := hd.chosen i x _ hx hv
    have hmem : (x, idle[i]) ∈ ids.zip idle := List.mem_of_getElem? (List.getElem?_zip_eq_some.2 ⟨hx, hv⟩)
    have hroster := hd.idle_perm.subset (List.getElem_mem hlt)
    exact ⟨t, ht, idle[i], List.mem_of_mem_filter hroster, h _ hmem t ht, hb⟩

/-- Planned tasks fit exactly if each is feasible on the VM that it may take. -/
theorem Dealt.fits_iff (hd : Dealt .static b₀ b) (hall : b.ready = []) :
    b₀.Fits b ↔ Suited .static b₀ := by
  have hbound : b.bound.Perm b₀.ready := by
    have := hd.perm
    rwa [hall, List.append_nil] at this
  constructor
  · intro h x hx t ht v hv he
    have hx := hbound.mem_iff.2 hx
    obtain ⟨t', ht', u, hu, he', hb⟩ := hd.chosen x hx
    obtain rfl := Option.some.inj (ht'.symm.trans ht)
    rw [he'.id_eq hu hv he] at hb
    exact h.feasible hn hx ht hv hb
  · intro h x hx
    obtain ⟨t, ht, v, hv, he, hb⟩ := hd.chosen x hx
    exact ⟨t, ht, v, hv, h x (hbound.subset hx) t ht v hv he, hb⟩

/-- Which batches a rule binds to feasible VMs. -/
theorem fits_iff_suited (h₀ : Fresh b₀) (hrun : dispatch rule b₀ = .ok () b) :
    b₀.Fits b ↔ Suited rule b₀ := by
  obtain ⟨hd, hleft⟩ := (dispatch_leads rule h₀).of_ok hrun
  cases rule with
  | minMin => exact iff_of_true (fits_of_isListRule (Or.inl rfl) hd) trivial
  | maxMin => exact iff_of_true (fits_of_isListRule (Or.inr (Or.inl rfl)) hd) trivial
  | fcfs => exact iff_of_true (fits_of_isListRule (Or.inr (Or.inr rfl)) hd) trivial
  | static => exact hd.fits_iff hn (hleft.resolve_right fun h => by cases h.1)
  | roundRobin =>
    obtain ⟨-, rfl⟩ := dispatch_roundRobin_eq_ok.1 hrun
    exact (dealtOut h₀ hn hd).fits_iff hn

end

/-- For a batch whose tasks all have feasible VMs, no rule fails unless there are no VMs at all. Each task
it binds has left the ready ones and is bound to a VM of the roster that the rule may choose. All of them
fit exactly if the VMs that the rule takes without looking are feasible, which holds of list rules. -/
theorem dispatch_binds (rule : Rule) (b₀ : Batch α) (h₀ : Fresh b₀) (hn : (b₀.vms.map Vm.id).Nodup)
    (hf : ∀ x ∈ b₀.ready, ∃ t, b₀.workflow.find? x = some t ∧ ∃ v ∈ b₀.vms, isFeasible t v = true) :
    (b₀.vms ≠ [] → ∃ b, dispatch rule b₀ = .ok () b) ∧
    ∀ b, dispatch rule b₀ = .ok () b → (b.bound ++ b.ready).Perm b₀.ready ∧
      (∀ x ∈ b.bound, x ∉ b.ready ∧ ∃ t, b₀.workflow.find? x = some t ∧
        ∃ v ∈ b₀.vms, Eligible rule b₀.vms t v ∧ b.workflow.find? x = some { t with vm := v.id }) ∧
      (b₀.Fits b ↔ Suited rule b₀) := by
  have hlead := dispatch_leads rule h₀
  constructor
  · intro hne
    cases hr : dispatch rule b₀ with
    | ok u b => exact ⟨b, rfl⟩
    | error fault b =>
      rcases hlead.of_error hr with hnil | ⟨-, x, hx, t, ht, hno⟩
      · exact absurd hnil hne
      · obtain ⟨u, hu, v, hv, hfeas⟩ := hf x hx
        obtain rfl := Option.some.inj (ht.symm.trans hu)
        rw [hno v hv] at hfeas
        cases hfeas
  · intro b hb
    obtain ⟨hd, -⟩ := hlead.of_ok hb
    exact ⟨hd.perm, fun x hx => ⟨hd.not_mem_ready h₀ hx, hd.chosen x hx⟩, fits_iff_suited hn h₀ hb⟩

/-- Three ready tasks, of which one needs two processing elements, one a datacenter, and one is bound to no
VM of the roster, and three idle VMs besides one that is busy. -/
def mixed : Batch ℚ where
  workflow := { tasks := [{ id := 1, length := 30, elements := 2, vm := 0 },
                  { id := 2, length := 10, offload := 1, vm := 1 }, { id := 3, length := 20, vm := 7 }]
                nodup := by decide }
  vms := [{ id := 2, mips := 10 }, { id := 0, mips := 5, elements := 2 },
    { id := 3, mips := 20, busy := true }, { id := 1, mips := 10, datacenter := 1 }]
  ready := [3, 1, 2]

/-- Dealing out brings each of them together with a VM that is feasible. -/
theorem turns_mixed : mixed.turns = [(1, { id := 0, mips := 5, elements := 2 }),
    (2, { id := 1, mips := 10, datacenter := 1 }), (3, { id := 2, mips := 10 })] := by
  simp [turns, mixed, idleById, placesById, List.mergeSort]

theorem suited_mixed (rule : Rule) : Suited rule mixed := by
  cases rule with
  | minMin => trivial
  | maxMin => trivial
  | fcfs => trivial
  | roundRobin =>
    have hall : ∀ p ∈ mixed.turns, (mixed.workflow.find? p.1).all (isFeasible · p.2) = true := by
      rw [turns_mixed]
      decide
    exact fun p hp t ht => by simpa [ht] using hall p hp
  | static =>
    have hall : ∀ t ∈ mixed.workflow.tasks, ∀ v ∈ mixed.vms,
        v.id = t.vm ∨ t.vm ∉ mixed.vms.map Vm.id ∧ fallback? mixed.vms = some v.id →
          isFeasible t v = true := by
      decide
    exact fun x _ t ht v hv => hall t (Workflow.find?_eq_some.1 ht).1 v hv

/-- Every rule binds them to VMs that are feasible. -/
theorem dispatch_binds_mixed : mixed.Fresh ∧ (mixed.vms.map Vm.id).Nodup ∧
    (∀ x ∈ mixed.ready, ∃ t, mixed.workflow.find? x = some t ∧
      ∃ v ∈ mixed.vms, isFeasible t v = true) ∧
    ∀ rule, ∃ b, dispatch rule mixed = .ok () b ∧ (b.bound ++ b.ready).Perm mixed.ready ∧ mixed.Fits b := by
  have hfresh : mixed.Fresh := ⟨rfl, by decide, by decide⟩
  have hn : (mixed.vms.map Vm.id).Nodup := by decide
  have hf : ∀ x ∈ mixed.ready, ∃ t, mixed.workflow.find? x = some t ∧
      ∃ v ∈ mixed.vms, isFeasible t v = true := by
    have hall : ∀ t ∈ mixed.workflow.tasks, ∃ v ∈ mixed.vms, isFeasible t v = true := by decide
    intro x hx
    obtain ⟨t, ht⟩ := Workflow.mem_ids.1 (hfresh.known x hx)
    exact ⟨t, ht, hall t (Workflow.find?_eq_some.1 ht).1⟩
  refine ⟨hfresh, hn, hf, fun rule => ?_⟩
  obtain ⟨hok, hall⟩ := dispatch_binds rule mixed hfresh hn hf
  obtain ⟨b, hb⟩ := hok (by decide)
  obtain ⟨hperm, -, hfits⟩ := hall b hb
  exact ⟨b, hb, hperm, hfits.2 (suited_mixed rule)⟩

/-- A task that needs two processing elements, planned for a VM that has one. -/
def wideTask : Task ℚ := { id := 1, length := 10, elements := 2, vm := 0 }

/-- That task, ready, with two VMs of which the second one has enough elements. -/
def wide : Batch ℚ where
  workflow := { tasks := [wideTask], nodup := by decide }
  vms := [{ id := 0, mips := 10 }, { id := 1, mips := 10, elements := 2 }]
  ready := [1]

/-- Dealing it out, or following its plan, binds it to the VM that is too small, although the other
one is feasible and idle. -/
theorem wide_misfits : wide.Fresh ∧ (wide.vms.map Vm.id).Nodup ∧
    (∀ x ∈ wide.ready, ∃ t, wide.workflow.find? x = some t ∧
      ∃ v ∈ wide.vms, isFeasible t v = true) ∧
    ∀ rule, rule = .roundRobin ∨ rule = .static → ∃ b t, dispatch rule wide = .ok () b ∧
      b.bound = [1] ∧ b.workflow.find? 1 = some t ∧
      ∀ v ∈ wide.vms, v.id = t.vm → isFeasible t v = false := by
  refine ⟨⟨rfl, by decide, by decide⟩, by decide, fun x hx => ?_, fun rule hrule => ?_⟩
  · obtain rfl := List.mem_singleton.1 hx
    exact ⟨_, rfl, _, List.mem_cons_of_mem _ List.mem_cons_self, rfl⟩
  · have hsmall : ∀ v ∈ wide.vms, v.id = 0 → isFeasible wideTask v = false := by decide
    rcases hrule with rfl | rfl
    · have hplaces : placesById wide.vms = wide.vms.zipIdx := List.mergeSort_of_pairwise (by decide)
      have hready : (wide.ready.mergeSort fun a b => decide (a ≤ b)) = [1] := List.mergeSort_singleton _
      refine ⟨(wide.occupy 0).bind .roundRobin 1 0, wideTask, ?_, rfl, rfl, hsmall⟩
      show EStateM.Result.ok () (dispatchRoundRobin wide) = _
      rw [dispatchRoundRobin, hready, dealOut, hplaces]
      rfl
    · exact ⟨{ wide with ready := [], bound := [1] }, wideTask, rfl, rfl, rfl, hsmall⟩

end FlowSched.Batch

import FlowSched.Proofs.Dispatch

/-!
# What dispatching does with idle VMs

While idle VMs are unloaded, a list rule takes the first idle VM that is feasible
(`TakesFirstIdle`). Dealing out in turn gives each VM that was idle one task at most, and none to
the others (`Spread`).
-/

namespace FlowSched.Batch

open Quantity Step

variable {α : Type} [Quantity α] {rule : Rule} {b₀ b : Batch α}

/-! ## The first idle VM -/

/-- Of VMs that are all unloaded, the first is the first most loaded one. -/
theorem mostLoaded_of_unloaded {vs : List (Vm ℚ × ℕ)} (h : ∀ v ∈ vs, v.1.load = 0) :
    mostLoaded vs = vs.head? := by
  cases vs with
  | nil => rfl
  | cons v vs =>
    have hfold : ∀ l : List (Vm ℚ × ℕ), (∀ u ∈ l, u.1.load = 0) →
        l.foldl (fun best v => if best.1.load < v.1.load then v else best) v = v := by
      intro l hl
      induction l with
      | nil => rfl
      | cons u l ih =>
        rw [List.foldl_cons, if_neg, ih fun x hx => hl x (List.mem_cons_of_mem _ hx)]
        rw [h v List.mem_cons_self, hl u List.mem_cons_self]
        exact lt_irrefl 0
    exact congrArg some (hfold vs fun u hu => h u (List.mem_cons_of_mem _ hu))

/-- While idle VMs are unloaded, the VM selected is the first idle one that is feasible, if there is
one. -/
theorem select_of_unloaded {t : Task ℚ} {vms : List (Vm ℚ)} {choice : Vm ℚ × ℕ}
    (h : ∀ v ∈ vms, v.busy = false → v.load = 0)
    (hf : (feasible t vms).find? (fun p => !p.1.busy) = some choice) : select t vms = .ok choice := by
  replace hf : (feasible t vms).find? (fun (v, _) => !v.busy) = some choice := hf
  have hidle : ∀ v ∈ (feasible t vms).filter fun (v, _) => !v.busy, v.1.load = 0 := by
    intro v hv
    obtain ⟨hv, hb⟩ := List.mem_filter.1 hv
    obtain ⟨hget, -⟩ := mem_feasible.1 hv
    exact h v.1 (List.mem_of_getElem? hget) (by simpa using hb)
  unfold select
  dsimp only
  rw [mostLoaded_of_unloaded hidle, List.head?_filter, hf]
  rfl

/-- The next binding takes the first idle VM that is feasible for its task, if there is one. -/
def TakesFirstIdle (rule : Rule) (b : Batch α) : Prop :=
  ∀ tasks t v place, b.workflow.getAll b.ready = .ok tasks → next? rule tasks = some t →
    (feasible t b.vms).find? (fun p => !p.1.busy) = some (v, place) →
    bindNext rule b = .ok ((b.occupy place).bind rule t.id v.id)

theorem takesFirstIdle_of_unloaded {rule : Rule} {b : Batch ℚ}
    (h : ∀ v ∈ b.vms, v.busy = false → v.load = 0) : TakesFirstIdle rule b := by
  intro tasks t v place htasks hnext hf
  simp only [bindNext, htasks, ok_bind, hnext, select_of_unloaded h hf]

/-! ## One task for each idle VM -/

/-- How many of some tasks are bound to a VM. -/
def onVm (w : Workflow α) (tasks : List ℤ) (vm : ℤ) : ℕ :=
  tasks.countP fun x => (w.find? x).any (·.vm = vm)

section

variable {w w' : Workflow α} {tasks : List ℤ} {x vm : ℤ} {t : Task α}

theorem onVm_congr (h : ∀ y ∈ tasks, (w'.find? y).map Task.vm = (w.find? y).map Task.vm) :
    onVm w' tasks vm = onVm w tasks vm := by
  have hany : ∀ o : Option (Task α), o.any (·.vm = vm) = (o.map Task.vm).any (· = vm) := by
    intro o
    cases o <;> rfl
  refine List.countP_congr fun y hy => ?_
  rw [hany, hany, h y hy]

theorem onVm_cons (ht : w.find? x = some t) :
    onVm w (x :: tasks) vm = onVm w tasks vm + if t.vm = vm then 1 else 0 := by
  unfold onVm
  rw [List.countP_cons, ht]
  by_cases h : t.vm = vm <;> simp [h]

theorem onVm_perm {tasks' : List ℤ} (h : tasks.Perm tasks') : onVm w tasks vm = onVm w tasks' vm :=
  h.countP_eq _

end

theorem workflow_bind (r : Rule) (x vm : ℤ) (place : ℕ) :
    ((b.occupy place).bind r x vm).workflow = b.workflow.modify x fun t => { t with vm } := rfl

/-- Every VM was given one task at most, and none if it was busy before. -/
def Spread (b₀ b : Batch α) : Prop :=
  ∀ (i : ℕ) (u v : Vm α), b₀.vms[i]? = some u → b.vms[i]? = some v →
    onVm b.workflow b.bound v.id + u.busy.toNat ≤ v.busy.toNat

theorem Fresh.spread (h : Fresh b₀) : Spread b₀ b₀ := by
  intro i u v hu hv
  rw [hu] at hv
  obtain rfl := Option.some.inj hv
  rw [h.bound]
  exact (Nat.zero_add _).le

/-- Binding a ready task to an idle VM. -/
theorem Spread.bind (hs : Spread b₀ b) (h₀ : Fresh b₀) (hn : (b₀.vms.map Vm.id).Nodup)
    (h : Dealt rule b₀ b) {x : ℤ} {t : Task α} {v : Vm α} {place : ℕ} (r : Rule) (hx : x ∈ b.ready)
    (ht : b.workflow.find? x = some t) (hv : b.vms[place]? = some v) (hidle : v.busy = false) :
    Spread b₀ ((b.occupy place).bind r x v.id) := by
  intro i u u' hu hu'
  have hids : (b.vms.map Vm.id).Nodup := by rwa [map_id_of_occupied h.vms]
  -- the tasks bound before count as they did, the new one counts for its VM
  have hcount : onVm ((b.occupy place).bind r x v.id).workflow (b.bound ++ [x]) u'.id =
      onVm b.workflow b.bound u'.id + if v.id = u'.id then 1 else 0 := by
    obtain ⟨-, rfl⟩ := Workflow.find?_eq_some.1 ht
    rw [onVm_perm (List.perm_append_singleton _ _), workflow_bind,
      onVm_cons (Workflow.find?_modify_self ht), onVm_congr fun y hy => ?_]
    have hne : y ≠ t.id := fun he => h.not_mem_bound h₀ hx (he ▸ hy)
    rw [Workflow.find?_modify_of_ne hne]
  show onVm _ (b.bound ++ [x]) u'.id + _ ≤ _
  rw [hcount]
  have hu' : (b.vms.modify place fun v => { v with busy := true })[i]? = some u' := hu'
  rw [List.getElem?_modify] at hu'
  obtain ⟨u₁, hu₁, rfl⟩ := Option.map_eq_some_iff.1 hu'
  have hle := hs i u u₁ hu hu₁
  by_cases hp : place = i
  · subst hp
    rw [hv] at hu₁
    obtain rfl := Option.some.inj hu₁
    rw [hidle] at hle
    simp only [if_true, Bool.toNat_true, Bool.toNat_false] at hle ⊢
    omega
  · have hne : v.id ≠ u₁.id := fun he => hp (Vm.place_inj hids hv hu₁ he)
    simpa only [if_neg hp, if_neg hne, Nat.add_zero] using hle

/-- Dealing out gives every VM one task at most, and none if it was busy before. -/
theorem spread_of_dispatch (h₀ : Fresh b₀) (hn : (b₀.vms.map Vm.id).Nodup)
    (hm : dispatch .roundRobin b₀ = .ok () b) : Spread b₀ b := by
  have hlead : Leads (dispatch .roundRobin) b₀ (fun _ b => Spread b₀ b) fun _ _ => True := by
    unfold dispatch
    rw [leads_bind, leads_get]
    split
    · exact leads_throw.2 trivial
    · exact leads_modify.2 (dealOut_keeps h₀ (P := Spread b₀)
        (fun h hs hx ht hv hidle => hs.bind h₀ hn h .roundRobin hx ht hv hidle) _
        (h₀.dealt .roundRobin) h₀.spread (List.mergeSort_perm _ _)).2.1
  exact hlead.of_ok hm

end FlowSched.Batch

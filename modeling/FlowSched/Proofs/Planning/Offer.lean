import FlowSched.Proofs.Planning.Frame

/-!
# Offers

A VM offers to run a task from when the data of its parents are there. Once the parents have ends,
every VM that is big enough makes an offer, at the end of the slot that the task would take
(`Offered`). The best offer is the one that ends first, and of several such ones that of the first VM
(`Foremost`); there is one if some VM is big enough (`bestOffer?_ok`).
-/

namespace FlowSched

open Quantity Step

/-- The data of a parent are on a VM from some time on: the parent has ended, and if it runs on
another VM its data have been moved. -/
def Delivered (c : Costs ℚ) (w : Workflow ℚ) (finishes : Table ℚ) (task vm : ℤ) (time : ℚ)
    (parent : ℤ) : Prop :=
  ∃ u f, w.find? parent = some u ∧ finishes.get? parent = some f ∧ f ≤ time ∧
    (u.vm ≠ vm → ∃ m, c.moving parent task = .ok m ∧ f + m ≤ time)

section

variable {c : Costs ℚ} {w w' : Workflow ℚ} {finishes finishes' : Table ℚ} {task vm parent : ℤ}
  {time time' : ℚ}

theorem Delivered.mono (h : Delivered c w finishes task vm time parent) (hle : time ≤ time') :
    Delivered c w finishes task vm time' parent := by
  obtain ⟨u, f, hu, hf, hft, hmove⟩ := h
  refine ⟨u, f, hu, hf, hft.trans hle, fun hne => ?_⟩
  obtain ⟨m, hm, hfm⟩ := hmove hne
  exact ⟨m, hm, hfm.trans hle⟩

/-- Only what is known of the parent counts. -/
theorem Delivered.congr (h : Delivered c w finishes task vm time parent)
    (hw : w'.find? parent = w.find? parent) (hf : finishes'.get? parent = finishes.get? parent) :
    Delivered c w' finishes' task vm time parent := by
  obtain ⟨u, f, hu, hf', hrest⟩ := h
  exact ⟨u, f, hw.trans hu, hf.trans hf', hrest⟩

end

namespace Draft

variable {p : Pricing ℚ} {d : Draft ℚ} {done : List ℤ} {t : Task ℚ} {v : Vm ℚ} {o : Offer ℚ}

/-- What offers read of a draft: the VMs have timelines, and the tasks that are done have ends. -/
structure Open (p : Pricing ℚ) (done : List ℤ) (d : Draft ℚ) : Prop where
  priced : Priced p d.toWorld
  timelines : ∀ v ∈ d.vms, ∃ line, d.timelines.get? v.id = some line
  finishes : ∀ x, x ∈ done ↔ ∃ f, d.finishes.get? x = some f

/-- An offer of a VM that is big enough: from when the task is ready there, for its computing time, in
the slot that it would take. -/
structure Offered (p : Pricing ℚ) (d : Draft ℚ) (t : Task ℚ) (v : Vm ℚ) (o : Offer ℚ) : Prop where
  vm : o.vm = v.id
  fits : t.elements ≤ v.elements
  floor : p.floor ≤ o.ready
  parents : ∀ x ∈ t.parents, Delivered p.costs d.workflow d.finishes t.id v.id o.ready x
  cost : p.costs.computing t.id v.id = .ok (some o.cost)
  nonneg : 0 ≤ o.cost
  finish : ∃ line, d.timelines.get? v.id = some line ∧ o.finish = line.finishTime o.cost o.ready

/-! ## The foremost offer -/

/-- An offer that a VM of a roster makes first: those ahead of it offer a later end, if any, and those
behind it no earlier one. -/
def Foremost (p : Pricing ℚ) (d : Draft ℚ) (t : Task ℚ) (vms : List (Vm ℚ)) (o : Offer ℚ) : Prop :=
  ∃ ahead v behind, vms = ahead ++ v :: behind ∧ d.offer? p t v.id = .ok (some o) ∧
    (∀ u ∈ ahead, ∀ o', d.offer? p t u.id = .ok (some o') → o.finish < o'.finish) ∧
    ∀ u ∈ behind, ∀ o', d.offer? p t u.id = .ok (some o') → o.finish ≤ o'.finish

section

variable {vms : List (Vm ℚ)} {best : Option (Offer ℚ)}

/-- No VM of the roster offers an earlier end than the foremost offer. -/
theorem Foremost.le (h : Foremost p d t vms o) {o' : Offer ℚ} (hv : v ∈ vms)
    (hoffer : d.offer? p t v.id = .ok (some o')) : o.finish ≤ o'.finish := by
  obtain ⟨ahead, u, behind, rfl, hu, hahead, hbehind⟩ := h
  rcases List.mem_append.1 hv with hv | hv
  · exact (hahead v hv o' hoffer).le
  · rcases List.mem_cons.1 hv with rfl | hv
    · obtain rfl := Option.some.inj (Except.ok.inj (hu.symm.trans hoffer))
      exact le_refl _
    · exact hbehind v hv o' hoffer

/-- A further VM that offers no earlier end leaves the foremost offer as it is. -/
theorem Foremost.concat (h : Foremost p d t vms o)
    (hle : ∀ o', d.offer? p t v.id = .ok (some o') → o.finish ≤ o'.finish) :
    Foremost p d t (vms ++ [v]) o := by
  obtain ⟨ahead, u, behind, rfl, hu, hahead, hbehind⟩ := h
  refine ⟨ahead, u, behind ++ [v], by simp, hu, hahead, fun x hx o' ho' => ?_⟩
  rcases List.mem_append.1 hx with hx | hx
  · exact hbehind x hx o' ho'
  · rw [List.mem_singleton.1 hx] at ho'
    exact hle o' ho'

/-- A further VM that offers an earlier end than all others makes the foremost offer. -/
theorem foremost_concat (hoffer : d.offer? p t v.id = .ok (some o))
    (hlt : ∀ u ∈ vms, ∀ o', d.offer? p t u.id = .ok (some o') → o.finish < o'.finish) :
    Foremost p d t (vms ++ [v]) o :=
  ⟨vms, v, [], rfl, hoffer, hlt, by simp⟩

/-- The first of two offers is better unless the second ends before it. -/
theorem better_some (a : Offer ℚ) (b : Option (Offer ℚ)) :
    better (some a) b = some a ∧ (∀ o, b = some o → a.finish ≤ o.finish) ∨
      ∃ o, b = some o ∧ better (some a) b = some o ∧ o.finish < a.finish := by
  cases b with
  | none => exact Or.inl ⟨rfl, fun o ho => by cases ho⟩
  | some b =>
    unfold better
    dsimp only
    split
    · next hlt => exact Or.inr ⟨b, rfl, rfl, hlt⟩
    · next hle => exact Or.inl ⟨rfl, fun o ho => Option.some.inj ho ▸ not_lt.1 hle⟩

/-- Comparing the offers of some VMs in turn leads to the foremost one, or to none if none is made. -/
theorem foldlM_better (h : vms.foldlM (fun best v => do
      let offer ← d.offer? p t v.id
      .ok (better best offer)) none = .ok best) :
    (best = none → ∀ u ∈ vms, d.offer? p t u.id = .ok none) ∧
      ∀ o, best = some o → Foremost p d t vms o := by
  induction vms using List.reverseRecOn generalizing best with
  | nil =>
    obtain rfl := Except.ok.inj h
    exact ⟨fun _ => by simp, fun o ho => by cases ho⟩
  | append_singleton vms v ih =>
    rw [List.foldlM_append] at h
    obtain ⟨earlier, hearlier, h⟩ := bind_eq_ok.1 h
    rw [List.foldlM_cons, bind_assoc] at h
    obtain ⟨offer, hoffer, h⟩ := bind_eq_ok.1 h
    obtain rfl := Except.ok.inj h
    obtain ⟨hnone, hsome⟩ := ih hearlier
    cases earlier with
    | none =>
      refine ⟨fun he u hu => ?_, fun o ho => foremost_concat (hoffer.trans (congrArg _ ho)) ?_⟩
      · rcases List.mem_append.1 hu with hu | hu
        · exact hnone rfl u hu
        · rw [List.mem_singleton.1 hu]
          exact hoffer.trans (congrArg _ he)
      · intro u hu o' ho'
        rw [hnone rfl u hu] at ho'
        cases ho'
    | some a =>
      have hfirst := hsome a rfl
      rcases better_some a offer with ⟨hbest, hle⟩ | ⟨b, rfl, hbest, hlt⟩
      · rw [hbest]
        refine ⟨fun he => (by cases he), fun o ho => Option.some.inj ho ▸ hfirst.concat fun o' ho' => ?_⟩
        exact hle o' (Except.ok.inj (hoffer.symm.trans ho'))
      · rw [hbest]
        refine ⟨fun he => (by cases he), fun o ho => Option.some.inj ho ▸ foremost_concat hoffer ?_⟩
        exact fun u hu o' ho' => hlt.trans_le (hfirst.le hu ho')

/-- The best offer is the foremost one of the roster. -/
theorem bestOffer?_foremost (h : d.bestOffer? p t = .ok (some o)) : Foremost p d t p.vms o :=
  (foldlM_better h).2 o rfl

end

/-! ## What is offered -/

section

variable (h : Open p done d) (ht : t ∈ d.workflow.tasks) (hparents : ∀ x ∈ t.parents, x ∈ done)

include h ht hparents

/-- The data of every parent arrive. -/
theorem arrival_ok (vm : ℤ) {x : ℤ} (hx : x ∈ t.parents) : ∃ time, d.arrival p t vm x = .ok time ∧
    Delivered p.costs d.workflow d.finishes t.id vm time x := by
  obtain ⟨finish, hf⟩ := (h.finishes x).1 (hparents x hx)
  obtain ⟨u, hu, hm⟩ := h.priced.checked.parent t ht x hx
  obtain ⟨hum, rfl⟩ := Workflow.find?_eq_some.1 hu
  obtain ⟨time, htime, hnonneg⟩ := h.priced.rated.moving u hum t.id hm
  unfold arrival
  simp only [hf, Workflow.get_eq_ok.2 hu, ok_bind]
  split
  · next hvm => exact ⟨finish, rfl, u, finish, hu, hf, le_refl _, fun hne => absurd hvm hne⟩
  · rw [htime, ok_bind]
    exact ⟨_, rfl, u, finish, hu, hf, le_add_of_nonneg_right hnonneg, fun _ =>
      ⟨time, htime, le_refl _⟩⟩

/-- A task is ready once the data of all its parents are there. -/
theorem readyTime_ok (vm : ℤ) : ∃ ready, d.readyTime p t vm = .ok ready ∧ p.floor ≤ ready ∧
    ∀ x ∈ t.parents, Delivered p.costs d.workflow d.finishes t.id vm ready x := by
  refine foldlM_ok (P := fun xs ready => p.floor ≤ ready ∧
      ∀ x ∈ xs, Delivered p.costs d.workflow d.finishes t.id vm ready x)
    (fun xs x hx ready hready => ?_) ⟨le_refl _, by simp⟩
  obtain ⟨time, htime, hdelivered⟩ := arrival_ok h ht hparents vm hx
  refine ⟨later ready time, by rw [htime, ok_bind], hready.1.trans (le_later_left _ _),
    fun y hy => ?_⟩
  rcases List.mem_append.1 hy with hy | hy
  · exact (hready.2 y hy).mono (le_later_left _ _)
  · rw [List.mem_singleton.1 hy]
    exact hdelivered.mono (le_later_right _ _)

/-- A VM makes an offer if it is big enough, and only then. -/
theorem offer?_ok (hv : v ∈ d.vms) : ∃ offer, d.offer? p t v.id = .ok offer ∧
    (∀ o, offer = some o → Offered p d t v o) ∧ (t.elements ≤ v.elements → offer ≠ none) := by
  obtain ⟨ready, hready, hfloor, hdelivered⟩ := readyTime_ok h ht hparents v.id
  have hcost := computing_eq_ok h.priced.costs h.priced.ids ht hv
  rw [computeTime_eq] at hcost
  obtain ⟨line, hline⟩ := h.timelines v hv
  unfold offer?
  by_cases hfit : v.elements < t.elements
  · rw [if_pos hfit] at hcost
    rw [hready, ok_bind, hcost, ok_bind, hline]
    exact ⟨none, rfl, fun o ho => (by cases ho), fun hle => absurd hfit (not_lt.2 hle)⟩
  · rw [if_neg hfit] at hcost
    rw [hready, ok_bind, hcost, ok_bind, hline]
    refine ⟨_, rfl, fun o ho => ?_, fun _ => by simp [belowTop]⟩
    rw [← Option.some.inj ho]
    exact ⟨rfl, not_lt.1 hfit, hfloor, hdelivered, hcost, div_nonneg (h.priced.checked.length t ht)
      ((roster_of_costs h.priced.costs).2 v hv).le, line, hline, rfl⟩

/-- The best offer is what some VM that is big enough offers from when the task is ready there. -/
theorem Open.offered (hbest : d.bestOffer? p t = .ok (some o)) :
    ∃ v ∈ d.vms, Offered p d t v o ∧ d.readyTime p t v.id = .ok o.ready := by
  obtain ⟨v, hv, hoffer⟩ := of_bestOffer? hbest
  rw [h.priced.vms] at hv
  obtain ⟨offer, hoffer', hoffered, -⟩ := offer?_ok h ht hparents hv
  obtain rfl := Except.ok.inj (hoffer.symm.trans hoffer')
  exact ⟨v, hv, hoffered o rfl, (of_offer? hoffer).2.1⟩

/-- There is a best offer. -/
theorem bestOffer?_ok : ∃ o, d.bestOffer? p t = .ok (some o) := by
  have hoffers : ∃ best, d.bestOffer? p t = .ok best := by
    refine (foldlM_ok (P := fun _ _ => True) (fun _ v hv best _ => ?_) trivial).imp fun _ h => h.1
    obtain ⟨offer, hoffer, -⟩ := offer?_ok h ht hparents (h.priced.vms ▸ hv)
    exact ⟨better best offer, by rw [hoffer, ok_bind], trivial⟩
  obtain ⟨best, hbest⟩ := hoffers
  obtain ⟨v, hv, hfit⟩ := h.priced.roomy t ht
  cases best with
  | none =>
    obtain ⟨offer, hoffer, -, hsome⟩ := offer?_ok h ht hparents hv
    have hnone := (foldlM_better hbest).1 rfl v (h.priced.vms ▸ hv)
    exact absurd (Except.ok.inj (hoffer.symm.trans hnone)) (hsome hfit)
  | some o => exact ⟨o, hbest⟩

end

end Draft

end FlowSched

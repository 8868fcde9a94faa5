import FlowSched.Proofs.Planning.Consistent

/-!
# Greedy allocation

Whatever a planner has allocated so far, it ends the next task as early as any VM could from when the task
is ready there, on the first VM of the roster that can (`Draft.EndsFirst`), and adds that one slot to the
timelines (`Draft.Enters`). The offer that is accepted is the foremost one, and what a VM offers is the least
end it can offer (`Draft.Allotted.isLeast_offer`).
-/

namespace FlowSched

open Quantity Step

namespace Draft

/-- A VM that is big enough can end a task at an instant: from when the task is ready there, or from later
on, its computing time up to that instant lies clear of all slots. -/
structure CanEnd (d : Draft ℚ) (p : Pricing ℚ) (t : Task ℚ) (v : Vm ℚ) (finish : ℚ) : Prop where
  fits : t.elements ≤ v.elements
  free : ∃ ready line start, d.readyTime p t v.id = .ok ready ∧ d.timelines.get? v.id = some line ∧
    ready ≤ start ∧ Timeline.Fits line.slots (t.length / v.mips) start ∧
    finish = start + t.length / v.mips

/-- No VM of the roster can end a task before an instant, and this is the first one that can end it
then. -/
structure EndsFirst (d : Draft ℚ) (p : Pricing ℚ) (t : Task ℚ) (v : Vm ℚ) (finish : ℚ) : Prop where
  least : IsLeast {f | ∃ u ∈ p.vms, d.CanEnd p t u f} finish
  here : d.CanEnd p t v finish
  first : ∃ ahead behind, p.vms = ahead ++ v :: behind ∧ ∀ u ∈ ahead, ¬ d.CanEnd p t u finish

/-- A draft and what it becomes when a task gets a slot on a VM: the task is bound to the VM and ends with
the slot, the timeline of the VM has this slot more, and no other task and no other timeline is touched. -/
structure Enters (d d' : Draft ℚ) (x vm : ℤ) (start finish : ℚ) : Prop where
  bound : (d'.workflow.find? x).map Task.vm = some vm
  ends : d'.finishes.get? x = some finish
  slot : ∃ line before after, d.timelines.get? vm = some line ∧ line.slots = before ++ after ∧
    d'.timelines.get? vm = some { line with slots := before ++ ⟨start, finish, x, line.vm⟩ :: after }
  tasks : ∀ y ≠ x, d'.workflow.find? y = d.workflow.find? y
  finishes : ∀ y ≠ x, d'.finishes.get? y = d.finishes.get? y
  timelines : ∀ u ≠ vm, d'.timelines.get? u = d.timelines.get? u

variable {p : Pricing ℚ} {d : Draft ℚ} {done : List ℤ} {t : Task ℚ} {v : Vm ℚ} {o : Offer ℚ} {f : ℚ}

theorem Allotted.cost_eq (h : Allotted p done d) (ht : t ∈ d.workflow.tasks) (hv : v ∈ d.vms)
    (ho : Offered p d t v o) : o.cost = t.length / v.mips := by
  have hcost := computing_eq_ok h.priced.costs h.priced.ids ht hv
  rw [computeTime_eq, if_neg (not_lt.2 ho.fits), ho.cost] at hcost
  exact Option.some.inj (Except.ok.inj hcost)

section

variable (h : Allotted p done d) (ht : t ∈ d.workflow.tasks) (hparents : ∀ x ∈ t.parents, x ∈ done)

include h ht hparents

/-- A VM offers the least end that it can. -/
theorem Allotted.isLeast_offer (hv : v ∈ d.vms) (hoffer : d.offer? p t v.id = .ok (some o)) :
    IsLeast {f | d.CanEnd p t v f} o.finish := by
  obtain ⟨offer, hoffer', hoffered, -⟩ := offer?_ok h.toOpen ht hparents hv
  obtain rfl := Except.ok.inj (hoffer.symm.trans hoffer')
  have ho := hoffered o rfl
  have hready := (of_offer? hoffer).2.1
  obtain ⟨line, hline, hfinish⟩ := ho.finish
  obtain ⟨⟨⟨hle, hfits⟩, hleast⟩, -⟩ :=
    Timeline.findSlot_least (h.tidy line (Table.mem_values hline)) o.cost o.ready
  rw [hfinish, Timeline.finishTime]
  rw [h.cost_eq ht hv ho] at hle hfits hleast ⊢
  refine ⟨⟨ho.fits, o.ready, line, _, hready, hline, hle, hfits, rfl⟩, fun f hf => ?_⟩
  obtain ⟨-, ready, line', start, hready', hline', hle', hfits', rfl⟩ := hf
  obtain rfl := Except.ok.inj (hready.symm.trans hready')
  obtain rfl := Option.some.inj (hline.symm.trans hline')
  exact add_le_add_left (hleast ⟨hle', hfits'⟩) _

/-- A VM that can end a task makes an offer, which ends no later. -/
theorem Allotted.offer_of_canEnd (hv : v ∈ d.vms) (hf : d.CanEnd p t v f) :
    ∃ o, d.offer? p t v.id = .ok (some o) ∧ o.finish ≤ f := by
  obtain ⟨offer, hoffer, -, hsome⟩ := offer?_ok h.toOpen ht hparents hv
  obtain ⟨o, rfl⟩ := Option.ne_none_iff_exists'.1 (hsome hf.fits)
  exact ⟨o, hoffer, (h.isLeast_offer ht hparents hv hoffer).2 hf⟩

/-- The best offer ends as early as any VM could end the task, and is made by the first VM that can. -/
theorem Allotted.endsFirst (hbest : d.bestOffer? p t = .ok (some o)) :
    ∃ v ∈ d.vms, Offered p d t v o ∧ d.EndsFirst p t v o.finish := by
  obtain ⟨ahead, v, behind, hvms, hoffer, hahead, hbehind⟩ := bestOffer?_foremost hbest
  have hroster : ∀ {u}, u ∈ p.vms → u ∈ d.vms := fun hu => h.priced.vms ▸ hu
  have hv : v ∈ d.vms := hroster (hvms ▸ by simp)
  have hhere := (h.isLeast_offer ht hparents hv hoffer).1
  obtain ⟨offer, hoffer', hoffered, -⟩ := offer?_ok h.toOpen ht hparents hv
  obtain rfl := Except.ok.inj (hoffer.symm.trans hoffer')
  refine ⟨v, hv, hoffered o rfl, ⟨⟨v, hvms ▸ by simp, hhere⟩, fun f hf => ?_⟩, hhere,
    ahead, behind, hvms, fun u hu hend => ?_⟩
  · obtain ⟨u, hu, hend⟩ := hf
    obtain ⟨o', hoffer', hle⟩ := h.offer_of_canEnd ht hparents (hroster hu) hend
    exact ((bestOffer?_foremost hbest).le hu hoffer').trans hle
  · obtain ⟨o', hoffer', hle⟩ := h.offer_of_canEnd ht hparents (hroster (hvms ▸ by simp [hu])) hend
    exact absurd hle (not_le.2 (hahead u hu o' hoffer'))

end

/-- An accepted offer enters one slot, which ends with the offer. -/
theorem Allotted.enters (h : Allotted p done d) (ht : t ∈ d.workflow.tasks) {line : Timeline ℚ}
    (hline : d.timelines.get? o.vm = some line) (hfinish : o.finish = line.finishTime o.cost o.ready) :
    Enters d (d.accept t line o) t.id o.vm (o.finish - o.cost) o.finish := by
  obtain ⟨before, after, hslots, heq, -⟩ :=
    Timeline.occupy_eq (h.tidy line (Table.mem_values hline)) t.id o.cost o.ready
  have hslot : (line.slotFor t.id o.cost o.ready).1 = ⟨o.finish - o.cost, o.finish, t.id, line.vm⟩ := by
    rw [hfinish, Timeline.finishTime, add_sub_cancel_right]
    rfl
  rw [hslot] at heq
  obtain ⟨u, hu, hvm, -⟩ := find?_accept_self ht line o
  refine ⟨by rw [hu, Option.map_some, hvm], by rw [finishes_accept, if_pos rfl],
    ⟨line, before, after, hline, hslots, ?_⟩, fun y hy => find?_accept_of_ne hy,
    fun y hy => by rw [finishes_accept, if_neg hy.symm], fun u hu => ?_⟩
  · show (d.timelines.set o.vm (line.occupy t.id o.cost o.ready)).get? o.vm = _
    rw [Table.get?_set, if_pos rfl, heq]
  · show (d.timelines.set o.vm (line.occupy t.id o.cost o.ready)).get? u = _
    rw [Table.get?_set, if_neg hu.symm]

/-- The next task is put where it ends first. -/
theorem Allotted.allocates (h : Allotted p done d) (hnew : t.id ∉ done) (ht : t ∈ d.workflow.tasks)
    (hparents : ∀ x ∈ t.parents, x ∈ done) :
    ∃ v finish d', allocate p t.id d = .ok () d' ∧ d.EndsFirst p t v finish ∧
      Enters d d' t.id v.id (finish - t.length / v.mips) finish := by
  have hlead : Leads (allocate p t.id) d (fun _ d' => ∃ v finish, d.EndsFirst p t v finish ∧
      Enters d d' t.id v.id (finish - t.length / v.mips) finish) fun _ _ => False := by
    refine allocate_leads h hnew ht hparents fun o line hbest hline _ => ?_
    obtain ⟨v, hv, ho, hfirst⟩ := h.endsFirst ht hparents hbest
    obtain ⟨line', hline', hfinish⟩ := ho.finish
    rw [← ho.vm] at hline'
    obtain rfl := Option.some.inj (hline.symm.trans hline')
    have henters := h.enters ht hline hfinish
    rw [ho.vm, h.cost_eq ht hv ho] at henters
    exact ⟨v, o.finish, hfirst, henters⟩
  obtain ⟨_, d', halloc, v, finish, hfirst, henters⟩ := hlead.exists_ok
  exact ⟨v, finish, d', halloc, hfirst, henters⟩

end Draft

/-! ## Planners -/

namespace Planner

variable {planner : Planner ℚ} {floor : ℚ} {w : World ℚ} {l : Lineup ℚ} {done rest : List ℤ} {x : ℤ}
  {d : Draft ℚ}

/-- What a planner has made of a world once it has lined the tasks up and allocated the first of them. -/
def Reaches (planner : Planner ℚ) (w : World ℚ) (l : Lineup ℚ) (done : List ℤ) (d : Draft ℚ) : Prop :=
  ∃ w₁, planner.lineUp w = .ok l w₁ ∧ Draft.allocateAll l.pricing done (Draft.fresh w₁) = .ok () d

/-- What a planner has lined up it can allocate, up to any task. -/
theorem allotted_front (hs : planner.Sane) (hd : w.workflow.Distinct) (hids : (w.vms.map Vm.id).Nodup)
    {w₁ : World ℚ} (hl : planner.lineUp w = .ok l w₁) (hsplit : l.order = done ++ rest) :
    ∃ c, Costs.ofWorkflow w.workflow w.vms = .ok c ∧
      l.pricing = { vms := w.vms, costs := c, floor := planner.floor } ∧
      Leads (Draft.allocateAll l.pricing done) (Draft.fresh w₁)
        (fun _ d => d.workflow.Topological l.order ∧ Draft.Allotted l.pricing done d) fun _ _ => False := by
  obtain ⟨c, hc, hrated⟩ := planner.rated_of_lineUp hl
  obtain ⟨hpricing, hlined⟩ := (planner.lineUp_leads hs hc hrated hd).of_ok hl
  have hp := hrated.priced hids hc planner.floor
  rw [← hpricing] at hp
  refine ⟨c, hc, hpricing, (Draft.allocateAll_passes (hp.of_kept hlined.kept) hlined.topological hsplit
    (I := fun _ _ => True) trivial fun _ _ _ _ _ _ _ => trivial).mono (fun _ d hd => ?_) fun _ _ h => h⟩
  exact ⟨hlined.topological.of_kin hd.1.kin.workflow, hd.2.1⟩

/-- Whatever has been allocated so far, the next task goes to the first VM of the roster that can end it
as early as any, in one more slot, and nothing else changes. -/
theorem allocate_ends_first (planner : Planner ℚ) (floor : ℚ) (w : World ℚ) (l : Lineup ℚ)
    (done rest : List ℤ) (x : ℤ) (d : Draft ℚ)
    (hbuilt : byRank floor = .ok planner ∨ ∃ options, byEstimate floor options = .ok planner)
    (hd : w.workflow.Distinct) (hids : (w.vms.map Vm.id).Nodup)
    (hreached : planner.Reaches w l done d) (hnext : l.order = done ++ x :: rest) :
    (∃ c, Costs.ofWorkflow w.workflow w.vms = .ok c ∧ l.pricing = { vms := w.vms, costs := c, floor }) ∧
    ∃ t v finish d', d.workflow.find? x = some t ∧ Draft.allocate l.pricing x d = .ok () d' ∧
      d.EndsFirst l.pricing t v finish ∧ d.Enters d' x v.id (finish - t.length / v.mips) finish := by
  obtain ⟨rfl, -, hsane⟩ := sane_of_built hbuilt
  obtain ⟨w₁, hl, halloc⟩ := hreached
  obtain ⟨c, hc, hpricing, hfront⟩ := allotted_front hsane hd hids hl hnext
  obtain ⟨htop, hallotted⟩ := hfront.of_ok halloc
  obtain ⟨t, ht, rfl, hnew, hparents⟩ := htop.turn hnext
  obtain ⟨v, finish, d', hstep, hfirst, henters⟩ := hallotted.allocates hnew ht hparents
  exact ⟨⟨c, hc, hpricing⟩, t, v, finish, d', Workflow.find?_self ht, hstep, hfirst, henters⟩

/-- The task in which both routes of the detour end, whenever its turn comes. -/
theorem allocate_ends_first_detour : detour.workflow.Distinct ∧ (detour.vms.map Vm.id).Nodup ∧
    ∀ strategy ∈ detourStrategies,
    (byRank (1 : ℚ) = .ok ⟨strategy, 1⟩ ∨ ∃ options, byEstimate (1 : ℚ) options = .ok ⟨strategy, 1⟩) ∧
    ∃ l done rest d, Reaches ⟨strategy, 1⟩ detour l done d ∧ l.order = done ++ 4 :: rest ∧
      (∃ c, Costs.ofWorkflow detour.workflow detour.vms = .ok c ∧
        l.pricing = { vms := detour.vms, costs := c, floor := 1 }) ∧
      ∃ t v finish d', d.workflow.find? 4 = some t ∧ Draft.allocate l.pricing 4 d = .ok () d' ∧
        d.EndsFirst l.pricing t v finish ∧ d.Enters d' 4 v.id (finish - t.length / v.mips) finish := by
  have hids : (detour.vms.map Vm.id).Nodup := by decide
  refine ⟨distinct_detour, hids, fun strategy hstrategy => ?_⟩
  have hbuilt := built_detour hstrategy
  obtain ⟨hsane, hwidth⟩ := sane_detour hstrategy 1
  obtain ⟨c, hp⟩ := priced_detour 1
  obtain ⟨l, w₁, hl, hlined⟩ := lineUp_ok ⟨strategy, 1⟩ hsane hp.costs hp.rated distinct_detour hwidth
  have hmem : 4 ∈ l.order := by
    rw [hlined.topological.perm.mem_iff, Workflow.ids_of_kin hlined.kept.kin.workflow]
    decide
  obtain ⟨done, rest, hsplit⟩ := List.append_of_mem hmem
  obtain ⟨-, -, -, hfront⟩ := allotted_front hsane distinct_detour hids hl hsplit
  obtain ⟨_, d, halloc, -⟩ := hfront.exists_ok
  have hreached : Reaches ⟨strategy, 1⟩ detour l done d := ⟨w₁, hl, halloc⟩
  exact ⟨hbuilt, l, done, rest, d, hreached, hsplit, allocate_ends_first ⟨strategy, 1⟩ 1 detour l done
    rest 4 d hbuilt distinct_detour hids hreached hsplit⟩

end Planner

end FlowSched

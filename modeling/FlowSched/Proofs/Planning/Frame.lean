import FlowSched.Planning.Planner
import FlowSched.Proofs.Cost
import FlowSched.Proofs.Credit

/-!
# What planning leaves alone

Planning writes estimates and bindings on tasks, the planned order in the session, and notes. A step
that `Keeps` everything else does so whether it fails or not; every part of a planner is one
(`Planner.keeps_run`).
-/

namespace FlowSched

open Quantity Step

variable {α : Type} [Quantity α] {σ τ β γ : Type}

/-- Worlds between which only what planning writes differs. -/
structure Kept (w w' : World α) : Prop where
  kin : w.Kin w'
  vms : w'.vms = w.vms
  submitted : w'.session.submitted = w.session.submitted

theorem Kept.refl (w : World α) : Kept w w := ⟨.refl w, rfl, rfl⟩

theorem Kept.trans {w w' w'' : World α} (h : Kept w w') (h' : Kept w' w'') : Kept w w'' :=
  ⟨h.kin.trans h'.kin, h'.vms.trans h.vms, h'.submitted.trans h.submitted⟩

theorem kept_note (w : World α) (n : Note α) : Kept w (w.note n) := ⟨⟨rfl, rfl⟩, rfl, rfl⟩

/-- What a single note keeps, many notes keep. -/
theorem World.noteAll_keeps {P : World α → Prop} (hP : ∀ w n, P w → P (w.note n)) {w : World α} (h : P w)
    (ns : List (Note α)) : P (w.noteAll ns) := by
  unfold World.noteAll
  induction ns generalizing w with
  | nil => exact h
  | cons n ns ih => exact ih (hP w n h)

theorem noteAll_eq (w : World α) (ns : List (Note α)) :
    (w.noteAll ns).workflow = w.workflow ∧ (w.noteAll ns).vms = w.vms ∧
      (w.noteAll ns).session = w.session :=
  World.noteAll_keeps (P := fun u => u.workflow = w.workflow ∧ u.vms = w.vms ∧ u.session = w.session)
    (fun _ _ h => h) ⟨rfl, rfl, rfl⟩ ns

theorem kept_noteAll (w : World α) (ns : List (Note α)) : Kept w (w.noteAll ns) :=
  World.noteAll_keeps (fun u n h => h.trans (kept_note u n)) (.refl w) ns

/-- A relation of worlds to which a note on either side does not matter. -/
structure World.Unnoted (R : World α → World α → Prop) : Prop where
  left : ∀ w w' n, R w w' → R (w.note n) w'
  right : ∀ w w' n, R w w' → R w (w'.note n)

/-- Then no notes matter to it. -/
theorem World.Unnoted.noteAll {R : World α → World α → Prop} (hR : Unnoted R) {w w' : World α} (h : R w w')
    (ns ns' : List (Note α)) : R (w.noteAll ns) (w'.noteAll ns') :=
  noteAll_keeps (hR.right _) (noteAll_keeps (P := fun u => R u w') (fun u => hR.left u w') h ns) ns'

theorem kept_editTask (w : World α) (id : ℤ) {f : Task α → Task α}
    (hf : ∀ t, (f t).reset false = t.reset false) : Kept w (w.editTask id f) :=
  ⟨World.kin_editTask w id hf, rfl, rfl⟩

/-- A step changes only what planning writes, in the part of its state that is a world. -/
def Keeps (view : σ → World α) (m : Step (Fault α) σ β) : Prop :=
  ∀ s, Leads m s (fun _ t => Kept (view s) (view t)) fun _ t => Kept (view s) (view t)

section

variable {view : σ → World α} {m : Step (Fault α) σ β}

theorem keeps_pure (b : β) : Keeps view (pure b : Step (Fault α) σ β) := fun _ => Kept.refl _

theorem keeps_throw (e : Fault α) : Keeps view (throw e : Step (Fault α) σ β) :=
  fun _ => Kept.refl _

theorem keeps_get : Keeps view (get : Step (Fault α) σ σ) := fun _ => Kept.refl _

theorem keeps_query (g : σ → Except (Fault α) β) : Keeps view (query g) :=
  fun _ => leads_query.2 ⟨fun _ _ => .refl _, fun _ _ => .refl _⟩

theorem keeps_ofExcept (r : Except (Fault α) β) : Keeps view (Step.ofExcept r) := keeps_query _

theorem keeps_modify {g : σ → σ} (h : ∀ s, Kept (view s) (view (g s))) :
    Keeps view (modify g : Step (Fault α) σ PUnit) := fun s => leads_modify.2 (h s)

theorem keeps_atomic {g : σ → Except (Fault α) σ}
    (h : ∀ s t, g s = .ok t → Kept (view s) (view t)) : Keeps view (atomic g) :=
  fun s => leads_atomic.2 ⟨fun t ht => h s t ht, fun _ _ => .refl _⟩

theorem Keeps.bind {f : β → Step (Fault α) σ γ} (hm : Keeps view m) (hf : ∀ b, Keeps view (f b)) :
    Keeps view (m >>= f) := fun s =>
  Leads.bind ((hm s).mono (fun _ _ h => h) fun _ _ h => h) fun b t ht =>
    ((hf b) t).mono (fun _ _ h => ht.trans h) fun _ _ h => ht.trans h

/-- A step that is taken only under a condition, and what comes after it in any case. -/
theorem Keeps.unless {c : Prop} [Decidable c] {m : Step (Fault α) σ Unit}
    {f : Unit → Step (Fault α) σ γ} (hm : Keeps view m) (hf : ∀ u, Keeps view (f u)) :
    Keeps view (if c then m >>= f else f ()) := by
  split
  · exact hm.bind hf
  · exact hf ()

theorem Keeps.map {g : β → γ} (hm : Keeps view m) : Keeps view (g <$> m) := fun s =>
  leads_map.2 (hm s)

theorem keeps_each {f : β → Step (Fault α) σ Unit} (hf : ∀ b, Keeps view (f b)) (bs : List β) :
    Keeps view (each f bs) := by
  induction bs with
  | nil => exact keeps_pure ()
  | cons b bs ih => exact (hf b).bind fun _ => ih

theorem keeps_within (build : World α → τ) {view' : τ → World α} (hb : ∀ w, view' (build w) = w)
    {m : Step (Fault α) τ β} (hm : Keeps view' m) : Keeps id (within build view' m) := fun w =>
  leads_within.2 ((hm (build w)).mono (fun _ _ h => hb w ▸ h) fun _ _ h => hb w ▸ h)

end

/-! ## Allocation -/

namespace Draft

theorem kept_accept (d : Draft α) (task : Task α) (timeline : Timeline α) (o : Offer α) :
    Kept d.toWorld (d.accept task timeline o).toWorld := by
  have hedit := kept_editTask (d.toWorld.note (timeline.reservation task.id o.cost o.ready)) task.id
    (f := fun t => if t.isEstimated then { t with vm := o.vm }
      else { t with vm := o.vm, plannedStart := o.finish - o.cost, plannedFinish := o.finish })
    fun t => by split <;> rfl
  exact ⟨⟨hedit.kin.workflow, hedit.kin.vms⟩, rfl, rfl⟩

theorem better_eq_some {a b : Option (Offer α)} {o : Offer α} (h : better a b = some o) :
    a = some o ∨ b = some o := by
  cases a with
  | none => exact Or.inr h
  | some a =>
    cases b with
    | none => exact Or.inl h
    | some b =>
      unfold better at h
      dsimp only at h
      split at h
      · exact Or.inr h
      · exact Or.inl h

/-- An offer of a VM holds from when the task is ready there, for its computing time and in the slot that
it would take. -/
theorem of_offer? {p : Pricing α} {d : Draft α} {task : Task α} {vm : ℤ} {o : Offer α}
    (h : d.offer? p task vm = .ok (some o)) : o.vm = vm ∧ d.readyTime p task vm = .ok o.ready ∧
      p.costs.computing task.id vm = .ok (some o.cost) ∧
      ∃ line, d.timelines.get? vm = some line ∧ o.finish = line.finishTime o.cost o.ready := by
  obtain ⟨ready, hready, h⟩ := bind_eq_ok.1 h
  obtain ⟨cost, hcost, h⟩ := bind_eq_ok.1 h
  split at h
  · cases h
  · cases h
  · next cost line hline =>
    replace h := Except.ok.inj h
    split_ifs at h
    rw [← Option.some.inj h]
    exact ⟨rfl, hready, hcost, line, hline, rfl⟩

/-- The best offer is that of a VM of the roster. -/
theorem of_bestOffer? {p : Pricing α} {d : Draft α} {task : Task α} {o : Offer α}
    (h : d.bestOffer? p task = .ok (some o)) :
    ∃ v ∈ p.vms, d.offer? p task v.id = .ok (some o) := by
  refine foldlM_keeps (P := fun best => ∀ o : Offer α, best = some o →
      ∃ v ∈ p.vms, d.offer? p task v.id = .ok (some o))
    (fun v hv best best' hbest hf o ho => ?_) (fun o ho => by cases ho) h o rfl
  obtain ⟨offer, hoffer, hf⟩ := bind_eq_ok.1 hf
  rw [← Except.ok.inj hf] at ho
  rcases better_eq_some ho with ho | rfl
  · exact hbest o ho
  · exact ⟨v, hv, hoffer⟩

theorem vm_of_bestOffer? {p : Pricing α} {d : Draft α} {task : Task α} {o : Offer α}
    (h : d.bestOffer? p task = .ok (some o)) : ∃ v ∈ p.vms, v.id = o.vm := by
  obtain ⟨v, hv, ho⟩ := of_bestOffer? h
  exact ⟨v, hv, (of_offer? ho).1.symm⟩

/-- Allocating a task accepts an offer of some VM for it, or fails and changes nothing. -/
theorem leads_allocate {p : Pricing α} {id : ℤ} {d : Draft α} {Q : Unit → Draft α → Prop}
    {E : Fault α → Draft α → Prop}
    (hQ : ∀ task timeline o, d.workflow.find? id = some task → d.bestOffer? p task = .ok (some o) →
      d.timelines.get? o.vm = some timeline → Q () (d.accept task timeline o))
    (hE : ∀ fault, E fault d) : Leads (allocate p id) d Q E := by
  refine leads_atomic.2 ⟨fun d' hd => ?_, fun fault _ => hE fault⟩
  obtain ⟨task, htask, hd⟩ := bind_eq_ok.1 hd
  obtain ⟨best, hbest, hd⟩ := bind_eq_ok.1 hd
  split at hd
  · cases hd
  · split at hd
    · cases hd
    · next hline =>
      rw [← Except.ok.inj hd]
      exact hQ task _ _ (Workflow.get_eq_ok.1 htask) hbest hline

/-- Allocating a task goes well exactly if it has a best offer, which is then accepted. -/
theorem allocate_eq_ok {p : Pricing α} {id : ℤ} {d d' : Draft α} : allocate p id d = .ok () d' ↔
    ∃ task timeline o, d.workflow.find? id = some task ∧ d.bestOffer? p task = .ok (some o) ∧
      d.timelines.get? o.vm = some timeline ∧ d.accept task timeline o = d' := by
  constructor
  · exact fun h => (leads_allocate (Q := fun _ d' => ∃ task timeline o, d.workflow.find? id = some task ∧
      d.bestOffer? p task = .ok (some o) ∧ d.timelines.get? o.vm = some timeline ∧
        d.accept task timeline o = d') (E := fun _ _ => True) (fun task timeline o htask hbest hline =>
          ⟨task, timeline, o, htask, hbest, hline, rfl⟩) fun _ => trivial).of_ok h
  · rintro ⟨task, timeline, o, htask, hbest, hline, rfl⟩
    unfold allocate atomic
    simp only [Workflow.get_eq_ok.2 htask, ok_bind, hbest, hline]

theorem keeps_allocate (p : Pricing α) (id : ℤ) : Keeps toWorld (allocate p id) := fun d =>
  leads_allocate (fun task timeline o _ _ _ => kept_accept d task timeline o) fun _ => .refl _

theorem keeps_allocateAll (p : Pricing α) (order : List ℤ) : Keeps toWorld (allocateAll p order) :=
  keeps_each (keeps_allocate p) order

end Draft

/-! ## Estimates -/

namespace Sketch

variable (o : Outlook α)

theorem kept_write (s : Sketch α) (id : ℤ) (span : Span α) :
    Kept s.toWorld (s.write id span).toWorld :=
  kept_editTask s.toWorld id fun _ => rfl

theorem kept_confirm (s : Sketch α) (id : ℤ) (span : Span α) :
    Kept s.toWorld (s.confirm id span).toWorld :=
  (kept_write s id span).trans (kept_editTask _ id fun _ => rfl)

theorem keeps_note (n : Note α) :
    Keeps toWorld (modify (note n) : Step (Fault α) (Sketch α) PUnit) :=
  keeps_modify fun s => kept_note s.toWorld n

theorem keeps_rehearse (id : ℤ) : Keeps toWorld (rehearse o id) := by
  refine keeps_atomic fun s s' hs => ?_
  obtain ⟨span, -, hs⟩ := bind_eq_ok.1 hs
  rw [← Except.ok.inj hs]
  exact kept_write s id span

theorem keeps_commit (id : ℤ) : Keeps toWorld (commit o id) := by
  refine keeps_atomic fun s s' hs => ?_
  obtain ⟨span, -, hs⟩ := bind_eq_ok.1 hs
  rw [← Except.ok.inj hs]
  exact kept_confirm s id span

theorem keeps_search (best : Option (List ℤ × α)) (all : List (List ℤ)) :
    Keeps toWorld (search o best all) := by
  induction all generalizing best with
  | nil => exact keeps_pure best
  | cons arrangement rest ih =>
    have hscore : Keeps toWorld (score o arrangement) :=
      (keeps_each (keeps_rehearse o) arrangement).bind fun _ => keeps_get.bind fun _ => keeps_pure _
    refine hscore.bind fun finish => ?_
    cases finish with
    | none => exact ih best
    | some finish => exact ih _

theorem keeps_arrange (group : List ℤ) : Keeps toWorld (arrange o group) := by
  unfold arrange
  refine (keeps_throw _).unless fun _ => (keeps_note _).unless fun _ =>
    (keeps_search o _ _).bind fun found => ?_
  cases found with
  | none => exact keeps_throw _
  | some found => exact (keeps_each (keeps_commit o) _).bind fun _ => keeps_note _

theorem keeps_settle (fuel : ℕ) (id : ℤ) : Keeps toWorld (settle o fuel id) := by
  induction fuel generalizing id with
  | zero => exact keeps_pure ()
  | succ fuel ih =>
    have hfinish : Keeps toWorld (do
        if !(← query (isEstimated · id)) then commit o id) := by
      refine (keeps_query _).bind fun b => ?_
      split
      · exact keeps_commit o id
      · exact keeps_pure ()
    unfold settle
    refine (keeps_query _).bind fun t => ?_
    dsimp only
    split
    · refine (keeps_query _).bind fun parents => (keeps_query _).bind fun siblings =>
        (keeps_query _).bind fun ready => ?_
      split
      · exact (keeps_arrange o _).bind fun _ => hfinish
      · refine (keeps_each ih _).bind fun _ => (keeps_query _).bind fun siblings =>
          (keeps_query _).bind fun ready => ?_
        split
        · exact (keeps_arrange o _).bind fun _ => hfinish
        · exact hfinish
    · exact keeps_pure ()

theorem keeps_settleCritical (fuel : ℕ) (id : ℤ) : Keeps toWorld (settleCritical o fuel id) := by
  unfold settleCritical
  refine (keeps_query _).bind fun t => (keeps_query _).bind fun parents => ?_
  split
  · exact (keeps_commit o id).bind fun _ => keeps_settle o fuel id
  · exact keeps_settle o fuel id

theorem keeps_estimateAll (order : List ℤ) : Keeps toWorld (estimateAll o order) :=
  (keeps_each (keeps_settleCritical o _) _).bind fun _ => keeps_each (keeps_settle o _) _

end Sketch

/-! ## Planners -/

theorem kept_unestimate (w : World α) (ids : List ℤ) :
    Kept w (ids.foldl (fun w id => w.editTask id fun t => { t with isEstimated := false }) w) := by
  induction ids generalizing w with
  | nil => exact .refl w
  | cons id ids ih =>
    have hedit := kept_editTask w id (f := fun t => { t with isEstimated := false }) fun _ => rfl
    exact hedit.trans (ih _)

/-- After the estimates are cleared, nothing is estimated. -/
theorem foldl_unestimate (w : World α) (ids : List ℤ) {x : ℤ}
    (h : x ∈ ids ∨ ∀ t, w.workflow.find? x = some t → t.isEstimated = false) {t : Task α}
    (ht : (ids.foldl (fun w id => w.editTask id fun t => { t with isEstimated := false })
      w).workflow.find? x = some t) : t.isEstimated = false := by
  induction ids generalizing w with
  | nil => exact (h.resolve_left (by simp)) t ht
  | cons id ids ih =>
    refine ih _ ?_ ht
    by_cases hx : x ∈ ids
    · exact Or.inl hx
    · right
      intro u hu
      change (w.workflow.modify id _).find? x = some u at hu
      rw [Workflow.find?_modify] at hu
      obtain ⟨v, hv, rfl⟩ := Option.map_eq_some_iff.1 hu
      unfold Task.edit
      split
      · rfl
      · next hne =>
        rw [(Workflow.find?_eq_some.1 hv).2] at hne
        refine h.elim (fun hm => ?_) fun h => h v hv
        exact absurd ((List.mem_cons.1 hm).resolve_right hx) hne

/-- No task is estimated once the estimates of all ids are cleared. -/
theorem unestimated_ids (w : World α) (x : ℤ) (t : Task α)
    (ht : (w.workflow.ids.foldl (fun w id => w.editTask id fun t => { t with isEstimated := false })
      w).workflow.find? x = some t) : t.isEstimated = false := by
  refine foldl_unestimate w w.workflow.ids (Or.inl ?_) ht
  rw [← Workflow.ids_of_kin (kept_unestimate w w.workflow.ids).kin.workflow]
  exact Workflow.mem_ids.2 ⟨t, ht⟩

theorem keeps_planByRank (p : Pricing α) (place : ℤ → ℕ) : Keeps id (planByRank p place) := by
  intro w
  unfold planByRank
  rw [leads_bind, leads_get]
  refine Leads.bind (P := fun _ t => t = w)
    (leads_ofExcept.2 ⟨fun _ _ => rfl, fun _ _ => .refl w⟩) fun ranks t ht => ?_
  rw [leads_bind, leads_set]
  exact (((keeps_within Draft.fresh (fun _ => rfl) (Draft.keeps_allocateAll p _)).bind fun _ =>
    keeps_pure _) _).mono (fun _ _ h => (kept_noteAll w _).trans h)
      fun _ _ h => (kept_noteAll w _).trans h

theorem keeps_planByEstimate (options : PathOptions α) (p : Pricing α) (order : List ℤ)
    (place : ℤ → ℕ) : Keeps id (planByEstimate options p order place) := by
  unfold planByEstimate
  dsimp only
  refine (keeps_modify fun w => kept_unestimate w _).bind fun _ => keeps_get.bind fun w =>
    (keeps_modify fun w => kept_note w _).bind fun _ => (keeps_ofExcept _).bind fun critical =>
    (keeps_modify fun w => kept_note w _).bind fun _ =>
    (keeps_within (fun w : World α => ({ toWorld := w } : Sketch α)) (fun _ => rfl)
      (Sketch.keeps_estimateAll _ order)).bind fun _ =>
    keeps_get.bind fun w => (keeps_modify fun w => kept_noteAll w _).bind fun _ =>
    (keeps_within Draft.fresh (fun _ => rfl) (Draft.keeps_allocateAll p _)).bind fun _ =>
    keeps_pure _

theorem Planner.keeps_run (planner : Planner α) : Keeps id planner.run := by
  unfold run
  refine keeps_get.bind fun w => (keeps_throw _).unless fun _ => (keeps_ofExcept _).bind fun _ =>
    (keeps_modify fun w => kept_note w _).bind fun _ => (keeps_ofExcept _).bind fun costs =>
    (keeps_modify fun w => kept_noteAll w _).bind fun _ => (keeps_ofExcept _).bind fun order => ?_
  cases planner.strategy with
  | byRank =>
    exact (keeps_planByRank _ _).bind fun plan =>
      (keeps_modify fun w => kept_noteAll w _).bind fun _ => keeps_pure plan
  | byEstimate options =>
    exact (keeps_planByEstimate _ _ _ _).bind fun plan =>
      (keeps_modify fun w => kept_noteAll w _).bind fun _ => keeps_pure plan

/-! ## What planners rely on -/

/-- A checked workflow whose edges and tasks have times, none of them negative. -/
structure Rated (w : Workflow ℚ) (c : Costs ℚ) : Prop where
  checked : w.Checked
  moving : ∀ t ∈ w.tasks, ∀ x ∈ t.children, ∃ time, c.moving t.id x = .ok time ∧ 0 ≤ time
  average : ∀ t ∈ w.tasks, ∃ time, c.average t.id = .ok time ∧ 0 ≤ time

theorem Rated.of_kin {w w' : Workflow ℚ} {c : Costs ℚ} (h : Rated w c) (hk : w.Kin w') :
    Rated w' c where
  checked := h.checked.of_kin hk
  moving t' ht' := by
    obtain ⟨t, ht, hkt⟩ := Workflow.mem_of_kin hk ht'
    rw [hkt.children, hkt.id]
    exact h.moving t ht
  average t' ht' := by
    obtain ⟨t, ht, hkt⟩ := Workflow.mem_of_kin hk ht'
    rw [hkt.id]
    exact h.average t ht

/-- The costs of a checked workflow rate it once every task has an average time. -/
theorem rated_of_costs {w : Workflow ℚ} {vms : List (Vm ℚ)} {c : Costs ℚ} (hw : w.Checked)
    (hc : Costs.ofWorkflow w vms = .ok c) (ha : ∀ t ∈ w.tasks, ∃ time, c.average t.id = .ok time) :
    Rated w c where
  checked := hw
  moving _ ht _ hx := moving_eq_ok hc ht hx
  average t ht := (ha t ht).imp fun _ h => ⟨h, average_nonneg hc ht (hw.length t ht) h⟩

/-- What a planner relies on: a checked workflow, VMs with distinct ids of which every task has one
that is big enough, and their costs. -/
structure Priced (p : Pricing ℚ) (w : World ℚ) : Prop where
  checked : w.workflow.Checked
  ids : (w.vms.map Vm.id).Nodup
  vms : p.vms = w.vms
  costs : Costs.ofWorkflow w.workflow w.vms = .ok p.costs
  roomy : ∀ t ∈ w.workflow.tasks, ∃ v ∈ w.vms, t.elements ≤ v.elements

section

variable {p : Pricing ℚ} {w w' : World ℚ} (h : Priced p w)

include h

theorem Priced.of_kept (hk : Kept w w') : Priced p w' where
  checked := h.checked.of_kin hk.kin.workflow
  ids := hk.vms ▸ h.ids
  vms := h.vms.trans hk.vms.symm
  costs := (ofWorkflow_of_kin hk.kin).trans h.costs
  roomy t' ht' := by
    obtain ⟨t, ht, hkt⟩ := Workflow.mem_of_kin hk.kin.workflow ht'
    rw [hk.vms, hkt.elements]
    exact h.roomy t ht

theorem Priced.rated : Rated w.workflow p.costs := by
  refine rated_of_costs h.checked h.costs fun t ht => ?_
  obtain ⟨v, hv, hfit⟩ := h.roomy t ht
  exact average_eq_ok h.costs ht (named?_eq_some h.ids hv) hfit

end

/-- Two routes from one root, the second of which takes longer, and a task beside them that only one
of the VMs can run. -/
def detour : World ℚ where
  workflow :=
    { tasks := [{ id := 1, length := 10, children := [2, 3] },
        { id := 2, length := 10, parents := [1], children := [4], transfers := ⟨[(1, 1)]⟩ },
        { id := 3, length := 20, parents := [1], children := [4], transfers := ⟨[(1, 2)]⟩ },
        { id := 4, length := 10, parents := [2, 3], transfers := ⟨[(2, 1), (3, 1)]⟩ },
        { id := 5, length := 30, elements := 2 }]
      nodup := by decide }
  vms := [{ id := 0, mips := 10 }, { id := 1, mips := 5, elements := 2 }]

theorem distinct_detour : detour.workflow.Distinct := ⟨by decide, by decide⟩

theorem priced_detour (floor : ℚ) :
    ∃ c, Priced { vms := detour.vms, costs := c, floor } detour := by
  obtain ⟨c, hc⟩ : ∃ c, Costs.ofWorkflow detour.workflow detour.vms = .ok c :=
    exists_eq_ok (by decide +kernel)
  exact ⟨c, Workflow.check_eq_ok.1 rfl, by decide, rfl, hc, by decide⟩

end FlowSched

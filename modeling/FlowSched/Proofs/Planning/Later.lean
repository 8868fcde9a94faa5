import FlowSched.Proofs.Delay
import FlowSched.Proofs.Pair
import FlowSched.Proofs.Planning.Frame

/-!
# Allocation from a later floor

Two plannings that start a delay apart are compared step by step. They differ in planned times only,
and those of tasks that are planned by now are the delay apart. Allocation keeps it that way: a task is
ready later by the delay, so every VM offers a later end, the same offer is the best one, and it is
accepted at the same place (`allocateAll_later`).
-/

namespace FlowSched

open Quantity Step

/-! ## Tasks -/

namespace Task

/-- A task planned later. -/
def delay (δ : ℚ) (t : Task ℚ) : Task ℚ :=
  { t with plannedStart := t.plannedStart + δ, plannedFinish := t.plannedFinish + δ }

/-- A task without planned times. -/
def undated (t : Task ℚ) : Task ℚ := { t with plannedStart := 0, plannedFinish := 0 }

/-- Tasks that differ in their planned times only, which are a delay apart if the task is estimated or
one of some others. -/
structure Later (δ : ℚ) (xs : List ℤ) (t t' : Task ℚ) : Prop where
  same : t'.undated = t.undated
  delay : t.isEstimated = true ∨ t.id ∈ xs → t' = t.delay δ

variable {δ : ℚ} {xs ys : List ℤ} {t t' : Task ℚ}

/-- What does not depend on planned times is the same in tasks that differ in nothing else. -/
theorem field_eq {β : Type} (h : t'.undated = t.undated) (f : Task ℚ → β) (hf : ∀ t, f t.undated = f t) :
    f t' = f t := by
  rw [← hf t', h, hf t]

theorem Later.mono (h : Later δ ys t t') (hsub : xs ⊆ ys) : Later δ xs t t' :=
  ⟨h.same, fun hx => h.delay (hx.imp_right fun hx => hsub hx)⟩

theorem later_delay (δ : ℚ) (xs : List ℤ) (t : Task ℚ) : t.Later δ xs (t.delay δ) := ⟨rfl, fun _ => rfl⟩

section

variable (h : Later δ xs t t')

include h

/-- A task that is planned anew counts from then on. -/
theorem Later.redate (ys : List ℤ) (start finish : ℚ) :
    Later δ ys { t with plannedStart := start, plannedFinish := finish }
      { t' with plannedStart := start + δ, plannedFinish := finish + δ } :=
  ⟨h.same, fun _ => congrArg (fun u : Task ℚ =>
    { u with plannedStart := start + δ, plannedFinish := finish + δ }) h.same⟩

theorem Later.rebind (vm : ℤ) : Later δ xs { t with vm } { t' with vm } :=
  ⟨congrArg (fun u : Task ℚ => { u with vm }) h.same, fun hx => by rw [h.delay hx]; rfl⟩

theorem Later.field {β : Type} (f : Task ℚ → β) (hf : ∀ t, f t.undated = f t) : f t' = f t :=
  field_eq h.same f hf

theorem Later.id : t'.id = t.id := h.field _ fun _ => rfl

theorem Later.parents : t'.parents = t.parents := h.field _ fun _ => rfl

theorem Later.children : t'.children = t.children := h.field _ fun _ => rfl

theorem Later.vm : t'.vm = t.vm := h.field _ fun _ => rfl

theorem Later.latency : t'.latency = t.latency := h.field _ fun _ => rfl

theorem Later.isEstimated : t'.isEstimated = t.isEstimated := h.field _ fun _ => rfl

end

/-- If all tasks are planned, they are all later. -/
theorem eq_map_delay {ts ts' : List (Task ℚ)} (h : List.Forall₂ (Later δ xs) ts ts')
    (hall : ∀ t ∈ ts, t.isEstimated = true ∨ t.id ∈ xs) : ts' = ts.map (Task.delay δ) := by
  have heq : List.Forall₂ (fun t t' => t.delay δ = t') ts ts' :=
    List.Forall₂.imp (fun t t' ht => (ht.2.delay ht.1).symm) ((List.forall₂_and_left _ _).2 ⟨hall, h⟩)
  rw [← List.forall₂_map_left_iff, List.forall₂_eq_eq_eq] at heq
  exact heq.symm

end Task

/-! ## Workflows -/

/-- Workflows of which each task is the same in both but for planned times. -/
def Workflow.Later (δ : ℚ) (xs : List ℤ) (w w' : Workflow ℚ) : Prop :=
  List.Forall₂ (Task.Later δ xs) w.tasks w'.tasks

namespace Workflow

variable {δ : ℚ} {xs ys : List ℤ} {w w' : Workflow ℚ}

/-- Where nothing is planned, nothing is a delay apart. -/
theorem later_of_unestimated (h : ∀ t ∈ w.tasks, t.isEstimated = false) : w.Later δ [] w :=
  List.forall₂_same.2 fun t ht => ⟨rfl, fun hx => by
    rcases hx with he | hm
    · rw [h t ht] at he
      cases he
    · cases hm⟩

theorem Later.mono (h : w.Later δ ys w') (hsub : xs ⊆ ys) : w.Later δ xs w' :=
  List.Forall₂.imp (fun _ _ ht => ht.mono hsub) h

theorem Later.find? (h : w.Later δ xs w') (x : ℤ) :
    Option.Rel (Task.Later δ xs) (w.find? x) (w'.find? x) :=
  rel_find? (fun _ _ ht => by rw [ht.id]) h

theorem Later.get (h : w.Later δ xs w') (x : ℤ) :
    (∃ t t', w.get x = .ok t ∧ w'.get x = .ok t' ∧ t.Later δ xs t') ∨
      w.get x = .error (.missing x) ∧ w'.get x = .error (.missing x) := by
  have hfind := h.find? x
  unfold Workflow.get
  generalize w.find? x = r at hfind
  generalize w'.find? x = r' at hfind
  cases hfind with
  | none => exact Or.inr ⟨rfl, rfl⟩
  | some ht => exact Or.inl ⟨_, _, rfl, rfl, ht⟩

/-- An edit of one task in both. -/
theorem Later.modify (h : w.Later δ xs w') (x : ℤ) {f f' : Task ℚ → Task ℚ}
    (hid : ∀ t, (f t).id = t.id) (hid' : ∀ t, (f' t).id = t.id)
    (hf : ∀ t t', t.Later δ xs t' → t.id = x → (f t).Later δ ys (f' t'))
    (hne : ∀ y ∈ ys, y ≠ x → y ∈ xs) : (w.modify x f).Later δ ys (w'.modify x f') := by
  refine List.forall₂_map_left_iff.2 (List.forall₂_map_right_iff.2 (List.Forall₂.imp ?_ h))
  intro t t' ht
  rw [Task.edit_eq hid, Task.edit_eq hid', ht.id]
  split
  · next hx => exact hf t t' ht hx
  · next hx => exact ⟨ht.same, fun hy => ht.delay (hy.imp_right fun hy => hne _ hy hx)⟩

end Workflow

/-- Worlds of two plannings that start a delay apart. What their notes say is not compared. -/
structure World.Later (δ : ℚ) (xs : List ℤ) (w w' : World ℚ) : Prop where
  workflow : w.workflow.Later δ xs w'.workflow
  vms : w'.vms = w.vms
  session : w'.session = w.session

/-! ## Drafts -/

/-- What is read for a planning that starts later. -/
def Pricing.delay (δ : ℚ) (p : Pricing ℚ) : Pricing ℚ := { p with floor := p.floor + δ }

/-- The offer of a VM at a later time. -/
def Offer.delay (δ : ℚ) (o : Offer ℚ) : Offer ℚ :=
  { o with ready := o.ready + δ, finish := o.finish + δ }

/-- A plan that starts later: on the same VMs and in the same order. -/
def Plan.delay (δ : ℚ) (plan : Plan ℚ) : Plan ℚ :=
  { plan with
    finishes := plan.finishes.map (· + δ), timelines := plan.timelines.map (Timeline.delay δ) }

/-- A fold of images is the image of a fold, also where it fails. -/
theorem foldlM_map {ε β γ γ' : Type} {f : γ → β → Except ε γ} {f' : γ' → β → Except ε γ'} {g : γ → γ'}
    (h : ∀ c b, f' (g c) b = (f c b).map g) (l : List β) (c : γ) :
    l.foldlM f' (g c) = (l.foldlM f c).map g := by
  induction l generalizing c with
  | nil => rfl
  | cons b l ih =>
    rw [List.foldlM_cons, List.foldlM_cons, h]
    cases f c b with
    | error e => rfl
    | ok c' => exact ih c'

namespace Draft

/-- Drafts of two plannings that start a delay apart: all that is planned by now is the delay apart. -/
structure Later (δ : ℚ) (d d' : Draft ℚ) : Prop where
  world : d.toWorld.Later δ d.order d'.toWorld
  timelines : d'.timelines = d.timelines.map (Timeline.delay δ)
  finishes : d'.finishes = d.finishes.map (· + δ)
  order : d'.order = d.order

variable {δ : ℚ} {p : Pricing ℚ} {d d' : Draft ℚ} {t t' : Task ℚ} {x : ℤ}

/-- What is written on a task that accepts a later offer is later. -/
theorem accepted_later {xs : List ℤ} (ht : t.Later δ xs t') (ys : List ℤ) (o : Offer ℚ) :
    Task.Later δ ys
      (if t.isEstimated then { t with vm := o.vm }
        else { t with vm := o.vm, plannedStart := o.finish - o.cost, plannedFinish := o.finish })
      (if t'.isEstimated then { t' with vm := (o.delay δ).vm }
        else { t' with
          vm := (o.delay δ).vm, plannedStart := (o.delay δ).finish - (o.delay δ).cost
          plannedFinish := (o.delay δ).finish }) := by
  have hstart : o.finish + δ - o.cost = o.finish - o.cost + δ := add_sub_right_comm _ _ _
  by_cases he : t.isEstimated = true
  · rw [if_pos he, if_pos (ht.isEstimated.trans he), ht.delay (Or.inl he)]
    exact (Task.later_delay δ _ t).rebind o.vm
  · rw [if_neg he, if_neg (ht.isEstimated.symm ▸ he)]
    have hplanned := (ht.rebind o.vm).redate ys (o.finish - o.cost) o.finish
    rwa [← hstart] at hplanned

section

variable (h : d.Later δ d') (ht : t.Later δ d.order t')

include h ht

theorem arrival_later (vm parent : ℤ) :
    d'.arrival (p.delay δ) t' vm parent = (d.arrival p t vm parent).map (· + δ) := by
  unfold arrival
  rw [h.finishes, Table.get?_map]
  cases d.finishes.get? parent with
  | none => rfl
  | some finish =>
    dsimp only [Option.map_some]
    rcases h.world.workflow.get parent with ⟨u, u', hu, hu', hl⟩ | ⟨hu, hu'⟩
    · rw [hu, hu', ok_bind, ok_bind, hl.vm, ht.id]
      split
      · rfl
      · show (p.costs.moving parent t.id >>= _) = _
        cases p.costs.moving parent t.id with
        | error e => rfl
        | ok time => exact congrArg Except.ok (add_right_comm finish δ time)
    · rw [hu, hu']
      rfl

/-- A task is ready later by the delay. -/
theorem readyTime_later (vm : ℤ) :
    d'.readyTime (p.delay δ) t' vm = (d.readyTime p t vm).map (· + δ) := by
  unfold readyTime
  rw [ht.parents]
  refine foldlM_map (g := (· + δ)) (fun ready parent => ?_) t.parents p.floor
  rw [arrival_later h ht]
  cases d.arrival p t vm parent with
  | error e => rfl
  | ok time => exact congrArg Except.ok (later_add δ ready time)

/-- The same VM offers a later end. -/
theorem offer?_later (vm : ℤ) :
    d'.offer? (p.delay δ) t' vm = (d.offer? p t vm).map (Option.map (Offer.delay δ)) := by
  unfold offer?
  rw [readyTime_later h ht, ht.id, h.timelines, Table.get?_map]
  cases d.readyTime p t vm with
  | error e => rfl
  | ok ready =>
    show (p.costs.computing t.id vm >>= _) = Except.map _ (p.costs.computing t.id vm >>= _)
    cases p.costs.computing t.id vm with
    | error e => rfl
    | ok cost =>
      cases d.timelines.get? vm with
      | none => rfl
      | some line =>
        cases cost with
        | none => rfl
        | some cost =>
          rw [ok_bind, ok_bind]
          dsimp only [Option.map_some]
          rw [Timeline.finishTime_delay]
          rfl

omit h ht in
theorem better_later (a b : Option (Offer ℚ)) :
    better (a.map (Offer.delay δ)) (b.map (Offer.delay δ)) = (better a b).map (Offer.delay δ) := by
  cases a with
  | none => rfl
  | some a =>
    cases b with
    | none => rfl
    | some b =>
      have hlt : (b.delay δ).finish < (a.delay δ).finish ↔ b.finish < a.finish :=
        add_lt_add_iff_right δ
      unfold better
      simp only [Option.map_some, hlt]
      split
      · rfl
      · rfl

theorem bestOffer?_later :
    d'.bestOffer? (p.delay δ) t' = (d.bestOffer? p t).map (Option.map (Offer.delay δ)) := by
  refine foldlM_map (g := Option.map (Offer.delay δ)) (fun best v => ?_) p.vms none
  rw [offer?_later h ht]
  cases d.offer? p t v.id with
  | error e => rfl
  | ok offer => exact congrArg Except.ok (better_later best offer)

/-- A later offer is accepted at the same place. -/
theorem accept_later (line : Timeline ℚ) (o : Offer ℚ) :
    (d.accept t line o).Later δ (d'.accept t' (line.delay δ) (o.delay δ)) where
  world := by
    refine ⟨?_, h.world.vms, ?_⟩
    · show (d.workflow.modify t.id _).Later δ (d.order ++ [t.id]) (d'.workflow.modify t'.id _)
      rw [ht.id]
      refine h.world.workflow.modify t.id (fun u => ?_) (fun u => ?_)
        (fun u u' hu _ => accepted_later hu _ o) fun y hy hne => ?_
      · split <;> rfl
      · split <;> rfl
      · exact (List.mem_append.1 hy).resolve_right fun hm => hne (List.mem_singleton.1 hm)
    · show ({ d'.session with planned := d'.session.planned ++ [t'.id] } : Session) = _
      rw [h.world.session, ht.id]
      rfl
  timelines := by
    show d'.timelines.set o.vm ((line.delay δ).occupy t'.id o.cost (o.ready + δ)) =
      (d.timelines.set o.vm (line.occupy t.id o.cost o.ready)).map (Timeline.delay δ)
    rw [Table.map_set, h.timelines, ht.id, Timeline.occupy_delay]
  finishes := by
    show d'.finishes.set t'.id (o.finish + δ) = (d.finishes.set t.id o.finish).map (· + δ)
    rw [Table.map_set, h.finishes, ht.id]
  order := by
    show d'.order ++ [t'.id] = d.order ++ [t.id]
    rw [h.order, ht.id]

end

/-- A task is allocated to the same VM at a later time, or fails alike. -/
theorem allocate_later (h : d.Later δ d') (x : ℤ) :
    Both (allocate p x) d (allocate (p.delay δ) x) d'
      (fun _ u _ u' => u.Later δ u' ∧ u.order = d.order ++ [x]) fun e _ e' _ => e' = e := by
  unfold Both allocate atomic
  rcases h.world.workflow.get x with ⟨t, t', hget, hget', ht⟩ | ⟨hget, hget'⟩
  · have hid : t.id = x := (Workflow.find?_eq_some.1 (Workflow.get_eq_ok.1 hget)).2
    simp only [hget, hget', ok_bind, bestOffer?_later h ht, h.timelines, Table.get?_map]
    cases d.bestOffer? p t with
    | error e => rfl
    | ok best =>
      cases best with
      | none => rfl
      | some o =>
        have hvm : (o.delay δ).vm = o.vm := rfl
        simp only [Except.map, Option.map_some, ok_bind, hvm]
        cases d.timelines.get? o.vm with
        | none => rfl
        | some line =>
          refine ⟨accept_later h ht line o, ?_⟩
          rw [← hid]
          rfl
  · simp only [hget, hget']
    rfl

/-- All tasks are allocated as they are without the delay, only later, or allocation fails alike. -/
theorem allocateAll_later (h : d.Later δ d') (order : List ℤ) :
    Both (allocateAll p order) d (allocateAll (p.delay δ) order) d'
      (fun _ u _ u' => u.Later δ u' ∧ u.order = d.order ++ order) fun e _ e' _ => e' = e := by
  have hloop := Both.each (f := allocate p) (g := allocate (p.delay δ)) (E := fun e _ e' _ => e' = e)
    (I := fun rest u u' => u.Later δ u' ∧ u.order ++ rest = d.order ++ order) (l := order)
    (fun x rest u u' hI => (allocate_later hI.1 x).mono (fun _ v _ v' hv => ⟨hv.1, by
      rw [hv.2, ← hI.2, List.append_assoc]
      rfl⟩) fun _ _ _ _ he => he) ⟨h, rfl⟩
  exact hloop.mono (fun _ u _ u' hu => ⟨hu.1, by rw [← hu.2, List.append_nil]⟩) fun _ _ _ _ he => he

/-- Of later drafts later plans are made. -/
theorem Later.plan_eq (h : d.Later δ d') : d'.plan = d.plan.delay δ := by
  have hvm : ∀ x, (d'.workflow.find? x).map Task.vm = (d.workflow.find? x).map Task.vm := by
    intro x
    have hfind := h.world.workflow.find? x
    generalize d.workflow.find? x = r at hfind
    generalize d'.workflow.find? x = r' at hfind
    cases hfind with
    | none => rfl
    | some ht => exact congrArg some ht.vm
  unfold plan Plan.delay
  simp only [hvm, h.order, h.finishes, h.timelines]

end Draft

end FlowSched

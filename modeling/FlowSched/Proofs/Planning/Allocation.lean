import FlowSched.Proofs.Planning.Offer
import FlowSched.Proofs.Timeline

/-!
# Allocation

Allocating tasks in an order that puts parents first never fails where every task has a VM that is
big enough (`allocateAll_leads`). Each task is then booked: it stands in one slot of the VM it is bound
to, from when its inputs are there (`Booked`). An accepted offer adds one slot and changes nothing
that earlier bookings read (`Allotted.accept`).
-/

namespace FlowSched

open Quantity Step

variable {p : Pricing ℚ}

/-- A task is bound to a VM that is big enough. -/
def Placed (vms : List (Vm ℚ)) (t : Task ℚ) : Prop :=
  ∃ v ∈ vms, v.id = t.vm ∧ t.elements ≤ v.elements

/-- All slots of some timelines. -/
def reserved (timelines : Table (Timeline ℚ)) : List (Slot ℚ) := timelines.values.flatMap Timeline.slots

/-- A task stands in a slot of the VM it is bound to: for its computing time, up to its planned end,
and from when its inputs are there. -/
structure Booked (p : Pricing ℚ) (w : Workflow ℚ) (timelines : Table (Timeline ℚ))
    (finishes : Table ℚ) (t : Task ℚ) (slot : Slot ℚ) : Prop where
  placed : Placed p.vms t
  stands : ∃ line, timelines.get? t.vm = some line ∧ slot ∈ line.slots
  task : slot.task = t.id
  finish : finishes.get? t.id = some slot.finish
  length : ∃ cost, p.costs.computing t.id t.vm = .ok (some cost) ∧ slot.finish = slot.start + cost
  floor : p.floor ≤ slot.start
  parents : ∀ x ∈ t.parents, Delivered p.costs w finishes t.id t.vm slot.start x

namespace Draft

/-- A draft in which some tasks are allocated, each to one slot. -/
structure Allotted (p : Pricing ℚ) (done : List ℤ) (d : Draft ℚ) : Prop extends Open p done d where
  order : d.order = done
  tidy : ∀ line ∈ d.timelines.values, Timeline.Tidy line.slots
  once : ((reserved d.timelines).map Slot.task).Perm done
  known : ∀ slot ∈ reserved d.timelines, d.finishes.get? slot.task = some slot.finish
  ended : ∀ f ∈ d.finishes.values, ∃ slot ∈ reserved d.timelines, slot.finish = f
  booked : ∀ x ∈ done, ∃ t slot, d.workflow.find? x = some t ∧
    Booked p d.workflow d.timelines d.finishes t slot

/-- In a fresh draft no slot is taken. -/
theorem slots_fresh (w : World ℚ) : ∀ line ∈ (fresh w).timelines.values, line.slots = [] := by
  intro line hline
  obtain ⟨k, hk⟩ := Table.mem_values_ofList hline
  obtain ⟨v, -, he⟩ := List.mem_map.1 hk
  rw [← (Prod.mk.inj he).2]

theorem tidy_fresh (w : World ℚ) : ∀ line ∈ (fresh w).timelines.values, Timeline.Tidy line.slots :=
  fun line hline => slots_fresh w line hline ▸ Timeline.tidy_nil

theorem reserved_fresh (w : World ℚ) : reserved (fresh w).timelines = [] :=
  List.flatMap_eq_nil_iff.2 (slots_fresh w)

/-- In a fresh draft nothing is allocated. -/
theorem allotted_fresh {w : World ℚ} (h : Priced p w) : Allotted p [] (fresh w) := by
  have hnone := reserved_fresh w
  refine ⟨⟨h, fun v hv => ?_, by simp [fresh]⟩, rfl, tidy_fresh w, by simp [hnone], by simp [hnone],
    by simp [fresh, Table.values], by simp⟩
  exact ⟨_, Table.get?_ofList_map (f := fun v : Vm ℚ => (v.id, ({ vm := v.id } : Timeline ℚ))) h.ids hv⟩

variable {d : Draft ℚ} {done : List ℤ} {t : Task ℚ} {v : Vm ℚ} {o : Offer ℚ} {line : Timeline ℚ}
  {x : ℤ}

/-! ## Accepting an offer -/

theorem find?_accept_of_ne (hx : x ≠ t.id) :
    (d.accept t line o).workflow.find? x = d.workflow.find? x :=
  Workflow.find?_modify_of_ne hx

/-- The task is bound to the VM of the offer, and keeps what it needs and what it waits for. -/
theorem find?_accept_self (ht : t ∈ d.workflow.tasks) (line : Timeline ℚ) (o : Offer ℚ) :
    ∃ u, (d.accept t line o).workflow.find? t.id = some u ∧ u.vm = o.vm ∧ t.Kin u := by
  obtain ⟨u, hu, hk⟩ := Workflow.exists_of_kin (kept_accept d t line o).kin.workflow
    (Workflow.find?_self ht)
  refine ⟨u, hu, ?_, hk⟩
  have hself : (d.accept t line o).workflow.find? t.id = _ :=
    Workflow.find?_modify_self (Workflow.find?_self ht)
  obtain rfl := Option.some.inj (hself.symm.trans hu)
  dsimp only
  split <;> rfl

theorem finishes_accept : (d.accept t line o).finishes.get? x =
    if t.id = x then some o.finish else d.finishes.get? x :=
  Table.get?_set _ _ _ _

theorem finishes_accept_of_mem (hnew : t.id ∉ done) (hx : x ∈ done) :
    (d.accept t line o).finishes.get? x = d.finishes.get? x := by
  rw [finishes_accept, if_neg fun (e : t.id = x) => hnew (e ▸ hx)]

theorem Offered.get?_line (ho : Offered p d t v o) : ∃ line, d.timelines.get? o.vm = some line ∧
    o.finish = (line.slotFor t.id o.cost o.ready).1.finish := by
  obtain ⟨line, hline, hfinish⟩ := ho.finish
  exact ⟨line, ho.vm ▸ hline, hfinish⟩

section

variable (htidy : ∀ line ∈ d.timelines.values, Timeline.Tidy line.slots)
  (hline : d.timelines.get? o.vm = some line)

include htidy hline

theorem occupy_perm : (line.occupy t.id o.cost o.ready).slots.Perm
    ((line.slotFor t.id o.cost o.ready).1 :: line.slots) :=
  Timeline.occupy_perm (htidy line (Table.mem_values hline))

/-- Timelines stay tidy. -/
theorem tidy_accept (hcost : 0 ≤ o.cost) :
    ∀ line' ∈ (d.accept t line o).timelines.values, Timeline.Tidy line'.slots := by
  intro line' hl
  rcases Table.mem_values_set hl with rfl | hl
  · exact (htidy line (Table.mem_values hline)).occupy hcost
  · exact htidy line' hl

/-- The new slot stands in the timeline of its VM. -/
theorem stands_self : ∃ line', (d.accept t line o).timelines.get? o.vm = some line' ∧
    (line.slotFor t.id o.cost o.ready).1 ∈ line'.slots := by
  refine ⟨_, ?_, (occupy_perm htidy hline).symm.subset List.mem_cons_self⟩
  show (d.timelines.set o.vm _).get? o.vm = _
  rw [Table.get?_set, if_pos rfl]

/-- A slot stays where it stands. -/
theorem stands_other {vm : ℤ} {slot : Slot ℚ}
    (hs : ∃ old, d.timelines.get? vm = some old ∧ slot ∈ old.slots) :
    ∃ line', (d.accept t line o).timelines.get? vm = some line' ∧ slot ∈ line'.slots := by
  obtain ⟨old, hold, hs⟩ := hs
  show ∃ line', (d.timelines.set o.vm (line.occupy t.id o.cost o.ready)).get? vm = some line' ∧ _
  rw [Table.get?_set]
  by_cases hvm : o.vm = vm
  · rw [if_pos hvm]
    obtain rfl := Option.some.inj (hline.symm.trans (hvm ▸ hold))
    exact ⟨_, rfl, (occupy_perm htidy hline).symm.subset (List.mem_cons_of_mem _ hs)⟩
  · rw [if_neg hvm]
    exact ⟨old, hold, hs⟩

/-- The slots of all timelines are the earlier ones and the new one. -/
theorem reserved_accept : (reserved (d.accept t line o).timelines).Perm
    ((line.slotFor t.id o.cost o.ready).1 :: reserved d.timelines) := by
  obtain ⟨ahead, behind, hold, hnew⟩ :=
    Table.values_set hline (line.occupy t.id o.cost o.ready)
  show ((d.timelines.set o.vm _).values.flatMap Timeline.slots).Perm (_ :: d.timelines.values.flatMap _)
  rw [hnew, hold, List.flatMap_append, List.flatMap_append, List.flatMap_cons, List.flatMap_cons]
  exact (((occupy_perm htidy hline).append_right _).append_left _).trans List.perm_middle

end

section

variable (h : Allotted p done d) (hnew : t.id ∉ done)

include h hnew

/-- What is booked stays booked. -/
theorem Allotted.booked_other (hline : d.timelines.get? o.vm = some line) (hx : x ∈ done) :
    ∃ u slot, (d.accept t line o).workflow.find? x = some u ∧
      Booked p (d.accept t line o).workflow (d.accept t line o).timelines
        (d.accept t line o).finishes u slot := by
  have hkeep : ∀ y ∈ done, (d.accept t line o).workflow.find? y = d.workflow.find? y ∧
      (d.accept t line o).finishes.get? y = d.finishes.get? y := fun y hy =>
    ⟨find?_accept_of_ne fun e => hnew (e ▸ hy), finishes_accept_of_mem hnew hy⟩
  obtain ⟨u, slot, hu, hb⟩ := h.booked x hx
  obtain rfl := (Workflow.find?_eq_some.1 hu).2
  refine ⟨u, slot, (hkeep u.id hx).1.trans hu, hb.placed, stands_other h.tidy hline hb.stands, hb.task,
    (hkeep u.id hx).2.trans hb.finish, hb.length, hb.floor, fun y hy => ?_⟩
  have hd := hb.parents y hy
  obtain ⟨_, f, _, hf, _⟩ := hd
  have hyd := (h.finishes y).2 ⟨f, hf⟩
  exact (hb.parents y hy).congr (hkeep y hyd).1 (hkeep y hyd).2

/-- The task is booked in the slot of the offer. -/
theorem Allotted.booked_self (ht : t ∈ d.workflow.tasks) (hparents : ∀ x ∈ t.parents, x ∈ done)
    (hv : v ∈ d.vms) (ho : Offered p d t v o) (hline : d.timelines.get? o.vm = some line)
    (hfinish : o.finish = (line.slotFor t.id o.cost o.ready).1.finish) :
    ∃ u slot, (d.accept t line o).workflow.find? t.id = some u ∧
      Booked p (d.accept t line o).workflow (d.accept t line o).timelines
        (d.accept t line o).finishes u slot := by
  have hready : o.ready ≤ (line.slotFor t.id o.cost o.ready).1.start :=
    (Timeline.findSlot_gap (h.tidy line (Table.mem_values hline)) o.cost o.ready).ready_le
  obtain ⟨u, hu, hvm, hk⟩ := find?_accept_self ht line o
  refine ⟨u, (line.slotFor t.id o.cost o.ready).1, hu, ?_, ?_, hk.id.symm, ?_, ⟨o.cost, ?_, rfl⟩,
    ho.floor.trans hready, fun x hx => ?_⟩
  · exact ⟨v, h.priced.vms ▸ hv, ho.vm.symm.trans hvm.symm, hk.elements ▸ ho.fits⟩
  · rw [hvm]
    exact stands_self h.tidy hline
  · rw [hk.id, finishes_accept, if_pos rfl, hfinish]
  · rw [hk.id, hvm, ho.vm]
    exact ho.cost
  · rw [hk.parents] at hx
    have hxd := hparents x hx
    rw [hk.id, hvm, ho.vm]
    exact ((ho.parents x hx).congr (find?_accept_of_ne fun e => hnew (e ▸ hxd))
      (finishes_accept_of_mem hnew hxd)).mono hready

/-- An accepted offer allocates one more task. -/
theorem Allotted.accept (ht : t ∈ d.workflow.tasks) (hparents : ∀ x ∈ t.parents, x ∈ done)
    (hv : v ∈ d.vms) (ho : Offered p d t v o) (hline : d.timelines.get? o.vm = some line)
    (hfinish : o.finish = (line.slotFor t.id o.cost o.ready).1.finish) :
    Allotted p (done ++ [t.id]) (d.accept t line o) where
  priced := h.priced.of_kept (kept_accept d t line o)
  timelines u hu := by
    obtain ⟨old, hold⟩ := h.timelines u hu
    show ∃ line', (d.timelines.set o.vm (line.occupy t.id o.cost o.ready)).get? u.id = some line'
    rw [Table.get?_set]
    split
    · exact ⟨_, rfl⟩
    · exact ⟨old, hold⟩
  finishes x := by
    rw [finishes_accept, List.mem_append, List.mem_singleton]
    by_cases hx : t.id = x
    · simp [hx]
    · rw [if_neg hx, ← h.finishes x]
      exact ⟨fun hm => hm.resolve_right fun e => hx e.symm, Or.inl⟩
  order := by rw [← h.order]; rfl
  tidy := tidy_accept h.tidy hline ho.nonneg
  once := by
    refine ((reserved_accept h.tidy hline).map Slot.task).trans (.trans ?_ List.perm_append_comm)
    exact h.once.cons t.id
  known slot hs := by
    rcases List.mem_cons.1 ((reserved_accept h.tidy hline).subset hs) with rfl | hs
    · show (d.accept t line o).finishes.get? t.id = _
      rw [finishes_accept, if_pos rfl, hfinish]
    · rw [finishes_accept_of_mem hnew (h.once.subset (List.mem_map_of_mem hs))]
      exact h.known slot hs
  ended f hf := by
    have hsub := (reserved_accept (t := t) h.tidy hline).symm.subset
    rcases Table.mem_values_set hf with rfl | hf
    · exact ⟨_, hsub List.mem_cons_self, hfinish.symm⟩
    · obtain ⟨slot, hs, he⟩ := h.ended f hf
      exact ⟨slot, hsub (List.mem_cons_of_mem _ hs), he⟩
  booked x hx := by
    rcases List.mem_append.1 hx with hx | hx
    · exact h.booked_other hnew hline hx
    · rw [List.mem_singleton.1 hx]
      exact h.booked_self hnew ht hparents hv ho hline hfinish

/-- A task whose parents are allocated is allocated: its best offer is accepted. -/
theorem allocate_leads {Q : Unit → Draft ℚ → Prop} (ht : t ∈ d.workflow.tasks)
    (hparents : ∀ x ∈ t.parents, x ∈ done)
    (hQ : ∀ o line, d.bestOffer? p t = .ok (some o) → d.timelines.get? o.vm = some line →
      Allotted p (done ++ [t.id]) (d.accept t line o) → Q () (d.accept t line o)) :
    Leads (allocate p t.id) d Q fun _ _ => False := by
  obtain ⟨o, hbest⟩ := bestOffer?_ok h.toOpen ht hparents
  obtain ⟨v, hv, ho, -⟩ := h.offered ht hparents hbest
  obtain ⟨line, hline, hfinish⟩ := ho.get?_line
  refine leads_atomic_ok (t := d.accept t line o) ?_
    (hQ o line hbest hline (h.accept hnew ht hparents hv ho hline hfinish))
  simp only [Workflow.get_eq_ok.2 (Workflow.find?_self ht), ok_bind, hbest, hline]

end

/-- The tasks at the front of an order that puts parents first are allocated, and what each allocation
passes on holds in the end. -/
theorem allocateAll_passes {w : World ℚ} (hp : Priced p w) {order front rest : List ℤ}
    (ho : w.workflow.Topological order) (hsplit : order = front ++ rest) {I : List ℤ → Draft ℚ → Prop}
    (hfresh : I [] (fresh w))
    (hstep : ∀ {done d t o} (line : Timeline ℚ), Kept w d.toWorld → Allotted p done d →
      t ∈ d.workflow.tasks → (∀ x ∈ t.parents, x ∈ done) → d.bestOffer? p t = .ok (some o) →
      I done d → I (done ++ [t.id]) (d.accept t line o)) :
    Leads (allocateAll p front) (fresh w)
      (fun _ d => Kept w d.toWorld ∧ Allotted p front d ∧ I front d) fun _ _ => False := by
  refine Leads.each_done (I := fun done d => Kept w d.toWorld ∧ Allotted p done d ∧ I done d)
    (fun done x left d hfront hI => ?_) ⟨.refl w, allotted_fresh hp, hfresh⟩
  obtain ⟨hk, hd, hI⟩ := hI
  obtain ⟨t, ht, rfl, hnew, hparents⟩ := (ho.of_kin hk.kin.workflow).turn
    (show order = done ++ x :: (left ++ rest) by rw [hsplit, hfront]; simp)
  refine allocate_leads hd hnew ht hparents fun o line hbest _ hd' => ?_
  exact ⟨hk.trans (kept_accept d t line o), hd', hstep line hk hd ht hparents hbest hI⟩

/-- Every task is allocated in an order that puts parents first. -/
theorem allocateAll_leads {w : World ℚ} (hp : Priced p w) {order : List ℤ}
    (ho : w.workflow.Topological order) :
    Leads (allocateAll p order) (fresh w) (fun _ d => Kept w d.toWorld ∧ Allotted p order d)
      fun _ _ => False :=
  (allocateAll_passes hp ho (List.append_nil order).symm (I := fun _ _ => True) trivial
    fun _ _ _ _ _ _ _ => trivial).mono (fun _ _ h => ⟨h.1, h.2.1⟩) fun _ _ h => h

/-- Every slot is that of a booked task. -/
theorem Allotted.booked_of_mem (h : Allotted p done d) (hn : done.Nodup) {slot : Slot ℚ}
    (hs : slot ∈ reserved d.timelines) : ∃ t, d.workflow.find? slot.task = some t ∧
      Booked p d.workflow d.timelines d.finishes t slot := by
  obtain ⟨t, slot', ht, hb⟩ := h.booked slot.task (h.once.subset (List.mem_map_of_mem hs))
  obtain ⟨line, hline, hs'⟩ := hb.stands
  have hsame : slot' = slot := by
    refine List.inj_on_of_nodup_map (h.once.nodup_iff.2 hn)
      (List.mem_flatMap.2 ⟨line, Table.mem_values hline, hs'⟩) hs ?_
    rw [hb.task, (Workflow.find?_eq_some.1 ht).2]
  exact ⟨t, ht, hsame ▸ hb⟩

/-- Once all tasks are allocated, each is placed. -/
theorem Allotted.placed {order : List ℤ} (h : Allotted p order d)
    (hids : ∀ x ∈ d.workflow.ids, x ∈ order) :
    ∀ t ∈ d.workflow.tasks, Placed d.vms t := by
  intro t ht
  obtain ⟨u, slot, hu, hb⟩ := h.booked t.id (hids t.id (List.mem_map_of_mem ht))
  obtain rfl := Option.some.inj ((Workflow.find?_self ht).symm.trans hu)
  exact h.priced.vms ▸ hb.placed

end Draft

end FlowSched

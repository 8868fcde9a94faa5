import Mathlib.Order.WellFounded
import Mathlib.Data.List.Basic
import Mathlib.Tactic.Linarith
import FlowSched.Workflow.Check
import FlowSched.Proofs.Exact
import FlowSched.Proofs.Kin
import FlowSched.Proofs.Step

/-!
# Checked workflows

A workflow passes its check exactly if it is `Checked`: sizes are not negative, the two ends of every
edge name each other, and the ids can be ranked so that every child stands above its parents. The
ranking is what inductions over a workflow run on. Kin of checked workflows are checked.
-/

namespace FlowSched.Workflow

open Quantity

/-- The two ends of every edge name each other. -/
structure Mirrored {α : Type} [Quantity α] (w : Workflow α) : Prop where
  child : ∀ t ∈ w.tasks, ∀ c ∈ t.children, ∃ u, w.find? c = some u ∧ t.id ∈ u.parents
  parent : ∀ t ∈ w.tasks, ∀ p ∈ t.parents, ∃ u, w.find? p = some u ∧ t.id ∈ u.children

/-- No edge is listed twice. -/
structure Distinct {α : Type} [Quantity α] (w : Workflow α) : Prop where
  parents : ∀ t ∈ w.tasks, t.parents.Nodup
  children : ∀ t ∈ w.tasks, t.children.Nodup

/-- What a workflow is checked for. -/
structure Checked (w : Workflow ℚ) : Prop extends Mirrored w where
  length : ∀ t ∈ w.tasks, 0 ≤ t.length
  elements : ∀ t ∈ w.tasks, 1 ≤ t.elements
  transfers : ∀ t ∈ w.tasks, ∀ x ∈ t.transfers.values, 0 ≤ x
  ranked : ∃ rank : ℤ → ℕ, ∀ t ∈ w.tasks, ∀ c ∈ t.children, rank t.id < rank c

/-! ## Edges -/

section

variable {α : Type} [Quantity α] {w w' : Workflow α} {t u : Task α} {x : ℤ}

/-- A parent is a task that lists its child. -/
theorem Mirrored.exists_parent (h : w.Mirrored) (ht : t ∈ w.tasks) (hx : x ∈ t.parents) :
    ∃ u ∈ w.tasks, u.id = x ∧ t.id ∈ u.children := by
  obtain ⟨u, hu, hc⟩ := h.parent t ht x hx
  obtain ⟨hm, rfl⟩ := find?_eq_some.1 hu
  exact ⟨u, hm, rfl, hc⟩

/-- A child that a task lists has it as a parent. -/
theorem Mirrored.mem_parents_of_child (h : w.Mirrored) (ht : t ∈ w.tasks) (hu : u ∈ w.tasks)
    (hc : u.id ∈ t.children) : t.id ∈ u.parents := by
  obtain ⟨v, hv, hmem⟩ := h.child t ht u.id hc
  rwa [← Option.some.inj (hv.symm.trans (find?_self hu))]

theorem Mirrored.mem_ids_of_child (h : w.Mirrored) (ht : t ∈ w.tasks) (hx : x ∈ t.children) :
    x ∈ w.ids := by
  obtain ⟨u, hu, -⟩ := h.child t ht x hx
  exact mem_ids.2 ⟨u, hu⟩

theorem Mirrored.mem_ids_of_parent (h : w.Mirrored) (ht : t ∈ w.tasks) (hx : x ∈ t.parents) :
    x ∈ w.ids := by
  obtain ⟨u, hu, rfl, -⟩ := h.exists_parent ht hx
  exact List.mem_map_of_mem hu

/-- Kin list the same edges. -/
theorem Mirrored.of_kin (h : w.Mirrored) (hk : w.Kin w') : w'.Mirrored := by
  refine ⟨fun t' ht' => ?_, fun t' ht' => ?_⟩
  all_goals obtain ⟨t, ht, hkt⟩ := mem_of_kin hk ht'
  · rw [hkt.children, hkt.id]
    intro c hc
    obtain ⟨u, hu, hm⟩ := h.child t ht c hc
    obtain ⟨u', hu', hku⟩ := exists_of_kin hk hu
    exact ⟨u', hu', hku.parents ▸ hm⟩
  · rw [hkt.parents, hkt.id]
    intro p hp
    obtain ⟨u, hu, hm⟩ := h.parent t ht p hp
    obtain ⟨u', hu', hku⟩ := exists_of_kin hk hu
    exact ⟨u', hu', hku.children ▸ hm⟩

theorem Distinct.of_kin (h : w.Distinct) (hk : w.Kin w') : w'.Distinct := by
  refine ⟨fun t' ht' => ?_, fun t' ht' => ?_⟩
  all_goals obtain ⟨t, ht, hkt⟩ := mem_of_kin hk ht'
  · rw [hkt.parents]
    exact h.parents t ht
  · rw [hkt.children]
    exact h.children t ht

end

/-! ## Topological orders -/

section

variable {α : Type} [Quantity α]

/-- Every task stands before its children. -/
def ParentsFirst (order : List (Task α)) : Prop :=
  (∀ t ∈ order, t.id ∉ t.children) ∧ order.Pairwise fun t u => t.id ∉ u.children

variable {w : Workflow α} {tasks order : List (Task α)}

theorem awaited_iff {id : ℤ} : awaited tasks id = true ↔ ∃ t ∈ tasks, id ∈ t.children := by
  simp [awaited]

/-- What is ordered is an arrangement of the tasks with parents first. -/
theorem orderFrom_sound {fuel : ℕ} (hfuel : tasks.length ≤ fuel) (hn : (tasks.map Task.id).Nodup)
    (h : w.orderFrom fuel tasks = .ok order) : order.Perm tasks ∧ ParentsFirst order := by
  induction fuel generalizing tasks order with
  | zero =>
    obtain rfl := List.eq_nil_of_length_eq_zero (Nat.le_zero.1 hfuel)
    obtain rfl := Except.ok.inj h
    exact ⟨.refl _, by simp [ParentsFirst]⟩
  | succ fuel ih =>
    unfold orderFrom at h
    cases hf : tasks.find? (fun t => !awaited tasks t.id) with
    | none =>
      simp only [hf] at h
      split at h
      · next he =>
        rw [List.isEmpty_iff.1 he, ← Except.ok.inj h]
        exact ⟨.refl _, by simp [ParentsFirst]⟩
      · cases h
    | some t =>
      simp only [hf] at h
      split at h
      · cases h
      · have ht : t ∈ tasks := List.mem_of_find?_eq_some hf
        have hfree : ∀ u ∈ tasks, t.id ∉ u.children := by
          have : ¬ awaited tasks t.id = true := by simpa using List.find?_some hf
          rw [awaited_iff] at this
          exact fun u hu hc => this ⟨u, hu, hc⟩
        -- removing the chosen task removes it alone, as the ids are distinct
        have hperm : (t :: tasks.filter (·.id ≠ t.id)).Perm tasks := by
          obtain ⟨a, b, rfl⟩ := List.append_of_mem ht
          rw [List.map_append, List.map_cons, List.nodup_middle, List.nodup_cons] at hn
          have hab : ∀ u ∈ a ++ b, u.id ≠ t.id := fun u hu e =>
            hn.1 (by rw [← e, ← List.map_append]; exact List.mem_map_of_mem hu)
          have hkeep : (a ++ t :: b).filter (·.id ≠ t.id) = a ++ b := by
            rw [List.filter_append, List.filter_cons_of_neg (by simp), ← List.filter_append]
            exact List.filter_eq_self.2 fun u hu => by simpa using hab u hu
          rw [hkeep]
          exact List.perm_middle.symm
        have hlen := hperm.length_eq
        cases ho : w.orderFrom fuel (tasks.filter (·.id ≠ t.id)) with
        | error e => rw [ho] at h; cases h
        | ok rest =>
          rw [ho] at h
          obtain rfl := Except.ok.inj h
          obtain ⟨hp, hself, hpair⟩ := ih (by simp only [List.length_cons] at hlen; omega)
            (hn.sublist (List.filter_sublist.map _)) ho
          have hmem : ∀ u ∈ rest, u ∈ tasks := fun u hu => List.mem_of_mem_filter (hp.subset hu)
          refine ⟨(hp.cons t).trans hperm, ?_, ?_⟩
          · intro u hu
            rcases List.mem_cons.1 hu with rfl | hu
            · exact hfree u ht
            · exact hself u hu
          · exact List.pairwise_cons.2 ⟨fun u hu => hfree u (hmem u hu), hpair⟩

/-- Where every child is known and ranks above its parents, an order is found. -/
theorem orderFrom_complete {rank : ℤ → ℕ} {fuel : ℕ}
    (hrank : ∀ t ∈ tasks, ∀ c ∈ t.children, rank t.id < rank c)
    (hknown : ∀ t ∈ tasks, ∀ c ∈ t.children, w.contains c = true) :
    ∃ order, w.orderFrom fuel tasks = .ok order := by
  induction fuel generalizing tasks with
  | zero => exact ⟨[], rfl⟩
  | succ fuel ih =>
    unfold orderFrom
    cases hf : tasks.find? (fun t => !awaited tasks t.id) with
    | none =>
      cases tasks with
      | nil => exact ⟨[], rfl⟩
      | cons t tasks =>
        -- the lowest task is awaited by none, as a task that awaits it would be lower
        obtain ⟨u, hu, hmin⟩ := (measure fun u : Task α => rank u.id).wf.has_min
          {u | u ∈ t :: tasks} ⟨t, List.mem_cons_self⟩
        have haw : awaited (t :: tasks) u.id = true := by
          have := List.find?_eq_none.1 hf u hu
          simpa using this
        obtain ⟨v, hv, hc⟩ := awaited_iff.1 haw
        exact absurd (hrank v hv u.id hc) (hmin v hv)
    | some t =>
      have ht : t ∈ tasks := List.mem_of_find?_eq_some hf
      have hnone : t.children.find? (fun c => !w.contains c &&
          !awaited (tasks.filter (·.id ≠ t.id)) c) = none := by
        refine List.find?_eq_none.2 fun c hc => ?_
        simp [hknown t ht c hc]
      obtain ⟨order, ho⟩ := @ih (tasks.filter (·.id ≠ t.id))
        (fun u hu => hrank u (List.mem_of_mem_filter hu))
        (fun u hu => hknown u (List.mem_of_mem_filter hu))
      refine ⟨t :: order, ?_⟩
      simp only [hnone, ho, ok_bind]

/-- The place of a task in an order is the number of tasks before it. -/
theorem place_append {before after : List (Task α)} {t : Task α}
    (hn : ((before ++ t :: after).map Task.id).Nodup) :
    place (before ++ t :: after) t.id = before.length := by
  have hb : ∀ u ∈ before, ¬ (decide (u.id = t.id)) = true := by
    rw [List.map_append, List.map_cons, List.nodup_middle, List.nodup_cons] at hn
    intro u hu he
    refine hn.1 (List.mem_append_left _ ?_)
    rw [← of_decide_eq_true he]
    exact List.mem_map_of_mem hu
  unfold place
  rw [List.findIdx_append, List.findIdx_eq_length_of_false (by simpa using hb)]
  simp [List.findIdx_cons]

/-- In an order with parents first, places rank children above their parents. -/
theorem ParentsFirst.place_lt (h : ParentsFirst order) (hn : (order.map Task.id).Nodup) {t u : Task α}
    (ht : t ∈ order) (hu : u ∈ order) (hc : u.id ∈ t.children) :
    place order t.id < place order u.id := by
  obtain ⟨a, b, rfl⟩ := List.append_of_mem ht
  have hpair := List.pairwise_append.1 h.2
  rcases List.mem_append.1 hu with ha | hb
  · exact absurd hc (hpair.2.2 u ha t List.mem_cons_self)
  · rcases List.mem_cons.1 hb with rfl | hb
    · exact absurd hc (h.1 u ht)
    · obtain ⟨c, d, rfl⟩ := List.append_of_mem hb
      rw [place_append hn]
      have hshape : a ++ t :: (c ++ u :: d) = (a ++ t :: c) ++ u :: d := by simp
      rw [hshape] at hn ⊢
      rw [place_append hn]
      simp only [List.length_append, List.length_cons]
      omega

/-! ## The check -/

omit [Quantity α] in
theorem require_eq_ok {b : Bool} {fault : Fault α} : require b fault = .ok () ↔ b = true := by
  cases b <;> simp [require]

theorem checkChild_eq_ok {t : Task α} {c : ℤ} :
    w.checkChild t c = .ok () ↔ ∃ u, w.find? c = some u ∧ t.id ∈ u.parents := by
  unfold checkChild
  cases w.find? c <;> simp [require_eq_ok]

theorem checkParent_eq_ok {t : Task α} {p : ℤ} :
    w.checkParent t p = .ok () ↔ ∃ u, w.find? p = some u ∧ t.id ∈ u.children := by
  unfold checkParent
  cases w.find? p <;> simp [require_eq_ok]

omit [Quantity α] in
/-- Two checks in a row pass if both pass. -/
theorem both_eq_ok {m n : Except (Fault α) Unit} :
    (m >>= fun _ => n) = .ok () ↔ m = .ok () ∧ n = .ok () := by
  cases m <;> simp

theorem checkTask_eq_ok {t : Task α} :
    w.checkTask t = .ok () ↔ ¬ t.length < 0 ∧ 1 ≤ t.elements ∧
      (∀ x ∈ t.transfers.values, ¬ x < 0) ∧
      (∀ c ∈ t.children, ∃ u, w.find? c = some u ∧ t.id ∈ u.parents) ∧
      ∀ p ∈ t.parents, ∃ u, w.find? p = some u ∧ t.id ∈ u.children := by
  simp only [checkTask, both_eq_ok, require_eq_ok, forM_eq_ok, checkChild_eq_ok, checkParent_eq_ok]
  simp

theorem isAcyclic_iff : w.isAcyclic = true ↔ ∃ order, w.topologicalOrder = .ok order := by
  unfold isAcyclic
  cases w.topologicalOrder <;> simp

/-- A topological order arranges the tasks with parents first. -/
theorem topologicalOrder_sound (h : w.topologicalOrder = .ok order) :
    order.Perm w.tasks ∧ ParentsFirst order :=
  orderFrom_sound (le_refl _) w.nodup h

theorem contains_of_find? {id : ℤ} {t : Task α} (h : w.find? id = some t) : w.contains id = true := by
  obtain ⟨ht, rfl⟩ := find?_eq_some.1 h
  exact List.any_eq_true.2 ⟨t, ht, by simp⟩

/-- Places in a topological order rank every child above its parents. -/
theorem place_lt_place (h : w.topologicalOrder = .ok order)
    (hc : ∀ t ∈ w.tasks, ∀ c ∈ t.children, c ∈ w.ids) :
    ∀ t ∈ w.tasks, ∀ c ∈ t.children, place order t.id < place order c := by
  intro t ht c hct
  obtain ⟨hp, hfirst⟩ := topologicalOrder_sound h
  obtain ⟨u, hu⟩ := mem_ids.1 (hc t ht c hct)
  obtain ⟨hmem, rfl⟩ := find?_eq_some.1 hu
  exact hfirst.place_lt ((hp.map Task.id).nodup_iff.2 w.nodup) (hp.mem_iff.2 ht)
    (hp.mem_iff.2 hmem) hct

/-- The check passes exactly if every task passes alone and the ids can be ranked. -/
theorem check_iff : w.check = .ok () ↔ (∀ t ∈ w.tasks, w.checkTask t = .ok ()) ∧
    ∃ rank : ℤ → ℕ, ∀ t ∈ w.tasks, ∀ c ∈ t.children, rank t.id < rank c := by
  simp only [check, both_eq_ok, forM_eq_ok, require_eq_ok, isAcyclic_iff]
  refine and_congr_right fun h => ?_
  have hknown : ∀ t ∈ w.tasks, ∀ c ∈ t.children, ∃ u, w.find? c = some u := fun t ht c hc =>
    ((checkTask_eq_ok.1 (h t ht)).2.2.2.1 c hc).imp fun _ => And.left
  constructor
  · rintro ⟨order, ho⟩
    exact ⟨place order, place_lt_place ho fun t ht c hc => mem_ids.2 (hknown t ht c hc)⟩
  · rintro ⟨rank, hrank⟩
    apply orderFrom_complete hrank
    intro t ht c hc
    obtain ⟨u, hu⟩ := hknown t ht c hc
    exact contains_of_find? hu

/-- A workflow that passes lists every edge at both ends. -/
theorem mirrored_of_check (h : w.check = .ok ()) : w.Mirrored :=
  ⟨fun t ht => (checkTask_eq_ok.1 ((check_iff.1 h).1 t ht)).2.2.2.1,
    fun t ht => (checkTask_eq_ok.1 ((check_iff.1 h).1 t ht)).2.2.2.2⟩

/-! ## Rankings -/

/-- A ranking of the tasks below their number, with every child above its parents. -/
structure Ranking (w : Workflow α) (rank : ℤ → ℕ) : Prop where
  lt_size : ∀ id ∈ w.ids, rank id < w.size
  rise : ∀ t ∈ w.tasks, ∀ c ∈ t.children, rank t.id < rank c

/-- Places in a topological order are a ranking. -/
theorem ranking_place (h : w.topologicalOrder = .ok order)
    (hc : ∀ t ∈ w.tasks, ∀ c ∈ t.children, c ∈ w.ids) : Ranking w (place order) := by
  refine ⟨fun id hid => ?_, place_lt_place h hc⟩
  obtain ⟨t, ht⟩ := mem_ids.1 hid
  obtain ⟨hmem, rfl⟩ := find?_eq_some.1 ht
  have hp := (topologicalOrder_sound h).1
  rw [size, ← hp.length_eq]
  exact List.findIdx_lt_length_of_exists ⟨t, hp.mem_iff.2 hmem, by simp⟩

theorem Ranking.of_kin {w' : Workflow α} {rank : ℤ → ℕ} (hr : w.Ranking rank) (h : w.Kin w') :
    w'.Ranking rank := by
  refine ⟨fun id hid => ?_, fun t' ht' => ?_⟩
  · rw [ids_of_kin h] at hid
    rw [size_of_kin h]
    exact hr.lt_size id hid
  · obtain ⟨t, ht, hk⟩ := mem_of_kin h ht'
    rw [hk.children, hk.id]
    exact hr.rise t ht

/-- A workflow that passes has a topological order, whose places rank its tasks. -/
theorem exists_order_of_check (h : w.check = .ok ()) :
    ∃ order, w.topologicalOrder = .ok order ∧ w.Ranking (place order) := by
  have hcheck := h
  simp only [check, both_eq_ok, require_eq_ok, isAcyclic_iff] at hcheck
  obtain ⟨-, order, ho⟩ := hcheck
  exact ⟨order, ho, ranking_place ho fun t ht c => (mirrored_of_check h).mem_ids_of_child ht⟩

/-! ## Orders of ids -/

/-- The place of a task in an order is the place of its id among the ids. -/
theorem place_eq_idxOf (tasks : List (Task α)) (x : ℤ) : place tasks x = (tasks.map Task.id).idxOf x := by
  rw [List.idxOf, List.findIdx_map]
  rfl

/-- An order of all ids in which every task stands before its children. -/
structure Forward (w : Workflow α) (order : List ℤ) : Prop where
  perm : order.Perm w.ids
  before : ∀ t ∈ w.tasks, ∀ c ∈ t.children, order.idxOf t.id < order.idxOf c

/-- A topological order is one, where all children are known. -/
theorem forward_of_topologicalOrder (h : w.topologicalOrder = .ok order)
    (hc : ∀ t ∈ w.tasks, ∀ c ∈ t.children, c ∈ w.ids) : w.Forward (order.map Task.id) := by
  refine ⟨(topologicalOrder_sound h).1.map Task.id, fun t ht c hct => ?_⟩
  rw [← place_eq_idxOf, ← place_eq_idxOf]
  exact place_lt_place h hc t ht c hct

/-- The next id of an order of all ids belongs to a task and is new. -/
theorem exists_next {ids done rest : List ℤ} {x : ℤ} (hperm : ids.Perm w.ids)
    (hsplit : ids = done ++ x :: rest) : ∃ t ∈ w.tasks, t.id = x ∧ x ∉ done := by
  have hnodup : (done ++ x :: rest).Nodup := hsplit ▸ hperm.nodup_iff.2 w.nodup
  obtain ⟨t, ht, hid⟩ := List.mem_map.1 (hperm.subset (by simp [hsplit] : x ∈ ids))
  exact ⟨t, ht, hid, fun hmem => (List.nodup_append.1 hnodup).2.2 x hmem x List.mem_cons_self rfl⟩

/-- An order of all ids in which every task stands behind its parents. -/
structure Topological (w : Workflow α) (order : List ℤ) : Prop where
  perm : order.Perm w.ids
  first : ∀ t ∈ w.tasks, ∀ ahead behind, order = ahead ++ t.id :: behind → ∀ x ∈ t.parents, x ∈ ahead

/-- Where parents list their children, a task that stands before its children stands behind its parents. -/
theorem Forward.topological {ids : List ℤ} (h : w.Forward ids) (hw : w.Mirrored) : w.Topological ids := by
  refine ⟨h.perm, fun t ht ahead behind hsplit p hp => ?_⟩
  obtain ⟨u, hm, rfl, hc⟩ := hw.exists_parent ht hp
  obtain ⟨-, -, -, hnew⟩ := exists_next h.perm hsplit
  by_contra hbehind
  have hlt := h.before u hm t.id hc
  rw [hsplit, List.idxOf_append_of_notMem hnew, List.idxOf_append_of_notMem hbehind,
    List.idxOf_cons_self] at hlt
  omega

theorem Topological.of_kin {w' : Workflow α} {ids : List ℤ} (ho : w.Topological ids) (h : w.Kin w') :
    w'.Topological ids := by
  refine ⟨by rw [ids_of_kin h]; exact ho.perm, fun t' ht' => ?_⟩
  obtain ⟨t, ht, hk⟩ := mem_of_kin h ht'
  rw [hk.id, hk.parents]
  exact ho.first t ht

/-- The next task of a topological order is new, and its parents stand before it. -/
theorem Topological.turn {ids done rest : List ℤ} {x : ℤ} (ho : w.Topological ids)
    (hsplit : ids = done ++ x :: rest) :
    ∃ t ∈ w.tasks, t.id = x ∧ x ∉ done ∧ ∀ y ∈ t.parents, y ∈ done := by
  obtain ⟨t, ht, rfl, hnew⟩ := exists_next ho.perm hsplit
  exact ⟨t, ht, rfl, hnew, ho.first t ht done rest hsplit⟩

end

section

variable {w : Workflow ℚ} {order : List (Task ℚ)}

/-- The check passes exactly on checked workflows. -/
theorem check_eq_ok : w.check = .ok () ↔ w.Checked := by
  simp only [check_iff, checkTask_eq_ok, not_lt]
  constructor
  · rintro ⟨h, hranked⟩
    exact ⟨⟨fun t ht => (h t ht).2.2.2.1, fun t ht => (h t ht).2.2.2.2⟩, fun t ht => (h t ht).1,
      fun t ht => (h t ht).2.1, fun t ht => (h t ht).2.2.1, hranked⟩
  · intro h
    exact ⟨fun t ht => ⟨h.length t ht, h.elements t ht, h.transfers t ht, h.child t ht,
      h.parent t ht⟩, h.ranked⟩

/-- A checked workflow has a topological order, whose places rank its tasks. -/
theorem Checked.topologicalOrder (h : w.Checked) :
    ∃ order, w.topologicalOrder = .ok order ∧ Ranking w (place order) :=
  exists_order_of_check (check_eq_ok.2 h)

/-- Kin of checked workflows are checked. -/
theorem Checked.of_kin {w' : Workflow ℚ} (hw : w.Checked) (h : w.Kin w') : w'.Checked := by
  obtain ⟨rank, hrank⟩ := hw.ranked
  refine ⟨hw.toMirrored.of_kin h, fun t' ht' => ?_, fun t' ht' => ?_, fun t' ht' => ?_, rank,
    fun t' ht' => ?_⟩
  all_goals obtain ⟨t, ht, hk⟩ := mem_of_kin h ht'
  · rw [hk.length]
    exact hw.length t ht
  · rw [hk.elements]
    exact hw.elements t ht
  · rw [hk.transfers]
    exact hw.transfers t ht
  · rw [hk.children, hk.id]
    exact hrank t ht

end

end FlowSched.Workflow

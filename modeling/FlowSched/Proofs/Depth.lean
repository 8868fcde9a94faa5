import Mathlib.Order.Bounds.Basic
import Mathlib.Logic.Function.Basic
import FlowSched.Workflow.Sample
import FlowSched.Proofs.Woven

/-!
# Depths

Depths are written in topological order, each from the depths that the parents hold at that moment. In a
checked workflow these are final by then, whatever the tasks held before: the depths that are left satisfy
the equation of a depth at every task (`computeDepths_ok`). Any order with parents first will do
(`setDepths_leads`), and no numbers but depths are read.
-/

namespace FlowSched.Workflow

open Step

/-- The greatest of a list is an element that bounds all of it. -/
theorem isGreatest_deepest {xs : List ℤ} (h : xs ≠ []) : IsGreatest {x | x ∈ xs} (deepest xs) := by
  cases xs with
  | nil => exact absurd rfl h
  | cons d rest => exact List.max?_eq_some_iff.1 List.max?_cons'

variable {α : Type} [Quantity α] {w : Workflow α} {rank : ℤ → ℕ} {depth held : ℤ → ℤ}

/-- The workflow with the depths that a function gives to its ids. -/
def withDepths (w : Workflow α) (depth : ℤ → ℤ) : Workflow α where
  tasks := w.tasks.map fun t => { t with depth := depth t.id }
  nodup := by
    rw [List.map_map]
    exact w.nodup

/-! ## The equation of a depth -/

/-- One for a root, else one more than the greatest depth of a parent. -/
def depthFrom (depth : ℤ → ℤ) (parents : List ℤ) : ℤ :=
  if parents = [] then 1 else deepest (parents.map depth) + 1

/-- Only the depths of parents count. -/
theorem depthFrom_congr {depth' : ℤ → ℤ} {parents : List ℤ} (h : ∀ p ∈ parents, depth p = depth' p) :
    depthFrom depth parents = depthFrom depth' parents := by
  rw [depthFrom, depthFrom, List.map_congr_left h]

@[simp] theorem depthFrom_nil : depthFrom depth [] = 1 := rfl

/-- Below a root, the greatest of what is one more than the depth of a parent. -/
theorem isGreatest_depthFrom (depth : ℤ → ℤ) {parents : List ℤ} (hne : parents ≠ []) :
    IsGreatest {d | ∃ p ∈ parents, depth p + 1 = d} (depthFrom depth parents) := by
  have hmax : IsGreatest {d | d ∈ parents.map depth} (deepest (parents.map depth)) :=
    isGreatest_deepest (mt List.map_eq_nil_iff.1 hne)
  rw [depthFrom, if_neg hne]
  refine ⟨?_, ?_⟩
  · obtain ⟨p, hp, hd⟩ := List.mem_map.1 hmax.1
    exact ⟨p, hp, by rw [hd]⟩
  · rintro _ ⟨p, hp, rfl⟩
    exact Int.add_le_add_right (hmax.2 (List.mem_map_of_mem hp)) 1

/-- More than any parent has. -/
theorem lt_depthFrom (depth : ℤ → ℤ) {parents : List ℤ} {p : ℤ} (hp : p ∈ parents) :
    depth p < depthFrom depth parents :=
  Int.lt_of_add_one_le ((isGreatest_depthFrom depth (List.ne_nil_of_mem hp)).2 ⟨p, hp, rfl⟩)

/-- One more than what all parents have. -/
theorem depthFrom_eq {parents : List ℤ} (hne : parents ≠ []) {d : ℤ} (h : ∀ p ∈ parents, depth p = d) :
    depthFrom depth parents = d + 1 := by
  obtain ⟨p, hp, heq⟩ := (isGreatest_depthFrom depth hne).1
  rw [← heq, h p hp]

/-! ## Other depths -/

@[simp] theorem ids_withDepths : (w.withDepths depth).ids = w.ids := by
  simp [ids, withDepths, Function.comp_def]

theorem find?_withDepths (x : ℤ) :
    (w.withDepths depth).find? x = (w.find? x).map fun t => { t with depth := depth t.id } := by
  unfold find? withDepths
  rw [List.find?_map]
  rfl

theorem find?_withDepths_of_find? {x : ℤ} {t : Task α} (ht : w.find? x = some t) :
    (w.withDepths depth).find? x = some { t with depth := depth t.id } := by
  rw [find?_withDepths, ht, Option.map_some]

/-- Any workflow has the depths of its tasks. -/
theorem exists_withDepths (w : Workflow α) : ∃ depth, w = w.withDepths depth := by
  refine ⟨fun x => (w.find? x).elim 0 Task.depth, eq_of_tasks ?_⟩
  refine (List.map_id _).symm.trans (List.map_congr_left fun t ht => ?_)
  simp only [find?_self ht, Option.elim_some, id]

/-- Only the depths of tasks count. -/
theorem withDepths_congr (h : ∀ t ∈ w.tasks, held t.id = depth t.id) :
    w.withDepths held = w.withDepths depth :=
  eq_of_tasks (List.map_congr_left fun t ht => by rw [h t ht])

/-- A depth that is written replaces the one before. -/
theorem withDepths_modify (x d : ℤ) :
    (w.withDepths depth).modify x (fun t => { t with depth := d }) =
      w.withDepths (Function.update depth x d) := by
  refine eq_of_tasks ?_
  show List.map _ (List.map _ w.tasks) = _
  rw [List.map_map]
  refine List.map_congr_left fun t _ => ?_
  unfold Function.comp Task.edit
  rcases eq_or_ne t.id x with rfl | hx
  · simp
  · simp [hx]

/-- Edges do not depend on depths. -/
theorem Woven.withDepths (hw : w.Woven rank) (depth : ℤ → ℤ) : (w.withDepths depth).Woven rank where
  lt_size x hx := by
    rw [size, Workflow.withDepths, List.length_map]
    exact hw.lt_size x (by rwa [ids_withDepths] at hx)
  rise := List.forall_mem_map.2 hw.rise
  child := List.forall_mem_map.2 fun t ht c hc => by
    obtain ⟨u, hu, hmem⟩ := hw.child t ht c hc
    exact ⟨_, find?_withDepths_of_find? hu, hmem⟩
  parent := List.forall_mem_map.2 fun t ht p hp => by
    obtain ⟨u, hu, hmem⟩ := hw.parent t ht p hp
    exact ⟨_, find?_withDepths_of_find? hu, hmem⟩

theorem Forward.of_withDepths {order : List ℤ} (ho : (w.withDepths depth).Forward order) :
    w.Forward order :=
  ⟨ids_withDepths (w := w) ▸ ho.perm, List.forall_mem_map.1 ho.before⟩

/-! ## Writing depths -/

/-- The depth that is written for a task follows from those its parents hold. -/
theorem setDepth_ok {t : Task α} (ht : t ∈ w.tasks) (hparents : ∀ p ∈ t.parents, p ∈ w.ids) :
    setDepth t.id (w.withDepths depth) =
      .ok () (w.withDepths (Function.update depth t.id (depthFrom depth t.parents))) := by
  have hget : (w.withDepths depth).get t.id = .ok { t with depth := depth t.id } :=
    get_eq_ok.2 (find?_withDepths_of_find? (find?_self ht))
  have hknown : ∀ p ∈ t.parents, ∃ u, (w.withDepths depth).find? p = some u := fun p hp => by
    rw [← mem_ids, ids_withDepths]
    exact hparents p hp
  obtain ⟨us, hus, hids⟩ := getAll_eq_ok hknown
  have hdepths : us.map Task.depth = t.parents.map depth := by
    rw [← hids, List.map_map]
    refine List.map_congr_left fun u hu => ?_
    have hfind := find?_of_getAll hus hu
    rw [find?_withDepths] at hfind
    obtain ⟨v, -, rfl⟩ := Option.map_eq_some_iff.1 hfind
    rfl
  have hempty : us.isEmpty = decide (t.parents = []) := by
    rw [← hids]
    cases us <;> rfl
  unfold setDepth Step.atomic depthFrom
  simp only [hget, hus, ok_bind, hempty, hdepths, decide_eq_true_eq, withDepths_modify]

section

variable (hw : w.Woven rank)

include hw

/-- Writing depths with parents first, whatever the tasks hold before. A task that is done keeps its
depth, as what is written later is neither it nor one of its parents. -/
theorem setDepths_leads {order : List ℤ} (ho : w.Forward order) (held : ℤ → ℤ) :
    Leads (Step.each setDepth order) (w.withDepths held) (fun _ w' => ∃ depth, w' = w.withDepths depth ∧
      ∀ t ∈ w.tasks, depth t.id = depthFrom depth t.parents) fun _ _ => False := by
  have hloop := Leads.each_done (f := setDepth) (E := fun _ _ => False) (l := order)
    (s := w.withDepths held) (I := fun done w' => ∃ depth, w' = w.withDepths depth ∧
      ∀ t ∈ w.tasks, t.id ∈ done → (∀ p ∈ t.parents, p ∈ done) ∧ depth t.id = depthFrom depth t.parents)
    ?_ ⟨held, rfl, by simp⟩
  · refine hloop.mono (fun _ w' => ?_) fun _ _ => id
    rintro ⟨depth, rfl, hdepth⟩
    exact ⟨depth, rfl, fun t ht => (hdepth t ht (ho.perm.mem_iff.2 (List.mem_map_of_mem ht))).2⟩
  · rintro done x rest _ hsplit ⟨depth, rfl, hdone⟩
    obtain ⟨u, hu, rfl, hnew, hparents⟩ := (ho.topological hw.toMirrored).turn hsplit
    refine leads_of_ok (setDepth_ok hu fun p => hw.mem_ids_of_parent hu) ⟨_, rfl, fun t ht hmem => ?_⟩
    have hstep : (∀ p ∈ t.parents, p ∈ done) ∧
        Function.update depth u.id (depthFrom depth u.parents) t.id = depthFrom depth t.parents := by
      rcases List.mem_append.1 hmem with hmem | hmem
      · obtain ⟨hpar, hdepth⟩ := hdone t ht hmem
        have hne : t.id ≠ u.id := fun e => hnew (e ▸ hmem)
        exact ⟨hpar, by rw [Function.update_of_ne hne, hdepth]⟩
      · obtain rfl := List.inj_on_of_nodup_map w.nodup ht hu (List.mem_singleton.1 hmem)
        exact ⟨hparents, Function.update_self ..⟩
    refine ⟨fun p hp => List.mem_append_left _ (hstep.1 p hp), hstep.2.trans (depthFrom_congr ?_)⟩
    intro p hp
    have hne : p ≠ u.id := fun e => hnew (e ▸ hstep.1 p hp)
    exact (Function.update_of_ne hne ..).symm

/-- In a woven workflow depths can be computed, and each follows from those of the parents. -/
theorem computeDepths_ok (held : ℤ → ℤ) :
    ∃ depth, computeDepths (w.withDepths held) = .ok () (w.withDepths depth) ∧
      ∀ t ∈ w.tasks, depth t.id = depthFrom depth t.parents := by
  have hheld := hw.withDepths held
  obtain ⟨order, ho⟩ := hheld.exists_topologicalOrder
  have hforward := (forward_of_topologicalOrder ho fun t ht c => hheld.mem_ids_of_child ht).of_withDepths
  have hsteps := setDepths_leads hw hforward held
  have hleads : Leads computeDepths (w.withDepths held) _ fun _ _ => False :=
    leads_bind.2 (leads_query_ok ho hsteps)
  obtain ⟨⟨⟩, _, hrun, depth, rfl, hdepth⟩ := hleads.exists_ok
  exact ⟨depth, hrun, hdepth⟩

end

/-- A checked workflow is finished by its depths. -/
theorem finished_ok {w : Workflow ℚ} (hw : w.Checked) : ∃ depth, w.finished = .ok (w.withDepths depth) ∧
    ∀ t ∈ w.tasks, depth t.id = depthFrom depth t.parents := by
  have hcheck := check_eq_ok.2 hw
  obtain ⟨rank, hwoven⟩ := exists_woven hcheck
  obtain ⟨held, hheld⟩ := exists_withDepths w
  obtain ⟨depth, hrun, hdepth⟩ := computeDepths_ok hwoven held
  rw [← hheld] at hrun
  refine ⟨depth, ?_, hdepth⟩
  unfold finished
  rw [hcheck, ok_bind, hrun]

end FlowSched.Workflow

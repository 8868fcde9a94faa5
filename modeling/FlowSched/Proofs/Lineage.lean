import FlowSched.Proofs.Depth

/-!
# Lineages

A lineage of a task leads from parent to parent up to a root. The depth of a task is the number of tasks on
the longest of its lineages (`isGreatest_depth`): none has more, by induction on the lineage, and some has as
many, by induction on the ranks below the task. So the equation of a depth has one solution, to which depths
are computed in any order with parents first, whatever the tasks held before (`computeDepths_longest`).
-/

namespace FlowSched.Workflow

open Step

variable {α : Type} [Quantity α]

/-- What stands above a task on a way along its parents: one of them, a parent of that one, and so on up
to a root. -/
inductive Lineage (w : Workflow α) : ℤ → List ℤ → Prop
  | root {t : Task α} : t ∈ w.roots → Lineage w t.id []
  | step {t : Task α} {parent : ℤ} {above : List ℤ} : t ∈ w.tasks → parent ∈ t.parents →
      Lineage w parent above → Lineage w t.id (parent :: above)

/-- How many tasks stand on the ways from a root to a task, the task included. -/
def lineageSizes (w : Workflow α) (x : ℤ) : Set ℤ :=
  {n | ∃ above, w.Lineage x above ∧ ((x :: above).length : ℤ) = n}

variable {w : Workflow α} {rank : ℤ → ℕ} {depth : ℤ → ℤ} {t : Task α}

theorem mem_roots_iff : t ∈ w.roots ↔ t ∈ w.tasks ∧ t.parents = [] := by
  rw [roots, List.mem_filter, List.isEmpty_iff]

/-! ## Solutions of the equation -/

section

variable (hdepth : ∀ t ∈ w.tasks, depth t.id = depthFrom depth t.parents)

include hdepth

/-- Depths rise along edges. -/
theorem depth_parent_lt {p : ℤ} (ht : t ∈ w.tasks) (hp : p ∈ t.parents) : depth p < depth t.id := by
  rw [hdepth t ht]
  exact lt_depthFrom depth hp

/-- No lineage has more tasks than the depth says. -/
theorem Lineage.length_le {x : ℤ} {above : List ℤ} (h : w.Lineage x above) :
    ((x :: above).length : ℤ) ≤ depth x := by
  induction h with
  | root hroot =>
    obtain ⟨ht, hparents⟩ := mem_roots_iff.1 hroot
    rw [hdepth _ ht, hparents]
    exact le_refl 1
  | @step t parent above ht hparent _ ih =>
    have hlt := depth_parent_lt hdepth ht hparent
    rw [List.length_cons]
    push_cast
    omega

variable (hw : w.Woven rank)

include hw

/-- Some lineage has as many tasks as the depth says: one that leads over a deepest parent. -/
theorem depth_mem_lineageSizes (ht : t ∈ w.tasks) : depth t.id ∈ w.lineageSizes t.id := by
  induction hn : rank t.id using Nat.strong_induction_on generalizing t with
  | h n ih =>
    by_cases hroot : t.parents = []
    · exact ⟨[], .root (mem_roots_iff.2 ⟨ht, hroot⟩), by rw [hdepth t ht, hroot]; rfl⟩
    · obtain ⟨p, hp, heq⟩ := (isGreatest_depthFrom depth hroot).1
      obtain ⟨u, hu, rfl, -⟩ := hw.exists_parent ht hp
      obtain ⟨above, hline, hlength⟩ := ih _ (hn ▸ hw.rank_parent ht hp) hu rfl
      refine ⟨u.id :: above, .step ht hp hline, ?_⟩
      rw [hdepth t ht, ← heq, ← hlength]
      rfl

/-- The depth of a task is the number of tasks on the longest of its lineages. -/
theorem isGreatest_depth (ht : t ∈ w.tasks) : IsGreatest (w.lineageSizes t.id) (depth t.id) := by
  refine ⟨depth_mem_lineageSizes hdepth hw ht, ?_⟩
  rintro _ ⟨above, hline, rfl⟩
  exact hline.length_le hdepth

/-- A task stands on its lineages itself. -/
theorem one_le_depth (ht : t ∈ w.tasks) : 1 ≤ depth t.id := by
  obtain ⟨above, -, hlength⟩ := depth_mem_lineageSizes hdepth hw ht
  rw [← hlength, List.length_cons]
  push_cast
  omega

/-- Roots alone have depth one, as every other task is deeper than its parents. -/
theorem depth_eq_one_iff (ht : t ∈ w.tasks) : depth t.id = 1 ↔ t.parents = [] := by
  constructor
  · intro hone
    by_contra hne
    obtain ⟨p, hp⟩ := List.exists_mem_of_ne_nil _ hne
    obtain ⟨u, hu, rfl, -⟩ := hw.exists_parent ht hp
    have hpos := one_le_depth hdepth hw hu
    have hlt := depth_parent_lt hdepth ht hp
    omega
  · intro hroot
    rw [hdepth t ht, hroot, depthFrom_nil]

/-- The equation has one solution on the tasks. -/
theorem withDepths_unique {other : ℤ → ℤ}
    (hother : ∀ t ∈ w.tasks, other t.id = depthFrom other t.parents) :
    w.withDepths other = w.withDepths depth :=
  withDepths_congr fun _ ht =>
    (isGreatest_depth hother hw ht).unique (isGreatest_depth hdepth hw ht)

end

/-! ## Computing depths -/

/-- In a checked workflow depths can be computed, and nothing else changes. Then the depth of a task is the
number of tasks on the longest way along parents between it and a root. It is one exactly for roots, it rises
along every edge, and computing depths again changes nothing. What comes out depends neither on the depths
that the tasks held before nor on which order with parents first the depths are written in. -/
theorem computeDepths_longest (w : Workflow α) (h : w.check = .ok ()) :
    ∃ w', computeDepths w = .ok () w' ∧ (∃ depth, w' = w.withDepths depth) ∧
      (∀ t ∈ w'.tasks, IsGreatest (w.lineageSizes t.id) t.depth) ∧
      (∀ t ∈ w'.tasks, t.depth = 1 ↔ t ∈ w'.roots) ∧
      (∀ t ∈ w'.tasks, ∀ u ∈ w'.tasks, u.id ∈ t.children ∨ t.id ∈ u.parents → t.depth < u.depth) ∧
      computeDepths w' = .ok () w' ∧
      ∀ held, computeDepths (w.withDepths held) = .ok () w' ∧
        ∀ order, w.Forward order → Step.each setDepth order (w.withDepths held) = .ok () w' := by
  obtain ⟨rank, hw⟩ := exists_woven h
  obtain ⟨first, hfirst⟩ := exists_withDepths w
  obtain ⟨depth, -, hdepth⟩ := computeDepths_ok hw first
  -- every run meets the equation, which has one solution
  have hcompute : ∀ held, computeDepths (w.withDepths held) = .ok () (w.withDepths depth) := by
    intro held
    obtain ⟨other, hrun, hother⟩ := computeDepths_ok hw held
    rw [hrun, withDepths_unique hdepth hw hother]
  have hwrite : ∀ held order, w.Forward order →
      Step.each setDepth order (w.withDepths held) = .ok () (w.withDepths depth) := by
    intro held order ho
    obtain ⟨⟨⟩, _, hrun, other, rfl, hother⟩ := (setDepths_leads hw ho held).exists_ok
    rw [hrun, withDepths_unique hdepth hw hother]
  have hrun : computeDepths w = .ok () (w.withDepths depth) := by
    have hrun := hcompute first
    rwa [← hfirst] at hrun
  refine ⟨w.withDepths depth, hrun, ⟨depth, rfl⟩, ?_, ?_, ?_, hcompute depth,
    fun held => ⟨hcompute held, hwrite held⟩⟩
  · exact List.forall_mem_map.2 fun t ht => isGreatest_depth (t := t) hdepth hw ht
  · intro t' ht'
    rw [mem_roots_iff, and_iff_right ht']
    obtain ⟨t, ht, rfl⟩ := List.mem_map.1 ht'
    exact depth_eq_one_iff (t := t) hdepth hw ht
  · refine List.forall_mem_map.2 fun t ht => List.forall_mem_map.2 fun u hu hedge => ?_
    have hparent : t.id ∈ u.parents := hedge.elim (hw.mem_parents_of_child (t := t) (u := u) ht hu) id
    exact depth_parent_lt (t := u) hdepth hu hparent

/-- Four tasks out of order, with a shortcut from the root to the exit and depths left over from elsewhere.
Each id is the depth that the task is to have. -/
def shortcut : Workflow ℚ where
  tasks := [{ id := 4, length := 1, parents := [1, 3], depth := 1 },
    { id := 1, length := 1, children := [4, 2], depth := 9 },
    { id := 3, length := 1, parents := [2], children := [4], depth := 5 },
    { id := 2, length := 1, parents := [1], children := [3] }]
  nodup := by decide

theorem computeDepths_longest_shortcut : shortcut.check = .ok () ∧
    computeDepths shortcut = .ok () (shortcut.withDepths id) ∧
      (∀ x ∈ shortcut.ids, IsGreatest (shortcut.lineageSizes x) x) ∧ shortcut.Forward [1, 2, 3, 4] ∧
      Step.each setDepth [1, 2, 3, 4] (shortcut.withDepths fun _ => 7) = .ok () (shortcut.withDepths id) := by
  have hrun : computeDepths shortcut = .ok () (shortcut.withDepths id) := rfl
  have horder : shortcut.Forward [1, 2, 3, 4] := ⟨by decide, by decide⟩
  obtain ⟨w', hrun', -, hgreatest, -, -, -, hall⟩ := computeDepths_longest shortcut rfl
  obtain ⟨-, rfl⟩ := EStateM.Result.ok.inj (hrun.symm.trans hrun')
  refine ⟨rfl, hrun, List.forall_mem_map.2 fun t ht => ?_, horder, (hall _).2 _ horder⟩
  exact hgreatest _ (List.mem_map_of_mem ht)

end FlowSched.Workflow

import FlowSched.Proofs.Building

/-!
# Adding one edge

A call that adds an edge between two known tasks gives each of its ends an entry that it lacks, and the
child its transfer time, if one is given. It changes nothing else. A call with an unknown end, or with one
task at both ends, changes nothing at all. A negative transfer time is refused too, but only after both
ends have been written: such a call leaves what a call without a time leaves, and so it leaves the workflow
as it was only if the edge stood there before (`addEdge_joins`, `addEdge_halfway`).
-/

namespace FlowSched

open Step

variable {α : Type} [Quantity α] {parent child : ℤ}

/-- A task once an edge has been added. -/
def Task.join (parent child : ℤ) (cost : Option α) (t : Task α) : Task α :=
  { t with
    children := if t.id = parent ∧ child ∉ t.children then t.children ++ [child] else t.children
    parents := if t.id = child ∧ parent ∉ t.parents then t.parents ++ [parent] else t.parents
    transfers := if t.id = child then cost.elim t.transfers (t.transfers.set parent) else t.transfers }

namespace Workflow

variable {w w' : Workflow α}

/-- An edge stands at both of its ends. -/
def HasEdge (w : Workflow α) (parent child : ℤ) : Prop :=
  (∃ t, w.find? parent = some t ∧ child ∈ t.children) ∧ ∃ u, w.find? child = some u ∧ parent ∈ u.parents

theorem addOnce_eq (x : ℤ) (xs : List ℤ) : addOnce x xs = if x ∉ xs then xs ++ [x] else xs := by
  unfold addOnce
  by_cases hx : x ∈ xs
  · simp [hx]
  · simp [hx]

/-! ## What is written -/

theorem tasks_modify (x : ℤ) (f : Task α → Task α) :
    (w.modify x f).tasks = w.tasks.map (Task.edit x f) := rfl

theorem tasks_link (hne : parent ≠ child) :
    (w.link parent child).tasks = w.tasks.map (Task.join parent child none) := by
  rw [link, tasks_modify, tasks_modify, List.map_map]
  refine List.map_congr_left fun t _ => ?_
  unfold Function.comp Task.edit Task.join
  rcases eq_or_ne t.id parent with hp | hp
  · have hc : t.id ≠ child := hp ▸ hne
    simp [hp, hne, addOnce_eq]
  · rcases eq_or_ne t.id child with hc | hc
    · simp [hc, hne.symm, addOnce_eq]
    · simp [hp, hc]

theorem tasks_setTransfer (hne : parent ≠ child) (c : α) :
    ((w.link parent child).setTransfer parent child c).tasks =
      w.tasks.map (Task.join parent child (some c)) := by
  rw [setTransfer, tasks_modify, tasks_link hne, List.map_map]
  refine List.map_congr_left fun t _ => ?_
  unfold Function.comp Task.edit Task.join
  rcases eq_or_ne t.id child with hc | hc
  · simp [hc]
  · simp [hc]

theorem find?_of_join {cost : Option α} (h : w'.tasks = w.tasks.map (Task.join parent child cost)) (x : ℤ) :
    w'.find? x = (w.find? x).map (Task.join parent child cost) := by
  unfold find?
  rw [h, List.find?_map]
  rfl

/-- A task at the end of an edge that was added. -/
theorem exists_of_join {cost : Option α} (h : w'.tasks = w.tasks.map (Task.join parent child cost)) {x : ℤ}
    (hx : x ∈ w.ids) : ∃ t : Task α, t.id = x ∧ w'.find? x = some (t.join parent child cost) := by
  obtain ⟨t, ht⟩ := mem_ids.1 hx
  exact ⟨t, (find?_eq_some.1 ht).2, by rw [find?_of_join h, ht, Option.map_some]⟩

/-- An edge that was added stands at both of its ends. -/
theorem hasEdge_of_join {cost : Option α} (h : w'.tasks = w.tasks.map (Task.join parent child cost))
    (hp : parent ∈ w.ids) (hc : child ∈ w.ids) : w'.HasEdge parent child := by
  obtain ⟨t, rfl, ht⟩ := exists_of_join h hp
  obtain ⟨u, rfl, hu⟩ := exists_of_join h hc
  refine ⟨⟨_, ht, ?_⟩, _, hu, ?_⟩
  · unfold Task.join
    by_cases hm : u.id ∈ t.children
    · simp [hm]
    · simp [hm]
  · unfold Task.join
    by_cases hm : t.id ∈ u.parents
    · simp [hm]
    · simp [hm]

/-- An edge that stands there already is not added again. -/
theorem eq_of_hasEdge (h : w'.tasks = w.tasks.map (Task.join parent child none))
    (hedge : w.HasEdge parent child) : w' = w := by
  obtain ⟨⟨t, ht, hchild⟩, u, hu, hparent⟩ := hedge
  refine eq_of_tasks (h.trans ((List.map_congr_left fun v hv => ?_).trans (List.map_id _)))
  have hv := find?_self hv
  have hchildren : v.id = parent → child ∈ v.children := by
    rintro rfl
    rwa [Option.some.inj (hv.symm.trans ht)]
  have hparents : v.id = child → parent ∈ v.parents := by
    rintro rfl
    rwa [Option.some.inj (hv.symm.trans hu)]
  unfold Task.join
  rw [if_neg fun hn => hn.2 (hparents hn.1), if_neg fun hn => hn.2 (hchildren hn.1)]
  simp

/-! ## The call -/

/-- A call that returns has joined two known tasks, and the edge stands at both ends with the time given.
A call that fails is refused as invalid; it has changed nothing, unless all that is wrong is a negative
time. Then it has joined the tasks as a call without a time does, so nothing has changed exactly if the
edge stood there before. -/
theorem addEdge_joins (w : Workflow α) (parent child : ℤ) (cost : Option α) :
    Leads (addEdge parent child cost) w
      (fun _ w' => (parent ∈ w.ids ∧ child ∈ w.ids ∧ parent ≠ child ∧ ∀ c, cost = some c → ¬ c < 0) ∧
        w'.tasks = w.tasks.map (Task.join parent child cost) ∧ w'.HasEdge parent child ∧
        ∀ c, cost = some c → ∃ u, w'.find? child = some u ∧ u.transfers.get? parent = some c)
      fun fault w' => fault.kind = .invalidInput ∧
        (¬ (parent ∈ w.ids ∧ child ∈ w.ids ∧ parent ≠ child) → w' = w) ∧
        (parent ∈ w.ids ∧ child ∈ w.ids ∧ parent ≠ child → (∃ c, cost = some c ∧ c < 0) ∧
          w'.tasks = w.tasks.map (Task.join parent child none) ∧ (w' = w ↔ w.HasEdge parent child)) := by
  unfold Leads addEdge
  by_cases hends : parent ∈ w.ids ∧ child ∈ w.ids
  · have hknown : (!(w.contains parent && w.contains child)) = false := by
      simp [contains_iff.2 hends.1, contains_iff.2 hends.2]
    rw [hknown, if_neg Bool.false_ne_true]
    obtain ⟨hp, hc⟩ := hends
    rcases eq_or_ne parent child with hself | hne
    · rw [if_pos hself]
      exact ⟨rfl, fun _ => rfl, fun h => absurd hself h.2.2⟩
    · rw [if_neg hne]
      cases cost with
      | none =>
        have htasks : (w.link parent child).tasks = _ := tasks_link hne
        exact ⟨⟨hp, hc, hne, by simp⟩, htasks, hasEdge_of_join htasks hp hc, by simp⟩
      | some c =>
        by_cases hneg : c < 0
        · have htasks : (w.link parent child).tasks = _ := tasks_link hne
          have hedge := hasEdge_of_join htasks hp hc
          simp only [if_pos hneg]
          refine ⟨rfl, fun h => absurd ⟨hp, hc, hne⟩ h, fun _ => ⟨⟨c, rfl, hneg⟩, htasks, ?_⟩⟩
          exact ⟨fun h => h ▸ hedge, eq_of_hasEdge htasks⟩
        · have htasks : ((w.link parent child).setTransfer parent child c).tasks = _ :=
            tasks_setTransfer hne c
          simp only [if_neg hneg]
          refine ⟨⟨hp, hc, hne, ?_⟩, htasks, hasEdge_of_join htasks hp hc, ?_⟩
          · rintro _ ⟨⟩
            exact hneg
          · rintro _ ⟨⟩
            obtain ⟨u, rfl, hu⟩ := exists_of_join htasks hc
            exact ⟨_, hu, by simp [Task.join, Table.get?_set]⟩
  · have hunknown : (!(w.contains parent && w.contains child)) = true := by
      rw [← contains_iff, ← contains_iff, ← Bool.and_eq_true] at hends
      rw [Bool.not_eq_true', Bool.eq_false_iff]
      exact hends
    rw [if_pos hunknown]
    exact ⟨rfl, fun _ => rfl, fun h => absurd ⟨h.1, h.2.1⟩ hends⟩

/-- Two tasks without an edge. -/
def strangers : Workflow ℚ where
  tasks := [{ id := 1, length := 10 }, { id := 2, length := 10 }]
  nodup := by decide

/-- A negative transfer time is refused, and leaves the edge behind. -/
theorem addEdge_halfway : ∃ w', addEdge 1 2 (some (-1)) strangers = .error (.negativeEdge 1 2) w' ∧
    strangers.tasks.map Task.children = [[], []] ∧ strangers.tasks.map Task.parents = [[], []] ∧
    w'.tasks.map Task.children = [[2], []] ∧ w'.tasks.map Task.parents = [[], [1]] :=
  ⟨strangers.link 1 2, by rfl, rfl, rfl, rfl, rfl⟩

end Workflow

end FlowSched

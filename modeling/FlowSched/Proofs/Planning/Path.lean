import FlowSched.Proofs.Planning.Frame

/-!
# The critical path

The paths that are listed are the routes from the roots to the exits (`mem_paths`), and every task
lies on one of them. A route costs the average times of its tasks and the times to move between
them; the critical path is a listed one of greatest cost (`criticalPath_ok`).
-/

namespace FlowSched

open Quantity

namespace Workflow

/-- A way from a task to an exit, each task a child of the one before. -/
inductive Route (w : Workflow ℚ) : List ℤ → Prop
  | exit {t : Task ℚ} : t ∈ w.tasks → t.children = [] → Route w [t.id]
  | step {t : Task ℚ} {next : ℤ} {rest : List ℤ} : t ∈ w.tasks → next ∈ t.children →
      Route w (next :: rest) → Route w (t.id :: next :: rest)

variable {w : Workflow ℚ} {rank : ℤ → ℕ} {path rest : List ℤ} {x : ℤ}

theorem Route.mem_ids (h : w.Route path) : ∀ x ∈ path, x ∈ w.ids := by
  induction h with
  | exit ht _ => simpa using Workflow.mem_ids.2 ⟨_, find?_self ht⟩
  | step ht _ _ ih =>
    intro x hx
    rcases List.mem_cons.1 hx with rfl | hx
    · exact Workflow.mem_ids.2 ⟨_, find?_self ht⟩
    · exact ih x hx

/-- From a task a route ends there, or goes on to a child. -/
theorem route_iff {t : Task ℚ} (ht : t ∈ w.tasks) : w.Route (t.id :: rest) ↔
    t.children = [] ∧ rest = [] ∨
      ∃ next ∈ t.children, ∃ onward, rest = next :: onward ∧ w.Route (next :: onward) := by
  constructor
  · intro h
    generalize hp : t.id :: rest = path at h
    cases h with
    | exit hu he =>
      obtain ⟨hid, rfl⟩ := List.cons.inj hp
      obtain rfl := List.inj_on_of_nodup_map w.nodup ht hu hid
      exact Or.inl ⟨he, rfl⟩
    | step hu hnext h =>
      obtain ⟨hid, rfl⟩ := List.cons.inj hp
      obtain rfl := List.inj_on_of_nodup_map w.nodup ht hu hid
      exact Or.inr ⟨_, hnext, _, rfl, h⟩
  · rintro (⟨he, rfl⟩ | ⟨next, hnext, onward, rfl, h⟩)
    · exact .exit ht he
    · exact .step ht hnext h

/-! ## Paths -/

/-- From a task, fuel for the ranks above it suffices to list all routes. -/
theorem mem_pathsFrom (hw : w.Checked) (hr : w.Ranking rank) (fuel : ℕ) (hx : x ∈ w.ids)
    (hfuel : w.size ≤ rank x + fuel) :
    path ∈ w.pathsFrom fuel x ↔ w.Route path ∧ ∃ rest, path = x :: rest := by
  induction fuel generalizing x path with
  | zero =>
    have := hr.lt_size x hx
    omega
  | succ fuel ih =>
    obtain ⟨t, ht⟩ := Workflow.mem_ids.1 hx
    obtain ⟨hm, rfl⟩ := find?_eq_some.1 ht
    have hchild : ∀ c ∈ t.children, ∀ path,
        path ∈ w.pathsFrom fuel c ↔ w.Route path ∧ ∃ rest, path = c :: rest := fun c hc path =>
      ih (hw.mem_ids_of_child hm hc) (by have := hr.rise t hm c hc; omega)
    unfold pathsFrom
    simp only [ht, Option.map_some, Option.getD_some, List.isEmpty_iff]
    split
    · next he =>
      rw [List.mem_singleton]
      constructor
      · rintro rfl
        exact ⟨.exit hm he, [], rfl⟩
      · rintro ⟨h, rest, rfl⟩
        rcases (route_iff hm).1 h with ⟨-, rfl⟩ | ⟨c, hc, -⟩
        · rfl
        · rw [he] at hc
          cases hc
    · next he =>
      simp only [List.mem_map, List.mem_flatMap]
      constructor
      · rintro ⟨_, ⟨c, hc, ho⟩, rfl⟩
        obtain ⟨h, onward, rfl⟩ := (hchild c hc _).1 ho
        exact ⟨.step hm hc h, _, rfl⟩
      · rintro ⟨h, rest, rfl⟩
        rcases (route_iff hm).1 h with ⟨hnil, -⟩ | ⟨c, hc, onward, rfl, ho⟩
        · exact absurd hnil he
        · exact ⟨c :: onward, ⟨c, hc, (hchild c hc _).2 ⟨ho, onward, rfl⟩⟩, rfl⟩

/-- The paths that are listed are the routes from the roots. -/
theorem mem_paths (hw : w.Checked) :
    path ∈ w.paths ↔ w.Route path ∧ ∃ t ∈ w.roots, ∃ rest, path = t.id :: rest := by
  obtain ⟨order, -, hr⟩ := hw.topologicalOrder
  have hone : ∀ t ∈ w.roots, (path ∈ w.pathsFrom w.size t.id ↔
      w.Route path ∧ ∃ rest, path = t.id :: rest) := fun t ht =>
    mem_pathsFrom hw hr w.size (Workflow.mem_ids.2 ⟨t, find?_self (List.mem_of_mem_filter ht)⟩)
      (Nat.le_add_left _ _)
  simp only [paths, List.mem_flatMap]
  constructor
  · rintro ⟨t, ht, hp⟩
    obtain ⟨h, hrest⟩ := (hone t ht).1 hp
    exact ⟨h, t, ht, hrest⟩
  · rintro ⟨h, t, ht, hrest⟩
    exact ⟨t, ht, (hone t ht).2 ⟨h, hrest⟩⟩

/-- From every task there is a route. -/
theorem exists_route (hw : w.Checked) (hx : x ∈ w.ids) : ∃ rest, w.Route (x :: rest) := by
  obtain ⟨order, -, hr⟩ := hw.topologicalOrder
  -- induction on how many ranks are left above the task
  induction hn : w.size - place order x using Nat.strong_induction_on generalizing x with
  | h n ih =>
    obtain ⟨t, ht⟩ := Workflow.mem_ids.1 hx
    obtain ⟨hm, rfl⟩ := find?_eq_some.1 ht
    cases hc : t.children with
    | nil => exact ⟨[], .exit hm hc⟩
    | cons c cs =>
      have hmem : c ∈ t.children := by simp [hc]
      have hlt := hr.rise t hm c hmem
      have hsize := hr.lt_size c (hw.mem_ids_of_child hm hmem)
      obtain ⟨rest, h⟩ := ih _ (by omega) (hw.mem_ids_of_child hm hmem) rfl
      exact ⟨c :: rest, .step hm hmem h⟩

/-- Every route is the end of a listed path. -/
theorem exists_mem_paths (hw : w.Checked) (h : w.Route (x :: rest)) :
    ∃ before, before ++ x :: rest ∈ w.paths := by
  obtain ⟨rank, hrank⟩ := hw.ranked
  induction hn : rank x using Nat.strong_induction_on generalizing x rest with
  | h n ih =>
    obtain ⟨t, ht⟩ := Workflow.mem_ids.1 (h.mem_ids x List.mem_cons_self)
    obtain ⟨hm, rfl⟩ := find?_eq_some.1 ht
    cases hp : t.parents with
    | nil =>
      have hroot : t ∈ w.roots := List.mem_filter.2 ⟨hm, by simp [hp]⟩
      exact ⟨[], (mem_paths hw).2 ⟨h, t, hroot, rest, rfl⟩⟩
    | cons p ps =>
      obtain ⟨u, hu, hc⟩ := hw.parent t hm p (by simp [hp])
      obtain ⟨hum, rfl⟩ := find?_eq_some.1 hu
      obtain ⟨before, hb⟩ := ih (rank u.id) (hn ▸ hrank u hum t.id hc) (.step hum hc h) rfl
      exact ⟨before ++ [u.id], by simpa using hb⟩

end Workflow

/-! ## Costs of paths -/

section

variable {c : Costs ℚ} {path : List ℤ} {x : ℤ}

/-- What was counted is added to the cost of the rest. -/
theorem pathCostFrom_eq (counted : ℚ) :
    c.pathCostFrom counted path = (c.pathCost path).map (counted + ·) := by
  unfold Costs.pathCost
  induction path generalizing counted with
  | nil => simp [Costs.pathCostFrom, Except.map]
  | cons t path ih =>
    cases path with
    | nil =>
      unfold Costs.pathCostFrom
      cases c.average t <;> simp [Except.map]
    | cons next rest =>
      unfold Costs.pathCostFrom
      cases c.average t with
      | error fault => rfl
      | ok time =>
        cases c.moving t next with
        | error fault => rfl
        | ok move =>
          simp only [ok_bind]
          rw [ih, ih (0 + (time + move))]
          cases c.pathCostFrom 0 (next :: rest) with
          | error fault => rfl
          | ok cost =>
            simp only [Except.map]
            congr 1
            ring

theorem pathCost_singleton {a : ℚ} (ha : c.average x = .ok a) : c.pathCost [x] = .ok a := by
  simp [Costs.pathCost, Costs.pathCostFrom, ha]

/-- A path costs its first task, the way to the next one, and the rest. -/
theorem pathCost_cons_eq_ok {next : ℤ} {rest : List ℤ} {cost : ℚ} :
    c.pathCost (x :: next :: rest) = .ok cost ↔ ∃ a m y, c.average x = .ok a ∧
      c.moving x next = .ok m ∧ c.pathCost (next :: rest) = .ok y ∧ cost = a + m + y := by
  show c.pathCostFrom 0 (x :: next :: rest) = .ok cost ↔ _
  unfold Costs.pathCostFrom
  simp only [bind_eq_ok, pathCostFrom_eq]
  constructor
  · rintro ⟨a, ha, m, hm, h⟩
    cases hy : c.pathCost (next :: rest) with
    | error fault => rw [hy] at h; cases h
    | ok y =>
      rw [hy] at h
      exact ⟨a, m, y, ha, hm, rfl, by rw [← Except.ok.inj h, zero_add]⟩
  · rintro ⟨a, m, y, ha, hm, hy, rfl⟩
    exact ⟨a, ha, m, hm, by rw [hy, zero_add]; rfl⟩

/-- A path that has a cost has one because its tasks have. -/
theorem average_of_pathCost {cost : ℚ} (h : c.pathCost path = .ok cost) :
    ∀ x ∈ path, ∃ a, c.average x = .ok a := by
  induction path generalizing cost with
  | nil => simp
  | cons t path ih =>
    cases path with
    | nil =>
      obtain ⟨a, ha, -⟩ := bind_eq_ok.1 (show (c.average t >>= fun time => .ok (0 + time)) = _ from h)
      simpa using ⟨a, ha⟩
    | cons next rest =>
      obtain ⟨a, m, y, ha, -, hy, -⟩ := pathCost_cons_eq_ok.1 h
      intro x hx
      rcases List.mem_cons.1 hx with rfl | hx
      · exact ⟨a, ha⟩
      · exact ih hy x hx

theorem costlier_eq_some (best : Option (List ℤ × ℚ)) (path : List ℤ) (cost : ℚ) :
    ∃ b, Costs.costlier best path cost = some b ∧ cost ≤ b.2 ∧ (∀ o, best = some o → o.2 ≤ b.2) ∧
      (b = (path, cost) ∨ best = some b) := by
  unfold Costs.costlier
  cases best with
  | none => exact ⟨_, if_pos rfl, le_refl _, by simp, Or.inl rfl⟩
  | some o =>
    dsimp only
    split
    · next hlt => exact ⟨_, rfl, le_refl _, fun o' ho => Option.some.inj ho ▸ hlt.le, Or.inl rfl⟩
    · next hge => exact ⟨_, rfl, not_lt.1 hge, fun o' ho => by rw [Option.some.inj ho], Or.inr rfl⟩

end

section

variable {w : Workflow ℚ} {c : Costs ℚ} {path : List ℤ}

theorem pathCost_ok (h : Rated w c) (hpath : w.Route path) : ∃ cost, c.pathCost path = .ok cost := by
  induction hpath with
  | exit ht _ =>
    obtain ⟨a, ha, -⟩ := h.average _ ht
    exact ⟨a, pathCost_singleton ha⟩
  | step ht hnext _ ih =>
    obtain ⟨a, ha, -⟩ := h.average _ ht
    obtain ⟨m, hm, -⟩ := h.moving _ ht _ hnext
    obtain ⟨y, hy⟩ := ih
    exact ⟨_, pathCost_cons_eq_ok.2 ⟨a, m, y, ha, hm, hy, rfl⟩⟩

/-- The critical path is a listed path of greatest cost, if there is a path. -/
theorem criticalPath_ok (h : Rated w c) : ∃ critical, c.criticalPath w.paths = .ok critical ∧
    (w.paths = [] ∧ critical = [] ∨ critical ∈ w.paths ∧ ∃ cost, c.pathCost critical = .ok cost ∧
      ∀ path ∈ w.paths, ∃ x, c.pathCost path = .ok x ∧ x ≤ cost) := by
  obtain ⟨best, hbest, hscan⟩ := foldlM_ok (f := fun best path => do
      let cost ← c.pathCost path
      .ok (Costs.costlier best path cost)) (l := w.paths) (c := (none : Option (List ℤ × ℚ)))
    (P := fun done best => done = [] ∧ best = none ∨ ∃ b, best = some b ∧ b.1 ∈ w.paths ∧
      c.pathCost b.1 = .ok b.2 ∧ ∀ path ∈ done, ∃ x, c.pathCost path = .ok x ∧ x ≤ b.2)
    (fun done path hpath best hb => by
      obtain ⟨cost, hcost⟩ := pathCost_ok h ((Workflow.mem_paths h.checked).1 hpath).1
      obtain ⟨b, hbeq, hle, hbest, hor⟩ := costlier_eq_some best path cost
      refine ⟨some b, by rw [hcost, ok_bind, hbeq], Or.inr ⟨b, rfl, ?_⟩⟩
      have hdone : ∀ p ∈ done, ∃ x, c.pathCost p = .ok x ∧ x ≤ b.2 := by
        intro p hp
        rcases hb with ⟨rfl, -⟩ | ⟨o, ho, -, -, hall⟩
        · cases hp
        · obtain ⟨x, hx, hxo⟩ := hall p hp
          exact ⟨x, hx, hxo.trans (hbest o ho)⟩
      have hall : ∀ p ∈ done ++ [path], ∃ x, c.pathCost p = .ok x ∧ x ≤ b.2 := by
        intro p hp
        rcases List.mem_append.1 hp with hp | hp
        · exact hdone p hp
        · exact ⟨cost, List.mem_singleton.1 hp ▸ hcost, hle⟩
      rcases hor with rfl | ho
      · exact ⟨hpath, hcost, hall⟩
      · rcases hb with ⟨-, hnone⟩ | ⟨o, ho', hmem, hco, -⟩
        · rw [ho] at hnone
          cases hnone
        · obtain rfl := Option.some.inj (ho.symm.trans ho')
          exact ⟨hmem, hco, hall⟩) (Or.inl ⟨rfl, rfl⟩)
  refine ⟨_, by rw [Costs.criticalPath, hbest, ok_bind], ?_⟩
  rcases hscan with ⟨hnil, rfl⟩ | ⟨b, rfl, hmem, hcost, hall⟩
  · exact Or.inl ⟨hnil, rfl⟩
  · exact Or.inr ⟨hmem, b.2, hcost, hall⟩

/-- Every task has an average time if the paths have been compared. -/
theorem average_of_criticalPath (hw : w.Checked) {critical : List ℤ}
    (h : c.criticalPath w.paths = .ok critical) : ∀ t ∈ w.tasks, ∃ a, c.average t.id = .ok a := by
  intro t ht
  obtain ⟨rest, hroute⟩ := w.exists_route hw (Workflow.mem_ids.2 ⟨t, Workflow.find?_self ht⟩)
  obtain ⟨before, hpath⟩ := Workflow.exists_mem_paths hw hroute
  obtain ⟨best, hbest, -⟩ := bind_eq_ok.1 h
  obtain ⟨_, _, hstep⟩ := exists_of_foldlM hbest _ hpath
  obtain ⟨cost, hcost, -⟩ := bind_eq_ok.1 hstep
  exact average_of_pathCost hcost t.id (by simp)

end

end FlowSched

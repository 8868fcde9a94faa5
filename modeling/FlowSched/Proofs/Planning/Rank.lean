import FlowSched.Proofs.Planning.Frame

/-!
# Upward ranks

The bottom-up list holds every task once, with its children before it, so every rank finds the ranks
it builds on (`Upward`), and ranking fails only over a task without an average time
(`upwardRanks_total`). Computing and moving take no negative time; a task therefore ranks no lower than
its children, and sorting by rank puts parents first (`Upward.child_le`, `sortByKey_first`).
-/

namespace FlowSched

open Quantity

namespace Workflow

/-- A list that grew by tasks whose children it held already. -/
inductive Built (w : Workflow ℚ) : List ℤ → Prop
  | nil : Built w []
  | snoc {done : List ℤ} {t : Task ℚ} : Built w done → t ∈ w.tasks → t.id ∉ done →
      (∀ c ∈ t.children, c ∈ done) → Built w (done ++ [t.id])

variable {w : Workflow ℚ} {rank : ℤ → ℕ}

theorem Built.exists_task {l : List ℤ} (h : w.Built l) {x : ℤ} (hx : x ∈ l) :
    ∃ t ∈ w.tasks, t.id = x := by
  induction h with
  | nil => cases hx
  | @snoc done t _ ht _ _ ih =>
    rcases List.mem_append.1 hx with hx | hx
    · exact ih hx
    · exact ⟨t, ht, (List.mem_singleton.1 hx).symm⟩

/-! ## Children first -/

/-- What a task, or a list of tasks of at least a rank, adds to a list that was built. -/
structure Grown (w : Workflow ℚ) (rank : ℤ → ℕ) (least : ℕ) (done out : List ℤ) : Prop where
  built : w.Built out
  keeps : ∀ x ∈ done, x ∈ out
  new : ∀ x ∈ out, x ∈ done ∨ least ≤ rank x

theorem grown_refl {least : ℕ} {done : List ℤ} (h : w.Built done) : w.Grown rank least done done :=
  ⟨h, fun _ hx => hx, fun _ => Or.inl⟩

/-- A fold over tasks that each add themselves adds all of them. -/
theorem foldl_grown {f : List ℤ → ℤ → List ℤ} {least : ℕ} {ids : List ℤ}
    (hf : ∀ id ∈ ids, ∀ done, w.Built done → w.Grown rank least done (f done id) ∧ id ∈ f done id)
    {done : List ℤ} (h : w.Built done) :
    w.Grown rank least done (ids.foldl f done) ∧ ∀ id ∈ ids, id ∈ ids.foldl f done := by
  induction ids generalizing done with
  | nil => exact ⟨grown_refl h, by simp⟩
  | cons id ids ih =>
    obtain ⟨hfirst, hid⟩ := hf id List.mem_cons_self done h
    obtain ⟨hrest, hids⟩ := ih (fun x hx => hf x (List.mem_cons_of_mem _ hx)) hfirst.built
    refine ⟨⟨hrest.built, fun x hx => hrest.keeps x (hfirst.keeps x hx), fun x hx => ?_⟩, ?_⟩
    · rcases hrest.new x hx with hx | hx
      · exact hfirst.new x hx
      · exact Or.inr hx
    · intro x hx
      rcases List.mem_cons.1 hx with rfl | hx
      · exact hrest.keeps x hid
      · exact hids x hx

/-- A task is added behind what its rank needs; everything new ranks at least as high. -/
theorem childrenFirst_grown (hw : w.Checked) (hr : w.Ranking rank) (fuel : ℕ) {id : ℤ}
    (hid : id ∈ w.ids) (hfuel : w.size ≤ rank id + fuel) {done : List ℤ} (h : w.Built done) :
    w.Grown rank (rank id) done (w.childrenFirst fuel done id) ∧
      id ∈ w.childrenFirst fuel done id := by
  induction fuel generalizing id done with
  | zero =>
    have := hr.lt_size id hid
    omega
  | succ fuel ih =>
    unfold childrenFirst
    by_cases hmem : id ∈ done
    · rw [if_pos (List.contains_iff_mem.2 hmem)]
      exact ⟨grown_refl h, hmem⟩
    · rw [if_neg (by simpa using hmem)]
      obtain ⟨t, ht⟩ := mem_ids.1 hid
      obtain ⟨htm, rfl⟩ := find?_eq_some.1 ht
      simp only [ht, Option.map_some, Option.getD_some]
      -- the children rank higher, so they bring in neither the task nor anything below it
      have hchild : ∀ c ∈ t.children, ∀ done, w.Built done →
          w.Grown rank (rank t.id + 1) done (w.childrenFirst fuel done c) ∧
            c ∈ w.childrenFirst fuel done c := by
        intro c hc done h
        have hlt := hr.rise t htm c hc
        obtain ⟨hg, hm⟩ := ih (hw.mem_ids_of_child htm hc) (by omega) h
        exact ⟨⟨hg.built, hg.keeps, fun x hx => (hg.new x hx).imp_right fun h => by omega⟩, hm⟩
      obtain ⟨hgrown, hchildren⟩ := foldl_grown hchild h
      refine ⟨⟨?_, ?_, ?_⟩, by simp⟩
      · refine hgrown.built.snoc htm (fun hin => ?_) hchildren
        rcases hgrown.new t.id hin with hin | hle
        · exact hmem hin
        · omega
      · exact fun x hx => List.mem_append_left _ (hgrown.keeps x hx)
      · intro x hx
        rcases List.mem_append.1 hx with hx | hx
        · exact (hgrown.new x hx).imp_right fun h => by omega
        · rw [List.mem_singleton.1 hx]
          exact Or.inr (le_refl _)

/-- The bottom-up list holds every task, with its children before it. -/
theorem bottomUp_built (hw : w.Checked) (hr : w.Ranking rank) :
    w.Built w.bottomUp ∧ ∀ id ∈ w.ids, id ∈ w.bottomUp := by
  have hone : ∀ id ∈ w.ids, ∀ done, w.Built done →
      w.Grown rank 0 done (w.childrenFirst w.size done id) ∧ id ∈ w.childrenFirst w.size done id := by
    intro id hid done h
    obtain ⟨hg, hm⟩ := childrenFirst_grown hw hr w.size hid (by omega) h
    exact ⟨⟨hg.built, hg.keeps, fun x _ => Or.inr (Nat.zero_le _)⟩, hm⟩
  obtain ⟨hgrown, hids⟩ := foldl_grown hone .nil
  exact ⟨hgrown.built, hids⟩

end Workflow

/-! ## Ranks -/

/-- A task ranks by its average time and the costliest way on. -/
structure Upward (c : Costs ℚ) (ranks : Table ℚ) (t : Task ℚ) (r : ℚ) : Prop where
  rank : ranks.get? t.id = some r
  nonneg : 0 ≤ r
  onward : ∃ a, c.average t.id = .ok a ∧
    (∀ x ∈ t.children, ∃ m rx, c.moving t.id x = .ok m ∧ ranks.get? x = some rx ∧ a + m + rx ≤ r) ∧
    (t.children = [] ∧ r = a ∨
      ∃ x ∈ t.children, ∃ m rx, c.moving t.id x = .ok m ∧ ranks.get? x = some rx ∧ r = a + m + rx)

theorem Upward.congr {c : Costs ℚ} {ranks ranks' : Table ℚ} {t : Task ℚ} {r : ℚ}
    (h : Upward c ranks t r) (hself : ranks'.get? t.id = ranks.get? t.id)
    (hchild : ∀ x ∈ t.children, ranks'.get? x = ranks.get? x) : Upward c ranks' t r := by
  obtain ⟨a, ha, hall, hor⟩ := h.onward
  refine ⟨hself.trans h.rank, h.nonneg, a, ha, fun x hx => ?_, hor.imp_right fun ⟨x, hx, m, rx, hm⟩ => ?_⟩
  · rw [hchild x hx]
    exact hall x hx
  · exact ⟨x, hx, m, rx, hm.1, (hchild x hx).trans hm.2.1, hm.2.2⟩

/-- The tasks of a list are ranked upward, with all their children in it. -/
def RankedUp (w : Workflow ℚ) (c : Costs ℚ) (done : List ℤ) (ranks : Table ℚ) : Prop :=
  ∀ t ∈ w.tasks, t.id ∈ done → (∀ x ∈ t.children, x ∈ done) ∧ ∃ r, Upward c ranks t r

section

variable {w : Workflow ℚ} {c : Costs ℚ} {done : List ℤ} {ranks ranks' : Table ℚ} {t : Task ℚ} {r : ℚ}
  (h : RankedUp w c done ranks)

include h

theorem RankedUp.known (hbuilt : w.Built done) : ∀ x ∈ done, ∃ r, ranks.get? x = some r ∧ 0 ≤ r := by
  intro x hx
  obtain ⟨u, hu, rfl⟩ := hbuilt.exists_task hx
  obtain ⟨-, r, hr⟩ := h u hu hx
  exact ⟨r, hr.rank, hr.nonneg⟩

/-- One more task whose children are ranked is ranked without a change to the others. -/
theorem RankedUp.concat (ht : t ∈ w.tasks) (hnew : t.id ∉ done) (hchildren : ∀ x ∈ t.children, x ∈ done)
    (hr : Upward c ranks' t r) (hstay : ∀ x, x ≠ t.id → ranks'.get? x = ranks.get? x) :
    RankedUp w c (done ++ [t.id]) ranks' := by
  have hsame : ∀ x ∈ done, ranks'.get? x = ranks.get? x := fun x hx => hstay x fun e => hnew (e ▸ hx)
  intro u hu hmem
  rcases List.mem_append.1 hmem with hmem | hmem
  · obtain ⟨hc, ru, hru⟩ := h u hu hmem
    exact ⟨fun x hx => List.mem_append_left _ (hc x hx), ru,
      hru.congr (hsame _ hmem) fun x hx => hsame x (hc x hx)⟩
  · obtain rfl := List.inj_on_of_nodup_map w.nodup hu ht (List.mem_singleton.1 hmem)
    exact ⟨fun x hx => List.mem_append_left _ (hchildren x hx), r, hr⟩

end

/-- No task ranks below its children. -/
theorem Upward.child_le {w : Workflow ℚ} {c : Costs ℚ} (h : Rated w c) {ranks : Table ℚ} {t : Task ℚ}
    {r : ℚ} (hu : Upward c ranks t r) (ht : t ∈ w.tasks) :
    ∀ x ∈ t.children, ∃ rx, ranks.get? x = some rx ∧ rx ≤ r := by
  obtain ⟨a, ha, hall, -⟩ := hu.onward
  obtain ⟨a', ha', hnn⟩ := h.average t ht
  obtain rfl := Except.ok.inj (ha.symm.trans ha')
  intro x hx
  obtain ⟨m, rx, hm, hrx, hle⟩ := hall x hx
  obtain ⟨m', hm', hmn⟩ := h.moving t ht x hx
  obtain rfl := Except.ok.inj (hm.symm.trans hm')
  exact ⟨rx, hrx, by linarith⟩

/-- Every edge has a time, and no task or edge has a negative one. -/
structure Timed (w : Workflow ℚ) (c : Costs ℚ) : Prop where
  moving : ∀ t ∈ w.tasks, ∀ x ∈ t.children, ∃ time, c.moving t.id x = .ok time ∧ 0 ≤ time
  average : ∀ t ∈ w.tasks, ∀ time, c.average t.id = .ok time → 0 ≤ time

theorem Rated.timed {w : Workflow ℚ} {c : Costs ℚ} (h : Rated w c) : Timed w c := by
  refine ⟨h.moving, fun t ht time htime => ?_⟩
  obtain ⟨time', htime', hpos⟩ := h.average t ht
  exact Except.ok.inj (htime'.symm.trans htime) ▸ hpos

theorem timed_of_costs {w : Workflow ℚ} {vms : List (Vm ℚ)} {c : Costs ℚ} (hw : w.Checked)
    (hc : Costs.ofWorkflow w vms = .ok c) : Timed w c :=
  ⟨fun _ ht _ hx => moving_eq_ok hc ht hx, fun t ht _ h => average_nonneg hc ht (hw.length t ht) h⟩

section

variable {w : Workflow ℚ} {c : Costs ℚ} (h : Timed w c)

include h

/-- The costliest way on is that to some child, or nothing for an exit. -/
theorem onward_ok {ranks : Table ℚ} {t : Task ℚ} (ht : t ∈ w.tasks)
    (hranks : ∀ x ∈ t.children, ∃ r, ranks.get? x = some r ∧ 0 ≤ r) :
    ∃ longest, onward c ranks t.id t.children = .ok longest ∧
      (∀ x ∈ t.children, ∃ m r, c.moving t.id x = .ok m ∧ ranks.get? x = some r ∧ m + r ≤ longest) ∧
      (t.children = [] ∧ longest = 0 ∨
        ∃ x ∈ t.children, ∃ m r, c.moving t.id x = .ok m ∧ ranks.get? x = some r ∧ longest = m + r) := by
  refine foldlM_ok (P := fun done longest =>
    (∀ x ∈ done, ∃ m r, c.moving t.id x = .ok m ∧ ranks.get? x = some r ∧ m + r ≤ longest) ∧
      (done = [] ∧ longest = 0 ∨
        ∃ x ∈ done, ∃ m r, c.moving t.id x = .ok m ∧ ranks.get? x = some r ∧ longest = m + r))
    (fun done x hx longest hdone => ?_) ⟨by simp, Or.inl ⟨rfl, rfl⟩⟩
  obtain ⟨hall, hor⟩ := hdone
  obtain ⟨r, hr, hrn⟩ := hranks x hx
  obtain ⟨m, hm, hmn⟩ := h.moving t ht x hx
  refine ⟨later longest (m + r), by simp only [hm, ok_bind, hr], fun y hy => ?_, Or.inr ?_⟩
  · rcases List.mem_append.1 hy with hy | hy
    · obtain ⟨my, ry, hmy, hry, hle⟩ := hall y hy
      exact ⟨my, ry, hmy, hry, hle.trans (le_later_left _ _)⟩
    · rw [List.mem_singleton.1 hy]
      exact ⟨m, r, hm, hr, le_later_right _ _⟩
  · rw [later_eq_max]
    rcases le_or_gt longest (m + r) with hle | hlt
    · exact ⟨x, by simp, m, r, hm, hr, max_eq_right hle⟩
    · -- the first child beats nothing, so some child was on before
      rcases hor with ⟨-, rfl⟩ | ⟨y, hy, my, ry, hmy, hry, rfl⟩
      · linarith
      · exact ⟨y, List.mem_append_left _ hy, my, ry, hmy, hry, max_eq_left hlt.le⟩

/-- A task whose children are ranked is ranked upward, and no other rank changes. -/
theorem rankTask_ok {ranks : Table ℚ} {t : Task ℚ} (ht : t ∈ w.tasks) (hself : t.id ∉ t.children)
    {average : ℚ} (haverage : c.average t.id = .ok average)
    (hranks : ∀ x ∈ t.children, ∃ r, ranks.get? x = some r ∧ 0 ≤ r) :
    ∃ ranks' r, rankTask w c ranks t.id = .ok ranks' ∧ Upward c ranks' t r ∧
      ∀ x, x ≠ t.id → ranks'.get? x = ranks.get? x := by
  obtain ⟨longest, hlongest, hall, hor⟩ := onward_ok h ht hranks
  have hpos := h.average t ht average haverage
  have hnonneg : 0 ≤ longest := by
    rcases hor with ⟨-, rfl⟩ | ⟨x, hx, m, r, hm, hr, rfl⟩
    · exact le_refl 0
    · obtain ⟨r', hr', hrn⟩ := hranks x hx
      obtain rfl := Option.some.inj (hr.symm.trans hr')
      obtain ⟨m', hm', hmn⟩ := h.moving t ht x hx
      obtain rfl := Except.ok.inj (hm.symm.trans hm')
      exact add_nonneg hmn hrn
  have hstay : ∀ x, x ≠ t.id → (ranks.set t.id (average + longest)).get? x = ranks.get? x :=
    fun x hx => by rw [Table.get?_set, if_neg hx.symm]
  have hchild : ∀ x ∈ t.children, (ranks.set t.id (average + longest)).get? x = ranks.get? x :=
    fun x hx => hstay x fun e => hself (e ▸ hx)
  refine ⟨_, average + longest, ?_, ⟨by rw [Table.get?_set, if_pos rfl], add_nonneg hpos hnonneg,
    average, haverage, fun x hx => ?_, ?_⟩, hstay⟩
  · rw [rankTask, Workflow.get_eq_ok.2 (Workflow.find?_self ht), ok_bind, hlongest, ok_bind, haverage]
    rfl
  · obtain ⟨m, r, hm, hr, hle⟩ := hall x hx
    exact ⟨m, r, hm, (hchild x hx).trans hr, by linarith⟩
  · refine hor.imp (fun ⟨he, hz⟩ => ⟨he, by rw [hz, add_zero]⟩) fun ⟨x, hx, m, r, hm, hr, he⟩ => ?_
    exact ⟨x, hx, m, r, hm, (hchild x hx).trans hr, by rw [he, add_assoc]⟩

/-- A task without an average time is not ranked. -/
theorem rankTask_error {ranks : Table ℚ} {t : Task ℚ} (ht : t ∈ w.tasks) {fault : Fault ℚ}
    (haverage : c.average t.id = .error fault)
    (hranks : ∀ x ∈ t.children, ∃ r, ranks.get? x = some r ∧ 0 ≤ r) :
    rankTask w c ranks t.id = .error fault := by
  obtain ⟨longest, hlongest, -⟩ := onward_ok h ht hranks
  rw [rankTask, Workflow.get_eq_ok.2 (Workflow.find?_self ht), ok_bind, hlongest, ok_bind, haverage]
  rfl

/-- Tasks that were built up are ranked upward, or one of them has no average time. -/
theorem foldlM_rankTask {l : List ℤ} (hl : w.Built l) :
    (∃ ranks, l.foldlM (rankTask w c) {} = .ok ranks ∧ RankedUp w c l ranks) ∨
    ∃ t ∈ w.tasks, ∃ fault, c.average t.id = .error fault ∧
      l.foldlM (rankTask w c) {} = .error fault := by
  induction hl with
  | nil => exact Or.inl ⟨{}, rfl, by simp [RankedUp]⟩
  | @snoc done t hdone ht hnew hchildren ih =>
    rw [List.foldlM_append]
    rcases ih with ⟨ranks, hok, hranks⟩ | ⟨u, hu, fault, haverage, hfail⟩
    · have hready : ∀ x ∈ t.children, ∃ r, ranks.get? x = some r ∧ 0 ≤ r := fun x hx =>
        hranks.known hdone x (hchildren x hx)
      rw [hok, ok_bind, List.foldlM_cons]
      cases haverage : c.average t.id with
      | error fault =>
        refine Or.inr ⟨t, ht, fault, haverage, ?_⟩
        rw [rankTask_error h ht haverage hready]
        rfl
      | ok average =>
        obtain ⟨ranks', r, hok', hr, hstay⟩ :=
          rankTask_ok h ht (fun hself => hnew (hchildren _ hself)) haverage hready
        exact Or.inl ⟨ranks', by rw [hok']; rfl, hranks.concat ht hnew hchildren hr hstay⟩
    · rw [hfail]
      exact Or.inr ⟨u, hu, fault, haverage, rfl⟩

/-- Every task is ranked upward, unless one has no average time. -/
theorem upwardRanks_total (hw : w.Checked) :
    (∃ ranks, upwardRanks w c = .ok ranks ∧ ∀ t ∈ w.tasks, ∃ r, Upward c ranks t r) ∨
    ∃ t ∈ w.tasks, ∃ fault, c.average t.id = .error fault ∧ upwardRanks w c = .error fault := by
  obtain ⟨order, -, hr⟩ := hw.topologicalOrder
  obtain ⟨hbuilt, hall⟩ := Workflow.bottomUp_built hw hr
  refine (foldlM_rankTask h hbuilt).imp_left fun ⟨ranks, hok, hranks⟩ => ⟨ranks, hok, fun t ht => ?_⟩
  exact (hranks t ht (hall t.id (Workflow.mem_ids.2 ⟨t, Workflow.find?_self ht⟩))).2

end

/-- Every task is ranked upward where each has an average time. -/
theorem upwardRanks_ok {w : Workflow ℚ} {c : Costs ℚ} (h : Rated w c) :
    ∃ ranks, upwardRanks w c = .ok ranks ∧ ∀ t ∈ w.tasks, ∃ r, Upward c ranks t r := by
  refine (upwardRanks_total h.timed h.checked).resolve_right ?_
  rintro ⟨t, ht, fault, hfail, -⟩
  obtain ⟨time, htime, -⟩ := h.average t ht
  rw [htime] at hfail
  cases hfail

/-- Every task has an average time if all have been ranked. -/
theorem average_of_upwardRanks {w : Workflow ℚ} {c : Costs ℚ} (hw : w.Checked) {ranks : Table ℚ}
    (h : upwardRanks w c = .ok ranks) : ∀ t ∈ w.tasks, ∃ a, c.average t.id = .ok a := by
  obtain ⟨order, -, hr⟩ := hw.topologicalOrder
  intro t ht
  have hm := (Workflow.bottomUp_built hw hr).2 t.id (Workflow.mem_ids.2 ⟨t, Workflow.find?_self ht⟩)
  obtain ⟨_, _, hstep⟩ := exists_of_foldlM h t.id hm
  obtain ⟨u, -, hstep⟩ := bind_eq_ok.1 hstep
  obtain ⟨longest, -, hstep⟩ := bind_eq_ok.1 hstep
  obtain ⟨a, ha, -⟩ := bind_eq_ok.1 hstep
  exact ⟨a, ha⟩

/-! ## Sorting -/

section

variable {key : ℤ → ℚ} {place : ℤ → ℕ} {ids : List ℤ}

theorem sortByKey_perm {α : Type} [Quantity α] {key : ℤ → α} {place : ℤ → ℕ} {ids : List ℤ} :
    (sortByKey key place ids).Perm ids := List.mergeSort_perm _ _

/-- How ids are compared by a key and by their places. -/
theorem sortByKey_le {a b : ℤ} :
    (if key a == key b then decide (place a ≤ place b) else !decide (key b < key a)) = true ↔
      key a < key b ∨ key a = key b ∧ place a ≤ place b := by
  by_cases he : key a = key b
  · simp [he]
  · rw [if_neg (by simpa using he)]
    simp only [he, false_and, or_false, Bool.not_eq_true', decide_eq_false_iff_not, not_lt]
    exact ⟨fun h => lt_of_le_of_ne h he, le_of_lt⟩

/-- Keys ascend, and of equal ones the places do. -/
theorem sortByKey_sorted : (sortByKey key place ids).Pairwise fun a b =>
    key a < key b ∨ key a = key b ∧ place a ≤ place b := by
  refine (List.pairwise_mergeSort (fun a b c hab hbc => ?_) (fun a b => ?_) ids).imp sortByKey_le.1
  · rw [sortByKey_le] at hab hbc ⊢
    rcases hab with hab | ⟨hab, hpab⟩
    · rcases hbc with hbc | ⟨hbc, -⟩
      · exact Or.inl (hab.trans hbc)
      · exact Or.inl (hbc ▸ hab)
    · rcases hbc with hbc | ⟨hbc, hpbc⟩
      · exact Or.inl (hab ▸ hbc)
      · exact Or.inr ⟨hab.trans hbc, hpab.trans hpbc⟩
  · rw [Bool.or_eq_true, sortByKey_le, sortByKey_le]
    rcases lt_trichotomy (key a) (key b) with h | h | h
    · exact Or.inl (Or.inl h)
    · exact (le_total (place a) (place b)).imp (fun hle => Or.inr ⟨h, hle⟩)
        fun hle => Or.inr ⟨h.symm, hle⟩
    · exact Or.inr (Or.inl h)

/-- A smaller key, or an equal one at an earlier place, comes first. -/
theorem sortByKey_first {done rest : List ℤ} {x p : ℤ}
    (hs : sortByKey key place ids = done ++ x :: rest)
    (hp : p ∈ ids) (hlt : key p < key x ∨ key p = key x ∧ place p < place x) : p ∈ done := by
  have hmem : p ∈ done ++ x :: rest := hs ▸ sortByKey_perm.mem_iff.2 hp
  have hsorted : (done ++ x :: rest).Pairwise _ := hs ▸ sortByKey_sorted
  have hbehind := List.pairwise_cons.1 (List.pairwise_append.1 hsorted).2.1
  rcases List.mem_append.1 hmem with hmem | hmem
  · exact hmem
  · rcases List.mem_cons.1 hmem with rfl | hmem
    · rcases hlt with hlt | ⟨-, hlt⟩
      · exact absurd hlt (lt_irrefl _)
      · exact absurd hlt (lt_irrefl _)
    · rcases hbehind.1 p hmem with hgt | ⟨he, hle⟩
      · rcases hlt with hlt | ⟨he, -⟩
        · exact absurd hlt hgt.not_gt
        · exact absurd he hgt.ne'
      · rcases hlt with hlt | ⟨-, hlt⟩
        · exact absurd hlt he.le.not_gt
        · omega

/-- Sorting by a key that is no greater for a task than for its children puts parents first. -/
theorem Workflow.topological_sortByKey {w : Workflow ℚ} (hw : w.Checked) (hr : w.Ranking place)
    (hkey : ∀ u ∈ w.tasks, ∀ c ∈ u.children, key u.id ≤ key c) :
    w.Topological (sortByKey key place w.ids) := by
  refine ⟨sortByKey_perm, fun t ht ahead behind hs x hx => ?_⟩
  obtain ⟨u, hu, hc⟩ := hw.parent t ht x hx
  obtain ⟨hum, rfl⟩ := Workflow.find?_eq_some.1 hu
  refine sortByKey_first hs (hw.mem_ids_of_parent ht hx) ?_
  rcases (hkey u hum t.id hc).lt_or_eq with hlt | heq
  · exact Or.inl hlt
  · exact Or.inr ⟨heq, hr.rise u hum t.id hc⟩

end

/-- Descending rank puts parents first. -/
theorem Rated.topological_of_ranks {w : Workflow ℚ} {c : Costs ℚ} (h : Rated w c) {place : ℤ → ℕ}
    (hr : w.Ranking place) {ranks : Table ℚ} (hranks : upwardRanks w c = .ok ranks) :
    w.Topological (sortByKey (fun id => -((ranks.get? id).getD 0)) place w.ids) := by
  obtain ⟨ranks', hranks', hup⟩ := upwardRanks_ok h
  obtain rfl := Except.ok.inj (hranks.symm.trans hranks')
  refine Workflow.topological_sortByKey h.checked hr fun u hu x hx => ?_
  obtain ⟨r, hr⟩ := hup u hu
  obtain ⟨rx, hrx, hle⟩ := hr.child_le h hu x hx
  simpa [hr.rank, hrx] using hle

end FlowSched

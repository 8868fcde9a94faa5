import Mathlib.Logic.Relation
import FlowSched.Proofs.Planning.Frame
import FlowSched.Proofs.Woven

/-!
# Ancestors

Where the parents of every estimated task are estimated, so are all its ancestors, and a task whose parents
are estimated has none that is pending (`Sane`). So no task of a group that is ready is an ancestor of
another. To estimate a ready task keeps ancestors first, whether or not numbers are rounded.
-/

namespace FlowSched

open Quantity Step

variable {α : Type} [Quantity α]

/-! ## Ancestors -/

namespace Workflow

variable {w w' : Workflow α} {rank : ℤ → ℕ} {x y : ℤ}

/-- The parent list of a task, empty where there is no task. -/
def parentsOf (w : Workflow α) (x : ℤ) : List ℤ := ((w.find? x).map Task.parents).getD []

/-- The first task is a parent of the second, or a parent of an ancestor of it. -/
def Ancestor (w : Workflow α) : ℤ → ℤ → Prop := Relation.TransGen fun p x => p ∈ w.parentsOf x

/-- The task of an id counts as estimated. -/
def Marked (w : Workflow α) (x : ℤ) : Prop := ∃ t, w.find? x = some t ∧ t.isEstimated = true

theorem parentsOf_eq {t : Task α} (ht : w.find? x = some t) : w.parentsOf x = t.parents := by
  rw [parentsOf, ht]
  rfl

theorem exists_of_mem_parentsOf (h : y ∈ w.parentsOf x) :
    ∃ t, w.find? x = some t ∧ y ∈ t.parents := by
  cases ht : w.find? x with
  | none =>
    rw [parentsOf, ht] at h
    cases h
  | some t => exact ⟨t, rfl, parentsOf_eq ht ▸ h⟩

theorem parentsOf_of_kin (h : w.Kin w') (x : ℤ) : w'.parentsOf x = w.parentsOf x := by
  unfold parentsOf
  have hparents : ∀ t : Task α, t.parents = (t.reset false).parents := fun _ => rfl
  have hkin := congrArg (Option.map Task.parents) (find?_of_kin h x)
  rw [Option.map_map, Option.map_map] at hkin
  exact congrArg (fun o => Option.getD o []) hkin

/-- Edits that leave the flags alone estimate nothing. -/
theorem marked_modify {f : Task α → Task α} (hf : ∀ t, (f t).isEstimated = t.isEstimated) :
    (w.modify x f).Marked y ↔ w.Marked y := by
  have hflag : ∀ t : Task α, (t.edit x f).isEstimated = t.isEstimated := fun t => by
    unfold Task.edit
    split
    · exact hf t
    · rfl
  simp only [Marked, find?_modify, Option.map_eq_some_iff]
  constructor
  · rintro ⟨_, ⟨t, ht, rfl⟩, he⟩
    exact ⟨t, ht, by rwa [hflag] at he⟩
  · rintro ⟨t, ht, he⟩
    exact ⟨_, ⟨t, ht, rfl⟩, by rwa [hflag]⟩

theorem Distinct.nodup_parentsOf (hd : w.Distinct) (x : ℤ) : (w.parentsOf x).Nodup := by
  cases ht : w.find? x with
  | none =>
    rw [parentsOf, ht]
    exact .nil
  | some t =>
    rw [parentsOf_eq ht]
    exact hd.parents t (find?_eq_some.1 ht).1

section

variable (hw : w.Woven rank)

include hw

theorem Woven.mem_ids_of_parentsOf (h : y ∈ w.parentsOf x) : y ∈ w.ids := by
  obtain ⟨t, ht, hy⟩ := exists_of_mem_parentsOf h
  exact hw.mem_ids_of_parent (find?_eq_some.1 ht).1 hy

theorem Woven.rank_parentsOf (h : y ∈ w.parentsOf x) : rank y < rank x := by
  obtain ⟨t, ht, hy⟩ := exists_of_mem_parentsOf h
  obtain ⟨hm, rfl⟩ := find?_eq_some.1 ht
  exact hw.rank_parent hm hy

/-- Ancestors rank below. -/
theorem Woven.rank_ancestor (h : w.Ancestor y x) : rank y < rank x := by
  induction h with
  | single hp => exact hw.rank_parentsOf hp
  | tail _ hp ih => exact ih.trans (hw.rank_parentsOf hp)

end

end Workflow

/-! ## Estimated tasks -/

namespace Sketch

variable {o : Outlook α} {w : Workflow α} {rank : ℤ → ℕ} {s s' : Sketch α} {x y : ℤ}

/-- All parents of a task are estimated. -/
def Ripe (w : Workflow α) (s : Sketch α) (x : ℤ) : Prop := ∀ y ∈ w.parentsOf x, s.workflow.Marked y

/-- What is arranged: at least two tasks beside the critical path, all of them ready and not estimated, and
none an ancestor of another. -/
structure Group (o : Outlook α) (w : Workflow α) (s : Sketch α) (group : List ℤ) : Prop where
  two : 2 ≤ group.length
  nodup : group.Nodup
  known : ∀ x ∈ group, x ∈ w.ids
  pending : ∀ x ∈ group, ¬ s.workflow.Marked x
  ripe : ∀ x ∈ group, Ripe w s x
  apart : ∀ x ∈ group, ∀ y ∈ group, ¬ w.Ancestor x y
  branch : ∀ x ∈ group, x ∉ o.critical

/-- A sketch of a workflow in which the parents of every estimated task are estimated. -/
structure Sane (w : Workflow α) (s : Sketch α) : Prop where
  kin : w.Kin s.workflow
  ripe : ∀ x, s.workflow.Marked x → Ripe w s x

/-- All ancestors of an estimated task are estimated. -/
theorem Sane.ancestor (h : Sane w s) (ha : w.Ancestor y x) (hx : s.workflow.Marked x) :
    s.workflow.Marked y := by
  induction ha with
  | single hp => exact h.ripe _ hx y hp
  | tail _ hp ih => exact ih (h.ripe _ hx _ hp)

/-- No ready task has an ancestor that is not estimated. -/
theorem Sane.not_ancestor (h : Sane w s) (hx : ¬ s.workflow.Marked x) (hy : Ripe w s y) :
    ¬ w.Ancestor x y := by
  intro ha
  cases ha with
  | single hp => exact hx (hy x hp)
  | tail ha hp => exact hx (h.ancestor ha (hy _ hp))

theorem Ripe.mono (h : Ripe w s x) (hg : ∀ x, s.workflow.Marked x → s'.workflow.Marked x) :
    Ripe w s' x := fun y hy => hg y (h y hy)

/-! ### Writing estimates -/

theorem marked_write (span : Span α) : (s.write x span).workflow.Marked y ↔ s.workflow.Marked y :=
  Workflow.marked_modify fun _ => rfl

/-- Beside the tasks that were estimated before, only the one that is confirmed is. -/
theorem marked_confirm (span : Span α) (hx : x ∈ s.workflow.ids) :
    (s.confirm x span).workflow.Marked y ↔ s.workflow.Marked y ∨ y = x := by
  have hids : x ∈ (s.write x span).workflow.ids := by
    rwa [Workflow.ids_of_kin (kept_write s x span).kin.workflow]
  have hsame : (s.write x span).workflow.Marked y ↔ s.workflow.Marked y := marked_write span
  rw [← hsame]
  by_cases hy : y = x
  · subst hy
    obtain ⟨t, ht⟩ := Workflow.mem_ids.1 hids
    have hself : (s.confirm y span).workflow.find? y = _ := Workflow.find?_modify_self ht
    exact ⟨fun _ => Or.inr rfl, fun _ => ⟨_, hself, rfl⟩⟩
  · have hother : (s.confirm x span).workflow.find? y = (s.write x span).workflow.find? y :=
      Workflow.find?_modify_of_ne hy
    rw [or_iff_left hy, Workflow.Marked, hother]
    rfl

theorem Sane.write (h : Sane w s) (span : Span α) : Sane w (s.write x span) where
  kin := h.kin.trans (kept_write s x span).kin.workflow
  ripe _ hy := (h.ripe _ ((marked_write span).1 hy)).mono fun _ => (marked_write span).2

/-- Estimating a ready task keeps ancestors first. -/
theorem Sane.confirm (h : Sane w s) (span : Span α) (hx : x ∈ w.ids) (hr : Ripe w s x) :
    Sane w (s.confirm x span) := by
  have hmark : ∀ y, (s.confirm x span).workflow.Marked y ↔ s.workflow.Marked y ∨ y = x := fun y =>
    marked_confirm span (Workflow.ids_of_kin h.kin ▸ hx)
  refine ⟨h.kin.trans (kept_confirm s x span).kin.workflow, fun y hy => ?_⟩
  have hbefore : Ripe w s y := ((hmark y).1 hy).elim (h.ripe y) fun he => he ▸ hr
  exact hbefore.mono fun z hz => (hmark z).2 (Or.inl hz)

/-! ### Looking tasks up -/

section

variable (h : Sane w s)

include h

theorem Sane.isEstimated_ok (hx : x ∈ w.ids) :
    ∃ b, isEstimated s x = .ok b ∧ (b = true ↔ s.workflow.Marked x) := by
  obtain ⟨t, ht⟩ := Workflow.mem_ids.1 (Workflow.ids_of_kin h.kin ▸ hx : x ∈ s.workflow.ids)
  refine ⟨t.isEstimated, by rw [isEstimated, task, Workflow.get_eq_ok.2 ht, ok_bind], ?_⟩
  refine ⟨fun he => ⟨t, ht, he⟩, fun ⟨u, hu, he⟩ => ?_⟩
  rwa [Option.some.inj (hu.symm.trans ht)] at he

omit h in
/-- Of tasks that were looked up, those are pending that are not estimated. -/
theorem mem_pendingOf_iff {ts : List (Task α)} (hts : ∀ u ∈ ts, s.workflow.find? u.id = some u) :
    x ∈ pendingOf ts ↔ x ∈ ts.map Task.id ∧ ¬ s.workflow.Marked x := by
  have hmark : ∀ u ∈ ts, s.workflow.Marked u.id ↔ u.isEstimated = true := fun u hu => by
    simp only [Workflow.Marked, hts u hu, Option.some.injEq, exists_eq_left']
  simp only [pendingOf, List.mem_map, List.mem_filter, Bool.not_eq_true']
  constructor
  · rintro ⟨u, ⟨hu, he⟩, rfl⟩
    exact ⟨⟨u, hu, rfl⟩, by simp [hmark u hu, he]⟩
  · rintro ⟨⟨u, hu, rfl⟩, hn⟩
    exact ⟨u, ⟨hu, by simpa [hmark u hu] using hn⟩, rfl⟩

omit h in
theorem pendingOf_nodup {ts : List (Task α)} (hn : (ts.map Task.id).Nodup) : (pendingOf ts).Nodup :=
  hn.sublist (List.filter_sublist.map _)

/-- What is still pending of a group. -/
theorem Sane.stillPending_ok {group : List ℤ} (hn : group.Nodup) (hg : ∀ x ∈ group, x ∈ w.ids) :
    ∃ rest, stillPending s group = .ok rest ∧ rest.Nodup ∧
      ∀ x ∈ rest, x ∈ group ∧ ¬ s.workflow.Marked x := by
  obtain ⟨ts, hts, hmap⟩ := Workflow.getAll_eq_ok (w := s.workflow) fun y hy =>
    Workflow.mem_ids.1 (Workflow.ids_of_kin h.kin ▸ hg y hy)
  refine ⟨pendingOf ts, by rw [stillPending, hts, ok_bind], pendingOf_nodup (hmap ▸ hn), fun y hy => ?_⟩
  rw [mem_pendingOf_iff fun u hu => Workflow.find?_of_getAll hts hu, hmap] at hy
  exact hy

section

variable (hw : w.Woven rank)

include hw

/-- The parents of a task are looked up together. -/
theorem Sane.parents_ok (hx : x ∈ w.ids) : ∃ ps, s.parents x = .ok ps ∧
    ps.map Task.id = w.parentsOf x ∧ ∀ u ∈ ps, s.workflow.find? u.id = some u := by
  obtain ⟨t, ht⟩ := Workflow.mem_ids.1 (Workflow.ids_of_kin h.kin ▸ hx : x ∈ s.workflow.ids)
  have hparents : t.parents = w.parentsOf x := by
    rw [← Workflow.parentsOf_of_kin h.kin, Workflow.parentsOf_eq ht]
  have hknown : ∀ y ∈ t.parents, ∃ u, s.workflow.find? y = some u := fun y hy =>
    Workflow.mem_ids.1 (Workflow.ids_of_kin h.kin ▸ hw.mem_ids_of_parentsOf (hparents ▸ hy))
  obtain ⟨ps, hps, hmap⟩ := Workflow.getAll_eq_ok hknown
  refine ⟨ps, ?_, hmap.trans hparents, fun u hu => Workflow.find?_of_getAll hps hu⟩
  rw [parents, task, Workflow.get_eq_ok.2 ht, ok_bind, hps]

/-- A group counts as ready only if it has two tasks at least, and each of them is ready. -/
theorem Sane.isReadyGroup_ok {group : List ℤ} (hg : ∀ x ∈ group, x ∈ w.ids) :
    ∃ b, isReadyGroup s group = .ok b ∧ (b = true → 2 ≤ group.length ∧ ∀ x ∈ group, Ripe w s x) := by
  obtain ⟨pss, hpss⟩ := exists_mapM_ok (f := s.parents) (l := group) fun x hx =>
    (h.parents_ok hw (hg x hx)).imp fun _ => And.left
  unfold isReadyGroup
  split
  · exact ⟨false, rfl, fun h => by cases h⟩
  · next hlen =>
    rw [hpss, ok_bind]
    refine ⟨_, rfl, fun hall => ⟨by omega, fun x hx y hy => ?_⟩⟩
    obtain ⟨ps, hps, hmap, hfind⟩ := h.parents_ok hw (hg x hx)
    obtain ⟨ps', hmem, hps'⟩ := mem_mapM_of_mem hpss x hx
    obtain rfl := Except.ok.inj (hps.symm.trans hps')
    rw [← hmap] at hy
    obtain ⟨u, hu, rfl⟩ := List.mem_map.1 hy
    exact ⟨u, hfind u hu, List.all_eq_true.1 hall u (List.mem_flatten.2 ⟨ps, hmem, hu⟩)⟩

variable (hd : w.Distinct)

include hd

/-- The siblings of a task lie beside the critical path. -/
theorem Sane.siblings_ok {t : Task α} (ht : t ∈ s.workflow.tasks) : ∃ sibs, siblings o s t = .ok sibs ∧
    sibs.Nodup ∧ ∀ x ∈ sibs, x ∈ w.ids ∧ x ∉ o.critical := by
  unfold siblings
  split
  · next child hchild =>
    obtain ⟨t₀, ht₀, hk⟩ := Workflow.mem_of_kin h.kin ht
    have hid : child ∈ w.ids := hw.mem_ids_of_child ht₀ (by rw [← hk.children, hchild]; simp)
    obtain ⟨ps, hps, hmap, hfind⟩ := h.parents_ok hw hid
    rw [hps, ok_bind]
    refine ⟨_, rfl, (pendingOf_nodup (hmap ▸ hd.nodup_parentsOf child)).filter _, fun y hy => ?_⟩
    obtain ⟨hy, hcritical⟩ := List.mem_filter.1 hy
    have hparent := ((mem_pendingOf_iff hfind).1 hy).1
    exact ⟨hw.mem_ids_of_parentsOf (hmap ▸ hparent), by simpa using hcritical⟩
  · exact ⟨[], rfl, .nil, by simp⟩

end

end

/-- Ready tasks that are not estimated are a group if they lie beside the critical path. -/
theorem Sane.group (h : Sane w s) {group : List ℤ} (htwo : 2 ≤ group.length) (hn : group.Nodup)
    (hripe : ∀ x ∈ group, Ripe w s x)
    (hg : ∀ x ∈ group, x ∈ w.ids ∧ ¬ s.workflow.Marked x ∧ x ∉ o.critical) : Group o w s group where
  two := htwo
  nodup := hn
  known x hx := (hg x hx).1
  pending x hx := (hg x hx).2.1
  ripe := hripe
  apart x hx y hy := h.not_ancestor (hg x hx).2.1 (hripe y hy)
  branch x hx := (hg x hx).2.2

end Sketch

end FlowSched

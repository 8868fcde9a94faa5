import Mathlib.Data.Finset.Card
import Mathlib.Data.Finset.Max
import Mathlib.Logic.Relation
import FlowSched.Proofs.Checked
import FlowSched.Proofs.Table

/-!
# Workflows built call by call

A workflow that starts empty and is changed by adding tasks and edges stays `Wired`, also where a
call raises halfway: the two ends of every edge list each other, lists name known other tasks once,
and only parents have transfer times, none of them negative. What is left to go wrong is a negative
length, a task without elements, or a cycle of edges, and these are what the check refuses. An
accepted workflow has a path through each of its tasks from a root to an exit.
-/

namespace FlowSched

open Quantity

variable {α : Type} [Quantity α]

/-- A call that adds to a workflow. -/
inductive Edit (α : Type) [Quantity α] where
  | task (t : Task α)
  | edge (parent child : ℤ) (cost : Option α)

namespace Edit

/-- The step of a call. -/
def call : Edit α → Step (Fault α) (Workflow α) Unit
  | task t => Step.atomic fun w => w.addTask t
  | edge parent child cost => Workflow.addEdge parent child cost

/-- What a call leaves behind, whether it returns or raises. -/
def apply (w : Workflow α) (e : Edit α) : Workflow α :=
  match e.call w with
  | .ok _ w' => w'
  | .error _ w' => w'

/-- A task comes without edges, and a transfer time is a number. -/
def Fresh : Edit α → Prop
  | task t => t.parents = [] ∧ t.children = [] ∧ t.transfers.entries = []
  | edge _ _ cost => ∀ c, cost = some c → c < 0 ∨ 0 ≤ c

end Edit

namespace Workflow

/-- The workflow that calls build from nothing. -/
def build (edits : List (Edit α)) : Workflow α := edits.foldl Edit.apply ⟨[], List.nodup_nil⟩

/-! ## Both ends of an edge -/

/-- Edges stand at both of their ends, once, between different known tasks, and transfer times belong
to edges. -/
structure Wired (w : Workflow α) : Prop where
  mirror : ∀ t ∈ w.tasks, ∀ u ∈ w.tasks, (u.id ∈ t.children ↔ t.id ∈ u.parents)
  known : ∀ t ∈ w.tasks, ∀ x ∈ t.parents ++ t.children, x ∈ w.ids ∧ x ≠ t.id
  once : ∀ t ∈ w.tasks, t.parents.Nodup ∧ t.children.Nodup
  transfers : ∀ t ∈ w.tasks, ∀ p x, (p, x) ∈ t.transfers.entries → p ∈ t.parents ∧ 0 ≤ x ∧ ¬ x < 0

theorem mem_addOnce {x y : ℤ} {xs : List ℤ} : y ∈ addOnce x xs ↔ y ∈ xs ∨ y = x := by
  unfold addOnce
  split_ifs with h
  · have hx : x ∈ xs := by simpa using h
    exact ⟨Or.inl, fun hy => hy.elim id fun e => e ▸ hx⟩
  · simp

theorem nodup_addOnce {x : ℤ} {xs : List ℤ} (h : xs.Nodup) : (addOnce x xs).Nodup := by
  unfold addOnce
  split_ifs with hx
  · exact h
  · exact List.nodup_append.2 ⟨h, List.nodup_singleton x, fun y hy z hz e => hx (by
      rw [← List.mem_singleton.1 hz, ← e]
      simpa using hy)⟩

/-- What a new edge changes on a task. -/
structure Linked (parent child : ℤ) (t u : Task α) : Prop where
  id : u.id = t.id
  transfers : u.transfers = t.transfers
  mem_parents : ∀ x, x ∈ u.parents ↔ x ∈ t.parents ∨ t.id = child ∧ x = parent
  mem_children : ∀ x, x ∈ u.children ↔ x ∈ t.children ∨ t.id = parent ∧ x = child
  nodup_parents : t.parents.Nodup → u.parents.Nodup
  nodup_children : t.children.Nodup → u.children.Nodup

variable {w : Workflow α} {parent child : ℤ}

theorem exists_of_mem_link (hne : parent ≠ child) {u : Task α} (hu : u ∈ (w.link parent child).tasks) :
    ∃ t ∈ w.tasks, Linked parent child t u := by
  obtain ⟨t', ht', rfl⟩ := List.mem_map.1 hu
  obtain ⟨t, ht, rfl⟩ := List.mem_map.1 ht'
  refine ⟨t, ht, ?_⟩
  unfold Task.edit
  rcases eq_or_ne t.id parent with hp | hp
  · have hc : t.id ≠ child := hp ▸ hne
    rw [if_pos hp, if_neg hc]
    exact ⟨rfl, rfl, by simp [hc], by simp [mem_addOnce, hp], id, nodup_addOnce⟩
  · rw [if_neg hp]
    rcases eq_or_ne t.id child with hc | hc
    · rw [if_pos hc]
      exact ⟨rfl, rfl, by simp [mem_addOnce, hc], by simp [hp], nodup_addOnce, id⟩
    · rw [if_neg hc]
      exact ⟨rfl, rfl, by simp [hc], by simp [hp], id, id⟩

@[simp] theorem ids_link : (w.link parent child).ids = w.ids := by simp [link]

theorem Wired.link (h : w.Wired) (hp : parent ∈ w.ids) (hc : child ∈ w.ids) (hne : parent ≠ child) :
    (w.link parent child).Wired := by
  refine ⟨fun t' ht' u' hu' => ?_, fun t' ht' x hx => ?_, fun t' ht' => ?_, fun t' ht' p x hpx => ?_⟩
  all_goals obtain ⟨t, ht, hl⟩ := exists_of_mem_link hne ht'
  · obtain ⟨u, hu, hl'⟩ := exists_of_mem_link hne hu'
    rw [hl.mem_children, hl'.mem_parents, hl.id, hl'.id, h.mirror t ht u hu, and_comm (a := t.id = _)]
  · rw [List.mem_append, hl.mem_parents, hl.mem_children] at hx
    rw [ids_link, hl.id]
    rcases hx with (hx | ⟨he, rfl⟩) | (hx | ⟨he, rfl⟩)
    · exact h.known t ht x (List.mem_append_left _ hx)
    · exact ⟨hp, he ▸ hne⟩
    · exact h.known t ht x (List.mem_append_right _ hx)
    · exact ⟨hc, he ▸ hne.symm⟩
  · exact (h.once t ht).imp hl.nodup_parents hl.nodup_children
  · rw [hl.transfers] at hpx
    exact (h.transfers t ht p x hpx).imp_left fun hm => (hl.mem_parents p).2 (Or.inl hm)

theorem Wired.setTransfer (h : w.Wired) {cost : α} (hpos : 0 ≤ cost ∧ ¬ cost < 0)
    (hp : ∀ t ∈ w.tasks, t.id = child → parent ∈ t.parents) :
    (w.setTransfer parent child cost).Wired := by
  -- nothing but the transfer times of the child changes
  have hof : ∀ u ∈ (w.setTransfer parent child cost).tasks, ∃ t ∈ w.tasks, u.id = t.id ∧
      u.parents = t.parents ∧ u.children = t.children ∧ (u.transfers = t.transfers ∨
        t.id = child ∧ u.transfers = t.transfers.set parent cost) := by
    intro u hu
    obtain ⟨t, ht, rfl⟩ := List.mem_map.1 hu
    refine ⟨t, ht, Task.id_edit _ _ t, ?_⟩
    unfold Task.edit
    split
    · next he => exact ⟨rfl, rfl, Or.inr ⟨he, rfl⟩⟩
    · exact ⟨rfl, rfl, Or.inl rfl⟩
  refine ⟨fun t' ht' u' hu' => ?_, fun t' ht' x hx => ?_, fun t' ht' => ?_, fun t' ht' p x hpx => ?_⟩
  all_goals obtain ⟨t, ht, hid, hpar, hchi, htr⟩ := hof _ ht'
  · obtain ⟨u, hu, hid', hpar', -, -⟩ := hof u' hu'
    rw [hid, hid', hchi, hpar']
    exact h.mirror t ht u hu
  · rw [hpar, hchi] at hx
    rw [hid, Workflow.setTransfer, ids_modify]
    exact h.known t ht x hx
  · rw [hpar, hchi]
    exact h.once t ht
  · rw [hpar]
    rcases htr with htr | ⟨he, htr⟩
    · rw [htr] at hpx
      exact h.transfers t ht p x hpx
    · rw [htr] at hpx
      rcases Table.mem_of_mem_enter hpx with he' | hmem
      · obtain ⟨rfl, rfl⟩ := Prod.mk.inj he'
        exact ⟨hp t ht he, hpos⟩
      · exact h.transfers t ht p x hmem

/-- An edge leaves a wired workflow, also if the call raises after the edge was written. -/
theorem Wired.edge (h : w.Wired) {cost : Option α} (hcost : ∀ c, cost = some c → c < 0 ∨ 0 ≤ c) :
    (Edit.apply w (.edge parent child cost)).Wired := by
  unfold Edit.apply Edit.call
  dsimp only
  unfold addEdge
  split_ifs with hends hself
  · exact h
  · exact h
  · have hknown : parent ∈ w.ids ∧ child ∈ w.ids := by
      simp only [Bool.not_eq_true', Bool.not_eq_false, Bool.and_eq_true] at hends
      rwa [contains_iff, contains_iff] at hends
    have hlink := h.link hknown.1 hknown.2 hself
    cases cost with
    | none => exact hlink
    | some c =>
      by_cases hneg : c < 0
      · simpa only [if_pos hneg] using hlink
      · simp only [if_neg hneg]
        apply hlink.setTransfer ⟨(hcost c rfl).resolve_left hneg, hneg⟩
        intro u hu he
        obtain ⟨t, -, hl⟩ := exists_of_mem_link hself hu
        exact (hl.mem_parents parent).2 (Or.inr ⟨hl.id ▸ he, rfl⟩)

/-- A task leaves a wired workflow, be its id new or not. -/
theorem Wired.task (h : w.Wired) {t : Task α} (ht : (Edit.task t).Fresh) :
    (Edit.apply w (.task t)).Wired := by
  obtain ⟨hpar, hchi, htr⟩ := ht
  by_cases hid : t.id ∈ w.tasks.map Task.id
  · have hsame : Edit.apply w (.task t) = w := by
      simp [Edit.apply, Edit.call, Step.atomic, addTask, hid]
    rwa [hsame]
  · have htasks : (Edit.apply w (.task t)).tasks = w.tasks ++ [t] := by
      simp [Edit.apply, Edit.call, Step.atomic, addTask, hid]
    -- no list names the new task, as lists name known tasks, and it names none
    have hnew : ∀ u ∈ w.tasks, t.id ∉ u.parents ∧ t.id ∉ u.children := by
      intro u hu
      rw [← not_or, ← List.mem_append]
      exact fun hm => hid (h.known u hu _ hm).1
    constructor
    all_goals simp only [htasks, ids, List.forall_mem_append, List.forall_mem_singleton, hpar, hchi,
      htr, List.not_mem_nil]
    · refine ⟨fun a ha => ⟨h.mirror a ha, ?_⟩, fun b hb => ?_, trivial⟩
      · exact iff_of_false (hnew a ha).2 id
      · exact iff_of_false id (hnew b hb).1
    · simp only [List.map_append, List.mem_append]
      refine ⟨fun a ha => ?_, by simp⟩
      have hknown := List.forall_mem_append.1 (h.known a ha)
      exact ⟨fun x hx => (hknown.1 x hx).imp_left Or.inl, fun x hx => (hknown.2 x hx).imp_left Or.inl⟩
    · exact ⟨h.once, .nil, .nil⟩
    · exact ⟨h.transfers, by simp⟩

theorem Wired.apply (h : w.Wired) {e : Edit α} (he : e.Fresh) : (Edit.apply w e).Wired := by
  cases e with
  | task t => exact h.task he
  | edge parent child cost => exact h.edge he

theorem Wired.foldl {edits : List (Edit α)} (h : w.Wired) (he : ∀ e ∈ edits, e.Fresh) :
    (edits.foldl Edit.apply w).Wired := by
  induction edits generalizing w with
  | nil => exact h
  | cons e edits ih =>
    exact ih (h.apply (he e List.mem_cons_self)) fun x hx => he x (List.mem_cons_of_mem _ hx)

/-- Tasks with new ids are added at the end, one after the other. -/
theorem foldlM_addTask {tasks : List (Task α)} (hn : (w.ids ++ tasks.map Task.id).Nodup) :
    ∃ w', tasks.foldlM addTask w = .ok w' ∧ w'.tasks = w.tasks ++ tasks := by
  induction tasks generalizing w with
  | nil => exact ⟨w, rfl, (List.append_nil _).symm⟩
  | cons t tasks ih =>
    have hnew : t.id ∉ w.tasks.map Task.id := fun hm =>
      List.disjoint_of_nodup_append hn hm List.mem_cons_self
    obtain ⟨w', hadd, htasks⟩ : ∃ w', w.addTask t = .ok w' ∧ w'.tasks = w.tasks ++ [t] :=
      ⟨_, dif_neg hnew, rfl⟩
    obtain ⟨w'', hrest, htasks'⟩ := @ih w' (by simpa [ids, htasks] using hn)
    refine ⟨w'', ?_, by rw [htasks', htasks, List.append_assoc, List.singleton_append]⟩
    rw [List.foldlM_cons, hadd, ok_bind, hrest]

theorem ofTasks_ok {tasks : List (Task α)} (hn : (tasks.map Task.id).Nodup) :
    ∃ w, ofTasks tasks = .ok w ∧ w.tasks = tasks :=
  foldlM_addTask (w := ⟨[], List.nodup_nil⟩) hn

theorem wired_nil : (⟨[], List.nodup_nil⟩ : Workflow α).Wired := by
  constructor <;> simp

/-- Wired workflows fail the check for a length, a task without elements, or for want of a ranking. -/
theorem Wired.check_iff (h : w.Wired) : w.check = .ok () ↔
    (∀ t ∈ w.tasks, ¬ t.length < 0 ∧ 1 ≤ t.elements) ∧
      ∃ rank : ℤ → ℕ, ∀ t ∈ w.tasks, ∀ c ∈ t.children, rank t.id < rank c := by
  rw [Workflow.check_iff]
  refine and_congr_left fun _ => forall₂_congr fun t ht => ?_
  have htransfers : ∀ x ∈ t.transfers.values, ¬ x < 0 := by
    intro x hx
    obtain ⟨⟨p, y⟩, he, rfl⟩ := List.mem_map.1 hx
    exact (h.transfers t ht p y he).2.2
  have hchild : ∀ c ∈ t.children, ∃ u, w.find? c = some u ∧ t.id ∈ u.parents := by
    intro c hc
    obtain ⟨u, hu⟩ := mem_ids.1 (h.known t ht c (List.mem_append_right _ hc)).1
    obtain ⟨hmem, rfl⟩ := find?_eq_some.1 hu
    exact ⟨u, hu, (h.mirror t ht u hmem).1 hc⟩
  have hparent : ∀ p ∈ t.parents, ∃ u, w.find? p = some u ∧ t.id ∈ u.children := by
    intro p hp
    obtain ⟨u, hu⟩ := mem_ids.1 (h.known t ht p (List.mem_append_left _ hp)).1
    obtain ⟨hmem, rfl⟩ := find?_eq_some.1 hu
    exact ⟨u, hu, (h.mirror u hmem t ht).2 hp⟩
  rw [checkTask_eq_ok]
  exact ⟨fun hc => ⟨hc.1, hc.2.1⟩, fun hc => ⟨hc.1, hc.2, htransfers, hchild, hparent⟩⟩

/-! ## Cycles -/

/-- An edge leads from one id to another. -/
def ParentOf (w : Workflow α) (p c : ℤ) : Prop := ∃ t ∈ w.tasks, t.id = p ∧ c ∈ t.children

open Classical in
/-- Ids can be ranked along the edges exactly if no edges lead back to where they start. -/
theorem exists_rank_iff : (∃ rank : ℤ → ℕ, ∀ t ∈ w.tasks, ∀ c ∈ t.children, rank t.id < rank c) ↔
    ∀ x, ¬ Relation.TransGen w.ParentOf x x := by
  constructor
  · rintro ⟨rank, hrank⟩ x hx
    have hlt : ∀ y, Relation.TransGen w.ParentOf x y → rank x < rank y := by
      intro y hy
      induction hy with
      | single h =>
        obtain ⟨t, ht, rfl, hc⟩ := h
        exact hrank t ht _ hc
      | tail _ h ih =>
        obtain ⟨t, ht, rfl, hc⟩ := h
        exact ih.trans (hrank t ht _ hc)
    exact lt_irrefl _ (hlt x hx)
  · intro hacyclic
    -- the number of ancestors is a rank: a child has those of its parent, and the parent too
    refine ⟨fun x => (w.ids.toFinset.filter (Relation.TransGen w.ParentOf · x)).card,
      fun t ht c hc => Finset.card_lt_card ?_⟩
    have hedge : w.ParentOf t.id c := ⟨t, ht, rfl, hc⟩
    refine Finset.ssubset_iff_of_subset (fun x hx => ?_) |>.2 ⟨t.id, ?_, ?_⟩
    · rw [Finset.mem_filter] at hx ⊢
      exact ⟨hx.1, hx.2.tail hedge⟩
    · exact Finset.mem_filter.2 ⟨List.mem_toFinset.2 (List.mem_map_of_mem ht), .single hedge⟩
    · exact fun hx => hacyclic t.id (Finset.mem_filter.1 hx).2

/-! ## Paths through a task -/

section

variable {rank : ℤ → ℕ} (h : w.Wired) (hrank : ∀ t ∈ w.tasks, ∀ c ∈ t.children, rank t.id < rank c)
  {t : Task α} (ht : t ∈ w.tasks)

include h hrank ht

open Classical in
/-- Of the tasks that lead to a task, one of lowest rank is a root. -/
theorem exists_root : ∃ r ∈ w.roots, Relation.ReflTransGen w.ParentOf r.id t.id := by
  obtain ⟨x, hx, hmin⟩ := (w.ids.toFinset.filter
    (Relation.ReflTransGen w.ParentOf · t.id)).exists_min_image rank
      ⟨t.id, by simpa using ⟨List.mem_map_of_mem ht, .refl⟩⟩
  obtain ⟨hxids, hto⟩ := Finset.mem_filter.1 hx
  obtain ⟨r, hr, rfl⟩ := List.mem_map.1 (List.mem_toFinset.1 hxids)
  refine ⟨r, List.mem_filter.2 ⟨hr, ?_⟩, hto⟩
  rw [List.isEmpty_iff, List.eq_nil_iff_forall_not_mem]
  intro p hp
  have hpids := (h.known r hr p (List.mem_append_left _ hp)).1
  obtain ⟨u, hu, rfl⟩ := List.mem_map.1 hpids
  have hc := (h.mirror u hu r hr).2 hp
  have hle := hmin u.id (Finset.mem_filter.2 ⟨List.mem_toFinset.2 hpids, hto.head ⟨u, hu, rfl, hc⟩⟩)
  exact absurd (hrank u hu r.id hc) hle.not_gt

open Classical in
/-- Of the tasks that a task leads to, one of highest rank is an exit. -/
theorem exists_exit : ∃ e ∈ w.exits, Relation.ReflTransGen w.ParentOf t.id e.id := by
  obtain ⟨x, hx, hmax⟩ := (w.ids.toFinset.filter
    (Relation.ReflTransGen w.ParentOf t.id ·)).exists_max_image rank
      ⟨t.id, by simpa using ⟨List.mem_map_of_mem ht, .refl⟩⟩
  obtain ⟨hxids, hto⟩ := Finset.mem_filter.1 hx
  obtain ⟨e, he, rfl⟩ := List.mem_map.1 (List.mem_toFinset.1 hxids)
  refine ⟨e, List.mem_filter.2 ⟨he, ?_⟩, hto⟩
  rw [List.isEmpty_iff, List.eq_nil_iff_forall_not_mem]
  intro c hc
  have hcids := (h.known e he c (List.mem_append_right _ hc)).1
  have hle := hmax c (Finset.mem_filter.2 ⟨List.mem_toFinset.2 hcids, hto.tail ⟨e, he, rfl, hc⟩⟩)
  exact absurd (hrank e he c hc) hle.not_gt

end

/-- Workflows built from fresh tasks are wired; their check fails exactly for a negative length, a task
without elements or a cycle; and if it passes, every task lies between a root and an exit. -/
theorem build_wired {edits : List (Edit α)} (hfresh : ∀ e ∈ edits, e.Fresh) :
    (build edits).Wired ∧
    ((∃ fault, (build edits).check = .error fault) ↔
      (∃ t ∈ (build edits).tasks, t.length < 0) ∨ (∃ t ∈ (build edits).tasks, t.elements < 1) ∨
        ∃ x, Relation.TransGen (build edits).ParentOf x x) ∧
    ((build edits).check = .ok () → ∀ t ∈ (build edits).tasks,
      ∃ r ∈ (build edits).roots, ∃ e ∈ (build edits).exits,
        Relation.ReflTransGen (build edits).ParentOf r.id t.id ∧
          Relation.ReflTransGen (build edits).ParentOf t.id e.id) := by
  have h : (build edits).Wired := wired_nil.foldl hfresh
  refine ⟨h, ?_, fun hok t ht => ?_⟩
  · have hfail : (∃ fault, (build edits).check = .error fault) ↔ ¬ (build edits).check = .ok () := by
      cases (build edits).check <;> simp
    rw [hfail, h.check_iff, exists_rank_iff]
    simp only [not_and_or, not_forall, exists_prop, not_not, not_le]
    constructor
    · rintro (⟨t, ht, hlen | hel⟩ | hcycle)
      · exact Or.inl ⟨t, ht, hlen⟩
      · exact Or.inr (Or.inl ⟨t, ht, hel⟩)
      · exact Or.inr (Or.inr hcycle)
    · rintro (⟨t, ht, hlen⟩ | ⟨t, ht, hel⟩ | hcycle)
      · exact Or.inl ⟨t, ht, Or.inl hlen⟩
      · exact Or.inl ⟨t, ht, Or.inr hel⟩
      · exact Or.inr hcycle
  · obtain ⟨-, rank, hrank⟩ := h.check_iff.1 hok
    obtain ⟨r, hr, hfrom⟩ := exists_root h hrank ht
    obtain ⟨e, he, hto⟩ := exists_exit h hrank ht
    exact ⟨r, hr, e, he, hfrom, hto⟩

/-- Three tasks and their edges, with a task added twice, a loop, an edge to nowhere, and an edge whose
negative time is refused after the edge was written. -/
def mishaps : List (Edit ℚ) :=
  [.task { id := 1, length := 7 }, .task { id := 2, length := 0 }, .task { id := 3, length := 2 },
    .task { id := 2, length := -5 }, .edge 1 2 (some 4), .edge 2 2 none, .edge 1 9 none,
    .edge 2 3 (some (-1)), .edge 1 2 none]

theorem build_wired_mishaps : (∀ e ∈ mishaps, e.Fresh) ∧ (build mishaps).check = .ok () ∧
    (build mishaps).Wired ∧ ¬ (∃ x, Relation.TransGen (build mishaps).ParentOf x x) ∧
    ∀ t ∈ (build mishaps).tasks, ∃ r ∈ (build mishaps).roots, ∃ e ∈ (build mishaps).exits,
      Relation.ReflTransGen (build mishaps).ParentOf r.id t.id ∧
        Relation.ReflTransGen (build mishaps).ParentOf t.id e.id := by
  have hfresh : ∀ e ∈ mishaps, e.Fresh := by
    simp [mishaps, Edit.Fresh]
  have hok : (build mishaps).check = .ok () := rfl
  obtain ⟨hwired, hfail, hroutes⟩ := build_wired hfresh
  refine ⟨hfresh, hok, hwired, fun hcycle => ?_, hroutes hok⟩
  obtain ⟨fault, he⟩ := hfail.2 (Or.inr (Or.inr hcycle))
  rw [hok] at he
  cases he

end Workflow

end FlowSched

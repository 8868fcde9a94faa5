import Mathlib.Data.Finset.Dedup
import Mathlib.Data.Finset.Card
import Mathlib.Order.Bounds.Basic
import FlowSched.Session

/-!
# The planned order

A batch is sorted by the last places of its tasks in the plan, and a task that was never planned takes the
place behind as many tasks as were planned at all. Planned tasks so stand in the order of their last
places, and all others as they came (`orderByPlan_lines`). The others stand behind the planned ones as long
as the plan names no task twice; a plan that does has last places beyond the number of its tasks.
-/

namespace FlowSched.Session

variable {s : Session} {ids batch : List ℤ} {x y : ℤ} {i j : ℕ}

/-! ## Places -/

/-- The last place at which an id stands in a list. -/
def LastAt (ids : List ℤ) (x : ℤ) (i : ℕ) : Prop := IsGreatest {j | ids[j]? = some x} i

/-- An id that ends a list stands last there, and every other one where it stood without it. -/
theorem lastAt_concat : LastAt (ids ++ [y]) x i ↔ if y = x then i = ids.length else LastAt ids x i := by
  have hplace : ∀ j, (ids ++ [y])[j]? = some x ↔ ids[j]? = some x ∨ j = ids.length ∧ y = x := by
    intro j
    rcases lt_trichotomy j ids.length with hlt | rfl | hgt
    · simp [List.getElem?_append_left hlt, hlt.ne]
    · simp
    · simp [List.getElem?_eq_none hgt.le, List.getElem?_append_right hgt.le, Nat.sub_ne_zero_of_lt hgt,
        hgt.ne']
  unfold LastAt
  simp only [hplace]
  split
  · next he =>
    simp only [he, and_true]
    have hlast : IsGreatest {j | ids[j]? = some x ∨ j = ids.length} ids.length :=
      ⟨Or.inr rfl, fun j hj => hj.elim (fun h => (List.getElem?_eq_some_iff.1 h).1.le) Eq.le⟩
    exact ⟨fun h => h.unique hlast, fun h => h ▸ hlast⟩
  · next hne => simp only [hne, and_false, or_false]

/-- The place of a task is its last one in the plan, and a task without one was not planned. -/
theorem place?_eq_some : s.place? x = some i ↔ LastAt s.planned x i := by
  unfold place?
  rw [List.findRev?_eq_find?_reverse]
  induction s.planned using List.reverseRecOn with
  | nil => simp [LastAt, IsGreatest]
  | append_singleton ids y ih =>
    rw [lastAt_concat, ← ih, List.zipIdx_append, List.reverse_append]
    by_cases h : y = x
    · simp [h, eq_comm]
    · simp [h]

theorem place?_eq_none : s.place? x = none ↔ x ∉ s.planned := by
  unfold place?
  rw [Option.map_eq_none_iff, List.findRev?_eq_find?_reverse, List.find?_eq_none]
  constructor
  · intro h hx
    obtain ⟨i, hi⟩ := List.getElem?_of_mem hx
    exact h (x, i) (List.mem_reverse.2 (List.mk_mem_zipIdx_iff_getElem?.2 hi)) (by simp)
  · rintro h ⟨y, i⟩ hm he
    have hy := List.mem_of_getElem? (List.mk_mem_zipIdx_iff_getElem?.1 (List.mem_reverse.1 hm))
    exact h (of_decide_eq_true he ▸ hy)

theorem exists_lastAt (hx : x ∈ s.planned) : ∃ i, LastAt s.planned x i := by
  cases h : s.place? x with
  | none => exact absurd hx (place?_eq_none.1 h)
  | some i => exact ⟨i, place?_eq_some.1 h⟩

theorem length_eraseDups (ids : List ℤ) : ids.eraseDups.length = ids.toFinset.card := by
  induction h : ids.length using Nat.strong_induction_on generalizing ids with
  | _ n ih =>
    cases ids with
    | nil => rfl
    | cons x ids =>
      have hle : (ids.filter fun b => !b == x).length < n := by
        rw [← h, List.length_cons]
        exact Nat.lt_succ_of_le (List.length_filter_le _ _)
      have hset : (x :: ids).toFinset = insert x (ids.filter fun b => !b == x).toFinset := by
        ext y
        by_cases hy : y = x <;> simp [hy]
      rw [List.eraseDups_cons, List.length_cons, ih _ hle _ rfl, hset,
        Finset.card_insert_of_notMem (by simp)]

theorem rank_of_lastAt (h : LastAt s.planned x i) : s.rank x = i := by
  rw [rank, place?_eq_some.2 h]
  rfl

theorem rank_of_not_mem (h : x ∉ s.planned) : s.rank x = s.planned.toFinset.card := by
  rw [rank, place?_eq_none.2 h, ← length_eraseDups]
  rfl

/-! ## Standing before one another -/

/-- Of two elements of a list one stands before the other. -/
theorem pair_sublist_or {l : List ℤ} (hx : x ∈ l) (hy : y ∈ l) (hne : x ≠ y) :
    [x, y].Sublist l ∨ [y, x].Sublist l := by
  obtain ⟨ahead, behind, rfl⟩ := List.append_of_mem hx
  rcases List.mem_append.1 hy with hy | hy
  · exact Or.inr ((List.singleton_sublist.2 hy).append (List.singleton_sublist.2 List.mem_cons_self))
  · have hy := (List.mem_cons.1 hy).resolve_left hne.symm
    exact Or.inl (((List.singleton_sublist.2 hy).cons_cons x).trans (List.sublist_append_right _ _))

/-- In a list without repetitions no two elements stand before each other. -/
theorem not_pair_sublist {l : List ℤ} (hn : l.Nodup) (h : [x, y].Sublist l) : ¬ [y, x].Sublist l := by
  induction l with
  | nil => cases h
  | cons z l ih =>
    obtain ⟨hz, hn⟩ := List.nodup_cons.1 hn
    intro h'
    cases h with
    | cons _ h =>
      cases h' with
      | cons _ h' => exact ih hn h h'
      | cons_cons _ h' => exact hz (h.subset (by simp))
    | cons_cons _ h =>
      cases h' with
      | cons _ h' => exact hz (h'.subset (by simp))
      | cons_cons _ h' => exact hz (h.subset (by simp))

/-- A list in which no element that has a property stands behind one that has not falls into the two
kinds. -/
theorem eq_filter_append {l : List ℤ} {p : ℤ → Bool} (h : l.Pairwise fun a b => p b = true → p a = true) :
    l = l.filter p ++ l.filter fun x => !p x := by
  induction l with
  | nil => rfl
  | cons a l ih =>
    obtain ⟨ha, hl⟩ := List.pairwise_cons.1 h
    by_cases hp : p a = true
    · rw [List.filter_cons_of_pos hp, List.filter_cons_of_neg (by simp [hp]), List.cons_append, ← ih hl]
    · have hnone : ∀ b ∈ l, ¬ p b = true := fun b hb hpb => hp (ha b hb hpb)
      rw [List.filter_cons_of_neg hp, List.filter_cons_of_pos (by simp [hp]),
        List.filter_eq_nil_iff.2 hnone, List.filter_eq_self.2 (by simpa using hnone)]
      rfl

/-! ## The order of a batch -/

/-- Without a plan all tasks rank alike, so a batch is sorted by rank in any case. -/
theorem orderByPlan_eq_mergeSort (s : Session) (batch : List ℤ) :
    s.orderByPlan batch = batch.mergeSort fun a b => decide (s.rank a ≤ s.rank b) := by
  unfold orderByPlan
  split
  · next he =>
    have hrank : ∀ x, s.rank x = 0 := fun x => by
      rw [rank_of_not_mem (by simp [List.isEmpty_iff.1 he]), List.isEmpty_iff.1 he]
      rfl
    exact (List.mergeSort_of_pairwise (List.pairwise_of_forall fun a b => by simp [hrank])).symm
  · rfl

theorem orderByPlan_perm (s : Session) (batch : List ℤ) : (s.orderByPlan batch).Perm batch := by
  rw [orderByPlan_eq_mergeSort]
  exact List.mergeSort_perm _ _

/-- Ranks ascend. -/
theorem pairwise_orderByPlan (s : Session) (batch : List ℤ) :
    (s.orderByPlan batch).Pairwise fun a b => s.rank a ≤ s.rank b := by
  rw [orderByPlan_eq_mergeSort]
  refine (List.pairwise_mergeSort (fun a b c hab hbc => ?_) (fun a b => ?_) batch).imp
    of_decide_eq_true
  · simp only [decide_eq_true_eq] at *
    omega
  · simp only [Bool.or_eq_true, decide_eq_true_eq]
    omega

/-- Tasks whose ranks do not descend stand in planned order as they came. -/
theorem sublist_orderByPlan {l : List ℤ} (hl : l.Pairwise fun a b => s.rank a ≤ s.rank b)
    (hsub : l.Sublist batch) : l.Sublist (s.orderByPlan batch) := by
  rw [orderByPlan_eq_mergeSort]
  refine List.sublist_mergeSort (fun a b c hab hbc => ?_) (fun a b => ?_)
    (hl.imp fun h => decide_eq_true h) hsub
  · simp only [decide_eq_true_eq] at *
    omega
  · simp only [Bool.or_eq_true, decide_eq_true_eq]
    omega

/-- Of two tasks of a batch the one of lower rank comes first, and of equal ranks the one that came
first. -/
theorem pair_sublist_orderByPlan (hn : batch.Nodup) (hx : x ∈ batch) (hy : y ∈ batch) (hne : x ≠ y) :
    [x, y].Sublist (s.orderByPlan batch) ↔
      s.rank x < s.rank y ∨ s.rank x = s.rank y ∧ [x, y].Sublist batch := by
  have hperm := orderByPlan_perm s batch
  have hsorted : ∀ {a b}, [a, b].Sublist (s.orderByPlan batch) → s.rank a ≤ s.rank b :=
    (pairwise_orderByPlan s batch).forall_sublist
  have hstable : ∀ {a b}, s.rank a ≤ s.rank b → [a, b].Sublist batch →
      [a, b].Sublist (s.orderByPlan batch) := fun h => sublist_orderByPlan (List.pairwise_pair.2 h)
  constructor
  · intro h
    refine (hsorted h).lt_or_eq.imp_right fun he => ⟨he, ?_⟩
    refine (pair_sublist_or hx hy hne).resolve_right fun hyx => ?_
    exact not_pair_sublist (hperm.nodup_iff.2 hn) h (hstable he.ge hyx)
  · rintro (hlt | ⟨he, hxy⟩)
    · refine (pair_sublist_or (hperm.mem_iff.2 hx) (hperm.mem_iff.2 hy) hne).resolve_right fun hyx => ?_
      exact (hsorted hyx).not_gt hlt
    · exact hstable he.le hxy

/-- In a plan that names no task twice a task ranks by its place. -/
theorem rank_eq (hn : s.planned.Nodup) (hx : s.planned[i]? = some x) : s.rank x = i := by
  refine rank_of_lastAt ⟨hx, fun j hj => ?_⟩
  have hlt := (List.getElem?_eq_some_iff.1 hx).1
  exact ((List.getElem?_inj hlt hn).1 (hx.trans hj.symm)).ge

/-- A batch of planned tasks in planned order is what the plan leaves when all other tasks are
dropped. -/
theorem orderByPlan_eq (hn : s.planned.Nodup) (hb : batch.Nodup) (hsub : batch ⊆ s.planned) :
    s.orderByPlan batch = s.planned.filter (batch.contains ·) := by
  have hperm := orderByPlan_perm s batch
  have hfilter : (s.planned.filter (batch.contains ·)).Perm batch := by
    rw [List.perm_ext_iff_of_nodup (hn.filter _) hb]
    intro x
    rw [List.mem_filter, List.contains_iff_mem]
    exact ⟨fun h => h.2, fun h => ⟨hsub h, h⟩⟩
  refine @List.Perm.eq_of_pairwise ℤ (fun a b => s.rank a ≤ s.rank b) _ _
    (fun a b ha hb hab hba => ?_) (pairwise_orderByPlan s batch) ?_ (hperm.trans hfilter.symm)
  · obtain ⟨i, hi⟩ := List.getElem?_of_mem (hsub (hperm.subset ha))
    obtain ⟨j, hj⟩ := List.getElem?_of_mem (List.mem_of_mem_filter hb)
    rw [rank_eq hn hi, rank_eq hn hj] at hab hba
    obtain rfl : i = j := by omega
    exact Option.some.inj (hi.symm.trans hj)
  · have hplanned : s.planned.Pairwise fun a b => s.rank a ≤ s.rank b := by
      rw [List.pairwise_iff_getElem]
      intro i j hi hj hij
      rw [rank_eq hn (List.getElem?_eq_getElem hi), rank_eq hn (List.getElem?_eq_getElem hj)]
      exact hij.le
    exact hplanned.filter _

/-! ## Planned tasks and others -/

/-- A batch in the order of a plan: first the planned tasks by their last places, and behind them all
others as they came. -/
def InPlanOrder (planned batch out : List ℤ) : Prop :=
  ∃ known, out = known ++ batch.filter (fun x => x ∉ planned) ∧
    known.Perm (batch.filter fun x => x ∈ planned) ∧
    known.Pairwise fun x y => ∀ i j, LastAt planned x i → LastAt planned y j → i < j

section

variable (hn : batch.Nodup)

include hn

/-- Planned tasks stand in the order of their last places. -/
theorem pairwise_planned : ((s.orderByPlan batch).filter fun x => x ∈ s.planned).Pairwise fun x y =>
    ∀ i j, LastAt s.planned x i → LastAt s.planned y j → i < j := by
  have hnodup := ((orderByPlan_perm s batch).nodup_iff.2 hn).filter fun x => decide (x ∈ s.planned)
  refine (((pairwise_orderByPlan s batch).filter _).and hnodup).imp fun {x y} h i j hi hj => ?_
  rw [rank_of_lastAt hi, rank_of_lastAt hj] at h
  refine lt_of_le_of_ne h.1 fun he => h.2 ?_
  exact Option.some.inj (hi.1.symm.trans (he ▸ hj.1))

omit hn in
/-- Tasks that were not planned stand as they came. -/
theorem filter_not_planned : (s.orderByPlan batch).filter (fun x => x ∉ s.planned) =
    batch.filter fun x => x ∉ s.planned := by
  have hlength := ((orderByPlan_perm s batch).filter fun x => decide (x ∉ s.planned)).length_eq
  refine (List.Sublist.eq_of_length ?_ hlength.symm).symm
  have hrank : (batch.filter fun x => x ∉ s.planned).Pairwise fun a b => s.rank a ≤ s.rank b := by
    refine List.pairwise_iff_forall_sublist.2 fun {a b} hab => ?_
    have hnew : ∀ z ∈ [a, b], z ∉ s.planned := fun z hz =>
      of_decide_eq_true (List.mem_filter.1 (hab.subset hz)).2
    rw [rank_of_not_mem (hnew a (by simp)), rank_of_not_mem (hnew b (by simp))]
  have hsub := (sublist_orderByPlan hrank List.filter_sublist).filter fun x => decide (x ∉ s.planned)
  simpa only [List.filter_filter, Bool.and_self] using hsub

/-- A planned task stands before one that was not planned if its last place comes before the number of
planned tasks. -/
theorem pair_planned_sublist (hx : x ∈ batch) (hy : y ∈ batch) (hi : LastAt s.planned x i)
    (hnew : y ∉ s.planned) : [x, y].Sublist (s.orderByPlan batch) ↔
      i < s.planned.toFinset.card ∨ i = s.planned.toFinset.card ∧ [x, y].Sublist batch := by
  have hne : x ≠ y := fun he => hnew (he ▸ List.mem_of_getElem? hi.1)
  rw [pair_sublist_orderByPlan hn hx hy hne, rank_of_lastAt hi, rank_of_not_mem hnew]

/-- A batch comes in the order of the plan exactly if its planned tasks all stand before the others. -/
theorem inPlanOrder_iff : InPlanOrder s.planned batch (s.orderByPlan batch) ↔
    ∀ x ∈ batch, ∀ y ∈ batch, x ∈ s.planned → y ∉ s.planned →
      [x, y].Sublist (s.orderByPlan batch) := by
  have hperm := orderByPlan_perm s batch
  constructor
  · rintro ⟨known, hout, hknown, -⟩ x hx y hy hxp hyp
    have hxk : [x].Sublist known :=
      List.singleton_sublist.2 (hknown.mem_iff.2 (List.mem_filter.2 ⟨hx, decide_eq_true hxp⟩))
    have hyr : [y].Sublist (batch.filter fun x => x ∉ s.planned) :=
      List.singleton_sublist.2 (List.mem_filter.2 ⟨hy, decide_eq_true hyp⟩)
    rw [hout]
    exact hxk.append hyr
  · intro h
    refine ⟨(s.orderByPlan batch).filter fun x => x ∈ s.planned, ?_, hperm.filter _,
      pairwise_planned hn⟩
    rw [← filter_not_planned]
    have hsplit := eq_filter_append (l := s.orderByPlan batch) (p := fun x => decide (x ∈ s.planned))
      (List.pairwise_iff_forall_sublist.2 fun {a b} hab hb => ?_)
    · simpa using hsplit
    · refine decide_eq_true (by_contra fun ha => ?_)
      have hmem : ∀ z ∈ [a, b], z ∈ batch := fun z hz => hperm.subset (hab.subset hz)
      exact not_pair_sublist (hperm.nodup_iff.2 hn) hab
        (h b (hmem b (by simp)) a (hmem a (by simp)) (of_decide_eq_true hb) ha)

end

/-- In planned order a batch is rearranged, its planned tasks stand in the order of their last places,
and the others as they came. A planned task stands before one of the others exactly if its last place
comes before the number of planned tasks, or is that number and it came first: so the planned tasks all
come first exactly if this holds of each of them, as it does wherever no task was planned twice. -/
theorem orderByPlan_lines (s : Session) (batch : List ℤ) (hn : batch.Nodup) :
    (s.orderByPlan batch).Perm batch ∧
    (((s.orderByPlan batch).filter fun x => x ∈ s.planned).Pairwise fun x y =>
      ∀ i j, LastAt s.planned x i → LastAt s.planned y j → i < j) ∧
    (s.orderByPlan batch).filter (fun x => x ∉ s.planned) = batch.filter (fun x => x ∉ s.planned) ∧
    (InPlanOrder s.planned batch (s.orderByPlan batch) ↔ ∀ x ∈ batch, ∀ y ∈ batch, ∀ i,
      LastAt s.planned x i → y ∉ s.planned →
        i < s.planned.toFinset.card ∨ i = s.planned.toFinset.card ∧ [x, y].Sublist batch) ∧
    (s.planned.Nodup → InPlanOrder s.planned batch (s.orderByPlan batch)) := by
  have hiff : InPlanOrder s.planned batch (s.orderByPlan batch) ↔ ∀ x ∈ batch, ∀ y ∈ batch, ∀ i,
      LastAt s.planned x i → y ∉ s.planned →
        i < s.planned.toFinset.card ∨ i = s.planned.toFinset.card ∧ [x, y].Sublist batch := by
    rw [inPlanOrder_iff hn]
    constructor
    · intro h x hx y hy i hi hnew
      exact (pair_planned_sublist hn hx hy hi hnew).1 (h x hx y hy (List.mem_of_getElem? hi.1) hnew)
    · intro h x hx y hy hplanned hnew
      obtain ⟨i, hi⟩ := exists_lastAt hplanned
      exact (pair_planned_sublist hn hx hy hi hnew).2 (h x hx y hy i hi hnew)
  refine ⟨orderByPlan_perm s batch, pairwise_planned hn, filter_not_planned, hiff, fun hp => ?_⟩
  refine hiff.2 fun x _ y _ i hi _ => Or.inl ?_
  rw [List.toFinset_card_of_nodup hp]
  exact (List.getElem?_eq_some_iff.1 hi.1).1

/-- A session in which two tasks were planned twice. -/
def replanned : Session := { planned := [1, 2, 1, 2] }

/-- The second task comes behind one that was not planned, although it came first: its last place is `3`,
and two tasks were planned. -/
theorem replanned_overtaken : [(2 : ℤ), 3].Nodup ∧ replanned.orderByPlan [2, 3] = [3, 2] ∧
    ¬ InPlanOrder replanned.planned [2, 3] (replanned.orderByPlan [2, 3]) := by
  have hlast : LastAt replanned.planned 2 3 := place?_eq_some.1 (by decide)
  have hn : [(2 : ℤ), 3].Nodup := by decide
  have hout : [3, 2].Sublist (replanned.orderByPlan [2, 3]) := by
    rw [pair_sublist_orderByPlan hn (by simp) (by simp) (by decide), rank_of_lastAt hlast,
      rank_of_not_mem (by decide)]
    decide
  refine ⟨hn, (hout.eq_of_length ?_).symm, fun h => ?_⟩
  · rw [(orderByPlan_perm _ _).length_eq]
    rfl
  · refine not_pair_sublist ((orderByPlan_perm _ _).nodup_iff.2 hn) hout ?_
    exact (inPlanOrder_iff hn).1 h 2 (by simp) 3 (by simp) (by decide) (by decide)

/-- The first task, whose last place is `2`, keeps its place before one that was not planned and came
later. -/
theorem orderByPlan_lines_replanned : [(1 : ℤ), 3].Nodup ∧
    InPlanOrder replanned.planned [1, 3] (replanned.orderByPlan [1, 3]) := by
  have hn : [(1 : ℤ), 3].Nodup := by decide
  obtain ⟨-, -, -, hiff, -⟩ := orderByPlan_lines replanned [1, 3] hn
  refine ⟨hn, hiff.2 fun x hx y hy i hi hnew => ?_⟩
  have hlast : LastAt replanned.planned 1 2 := place?_eq_some.1 (by decide)
  have hmem : x ∈ replanned.planned := List.mem_of_getElem? hi.1
  obtain rfl : x = 1 := by
    rcases List.mem_pair.1 hx with rfl | rfl
    · rfl
    · exact absurd hmem (by decide)
  obtain rfl : y = 3 := by
    rcases List.mem_pair.1 hy with rfl | rfl
    · exact absurd hmem hnew
    · rfl
  exact Or.inr ⟨hi.unique hlast, List.Sublist.refl _⟩

end FlowSched.Session

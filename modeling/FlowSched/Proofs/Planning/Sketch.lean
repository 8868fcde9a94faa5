import FlowSched.Proofs.Credit
import FlowSched.Proofs.Planning.Frame
import FlowSched.Proofs.Span

/-!
# Sketches

A task is estimated for good once its parents are. It then starts behind the ends of all its parents,
and strictly so, as the instants at which estimated tasks end are taken. Estimates never change any
more, so what is known of an estimated task stays true as a sketch grows.
-/

namespace FlowSched

open Quantity Step

/-- The instants at which a span starts and ends. -/
def Span.ends (span : Span ℚ) : List ℚ := [span.start, span.finish]

/-- The instants at which a task is to start and to end. -/
def Task.ends (t : Task ℚ) : List ℚ := [t.plannedStart, t.plannedFinish]

namespace Sketch

/-- The task of an id is estimated for good. -/
def Estimated (s : Sketch ℚ) (x : ℤ) : Prop :=
  ∃ t, s.workflow.find? x = some t ∧ t.isEstimated = true

/-- The parents of a task are estimated. -/
def Ready (s : Sketch ℚ) (x : ℤ) : Prop :=
  ∀ t, s.workflow.find? x = some t → ∀ y ∈ t.parents, s.Estimated y

/-- What is known of an estimated task: it starts behind the floor and its parents, takes its average
time, and its ends are taken. -/
structure Firm (o : Outlook ℚ) (s : Sketch ℚ) (t : Task ℚ) : Prop where
  parents : ∀ y ∈ t.parents, ∃ u, s.workflow.find? y = some u ∧ u.isEstimated = true ∧
    u.plannedFinish < t.plannedStart
  floor : o.floor ≤ t.plannedStart
  finish : ∃ a, o.costs.average t.id = .ok a ∧ t.plannedFinish = t.plannedStart + a
  opens : t.plannedStart ∈ s.instants
  closes : t.plannedFinish ∈ s.instants

/-- A sketch between whose start and end no estimate was changed. -/
structure Extends (s s' : Sketch ℚ) : Prop where
  kept : Kept s.toWorld s'.toWorld
  tasks : ∀ x t, s.workflow.find? x = some t → t.isEstimated = true →
    s'.workflow.find? x = some t
  instants : s.instants ⊆ s'.instants

/-- A sketch in which every estimate is firm and no two of them share an instant. -/
structure Drawn (o : Outlook ℚ) (rank : ℤ → ℕ) (s : Sketch ℚ) : Prop where
  rated : Rated s.workflow o.costs
  distinct : s.workflow.Distinct
  ranking : s.workflow.Ranking rank
  firm : ∀ x t, s.workflow.find? x = some t → t.isEstimated = true → s.Firm o t
  apart : ∀ x t y u, s.workflow.find? x = some t → s.workflow.find? y = some u → x ≠ y →
    t.isEstimated = true → u.isEstimated = true → t.ends.Disjoint u.ends

/-- A drawn sketch in which nothing more is estimated for good. -/
structure Rehearsed (o : Outlook ℚ) (rank : ℤ → ℕ) (s s' : Sketch ℚ) : Prop where
  drawn : Drawn o rank s'
  grown : Extends s s'
  same : ∀ y, s'.Estimated y → s.Estimated y

/-- A drawn sketch that has grown by the estimates of some tasks. -/
structure Settled (o : Outlook ℚ) (rank : ℤ → ℕ) (xs : List ℤ) (s s' : Sketch ℚ) : Prop where
  drawn : Drawn o rank s'
  grown : Extends s s'
  estimated : ∀ x ∈ xs, s'.Estimated x

/-- A drawn sketch that has grown by the estimates of some tasks and of no others. -/
structure Committed (o : Outlook ℚ) (rank : ℤ → ℕ) (xs : List ℤ) (s s' : Sketch ℚ) : Prop
    extends Settled o rank xs s s' where
  only : ∀ y, s'.Estimated y → s.Estimated y ∨ y ∈ xs
  taken : ∀ i ∈ s'.instants, i ∈ s.instants ∨ ∃ y ∈ xs, ∃ t, s'.workflow.find? y = some t ∧ i ∈ t.ends

variable {o : Outlook ℚ} {rank : ℤ → ℕ} {s s' s'' : Sketch ℚ} {x y : ℤ} {t : Task ℚ}

theorem Firm.ends_subset (h : s.Firm o t) : t.ends ⊆ s.instants := by
  simp [Task.ends, h.opens, h.closes]

/-! ## Growing sketches -/

theorem Extends.refl (s : Sketch ℚ) : Extends s s := ⟨.refl _, fun _ _ h _ => h, fun _ h => h⟩

theorem Extends.trans (h : Extends s s') (h' : Extends s' s'') : Extends s s'' :=
  ⟨h.kept.trans h'.kept, fun x t ht he => h'.tasks x t (h.tasks x t ht he) he,
    fun _ hx => h'.instants (h.instants hx)⟩

section

variable (h : Extends s s')

include h

theorem Extends.ids : s'.workflow.ids = s.workflow.ids := Workflow.ids_of_kin h.kept.kin.workflow

theorem Extends.estimated (hx : s.Estimated x) : s'.Estimated x := by
  obtain ⟨t, ht, he⟩ := hx
  exact ⟨t, h.tasks x t ht he, he⟩

theorem Extends.ready (hx : s.Ready x) : s'.Ready x := by
  intro t' ht' y hy
  obtain ⟨t, ht, hk⟩ := Workflow.exists_of_kin h.kept.kin.workflow.symm ht'
  exact h.estimated (hx t ht y (hk.parents ▸ hy))

theorem Extends.firm (ht : s.Firm o t) : s'.Firm o t where
  parents y hy := by
    obtain ⟨u, hu, he, hlt⟩ := ht.parents y hy
    exact ⟨u, h.tasks y u hu he, he, hlt⟩
  floor := ht.floor
  finish := ht.finish
  opens := h.instants ht.opens
  closes := h.instants ht.closes

/-- What was estimated is what it was. -/
theorem Extends.find?_eq (hx : s.Estimated x) (ht : s'.workflow.find? x = some t) :
    s.workflow.find? x = some t ∧ t.isEstimated = true := by
  obtain ⟨u, hu, he⟩ := hx
  obtain rfl := Option.some.inj ((h.tasks x u hu he).symm.trans ht)
  exact ⟨hu, he⟩

/-- A sketch is still drawn if at most one more task is estimated, and that on free instants. -/
theorem Drawn.of_extends (hd : Drawn o rank s)
    (hnew : ∀ x t, s'.workflow.find? x = some t → t.isEstimated = true → ¬ s.Estimated x →
      s'.Firm o t ∧ t.ends.Disjoint s.instants)
    (hone : ∀ x y, s'.Estimated x → s'.Estimated y → ¬ s.Estimated x → ¬ s.Estimated y → x = y) :
    Drawn o rank s' where
  rated := hd.rated.of_kin h.kept.kin.workflow
  distinct := hd.distinct.of_kin h.kept.kin.workflow
  ranking := hd.ranking.of_kin h.kept.kin.workflow
  firm x t ht he := by
    by_cases hx : s.Estimated x
    · obtain ⟨ht, he⟩ := h.find?_eq hx ht
      exact h.firm (hd.firm x t ht he)
    · exact (hnew x t ht he hx).1
  apart x t y u ht hu hne het heu := by
    by_cases hx : s.Estimated x
    · obtain ⟨ht, het⟩ := h.find?_eq hx ht
      by_cases hy : s.Estimated y
      · obtain ⟨hu, heu⟩ := h.find?_eq hy hu
        exact hd.apart x t y u ht hu hne het heu
      · exact (List.disjoint_of_subset_right (hd.firm x t ht het).ends_subset
          (hnew y u hu heu hy).2).symm
    · by_cases hy : s.Estimated y
      · obtain ⟨hu, heu⟩ := h.find?_eq hy hu
        exact List.disjoint_of_subset_right (hd.firm y u hu heu).ends_subset (hnew x t ht het hx).2
      · exact absurd (hone x y ⟨t, ht, het⟩ ⟨u, hu, heu⟩ hx hy) hne

end

theorem Rehearsed.trans (h : Rehearsed o rank s s') (h' : Rehearsed o rank s' s'') :
    Rehearsed o rank s s'' :=
  ⟨h'.drawn, h.grown.trans h'.grown, fun y hy => h.same y (h'.same y hy)⟩

theorem Settled.trans {xs ys : List ℤ} (h : Settled o rank xs s s') (h' : Settled o rank ys s' s'') :
    Settled o rank (xs ++ ys) s s'' where
  drawn := h'.drawn
  grown := h.grown.trans h'.grown
  estimated x hx := by
    rcases List.mem_append.1 hx with hx | hx
    · exact h'.grown.estimated (h.estimated x hx)
    · exact h'.estimated x hx

theorem Settled.mono {xs ys : List ℤ} (h : Settled o rank xs s s') (hsub : ys ⊆ xs) :
    Settled o rank ys s s' :=
  ⟨h.drawn, h.grown, fun x hx => h.estimated x (hsub hx)⟩

theorem Committed.trans {xs ys : List ℤ} (h : Committed o rank xs s s') (h' : Committed o rank ys s' s'') :
    Committed o rank (xs ++ ys) s s'' where
  toSettled := h.toSettled.trans h'.toSettled
  only y hy := by
    rw [List.mem_append, ← or_assoc]
    exact (h'.only y hy).imp_left (h.only y)
  taken i hi := by
    rcases h'.taken i hi with hi | ⟨y, hy, t, ht, hit⟩
    · rcases h.taken i hi with hi | ⟨y, hy, t, ht, hit⟩
      · exact Or.inl hi
      · obtain ⟨u, hu, he⟩ := h.estimated y hy
        obtain rfl := Option.some.inj (hu.symm.trans ht)
        exact Or.inr ⟨y, List.mem_append_left _ hy, u, h'.grown.tasks y u hu he, hit⟩
    · exact Or.inr ⟨y, List.mem_append_right _ hy, t, ht, hit⟩

/-- No estimated task takes negative time. -/
theorem Drawn.forward (hd : Drawn o rank s) (ht : s.workflow.find? x = some t)
    (he : t.isEstimated = true) : t.plannedStart ≤ t.plannedFinish := by
  obtain ⟨a, ha, hfinish⟩ := (hd.firm x t ht he).finish
  obtain ⟨a', ha', hnonneg⟩ := hd.rated.average t (Workflow.find?_eq_some.1 ht).1
  obtain rfl := Except.ok.inj (ha.symm.trans ha')
  linarith

theorem Drawn.settled (hd : Drawn o rank s) : Settled o rank [] s s := ⟨hd, .refl s, by simp⟩

theorem Drawn.committed (hd : Drawn o rank s) : Committed o rank [] s s :=
  ⟨hd.settled, fun _ => Or.inl, fun _ => Or.inl⟩

theorem Drawn.rehearsed (hd : Drawn o rank s) : Rehearsed o rank s s :=
  ⟨hd, .refl s, fun _ h => h⟩

theorem Drawn.note (hd : Drawn o rank s) (n : Note ℚ) : Rehearsed o rank s (s.note n) := by
  have hext : Extends s (s.note n) := ⟨kept_note s.toWorld n, fun _ _ h _ => h, fun _ h => h⟩
  exact ⟨hd.of_extends hext (fun x t ht he hx => absurd ⟨t, ht, he⟩ hx)
    fun x _ hx _ hn => absurd hx hn, hext, fun _ h => h⟩

/-! ## Trials -/

/-- The parents of a task are looked up together. -/
theorem parents_ok (hd : Drawn o rank s) (ht : s.workflow.find? x = some t) :
    ∃ ps, s.parents x = .ok ps ∧ ps.map Task.id = t.parents ∧
      ∀ u ∈ ps, s.workflow.find? u.id = some u := by
  obtain ⟨ps, hps, hmap⟩ := Workflow.getAll_eq_ok fun y hy =>
    Workflow.mem_ids.1 (hd.rated.checked.mem_ids_of_parent (Workflow.find?_eq_some.1 ht).1 hy)
  refine ⟨ps, ?_, hmap, fun u hu => Workflow.find?_of_getAll hps hu⟩
  rw [parents, task, Workflow.get_eq_ok.2 ht, ok_bind, hps]

/-- The parents of a ready task stay what they are. -/
theorem Extends.parents (h : Extends s s') (hready : s.Ready x) {ps : List (Task ℚ)}
    (hps : s.parents x = .ok ps) : s'.parents x = .ok ps := by
  obtain ⟨t, ht, hps⟩ := bind_eq_ok.1 hps
  have ht := Workflow.get_eq_ok.1 ht
  obtain ⟨t', ht', hk⟩ := Workflow.exists_of_kin h.kept.kin.workflow ht
  obtain ⟨ps', hps', hall⟩ := mapM_rel (R := Eq) (g := s'.workflow.get) hps fun y hy u hu => by
    obtain ⟨v, hv, he⟩ := hready t ht y hy
    obtain rfl := Except.ok.inj ((Workflow.get_eq_ok.2 hv).symm.trans hu)
    exact ⟨v, Workflow.get_eq_ok.2 (h.tasks y v hv he), rfl⟩
  rw [List.forall₂_eq_eq_eq] at hall
  rw [Sketch.parents, task, Workflow.get_eq_ok.2 ht', ok_bind, hk.parents, hall]
  exact hps'

theorem collides_iff {span : Span ℚ} :
    s.collides span = true ↔ span.start ∈ s.instants ∨ span.finish ∈ s.instants := by
  simp [collides]

/-- A span that a task can take: behind the floor or its parents, for its average time, and on free
instants. -/
structure Vacant (o : Outlook ℚ) (s : Sketch ℚ) (t : Task ℚ) (span : Span ℚ) : Prop where
  behind : ∀ y ∈ t.parents, ∀ u, s.workflow.find? y = some u → u.plannedFinish ≤ span.start
  floor : t.parents = [] → o.floor ≤ span.start
  finish : ∃ a, o.costs.average t.id = .ok a ∧ span.finish = span.start + a
  free : span.start ∉ s.instants ∧ span.finish ∉ s.instants

section

variable (hpos : 0 < o.fallback)

include hpos

theorem evasion_pos (t : Task ℚ) : 0 < evasion o t := by
  unfold evasion
  split
  · assumption
  · exact hpos

/-- A trial starts behind the parents, or at the floor, and moves on while it collides. -/
theorem trial_rests (ht : s.workflow.find? x = some t) {ps : List (Task ℚ)}
    (hps : s.parents x = .ok ps) {average : ℚ} (havg : o.costs.average x = .ok average)
    (hnonneg : 0 ≤ average) {start : ℚ}
    (hstart : (latest? (ps.map Task.plannedFinish)).getD o.floor = start) :
    ∃ k : ℕ, s.trial o x = .ok (Span.shift ⟨start, start + average⟩ (k * evasion o t)) ∧
      (∀ i < k, s.collides (Span.shift ⟨start, start + average⟩ (i * evasion o t)) = true) ∧
      s.collides (Span.shift ⟨start, start + average⟩ (k * evasion o t)) = false := by
  obtain ⟨k, hadv, hbefore, hfree⟩ := Span.advance_rests s.collides (evasion_pos hpos t)
    (latest s.instants) ⟨start, start + average⟩ (fun k hk => by
      rcases collides_iff.1 hk with hk | hk
      · exact le_latest hk
      · have hle := le_latest hk
        simp only [Span.shift_finish] at hle
        linarith)
  refine ⟨k, ?_, hbefore, hfree⟩
  unfold trial
  rw [task, Workflow.get_eq_ok.2 ht, ok_bind, hps, ok_bind, havg, ok_bind]
  dsimp only
  rw [hstart, hadv]

/-- A trial finds a vacant span. -/
theorem trial_ok (hd : Drawn o rank s) (ht : s.workflow.find? x = some t) :
    ∃ span, s.trial o x = .ok span ∧ s.Vacant o t span := by
  obtain ⟨ps, hps, hmap, hfind⟩ := parents_ok hd ht
  obtain ⟨hm, rfl⟩ := Workflow.find?_eq_some.1 ht
  obtain ⟨average, havg, hnonneg⟩ := hd.rated.average t hm
  have hstep := evasion_pos hpos t
  generalize hstart : (latest? (ps.map Task.plannedFinish)).getD o.floor = start
  have hbehind : ∀ y ∈ t.parents, ∀ u, s.workflow.find? y = some u → u.plannedFinish ≤ start := by
    intro y hy u hu
    rw [← hmap] at hy
    obtain ⟨u', hu', rfl⟩ := List.mem_map.1 hy
    obtain rfl : u' = u := Option.some.inj ((hfind u' hu').symm.trans hu)
    have hmem : u'.plannedFinish ∈ ps.map Task.plannedFinish := List.mem_map_of_mem hu'
    cases hlast : latest? (ps.map Task.plannedFinish) with
    | none =>
      rw [latest?_eq_none.1 hlast] at hmem
      cases hmem
    | some last =>
      rw [hlast, Option.getD_some] at hstart
      exact hstart ▸ (latest?_eq_some hlast).2 _ hmem
  have hfloor : t.parents = [] → o.floor ≤ start := by
    intro hnil
    rw [hnil, List.map_eq_nil_iff] at hmap
    rw [← hstart, hmap]
    exact le_refl _
  obtain ⟨k, htrial, -, hfree⟩ := trial_rests hpos ht hps havg hnonneg hstart
  rw [Bool.eq_false_iff, ne_eq, collides_iff, not_or] at hfree
  have hshift : start ≤ start + k * evasion o t := le_add_of_nonneg_right (by positivity)
  refine ⟨_, htrial, fun y hy u hu => (hbehind y hy u hu).trans hshift,
    fun hnil => (hfloor hnil).trans hshift, ⟨average, havg, ?_⟩, hfree⟩
  simp only [Span.shift_start, Span.shift_finish]
  ring

/-- Once more instants are taken a ready task is tried as before, or it collides there and ends later. -/
theorem trial_grown (hd : Drawn o rank s) (h : Extends s s') (hid : x ∈ s.workflow.ids)
    (hready : s.Ready x) {span span' : Span ℚ} (hspan : s.trial o x = .ok span)
    (hspan' : s'.trial o x = .ok span') :
    s'.collides span = false ∧ span' = span ∨ s'.collides span = true ∧ span.finish < span'.finish := by
  obtain ⟨t, ht⟩ := Workflow.mem_ids.1 hid
  obtain ⟨t', ht', hk⟩ := Workflow.exists_of_kin h.kept.kin.workflow ht
  obtain ⟨ps, hps, -, -⟩ := parents_ok hd ht
  obtain ⟨hm, rfl⟩ := Workflow.find?_eq_some.1 ht
  obtain ⟨average, havg, hnonneg⟩ := hd.rated.average t hm
  obtain ⟨k, htrial, hbefore, -⟩ := trial_rests hpos ht hps havg hnonneg rfl
  obtain ⟨k', htrial', hbefore', hfree⟩ := trial_rests hpos ht' (h.parents hready hps) havg hnonneg rfl
  have hstep : evasion o t' = evasion o t := by rw [evasion, evasion, hk.latency]
  rw [hstep] at htrial' hbefore' hfree
  obtain rfl := Except.ok.inj (hspan.symm.trans htrial)
  obtain rfl := Except.ok.inj (hspan'.symm.trans htrial')
  have hle : k ≤ k' := by
    by_contra hlt
    have hc := collides_iff.1 (hbefore k' (not_le.1 hlt))
    rw [Bool.eq_false_iff, ne_eq, collides_iff] at hfree
    exact hfree (hc.imp (fun hm => h.instants hm) fun hm => h.instants hm)
  rcases hle.eq_or_lt with rfl | hlt
  · exact Or.inl ⟨hfree, rfl⟩
  · have hmul := mul_lt_mul_of_pos_right (Nat.cast_lt (α := ℚ).2 hlt) (evasion_pos hpos t)
    refine Or.inr ⟨hbefore' k hlt, ?_⟩
    simp only [Span.shift_finish]
    linarith

end

/-! ## Writing estimates -/

section

variable (span : Span ℚ)

theorem estimated_of_write (hy : (s.write x span).Estimated y) : s.Estimated y := by
  obtain ⟨t', ht', he⟩ := hy
  by_cases hyx : y = x
  · subst hyx
    obtain ⟨t, ht, -⟩ := Workflow.exists_of_kin (kept_write s y span).kin.workflow.symm ht'
    have hself : (s.write y span).workflow.find? y = _ := Workflow.find?_modify_self ht
    rw [ht'] at hself
    obtain rfl := Option.some.inj hself
    exact ⟨t, ht, he⟩
  · have hother : (s.write x span).workflow.find? y = _ := Workflow.find?_modify_of_ne hyx
    exact ⟨t', hother ▸ ht', he⟩

theorem find?_confirm_self (ht : s.workflow.find? x = some t) :
    (s.confirm x span).workflow.find? x =
      some { t with
        plannedStart := span.start, plannedFinish := span.finish, isEstimated := true } := by
  obtain ⟨-, rfl⟩ := Workflow.find?_eq_some.1 ht
  exact Workflow.find?_modify_self (Workflow.find?_modify_self ht)

theorem find?_confirm_of_ne (hyx : y ≠ x) :
    (s.confirm x span).workflow.find? y = s.workflow.find? y :=
  (Workflow.find?_modify_of_ne hyx).trans (Workflow.find?_modify_of_ne hyx)

theorem estimated_of_confirm (hy : (s.confirm x span).Estimated y) : s.Estimated y ∨ y = x := by
  by_cases hyx : y = x
  · exact Or.inr hyx
  · obtain ⟨t, ht, he⟩ := hy
    rw [find?_confirm_of_ne span hyx] at ht
    exact Or.inl ⟨t, ht, he⟩

variable (hx : ¬ s.Estimated x)

include hx

theorem extends_write : Extends s (s.write x span) where
  kept := kept_write s x span
  tasks y t ht he := by
    have hyx : y ≠ x := fun e => hx ⟨t, e ▸ ht, he⟩
    exact (Workflow.find?_modify_of_ne hyx).trans ht
  instants _ h := h

theorem extends_confirm : Extends s (s.confirm x span) where
  kept := kept_confirm s x span
  tasks y t ht he := by
    have hyx : y ≠ x := fun e => hx ⟨t, e ▸ ht, he⟩
    exact (find?_confirm_of_ne span hyx).trans ht
  instants _ h := List.mem_append_left _ h

/-- An estimate that is not for good leaves a sketch drawn. -/
theorem Drawn.write (hd : Drawn o rank s) : Drawn o rank (s.write x span) :=
  hd.of_extends (extends_write span hx)
    (fun _ t ht he hy => absurd (estimated_of_write span ⟨t, ht, he⟩) hy)
    fun _ _ hy _ hn => absurd (estimated_of_write span hy) hn

/-- An estimate for good is firm. -/
theorem Drawn.confirm (hd : Drawn o rank s) (ht : s.workflow.find? x = some t) (hready : s.Ready x)
    (hv : s.Vacant o t span) : Drawn o rank (s.confirm x span) := by
  have hext := extends_confirm span hx
  have hlast : ∀ y, (s.confirm x span).Estimated y → ¬ s.Estimated y → y = x := fun y hy hn =>
    (estimated_of_confirm span hy).resolve_left hn
  have hbehind : ∀ y ∈ t.parents, ∃ u, s.workflow.find? y = some u ∧ u.isEstimated = true ∧
      o.floor ≤ u.plannedFinish ∧ u.plannedFinish < span.start := by
    intro y hy
    obtain ⟨u, hu, he⟩ := hready t ht y hy
    have hfirm := hd.firm y u hu he
    refine ⟨u, hu, he, hfirm.floor.trans (hd.forward hu he), ?_⟩
    exact (hv.behind y hy u hu).lt_of_ne fun e => hv.free.1 (e ▸ hfirm.closes)
  refine hd.of_extends hext (fun y t' ht' he hy => ?_) fun y z hy hz hny hnz =>
    (hlast y hy hny).trans (hlast z hz hnz).symm
  obtain rfl := hlast y ⟨t', ht', he⟩ hy
  rw [find?_confirm_self span ht] at ht'
  obtain rfl := Option.some.inj ht'
  refine ⟨⟨fun z hz => ?_, ?_, hv.finish, ?_, ?_⟩, ?_⟩
  · obtain ⟨u, hu, heu, -, hlt⟩ := hbehind z hz
    exact ⟨u, hext.tasks z u hu heu, heu, hlt⟩
  · rcases List.eq_nil_or_concat t.parents with hnil | ⟨_, z, hz⟩
    · exact hv.floor hnil
    · obtain ⟨u, -, -, hle, hlt⟩ := hbehind z (by simp [hz])
      exact hle.trans hlt.le
  · show span.start ∈ s.instants ++ [span.start, span.finish]
    simp
  · show span.finish ∈ s.instants ++ [span.start, span.finish]
    simp
  · simp [Task.ends, hv.free.1, hv.free.2]

end

section

variable (hpos : 0 < o.fallback) {E : Fault ℚ → Sketch ℚ → Prop}

include hpos

/-- A task is rehearsed without anything being estimated for good. -/
theorem rehearse_leads (hd : Drawn o rank s) (hid : x ∈ s.workflow.ids) (hx : ¬ s.Estimated x) :
    Leads (rehearse o x) s (fun _ s' => Rehearsed o rank s s') E := by
  obtain ⟨t, ht⟩ := Workflow.mem_ids.1 hid
  obtain ⟨span, hspan, -⟩ := trial_ok hpos hd ht
  refine leads_atomic_ok (t := s.write x span) (by rw [hspan, ok_bind]) ⟨hd.write span hx,
    extends_write span hx, fun y => estimated_of_write span⟩

/-- A task whose parents are estimated is estimated for good. -/
theorem commit_leads (hd : Drawn o rank s) (hid : x ∈ s.workflow.ids) (hx : ¬ s.Estimated x)
    (hready : s.Ready x) :
    Leads (commit o x) s (fun _ s' => Committed o rank [x] s s' ∧ ∃ span t, s.trial o x = .ok span ∧
      s'.workflow.find? x = some t ∧ t.ends = span.ends) E := by
  obtain ⟨t, ht⟩ := Workflow.mem_ids.1 hid
  obtain ⟨span, hspan, hv⟩ := trial_ok hpos hd ht
  have hself := find?_confirm_self span ht
  refine leads_atomic_ok (t := s.confirm x span) (by rw [hspan, ok_bind])
    ⟨⟨⟨hd.confirm span hx ht hready hv, extends_confirm span hx, fun y hy => ?_⟩, fun y hy => ?_,
      fun i hi => ?_⟩, span, _, hspan, hself, rfl⟩
  · obtain rfl := List.mem_singleton.1 hy
    exact ⟨_, hself, rfl⟩
  · exact (estimated_of_confirm span hy).imp_right List.mem_singleton.2
  · exact (List.mem_append.1 hi).imp_right fun hi => ⟨x, List.mem_singleton_self x, _, hself, hi⟩

end

end Sketch

end FlowSched

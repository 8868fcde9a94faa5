import FlowSched.Proofs.Planning.Path
import FlowSched.Proofs.Planning.Rehearsal

/-!
# The arrangement of a group

A group of ready tasks is scored in every arrangement and left as committing one of least rehearsal leaves
it (`arrange_commits`). In rehearsal each task ends as if it alone were estimated next, but committed tasks
take instants from each other. So no arrangement ends before it does in rehearsal, and it ends then exactly
if the tasks before its last one take no instant of the last one's trial (`exists_ending`). An arrangement
of least rehearsal that is not met in this way really ends first, and so it is in a group whose trials share
no instant (`arrange_least`). Otherwise another arrangement may end earlier (`crossed_arranged_late`).
-/

namespace FlowSched

open Quantity Step

namespace Sketch

/-- When the last task of an arrangement ends. -/
def ending (s : Sketch ℚ) (arrangement : List ℤ) : Option ℚ :=
  (arrangement.getLast?.bind s.workflow.find?).map Task.plannedFinish

/-- No task of a list starts or ends at an instant at which a span does. -/
def Avoids (s : Sketch ℚ) (xs : List ℤ) (span : Span ℚ) : Prop :=
  ∀ y ∈ xs, ∀ t, s.workflow.find? y = some t → t.ends.Disjoint span.ends

/-- After an arrangement is committed, its other tasks avoid what the trial of its last one found before. -/
def Unmet (o : Outlook ℚ) (s s' : Sketch ℚ) (arrangement : List ℤ) : Prop :=
  ∀ x span, arrangement.getLast? = some x → s.trial o x = .ok span →
    s'.Avoids arrangement.dropLast span

/-- No two tasks of a group would start or end at the same instant if each were estimated next. -/
def Apart (o : Outlook ℚ) (s : Sketch ℚ) (group : List ℤ) : Prop :=
  ∀ x ∈ group, ∀ y ∈ group, x ≠ y → ∀ a b, s.trial o x = .ok a → s.trial o y = .ok b →
    a.ends.Disjoint b.ends

/-- Different tasks that are not estimated yet, but whose parents are. -/
structure ReadyGroup (s : Sketch ℚ) (group : List ℤ) : Prop where
  ne_nil : group ≠ []
  nodup : group.Nodup
  known : ∀ x ∈ group, x ∈ s.workflow.ids
  pending : ∀ x ∈ group, ¬ s.Estimated x
  ready : ∀ x ∈ group, s.Ready x

variable {o : Outlook ℚ} {rank : ℤ → ℕ} {s s' s'' : Sketch ℚ} {x : ℤ} {xs group : List ℤ}
  {t : Task ℚ} {span span' : Span ℚ}

theorem readyGroup_of_find? (known : List ℤ) (hne : group ≠ []) (hn : group.Nodup)
    (hread : ∀ x ∈ group, (s.workflow.find? x).map
      (fun t => (t.isEstimated, decide (t.parents ⊆ known))) = some (false, true))
    (hknown : ∀ y ∈ known, s.Estimated y) : s.ReadyGroup group := by
  have hfind : ∀ x ∈ group, ∃ t, s.workflow.find? x = some t ∧ t.isEstimated = false ∧
      t.parents ⊆ known := by
    intro x hx
    obtain ⟨t, ht, hboth⟩ := Option.map_eq_some_iff.1 (hread x hx)
    obtain ⟨hnot, hparents⟩ := Prod.mk.inj hboth
    exact ⟨t, ht, hnot, of_decide_eq_true hparents⟩
  refine ⟨hne, hn, fun x hx => ?_, fun x hx => ?_, fun x hx t ht y hy => ?_⟩
  all_goals obtain ⟨u, hu, hnot, hparents⟩ := hfind x hx
  · exact Workflow.mem_ids.2 ⟨u, hu⟩
  · exact not_estimated hu hnot
  · obtain rfl := Option.some.inj (hu.symm.trans ht)
    exact hknown y (hparents hy)

theorem ReadyGroup.of_perm (h : s.ReadyGroup group) {arrangement : List ℤ}
    (hp : arrangement.Perm group) : s.ReadyGroup arrangement where
  ne_nil := fun he => h.ne_nil (by rw [he] at hp; exact hp.nil_eq.symm)
  nodup := hp.nodup_iff.2 h.nodup
  known x hx := h.known x (hp.subset hx)
  pending x hx := h.pending x (hp.subset hx)
  ready x hx := h.ready x (hp.subset hx)

theorem ReadyGroup.unrelated (h : s.ReadyGroup group) : s.Unrelated group where
  nodup := h.nodup
  parents x hx t ht y hy hyg := h.pending y hyg (h.ready x hx t ht y hy)

/-! ## What is taken -/

theorem finish_of_ends (h : t.ends = span.ends) : t.plannedFinish = span.finish :=
  (List.cons.inj (List.cons.inj h).2).1

/-- What estimated tasks avoid they avoid ever after. -/
theorem Extends.avoids_iff (h : Extends s s') (hxs : ∀ y ∈ xs, s.Estimated y) :
    s'.Avoids xs span ↔ s.Avoids xs span := by
  refine ⟨fun ha y hy t ht => ?_, fun ha y hy t ht => ha y hy t (h.find?_eq (hxs y hy) ht).1⟩
  obtain ⟨u, hu, he⟩ := hxs y hy
  obtain rfl := Option.some.inj (hu.symm.trans ht)
  exact ha y hy u (h.tasks y u hu he)

/-- A span that was free is free after some commits exactly if the committed tasks avoid it. -/
theorem Committed.avoids_iff (h : Committed o rank xs s s') (hfree : s.collides span = false) :
    s'.Avoids xs span ↔ s'.collides span = false := by
  have hcollides : ∀ r : Sketch ℚ, r.collides span = false ↔ span.ends.Disjoint r.instants := by
    intro r
    simp [Bool.eq_false_iff, collides_iff, Span.ends]
  rw [hcollides] at hfree ⊢
  constructor
  · intro ha i hi htaken
    rcases h.taken i htaken with hold | ⟨y, hy, t, ht, hit⟩
    · exact hfree hi hold
    · exact ha y hy t ht hit hi
  · intro ha y hy t ht
    obtain ⟨u, hu, he⟩ := h.estimated y hy
    obtain rfl := Option.some.inj (hu.symm.trans ht)
    exact (List.disjoint_of_subset_right (h.drawn.firm y u hu he).ends_subset ha).symm

/-- After some commits a ready task is tried as before if they avoid its trial, and ends later if not. -/
theorem Committed.trial (hpos : 0 < o.fallback) (hd : Drawn o rank s) (h : Committed o rank xs s s')
    (hid : x ∈ s.workflow.ids) (hready : s.Ready x) (hspan : s.trial o x = .ok span)
    (hspan' : s'.trial o x = .ok span') :
    s'.Avoids xs span ∧ span' = span ∨ ¬ s'.Avoids xs span ∧ span.finish < span'.finish := by
  obtain ⟨t, ht⟩ := Workflow.mem_ids.1 hid
  obtain ⟨_, hvacant, hv⟩ := trial_ok hpos hd ht
  obtain rfl := Except.ok.inj (hvacant.symm.trans hspan)
  have hfree := hv.free
  rw [← not_or, ← collides_iff, Bool.not_eq_true] at hfree
  rw [h.avoids_iff hfree, Bool.not_eq_false]
  exact trial_grown hpos hd h.grown hid hready hspan hspan'

/-! ## What is committed -/

section

variable (hpos : 0 < o.fallback) (hd : Drawn o rank s) (hg : s.ReadyGroup group)

include hpos hd hg

theorem exists_trials : ∃ spans : ℤ → Span ℚ, ∀ x ∈ group, s.trial o x = .ok (spans x) := by
  have hspan : ∀ x ∈ group, ∃ span, s.trial o x = .ok span := by
    intro x hx
    obtain ⟨t, ht⟩ := Workflow.mem_ids.1 (hg.known x hx)
    obtain ⟨span, hspan, -⟩ := trial_ok hpos hd ht
    exact ⟨span, hspan⟩
  have : Nonempty (Span ℚ) := ⟨⟨0, 0⟩⟩
  choose! spans htrial using hspan
  exact ⟨spans, htrial⟩

theorem exists_rehearsal {arrangement : List ℤ} (hp : arrangement.Perm group) :
    ∃ x span, arrangement.getLast? = some x ∧ x ∈ group ∧ s.trial o x = .ok span ∧
      s.rehearsal o arrangement = some span.finish := by
  obtain ⟨spans, htrial⟩ := exists_trials hpos hd hg
  have hne := (hg.of_perm hp).ne_nil
  have hx := hp.subset (List.getLast_mem hne)
  have hlast := List.getLast?_eq_some_getLast hne
  exact ⟨_, _, hlast, hx, htrial _ hx, rehearsal_eq htrial hlast hx⟩

/-- The last task of an arrangement ends no earlier than it would as the next one, and then exactly if
the others leave it there. -/
theorem lastCommit_leads {E : Fault ℚ → Sketch ℚ → Prop} :
    Leads (each (commit o) group) s (fun _ r => Committed o rank group s r ∧
      ∀ x span, group.getLast? = some x → s.trial o x = .ok span → ∃ t, r.workflow.find? x = some t ∧
        span.finish ≤ t.plannedFinish ∧ (t.plannedFinish = span.finish ↔ s.Unmet o r group)) E := by
  refine commitAll_keeps hpos hd hg.nodup hg.known hg.pending hg.ready
    (I := fun done r => ∀ x span, done.getLast? = some x → s.trial o x = .ok span →
      ∃ t, r.workflow.find? x = some t ∧ span.finish ≤ t.plannedFinish ∧
        (t.plannedFinish = span.finish ↔ s.Unmet o r done))
    (fun done x s' s'' span' t hx _ hs _ hspan' hc ht hends y span hlast hspan => ?_) (by simp)
  obtain rfl : x = y := by simpa using hlast
  have hunmet : s.Unmet o s'' (done ++ [x]) ↔ s'.Avoids done span := by
    rw [← hc.grown.avoids_iff hs.estimated]
    unfold Unmet
    rw [List.dropLast_concat]
    refine ⟨fun h => h x span hlast hspan, fun h y other hy hother => ?_⟩
    obtain rfl := Option.some.inj (hlast.symm.trans hy)
    obtain rfl := Except.ok.inj (hspan.symm.trans hother)
    exact h
  rw [hunmet]
  refine ⟨t, ht, ?_⟩
  rw [finish_of_ends hends]
  rcases hs.trial hpos hd (hg.known x hx) (hg.ready x hx) hspan hspan' with ⟨ha, rfl⟩ | ⟨ha, hlt⟩
  · exact ⟨le_refl _, fun _ => ha, fun _ => rfl⟩
  · exact ⟨hlt.le, fun he => absurd he hlt.ne', fun h => absurd h ha⟩

/-- Where tasks of a group stand as their own trials found, they avoid the trials of all others. -/
theorem Apart.avoids (ha : s.Apart o group) (hsub : xs ⊆ group)
    (hends : ∀ y ∈ xs, ∀ a, s.trial o y = .ok a → ∃ t, s'.workflow.find? y = some t ∧ t.ends = a.ends)
    (hx : x ∈ group) (hxs : x ∉ xs) (hspan : s.trial o x = .ok span) : s'.Avoids xs span := by
  intro y hy t ht
  obtain ⟨spans, htrial⟩ := exists_trials hpos hd hg
  have hspan' := htrial y (hsub hy)
  obtain ⟨u, hu, he⟩ := hends y hy _ hspan'
  obtain rfl := Option.some.inj (hu.symm.trans ht)
  rw [he]
  exact ha y (hsub hy) x hx (fun e => hxs (e ▸ hy)) _ _ hspan' hspan

/-- Tasks whose trials share no instant are estimated as each would be as the next one. -/
theorem apartCommit_leads {E : Fault ℚ → Sketch ℚ → Prop} (ha : s.Apart o group) :
    Leads (each (commit o) group) s (fun _ r => Committed o rank group s r ∧
      ∀ x ∈ group, ∀ span, s.trial o x = .ok span → ∃ t, r.workflow.find? x = some t ∧
        t.ends = span.ends) E := by
  refine (commitAll_keeps hpos hd hg.nodup hg.known hg.pending hg.ready
    (I := fun done r => done ⊆ group ∧ ∀ x ∈ done, ∀ span, s.trial o x = .ok span →
      ∃ t, r.workflow.find? x = some t ∧ t.ends = span.ends)
    (fun done x s' s'' span' t hx hxd hs hdone hspan' hc ht hends => ?_) (by simp)).mono
    (fun _ _ h => ⟨h.1, h.2.2⟩) fun _ _ h => h
  obtain ⟨hsub, hdone⟩ := hdone
  refine ⟨List.append_subset.2 ⟨hsub, by simpa using hx⟩, fun y hy span hspan => ?_⟩
  rcases List.mem_append.1 hy with hy | hy
  · obtain ⟨u, hu, he⟩ := hdone y hy span hspan
    obtain ⟨v, hv, hest⟩ := hs.estimated y hy
    obtain rfl := Option.some.inj (hu.symm.trans hv)
    exact ⟨u, hc.grown.tasks y u hu hest, he⟩
  · obtain rfl := List.mem_singleton.1 hy
    have hav := ha.avoids hpos hd hg hsub hdone hx hxd hspan
    rcases hs.trial hpos hd (hg.known y hx) (hg.ready y hx) hspan hspan' with ⟨-, rfl⟩ | ⟨hn, -⟩
    · exact ⟨t, ht, hends⟩
    · exact absurd hav hn

/-- Tasks whose trials share no instant do not meet. -/
theorem Apart.unmet (ha : s.Apart o group) {r : Sketch ℚ} (hr : each (commit o) group s = .ok () r) :
    s.Unmet o r group := by
  obtain ⟨-, hends⟩ := (apartCommit_leads (E := fun _ _ => True) hpos hd hg ha).of_ok hr
  intro x span hlast hspan
  have hn := hg.nodup
  rw [← List.dropLast_append_getLast? x hlast, ← List.concat_eq_append, List.nodup_concat] at hn
  have hsub := List.dropLast_subset group
  exact ha.avoids hpos hd hg hsub (fun y hy => hends y (hsub hy)) (List.mem_of_getLast? hlast)
    hn.1 hspan

/-- No arrangement ends before it does in rehearsal, and it ends then exactly if it is not met. -/
theorem exists_ending {arrangement : List ℤ} (hp : arrangement.Perm group) :
    ∃ e v r, s.rehearsal o arrangement = some e ∧ each (commit o) arrangement s = .ok () r ∧
      r.ending arrangement = some v ∧ e ≤ v ∧ (v = e ↔ s.Unmet o r arrangement) ∧
      (s.Apart o group → s.Unmet o r arrangement) := by
  have hg' := hg.of_perm hp
  obtain ⟨x, span, hlast, hx, hspan, he⟩ := exists_rehearsal hpos hd hg hp
  obtain ⟨_, r, hr, -, hends⟩ := (lastCommit_leads (E := fun _ _ => False) hpos hd hg').exists_ok
  obtain ⟨t, ht, hle, hunmet⟩ := hends x span hlast hspan
  refine ⟨_, _, r, he, hr, by simp [ending, hlast, ht], hle, hunmet, fun ha => ?_⟩
  exact Apart.unmet hpos hd hg' (fun x hx y hy => ha x (hp.subset hx) y (hp.subset hy)) hr

/-- A group is left as committing an arrangement of least rehearsal leaves it. -/
theorem arrange_commits (hwidth : group.length ≤ o.maxWidth) :
    ∃ chosen least r s', (arrangements group.length group).foldl
        (fun best a => (s.rehearsal o a).elim best (sooner best a)) none = some (chosen, least) ∧
      chosen.Perm group ∧ s.rehearsal o chosen = some least ∧
      (∀ other, other.Perm group → ∀ e, s.rehearsal o other = some e → least ≤ e) ∧
      each (commit o) chosen s = .ok () r ∧ arrange o group s = .ok () s' ∧
      s'.workflow = r.workflow ∧ s'.instants = r.instants := by
  obtain ⟨spans, htrial⟩ := exists_trials hpos hd hg
  obtain ⟨before, x, after, hsplit, hp, hbefore, hafter, hfold⟩ := exists_chosen htrial hg.ne_nil
  obtain ⟨r, notes, hr, harrange⟩ := arrange_takes hg.unrelated htrial hpos hwidth hg.ne_nil hfold hp
  have hx : x ∈ group := hp.subset (by simp)
  refine ⟨_, _, r, _, hfold, hp, rehearsal_eq htrial List.getLast?_concat hx, fun other hother e he => ?_,
    hr, harrange, rfl, rfl⟩
  obtain ⟨y, span, hlast, hy, -, -⟩ := exists_rehearsal hpos hd hg hother
  rw [rehearsal_eq htrial hlast hy] at he
  rw [← Option.some.inj he]
  exact le_of_mem_split (f := fun y => (spans y).finish) hbefore hafter y (hsplit ▸ hy)

/-- The committed arrangement is one of least rehearsal, and no arrangement ends before it does in
rehearsal. So the committed one really ends first if it is not met, and only then if any arrangement ends as
early as the least rehearsal. In a group whose trials share no instant every arrangement ends as in
rehearsal. -/
theorem arrange_least (hwidth : group.length ≤ o.maxWidth) :
    ∃ chosen least c r s', chosen.Perm group ∧ each (commit o) chosen s = .ok () r ∧
      arrange o group s = .ok () s' ∧ s'.workflow = r.workflow ∧ s'.instants = r.instants ∧
      s.rehearsal o chosen = some least ∧ s'.ending chosen = some c ∧
      ∀ other, other.Perm group → ∃ e v r', s.rehearsal o other = some e ∧
        each (commit o) other s = .ok () r' ∧ r'.ending other = some v ∧ least ≤ e ∧ e ≤ v ∧
        (v = e ↔ s.Unmet o r' other) ∧ (s.Unmet o r chosen → c ≤ v) ∧
        (v = least → c ≤ v → s.Unmet o r chosen) ∧ (s.Apart o group → v = e ∧ c ≤ v) := by
  obtain ⟨chosen, least, r, s', -, hp, hvalue, hleast, hr, hs', hworkflow, hinstants⟩ :=
    arrange_commits hpos hd hg hwidth
  obtain ⟨e₁, c, r₁, he₁, hr₁, hc, hbelow, hunmet, hapart⟩ := exists_ending hpos hd hg hp
  obtain rfl : r₁ = r := by
    rw [hr] at hr₁
    injection hr₁ with _ h
    exact h.symm
  obtain rfl := Option.some.inj (hvalue.symm.trans he₁)
  refine ⟨chosen, least, c, r₁, s', hp, hr, hs', hworkflow, hinstants, hvalue, ?_, fun other hother => ?_⟩
  · rw [ending, hworkflow]
    exact hc
  · obtain ⟨e, v, r', he, hr', hv, hle, hunmet', hapart'⟩ := exists_ending hpos hd hg hother
    have hlow := hleast other hother e he
    have hfirst : s.Unmet o r₁ chosen → c ≤ v := fun h => hunmet.2 h ▸ hlow.trans hle
    exact ⟨e, v, r', he, hr', hv, hlow, hle, hunmet', hfirst,
      fun hleast hcv => hunmet.1 ((hleast ▸ hcv).antisymm hbelow),
      fun ha => ⟨hunmet'.2 (hapart' ha), hfirst (hapart ha)⟩⟩

end

/-! ## An arrangement that is committed late -/

/-- Tasks 2 and 3 await task 5 next to the critical path 1, 4, 5. Both would start at 8. -/
def crossing : World ℚ where
  workflow :=
    { tasks := [{ id := 1, length := 7, children := [3, 4] },
        { id := 2, length := 1, latency := 8, children := [5] },
        { id := 3, length := 2, latency := 1, parents := [1], children := [5] },
        { id := 4, length := 100, latency := 4, parents := [1], children := [5] },
        { id := 5, length := 1, latency := 1, parents := [2, 3, 4] }]
      nodup := by decide }
  vms := [{ id := 0, mips := 1 }]

/-- What its estimation reads. -/
def crossingOutlook : Outlook ℚ where
  costs := (Costs.ofWorkflow crossing.workflow crossing.vms).toOption.getD ⟨0, {}, {}⟩
  floor := 0
  maxWidth := 8
  warnWidth := 6
  fallback := 1
  critical := [1, 4, 5]

/-- Its sketch once tasks 1 and 4 are estimated, and tasks 2 and 3 are about to be arranged. -/
def crossed : Sketch ℚ :=
  (final? (each (settleCritical crossingOutlook 5) [1, 4]) { toWorld := crossing }).getD
    { toWorld := crossing }

theorem costs_crossing :
    Costs.ofWorkflow crossing.workflow crossing.vms = .ok crossingOutlook.costs := by
  obtain ⟨c, hc⟩ := exists_eq_ok (m := Costs.ofWorkflow crossing.workflow crossing.vms)
    (by decide +kernel)
  rw [crossingOutlook, hc]
  rfl

theorem critical_crossing :
    crossingOutlook.costs.criticalPath crossing.workflow.paths = .ok crossingOutlook.critical :=
  eq_ok_of_toOption (by decide +kernel)

theorem each_crossed : each (settleCritical crossingOutlook 5) [1, 4] { toWorld := crossing } =
    .ok () crossed := by
  have hsome : (final? (each (settleCritical crossingOutlook 5) [1, 4])
    { toWorld := crossing }).isSome = true := by decide +kernel
  obtain ⟨s, hs⟩ := Option.isSome_iff_exists.1 hsome
  rw [of_final? hs, crossed, hs]
  rfl

/-- Task 3 is committed before task 2, which would have ended at 12 the other way round. -/
theorem crossed_arranged_late :
    Costs.ofWorkflow crossing.workflow crossing.vms = .ok crossingOutlook.costs ∧
    crossingOutlook.costs.criticalPath crossing.workflow.paths = .ok crossingOutlook.critical ∧
    each (settleCritical crossingOutlook 5) [1, 4] { toWorld := crossing } = .ok () crossed ∧
    ∃ late early, arrange crossingOutlook [2, 3] crossed = .ok () late ∧
      late.instants = crossed.instants ++ [8, 10, 16, 17] ∧ late.ending [3, 2] = some 17 ∧
      each (commit crossingOutlook) [2, 3] crossed = .ok () early ∧ early.ending [2, 3] = some 12 := by
  refine ⟨costs_crossing, critical_crossing, each_crossed, ?_⟩
  have hlate : (final? (arrange crossingOutlook [2, 3]) crossed).map
      (fun s => (s.instants, s.ending [3, 2])) =
        some (crossed.instants ++ [8, 10, 16, 17], some 17) := by decide +kernel
  have hearly : (final? (each (commit crossingOutlook) [2, 3]) crossed).map
      (fun s => s.ending [2, 3]) = some (some 12) := by decide +kernel
  obtain ⟨late, hl, hlast⟩ := Option.map_eq_some_iff.1 hlate
  obtain ⟨early, he, hfirst⟩ := Option.map_eq_some_iff.1 hearly
  obtain ⟨hinstants, hend⟩ := Prod.mk.inj hlast
  exact ⟨late, early, of_final? hl, hinstants, hend, of_final? he, hfirst⟩

/-- The estimation of the crossing gets there by itself. -/
theorem settled_crossed : ∃ rank, Settled crossingOutlook rank [1, 4] { toWorld := crossing } crossed := by
  have hw : crossing.workflow.Checked := Workflow.check_eq_ok.1 rfl
  obtain ⟨order, -, hr⟩ := hw.topologicalOrder
  have hd : Drawn crossingOutlook (Workflow.place order) { toWorld := crossing } :=
    drawn_of_unestimated (rated_of_costs hw costs_crossing (average_of_criticalPath hw critical_crossing))
      ⟨by decide, by decide⟩ hr fun x t ht => by
        have hall : ∀ t ∈ crossing.workflow.tasks, t.isEstimated = false := by decide
        exact hall t (Workflow.find?_eq_some.1 ht).1
  refine ⟨_, (eachSettled_leads hd fun x hx s' hd' hext => ?_).of_ok each_crossed⟩
  have hid : x ∈ crossing.workflow.ids := by
    have hall : ∀ x ∈ [1, 4], x ∈ crossing.workflow.ids := by decide
    exact hall x hx
  exact settleCritical_leads (by decide +kernel) 5 hd' (hext.ids ▸ hid) (hr.lt_size x hid)

theorem readyGroup_crossed : crossed.ReadyGroup [2, 3] := by
  obtain ⟨rank, hs⟩ := settled_crossed
  refine readyGroup_of_find? [1] (by decide) (by decide) (by decide +kernel) fun y hy => ?_
  obtain rfl := List.mem_singleton.1 hy
  exact hs.estimated 1 (by decide)

/-- Tasks 1 and 3 of the trio would be estimated at different instants. -/
theorem apart_trio : trio.Apart trioOutlook [1, 3] := by
  have hends : ∀ x ∈ [1, 3], (trio.trial trioOutlook x).toOption.map Span.ends =
      some (trioSpan x).ends := by decide +kernel
  have hapart : ∀ x ∈ [1, 3], ∀ y ∈ [1, 3], x ≠ y →
      (trioSpan x).ends.all (· ∉ (trioSpan y).ends) := by decide +kernel
  intro x hx y hy hne a b ha hb i hia hib
  have hax := hends x hx
  have hby := hends y hy
  rw [ha] at hax
  rw [hb] at hby
  have hnot := List.all_eq_true.1 (hapart x hx y hy hne) i (Option.some.inj hax ▸ hia)
  exact of_decide_eq_true hnot (Option.some.inj hby ▸ hib)

theorem readyGroup_trio : trio.ReadyGroup [1, 3] :=
  readyGroup_of_find? [] (by decide) (by decide) (by decide) (by simp)

theorem drawn_trio : ∃ rank, Drawn trioOutlook rank trio := by
  have hw : trio.workflow.Checked := Workflow.check_eq_ok.1 rfl
  obtain ⟨order, -, hr⟩ := hw.topologicalOrder
  have hcosts : Costs.ofWorkflow trio.workflow trio.vms = .ok trioOutlook.costs := by
    obtain ⟨c, hc⟩ := exists_eq_ok (m := Costs.ofWorkflow trio.workflow trio.vms) (by decide +kernel)
    rw [trioOutlook, hc]
    rfl
  have haverage : ∀ t ∈ trio.workflow.tasks, (trioOutlook.costs.average t.id).isOk = true := by
    decide +kernel
  have hnone : ∀ t ∈ trio.workflow.tasks, t.isEstimated = false := by decide
  exact ⟨_, drawn_of_unestimated
    (rated_of_costs hw hcosts fun t ht => exists_eq_ok (haverage t ht)) ⟨by decide, by decide⟩ hr
    fun x t ht => hnone t (Workflow.find?_eq_some.1 ht).1⟩

theorem arrange_least_crossed : (0 < crossingOutlook.fallback ∧
    (∃ rank, Drawn crossingOutlook rank crossed) ∧ crossed.ReadyGroup [2, 3] ∧
    ([2, 3] : List ℤ).length ≤ crossingOutlook.maxWidth ∧
    ∃ chosen least c r s', chosen.Perm [2, 3] ∧
      each (commit crossingOutlook) chosen crossed = .ok () r ∧
      arrange crossingOutlook [2, 3] crossed = .ok () s' ∧ s'.workflow = r.workflow ∧
      s'.instants = r.instants ∧ crossed.rehearsal crossingOutlook chosen = some least ∧
      s'.ending chosen = some c ∧ ∀ other, other.Perm [2, 3] → ∃ e v r',
        crossed.rehearsal crossingOutlook other = some e ∧
        each (commit crossingOutlook) other crossed = .ok () r' ∧ r'.ending other = some v ∧
        least ≤ e ∧ e ≤ v ∧ (v = e ↔ crossed.Unmet crossingOutlook r' other) ∧
        (crossed.Unmet crossingOutlook r chosen → c ≤ v) ∧
        (v = least → c ≤ v → crossed.Unmet crossingOutlook r chosen) ∧
        (crossed.Apart crossingOutlook [2, 3] → v = e ∧ c ≤ v)) ∧
    0 < trioOutlook.fallback ∧ (∃ rank, Drawn trioOutlook rank trio) ∧ trio.ReadyGroup [1, 3] ∧
    ([1, 3] : List ℤ).length ≤ trioOutlook.maxWidth ∧ trio.Apart trioOutlook [1, 3] ∧
    ∃ chosen c s', arrange trioOutlook [1, 3] trio = .ok () s' ∧ s'.ending chosen = some c ∧
      ∀ other, other.Perm [1, 3] → ∃ v r', each (commit trioOutlook) other trio = .ok () r' ∧
        r'.ending other = some v ∧ c ≤ v := by
  have hwidth : ([2, 3] : List ℤ).length ≤ crossingOutlook.maxWidth := by decide
  have hwidth' : ([1, 3] : List ℤ).length ≤ trioOutlook.maxWidth := by decide
  have hpos : 0 < crossingOutlook.fallback := by decide +kernel
  have hpos' : 0 < trioOutlook.fallback := by decide +kernel
  obtain ⟨rank, hs⟩ := settled_crossed
  obtain ⟨rank', hd⟩ := drawn_trio
  refine ⟨⟨hpos, ⟨rank, hs.drawn⟩, readyGroup_crossed, hwidth,
    arrange_least hpos hs.drawn readyGroup_crossed hwidth⟩, hpos', ⟨rank', hd⟩, readyGroup_trio, hwidth',
    apart_trio, ?_⟩
  obtain ⟨chosen, _, c, _, s', -, -, hs', -, -, -, hc, hall⟩ :=
    arrange_least hpos' hd readyGroup_trio hwidth'
  refine ⟨chosen, c, s', hs', hc, fun other hother => ?_⟩
  obtain ⟨_, v, r', -, hr', hv, -, -, -, -, -, hapart⟩ := hall other hother
  exact ⟨v, r', hr', hv, (hapart apart_trio).2⟩

end Sketch

end FlowSched

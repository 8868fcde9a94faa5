import FlowSched.Proofs.Planning.Sketch

/-!
# Estimating every task

A group of ready siblings is rehearsed in every arrangement, and one arrangement is committed. A task
settles once its ancestors have, and a chain of ancestors is no longer than the rank of the task. So
all tasks get estimated, unless a group has too many siblings (`estimateAll_leads`).
-/

namespace FlowSched.Sketch

open Quantity Step

/-! ## Arrangements -/

section

variable {β : Type} {xs : List β}

theorem picks_perm {x : β} {others : List β} (h : (x, others) ∈ picks xs) :
    (x :: others).Perm xs := by
  induction xs generalizing x others with
  | nil => cases h
  | cons a xs ih =>
    rcases List.mem_cons.1 h with h | h
    · obtain ⟨rfl, rfl⟩ := Prod.mk.inj h
      exact .refl _
    · obtain ⟨⟨b, rest⟩, hb, he⟩ := List.mem_map.1 h
      obtain ⟨rfl, rfl⟩ := Prod.mk.inj he
      exact (List.Perm.swap a b rest).trans ((ih hb).cons a)

/-- An arrangement has the same elements. -/
theorem arrangements_perm {n : ℕ} (hn : xs.length = n) {ys : List β} (h : ys ∈ arrangements n xs) :
    ys.Perm xs := by
  induction n generalizing xs ys with
  | zero =>
    rw [List.mem_singleton.1 h, List.eq_nil_of_length_eq_zero hn]
  | succ n ih =>
    obtain ⟨⟨x, others⟩, hx, h⟩ := List.mem_flatMap.1 h
    obtain ⟨zs, hzs, rfl⟩ := List.mem_map.1 h
    have hperm := picks_perm hx
    have hlen := hperm.length_eq
    rw [List.length_cons] at hlen
    exact ((ih (by omega) hzs).cons x).trans hperm

theorem arrangements_ne_nil {n : ℕ} (hn : xs.length = n) : arrangements n xs ≠ [] := by
  induction n generalizing xs with
  | zero => exact List.cons_ne_nil _ _
  | succ n ih =>
    cases xs with
    | nil => cases hn
    | cons x xs =>
      have hrest : arrangements n xs ≠ [] := ih (Nat.succ.inj hn)
      simp [arrangements, picks, hrest]

end

theorem sooner_eq_some (best : Option (List ℤ × ℚ)) (arrangement : List ℤ) (finish : ℚ) :
    ∃ b, sooner best arrangement finish = some b ∧ b.2 ≤ finish ∧ (∀ c, best = some c → b.2 ≤ c.2) ∧
      (b = (arrangement, finish) ∨ best = some b) := by
  cases best with
  | none => exact ⟨_, rfl, le_refl _, by simp, Or.inl rfl⟩
  | some b =>
    unfold sooner
    dsimp only
    split
    · next hlt => exact ⟨_, rfl, le_refl _, fun c hc => Option.some.inj hc ▸ hlt.le, Or.inl rfl⟩
    · next hge => exact ⟨b, rfl, not_lt.1 hge, fun c hc => by rw [Option.some.inj hc], Or.inr rfl⟩

/-- The fault of a group that is too wide, which takes more tasks than the limit. -/
def Conflict (o : Outlook ℚ) (fault : Fault ℚ) (s : Sketch ℚ) : Prop :=
  fault.kind = .conflict ∧ o.maxWidth < s.workflow.size

variable {rank : ℤ → ℕ} {s : Sketch ℚ} {x : ℤ} {o : Outlook ℚ}

section

variable (hpos : 0 < o.fallback) {group : List ℤ}

include hpos

/-- Rehearsing an arrangement estimates nothing for good, and tells when its last task ends. -/
theorem score_leads (hd : Drawn o rank s) {arrangement : List ℤ} (hne : arrangement ≠ [])
    (hids : ∀ x ∈ arrangement, x ∈ s.workflow.ids) (hx : ∀ x ∈ arrangement, ¬ s.Estimated x) :
    Leads (score o arrangement) s (fun finish s' => finish ≠ none ∧ Rehearsed o rank s s')
      (Conflict o) := by
  have hloop := Leads.each_done (f := rehearse o) (E := Conflict o) (l := arrangement)
    (I := fun _ s' => Rehearsed o rank s s')
    (fun done x rest s' hsplit hr => by
      have hxm : x ∈ arrangement := by simp [hsplit]
      exact (rehearse_leads hpos hr.drawn (hr.grown.ids ▸ hids x hxm)
        fun he => hx x hxm (hr.same x he)).mono (fun _ _ h => hr.trans h) fun _ _ h => h) hd.rehearsed
  refine hloop.bind fun _ s' hr => ?_
  rw [leads_bind, leads_get, leads_pure]
  have hlast := hids _ (List.getLast_mem hne)
  rw [← hr.grown.ids] at hlast
  obtain ⟨t, ht⟩ := Workflow.mem_ids.1 hlast
  refine ⟨?_, hr⟩
  simp [List.getLast?_eq_some_getLast hne, ht]

/-- Of the arrangements of a group the search finds one. -/
theorem search_leads (hd : Drawn o rank s) (hne : group ≠ []) (hids : ∀ x ∈ group, x ∈ s.workflow.ids)
    (hx : ∀ x ∈ group, ¬ s.Estimated x) {all : List (List ℤ)} (hall : ∀ a ∈ all, a.Perm group)
    {best : Option (List ℤ × ℚ)} (hbest : ∀ b, best = some b → b.1.Perm group)
    (hsome : best ≠ none ∨ all ≠ []) :
    Leads (search o best all) s (fun found s' => (∃ b, found = some b ∧ b.1.Perm group) ∧
      Rehearsed o rank s s') (Conflict o) := by
  induction all generalizing s best with
  | nil =>
    obtain ⟨b, hb⟩ := Option.ne_none_iff_exists'.1 (hsome.resolve_right fun h => h rfl)
    exact leads_pure.2 ⟨⟨b, hb, hbest b hb⟩, hd.rehearsed⟩
  | cons a rest ih =>
    have ha := hall a List.mem_cons_self
    have hane : a ≠ [] := fun he => hne (by rw [he] at ha; exact ha.nil_eq.symm)
    refine (score_leads hpos hd hane (fun x hxa => hids x (ha.subset hxa))
      fun x hxa => hx x (ha.subset hxa)).bind fun finish s' hs' => ?_
    obtain ⟨hfinish, hr⟩ := hs'
    obtain ⟨finish, rfl⟩ := Option.ne_none_iff_exists'.1 hfinish
    obtain ⟨b, hb, -, -, hfrom⟩ := sooner_eq_some best a finish
    refine (ih hr.drawn (fun x hxg => hr.grown.ids ▸ hids x hxg)
      (fun x hxg he => hx x hxg (hr.same x he)) (fun c hc => hall c (List.mem_cons_of_mem a hc))
      (fun c hc => ?_) (Or.inl (by simp [hb]))).mono (fun _ s'' h => ⟨h.1, hr.trans h.2⟩) fun _ _ h => h
    obtain rfl := Option.some.inj (hb.symm.trans hc)
    rcases hfrom with rfl | hfrom
    · exact ha
    · exact hbest b hfrom

/-- Ready tasks are estimated one after the other, each for the span of its trial. -/
theorem commitAll_keeps {E : Fault ℚ → Sketch ℚ → Prop} {I : List ℤ → Sketch ℚ → Prop}
    (hd : Drawn o rank s) (hn : group.Nodup) (hids : ∀ x ∈ group, x ∈ s.workflow.ids)
    (hx : ∀ x ∈ group, ¬ s.Estimated x) (hready : ∀ x ∈ group, s.Ready x)
    (hI : ∀ done x s' s'' span t, x ∈ group → x ∉ done → Committed o rank done s s' → I done s' →
      s'.trial o x = .ok span → Committed o rank [x] s' s'' → s''.workflow.find? x = some t →
      t.ends = span.ends → I (done ++ [x]) s'') (hstart : I [] s) :
    Leads (each (commit o) group) s (fun _ s' => Committed o rank group s s' ∧ I group s') E :=
  Leads.each_done (I := fun done s' => Committed o rank done s s' ∧ I done s')
    (fun done x rest s' hg hs => by
      obtain ⟨hs, hdone⟩ := hs
      have hxm : x ∈ group := by simp [hg]
      have hxd : x ∉ done := by
        rw [hg, List.nodup_append] at hn
        exact fun hm => hn.2.2 x hm x List.mem_cons_self rfl
      refine (commit_leads hpos hs.drawn (hs.grown.ids ▸ hids x hxm)
        (fun he => (hs.only x he).elim (hx x hxm) hxd) (hs.grown.ready (hready x hxm))).mono
        (fun _ s'' h => ?_) fun _ _ h => h
      obtain ⟨hc, span, t, hspan, ht, hends⟩ := h
      exact ⟨hs.trans hc, hI done x s' s'' span t hxm hxd hs hdone hspan hc ht hends⟩)
    ⟨hd.committed, hstart⟩

/-- A ready group is estimated in some arrangement, unless it is too wide. -/
theorem arrange_leads (hd : Drawn o rank s) (hne : group ≠ []) (hn : group.Nodup)
    (hids : ∀ x ∈ group, x ∈ s.workflow.ids) (hx : ∀ x ∈ group, ¬ s.Estimated x)
    (hready : ∀ x ∈ group, s.Ready x) :
    Leads (arrange o group) s (fun _ s' => Settled o rank group s s') (Conflict o) := by
  have hwidth : group.length ≤ s.workflow.size := by
    simpa [Workflow.ids, Workflow.size] using (List.subperm_of_subset hn hids).length_le
  unfold arrange
  refine Leads.unless (P := fun t => t = s) (fun hlt => leads_throw.2 ⟨rfl, ?_⟩) (fun _ => rfl)
    fun t ht => ?_
  · exact hlt.trans_le (by exact_mod_cast hwidth)
  subst ht
  refine Leads.unless (P := fun s' => Rehearsed o rank t s') (fun _ => leads_modify.2 (hd.note _))
    (fun _ => hd.rehearsed) fun s₁ hr₁ => ?_
  refine (search_leads hpos hr₁.drawn hne (fun x hxg => hr₁.grown.ids ▸ hids x hxg)
    (fun x hxg he => hx x hxg (hr₁.same x he)) (fun a => arrangements_perm rfl) (by simp)
    (Or.inr (arrangements_ne_nil rfl))).bind fun found s₂ hs₂ => ?_
  obtain ⟨⟨⟨arrangement, finish⟩, rfl, hperm⟩, hr₂⟩ := hs₂
  have hr := hr₁.trans hr₂
  have hsub : ∀ x ∈ arrangement, x ∈ group := fun x hxa => hperm.subset hxa
  refine (commitAll_keeps hpos (I := fun _ _ => True) hr.drawn (hperm.nodup_iff.2 hn)
    (fun x hxa => hr.grown.ids ▸ hids x (hsub x hxa))
    (fun x hxa he => hx x (hsub x hxa) (hr.same x he))
    (fun x hxa => hr.grown.ready (hready x (hsub x hxa))) (by simp) trivial).bind fun _ s₃ h₃ => ?_
  obtain ⟨hs₃, -⟩ := h₃
  have hnote := hs₃.drawn.note (.arranged (arrangements group.length group).length arrangement)
  refine leads_modify.2 ⟨hnote.drawn, (hr.grown.trans hs₃.grown).trans hnote.grown, fun x hxg => ?_⟩
  exact hnote.grown.estimated (hs₃.estimated x (hperm.mem_iff.2 hxg))

end

/-! ## Ancestors -/

/-- Tasks that settle one after the other are all estimated. -/
theorem eachSettled_leads {f : ℤ → Step (Fault ℚ) (Sketch ℚ) Unit} (hd : Drawn o rank s) {xs : List ℤ}
    (hf : ∀ x ∈ xs, ∀ s', Drawn o rank s' → Extends s s' →
      Leads (f x) s' (fun _ s'' => Settled o rank [x] s' s'') (Conflict o)) :
    Leads (each f xs) s (fun _ s' => Settled o rank xs s s') (Conflict o) :=
  Leads.each_done (I := fun done s' => Settled o rank done s s')
    (fun _ x _ s' hsplit hs =>
      (hf x (by simp [hsplit]) s' hs.drawn hs.grown).mono (fun _ _ h => hs.trans h) fun _ _ h => h)
    hd.settled

section

variable {ts : List (Task ℚ)}

theorem mem_pendingOf (hts : ∀ u ∈ ts, s.workflow.find? u.id = some u) :
    x ∈ pendingOf ts ↔ x ∈ ts.map Task.id ∧ ¬ s.Estimated x := by
  simp only [pendingOf, List.mem_map, List.mem_filter, Bool.not_eq_true']
  constructor
  · rintro ⟨u, ⟨hu, he⟩, rfl⟩
    refine ⟨⟨u, hu, rfl⟩, fun hest => ?_⟩
    obtain ⟨u', hu', he'⟩ := hest
    rw [hts u hu] at hu'
    rw [← Option.some.inj hu', he] at he'
    cases he'
  · rintro ⟨⟨u, hu, rfl⟩, hest⟩
    exact ⟨u, ⟨hu, Bool.eq_false_iff.2 fun he => hest ⟨u, hts u hu, he⟩⟩, rfl⟩

theorem nodup_pendingOf (hn : (ts.map Task.id).Nodup) : (pendingOf ts).Nodup :=
  hn.sublist (List.filter_sublist.map _)

end

theorem not_estimated {t : Task ℚ} (ht : s.workflow.find? x = some t) (h : t.isEstimated = false) :
    ¬ s.Estimated x := by
  intro hest
  obtain ⟨u, hu, he⟩ := hest
  rw [Option.some.inj (hu.symm.trans ht), h] at he
  cases he

section

variable {t : Task ℚ} {ps : List (Task ℚ)} (ht : s.workflow.find? x = some t)
  (hmap : ps.map Task.id = t.parents) (hfind : ∀ u ∈ ps, s.workflow.find? u.id = some u)

include ht hmap hfind

/-- A task is ready if the parents that are looked up are all estimated. -/
theorem ready_of_parents (h : ∀ u ∈ ps, u.isEstimated = true) : s.Ready x := by
  intro u hu y hy
  rw [Option.some.inj (hu.symm.trans ht), ← hmap] at hy
  obtain ⟨v, hv, rfl⟩ := List.mem_map.1 hy
  exact ⟨v, hfind v hv, h v hv⟩

/-- Pending parents are tasks of a lower rank that are not estimated. -/
theorem Drawn.pendingParents (hd : Drawn o rank s) :
    ∀ y ∈ pendingOf ps, y ∈ s.workflow.ids ∧ ¬ s.Estimated y ∧ rank y < rank x := by
  intro y hy
  obtain ⟨hym, hest⟩ := (mem_pendingOf hfind).1 hy
  obtain ⟨hm, rfl⟩ := Workflow.find?_eq_some.1 ht
  obtain ⟨u, hu, hc⟩ := hd.rated.checked.parent t hm y (hmap ▸ hym)
  obtain ⟨hum, rfl⟩ := Workflow.find?_eq_some.1 hu
  exact ⟨List.mem_map_of_mem hum, hest, hd.ranking.rise u hum t.id hc⟩

/-- Once the pending parents are estimated, all parents are. -/
theorem Settled.ready {s' : Sketch ℚ} (hs' : Settled o rank (pendingOf ps) s s') : s'.Ready x := by
  intro t' ht' y hy
  rw [(Workflow.task_of_kin hs'.grown.kept.kin.workflow ht ht').parents, ← hmap] at hy
  by_cases hest : s.Estimated y
  · exact hs'.grown.estimated hest
  · exact hs'.estimated y ((mem_pendingOf hfind).2 ⟨hy, hest⟩)

end

theorem stillPending_ok {group : List ℤ} (hn : group.Nodup) (hids : ∀ x ∈ group, x ∈ s.workflow.ids) :
    ∃ rest, stillPending s group = .ok rest ∧ rest.Nodup ∧
      ∀ x ∈ rest, x ∈ s.workflow.ids ∧ ¬ s.Estimated x := by
  obtain ⟨ts, hts, hmap⟩ := Workflow.getAll_eq_ok fun y hy => Workflow.mem_ids.1 (hids y hy)
  refine ⟨pendingOf ts, by rw [stillPending, hts, ok_bind], nodup_pendingOf (hmap ▸ hn), fun y hy => ?_⟩
  obtain ⟨hy, hest⟩ := (mem_pendingOf fun u hu => Workflow.find?_of_getAll hts hu).1 hy
  exact ⟨hids y (hmap ▸ hy), hest⟩

theorem isEstimated_ok (hid : x ∈ s.workflow.ids) :
    ∃ b, isEstimated s x = .ok b ∧ (b = true ↔ s.Estimated x) := by
  obtain ⟨t, ht⟩ := Workflow.mem_ids.1 hid
  refine ⟨t.isEstimated, by rw [isEstimated, task, Workflow.get_eq_ok.2 ht, ok_bind], ?_⟩
  refine ⟨fun he => ⟨t, ht, he⟩, fun hest => ?_⟩
  obtain ⟨u, hu, he⟩ := hest
  rwa [Option.some.inj (hu.symm.trans ht)] at he

section

variable (hd : Drawn o rank s)

include hd

/-- A group counts as ready only if each of its tasks is. -/
theorem isReadyGroup_ok {group : List ℤ} (hids : ∀ x ∈ group, x ∈ s.workflow.ids) :
    ∃ b, isReadyGroup s group = .ok b ∧ (b = true → group ≠ [] ∧ ∀ x ∈ group, s.Ready x) := by
  obtain ⟨pss, hpss⟩ := exists_mapM_ok (f := s.parents) (l := group) fun x hx => by
    obtain ⟨t, ht⟩ := Workflow.mem_ids.1 (hids x hx)
    obtain ⟨ps, hps, -, -⟩ := parents_ok hd ht
    exact ⟨ps, hps⟩
  unfold isReadyGroup
  split
  · exact ⟨false, rfl, fun h => by cases h⟩
  · next hlen =>
    rw [hpss, ok_bind]
    refine ⟨_, rfl, fun hall => ⟨fun he => hlen (by simp [he]), fun x hx t ht y hy => ?_⟩⟩
    obtain ⟨ps, hps, hmap, hfind⟩ := parents_ok hd ht
    obtain ⟨ps', hmem, hps'⟩ := mem_mapM_of_mem hpss x hx
    obtain rfl := Except.ok.inj (hps.symm.trans hps')
    rw [← hmap] at hy
    obtain ⟨u, hu, rfl⟩ := List.mem_map.1 hy
    exact ⟨u, hfind u hu, List.all_eq_true.1 hall u (List.mem_flatten.2 ⟨ps, hmem, hu⟩)⟩

theorem siblings_ok {t : Task ℚ} (ht : t ∈ s.workflow.tasks) :
    ∃ sibs, siblings o s t = .ok sibs ∧ sibs.Nodup ∧ ∀ x ∈ sibs, x ∈ s.workflow.ids := by
  unfold siblings
  split
  · next child hchild =>
    obtain ⟨c, hc⟩ := Workflow.mem_ids.1
      (hd.rated.checked.mem_ids_of_child ht (x := child) (by simp [hchild]))
    obtain ⟨ps, hps, hmap, hfind⟩ := parents_ok hd hc
    have hcm := (Workflow.find?_eq_some.1 hc).1
    rw [hps, ok_bind]
    refine ⟨_, rfl, (nodup_pendingOf (hmap ▸ hd.distinct.parents c hcm)).filter _, fun y hy => ?_⟩
    have hy := ((mem_pendingOf hfind).1 (List.mem_of_mem_filter hy)).1
    exact hd.rated.checked.mem_ids_of_parent hcm (hmap ▸ hy)
  · exact ⟨[], rfl, .nil, by simp⟩

end

section

variable (hpos : 0 < o.fallback)

include hpos

/-- A task whose parents are estimated is estimated in the end. -/
theorem finish_leads (hd : Drawn o rank s) (hid : x ∈ s.workflow.ids) (hready : s.Ready x) :
    Leads (do if !(← query (isEstimated · x)) then commit o x) s
      (fun _ s' => Settled o rank [x] s s') (Conflict o) := by
  obtain ⟨b, hb, hest⟩ := isEstimated_ok hid
  rw [leads_bind]
  refine leads_query_ok hb ?_
  cases b with
  | true =>
    exact leads_pure.2 ⟨hd, .refl s, fun y hy => List.mem_singleton.1 hy ▸ hest.1 rfl⟩
  | false =>
    refine (commit_leads hpos hd hid (fun he => ?_) hready).mono (fun _ _ h => h.1.toSettled)
      fun _ _ h => h
    cases hest.2 he

/-- So is a task whose siblings are arranged first, if they are ready. -/
theorem finishGroup_leads (hd : Drawn o rank s) (hid : x ∈ s.workflow.ids) (hready : s.Ready x)
    {sibs : List ℤ} (hn : sibs.Nodup) (hids : ∀ y ∈ sibs, y ∈ s.workflow.ids) :
    Leads (do
      let rest ← query (stillPending · sibs)
      if ← query (isReadyGroup · rest) then arrange o rest
      if !(← query (isEstimated · x)) then commit o x) s
      (fun _ s' => Settled o rank [x] s s') (Conflict o) := by
  obtain ⟨rest, hrest, hrn, hrids⟩ := stillPending_ok (s := s) hn hids
  obtain ⟨b, hb, hgroup⟩ := isReadyGroup_ok hd fun y hy => (hrids y hy).1
  rw [leads_bind]
  refine leads_query_ok hrest ?_
  rw [leads_bind]
  refine leads_query_ok hb ?_
  refine Leads.unless (P := fun s' => Settled o rank [] s s') (fun hbt => ?_) (fun _ => hd.settled)
    fun s₁ hs₁ => ?_
  · obtain ⟨hne, hall⟩ := hgroup hbt
    exact (arrange_leads hpos hd hne hrn (fun y hy => (hrids y hy).1)
      (fun y hy => (hrids y hy).2) hall).mono (fun _ _ h => h.mono (List.nil_subset _)) fun _ _ h => h
  · exact (finish_leads hpos hs₁.drawn (hs₁.grown.ids ▸ hid) (hs₁.grown.ready hready)).mono
      (fun _ _ h => hs₁.trans h) fun _ _ h => h

/-- A task settles if the fuel exceeds its rank. -/
theorem settle_leads (fuel : ℕ) (hd : Drawn o rank s) (hid : x ∈ s.workflow.ids)
    (hfuel : rank x < fuel) :
    Leads (settle o fuel x) s (fun _ s' => Settled o rank [x] s s') (Conflict o) := by
  induction fuel generalizing s x with
  | zero => exact absurd hfuel (Nat.not_lt_zero _)
  | succ fuel ih =>
    obtain ⟨t, ht⟩ := Workflow.mem_ids.1 hid
    obtain ⟨hm, rfl⟩ := Workflow.find?_eq_some.1 ht
    obtain ⟨ps, hps, hmap, hfind⟩ := parents_ok hd ht
    obtain ⟨sibs, hsibs, hsn, hsids⟩ := siblings_ok (o := o) hd hm
    have hpending := hd.pendingParents ht hmap hfind
    have hpids : ∀ y ∈ pendingOf ps, y ∈ s.workflow.ids := fun y hy => (hpending y hy).1
    have hready : ∀ s', Settled o rank (pendingOf ps) s s' → s'.Ready t.id := fun _ hs' =>
      Settled.ready ht hmap hfind hs'
    obtain ⟨b, hb, hgroup⟩ := isReadyGroup_ok hd hpids
    unfold settle
    rw [leads_bind]
    refine leads_query_ok (Workflow.get_eq_ok.2 ht) ?_
    dsimp only
    split
    · rw [leads_bind]
      refine leads_query_ok hps ?_
      rw [leads_bind]
      refine leads_query_ok hsibs ?_
      rw [leads_bind]
      refine leads_query_ok hb ?_
      split
      · next hbt =>
        obtain ⟨hne, hall⟩ := hgroup hbt
        refine (arrange_leads hpos hd hne (nodup_pendingOf (hmap ▸ hd.distinct.parents t hm))
          hpids (fun y hy => (hpending y hy).2.1) hall).bind fun _ s₁ hs₁ => ?_
        refine (finish_leads hpos hs₁.drawn (hs₁.grown.ids ▸ hid) (hready s₁ hs₁)).mono
          (fun _ s₂ hs₂ => (hs₁.trans hs₂).mono ?_) fun _ _ h => h
        exact List.subset_append_right _ _
      · refine (eachSettled_leads (f := settle o fuel) hd fun y hy s' hd' hext => ?_).bind
          fun _ s₁ hs₁ => ?_
        · have hlt := (hpending y hy).2.2
          exact ih hd' (hext.ids ▸ hpids y hy) (by omega)
        · exact (finishGroup_leads hpos hs₁.drawn (hs₁.grown.ids ▸ hid) (hready s₁ hs₁) hsn
            fun y hy => hs₁.grown.ids ▸ hsids y hy).mono
            (fun _ s₂ hs₂ => (hs₁.trans hs₂).mono (List.subset_append_right _ _)) fun _ _ h => h
    · next he =>
      refine leads_pure.2 ⟨hd, .refl s, fun y hy => ?_⟩
      exact List.mem_singleton.1 hy ▸ ⟨t, ht, by simpa using he⟩

theorem settleCritical_leads (fuel : ℕ) (hd : Drawn o rank s) (hid : x ∈ s.workflow.ids)
    (hfuel : rank x < fuel) :
    Leads (settleCritical o fuel x) s (fun _ s' => Settled o rank [x] s s') (Conflict o) := by
  obtain ⟨t, ht⟩ := Workflow.mem_ids.1 hid
  obtain ⟨ps, hps, hmap, hfind⟩ := parents_ok hd ht
  unfold settleCritical
  rw [leads_bind]
  refine leads_query_ok (Workflow.get_eq_ok.2 ht) ?_
  rw [leads_bind]
  refine leads_query_ok hps ?_
  refine Leads.unless (P := fun s' => Settled o rank [] s s') (fun hc => ?_) (fun _ => hd.settled)
    fun s₁ hs₁ => ?_
  · rw [Bool.and_eq_true, Bool.not_eq_true', List.all_eq_true] at hc
    exact (commit_leads hpos hd hid (not_estimated ht hc.1) (ready_of_parents ht hmap hfind hc.2)).mono
      (fun _ _ h => h.1.mono (List.nil_subset _)) fun _ _ h => h
  · exact (settle_leads hpos fuel hs₁.drawn (hs₁.grown.ids ▸ hid) hfuel).mono
      (fun _ _ h => hs₁.trans h) fun _ _ h => h

/-- Every task of an order is estimated, unless a group of siblings is too wide. -/
theorem estimateAll_leads (hd : Drawn o rank s) {order : List ℤ}
    (hlen : s.workflow.size ≤ order.length) (horder : ∀ x ∈ order, x ∈ s.workflow.ids)
    (hcritical : ∀ x ∈ o.critical, x ∈ s.workflow.ids) :
    Leads (estimateAll o order) s (fun _ s' => Settled o rank order s s') (Conflict o) := by
  have hfuel : ∀ x ∈ s.workflow.ids, rank x < order.length := fun x hx =>
    (hd.ranking.lt_size x hx).trans_le hlen
  unfold estimateAll
  refine (eachSettled_leads hd fun x hx s' hd' hext => settleCritical_leads hpos _ hd'
    (hext.ids ▸ hcritical x hx) (hfuel x (hcritical x hx))).bind fun _ s₁ hs₁ => ?_
  refine (eachSettled_leads hs₁.drawn fun x hx s' hd' hext => settle_leads hpos _ hd'
    (hext.ids ▸ hs₁.grown.ids ▸ horder x hx) (hfuel x (horder x hx))).mono
      (fun _ s₂ hs₂ => (hs₁.trans hs₂).mono (List.subset_append_right _ _)) fun _ _ h => h

end

end FlowSched.Sketch

namespace FlowSched

open Quantity

/-- Every task is estimated: behind the floor, for its average time, on instants of its own, and with
its children to start after it has ended. -/
structure Workflow.Estimated (floor : ℚ) (c : Costs ℚ) (w : Workflow ℚ) : Prop where
  estimated : ∀ t ∈ w.tasks, t.isEstimated = true
  floor_le : ∀ t ∈ w.tasks, floor ≤ t.plannedStart
  finish : ∀ t ∈ w.tasks, ∃ a, c.average t.id = .ok a ∧ t.plannedFinish = t.plannedStart + a
  apart : ∀ t ∈ w.tasks, ∀ u ∈ w.tasks, t.id ≠ u.id → t.ends.Disjoint u.ends
  behind : ∀ t ∈ w.tasks, ∀ x ∈ t.children, ∃ u, w.find? x = some u ∧
    t.plannedFinish < u.plannedStart

section

variable {o : Outlook ℚ} {rank : ℤ → ℕ}

/-- Where nothing is estimated yet, there is nothing to keep apart. -/
theorem Sketch.drawn_of_unestimated {s : Sketch ℚ} (h : Rated s.workflow o.costs)
    (hd : s.workflow.Distinct) (hr : s.workflow.Ranking rank)
    (hnone : ∀ x t, s.workflow.find? x = some t → t.isEstimated = false) : Sketch.Drawn o rank s :=
  ⟨h, hd, hr, fun x t ht he => absurd ((hnone x t ht).symm.trans he) Bool.false_ne_true,
    fun x t _ _ ht _ _ he _ => absurd ((hnone x t ht).symm.trans he) Bool.false_ne_true⟩

/-- Once all tasks have settled, the workflow is estimated. -/
theorem Sketch.Settled.workflow_estimated {s₀ s : Sketch ℚ} {order : List ℤ}
    (h : s₀.Settled o rank order s) (hids : ∀ x ∈ s₀.workflow.ids, x ∈ order) :
    s.workflow.Estimated o.floor o.costs := by
  have hd := h.drawn
  have hall : ∀ t ∈ s.workflow.tasks, t.isEstimated = true := by
    intro t ht
    have hid : t.id ∈ s.workflow.ids := List.mem_map_of_mem ht
    obtain ⟨u, hu, he⟩ := h.estimated t.id (hids t.id (h.grown.ids ▸ hid))
    rwa [Option.some.inj ((Workflow.find?_self ht).symm.trans hu)]
  have hfirm : ∀ t ∈ s.workflow.tasks, s.Firm o t := fun t ht =>
    hd.firm t.id t (Workflow.find?_self ht) (hall t ht)
  refine ⟨hall, fun t ht => (hfirm t ht).floor, fun t ht => (hfirm t ht).finish,
    fun t ht u hu hne => ?_, fun t ht x hx => ?_⟩
  · exact hd.apart t.id t u.id u (Workflow.find?_self ht) (Workflow.find?_self hu) hne
      (hall t ht) (hall u hu)
  · obtain ⟨u, hu, hm⟩ := hd.rated.checked.child t ht x hx
    obtain ⟨t', ht', -, hlt⟩ := (hfirm u (Workflow.find?_eq_some.1 hu).1).parents t.id hm
    obtain rfl := Option.some.inj ((Workflow.find?_self ht).symm.trans ht')
    exact ⟨u, hu, hlt⟩

end

/-- No task is to start before its parents. -/
theorem Workflow.Estimated.start_le {floor : ℚ} {c : Costs ℚ} {w : Workflow ℚ} (h : w.Estimated floor c)
    (hr : Rated w c) {t : Task ℚ} (ht : t ∈ w.tasks) :
    ∀ x ∈ t.children, ∃ u, w.find? x = some u ∧ t.plannedStart ≤ u.plannedStart := by
  intro x hx
  obtain ⟨u, hu, hlt⟩ := h.behind t ht x hx
  obtain ⟨a, ha, hfinish⟩ := h.finish t ht
  obtain ⟨a', ha', hnonneg⟩ := hr.average t ht
  obtain rfl := Except.ok.inj (ha.symm.trans ha')
  exact ⟨u, hu, by linarith⟩

end FlowSched

import FlowSched.Proofs.Planning.Estimate
import FlowSched.Proofs.Planning.Later

/-!
# Estimates from a later floor

Two estimations that start a delay apart settle the same tasks in the same order, each task later by the
delay. A task is only estimated once its parents are, so no time is read but those of estimated tasks,
or of tasks that are rehearsed in the same arrangement; and the arrangement that ends first does so
with or without the delay (`estimateAll_later`).
-/

namespace FlowSched

open Quantity Step

/-- The tasks of a list of ids, in both. -/
theorem Workflow.Later.getAll {δ : ℚ} {xs : List ℤ} {w w' : Workflow ℚ} (h : w.Later δ xs w')
    {ids : List ℤ} {ts : List (Task ℚ)} (hts : w.getAll ids = .ok ts) :
    ∃ ts', w'.getAll ids = .ok ts' ∧ List.Forall₂ (Task.Later δ xs) ts ts' := by
  refine mapM_ok_of_forall (fun x t ht => ?_) hts
  rcases h.get x with ⟨u, t', hu, ht', hl⟩ | ⟨hu, -⟩
  · obtain rfl := Except.ok.inj (ht.symm.trans hu)
    exact ⟨t', ht', hl⟩
  · rw [ht] at hu
    cases hu

/-- What is read for an estimation that starts later. -/
def Outlook.delay (δ : ℚ) (o : Outlook ℚ) : Outlook ℚ := { o with floor := o.floor + δ }

namespace Sketch

/-- Sketches of two estimations that start a delay apart. -/
structure Later (δ : ℚ) (xs : List ℤ) (s s' : Sketch ℚ) : Prop where
  world : s.toWorld.Later δ xs s'.toWorld
  instants : s'.instants = s.instants.map (· + δ)

variable {δ : ℚ} {xs ys : List ℤ} {o : Outlook ℚ} {rank : ℤ → ℕ} {s s' : Sketch ℚ} {x : ℤ} {t : Task ℚ}

theorem Later.mono (h : s.Later δ ys s') (hsub : xs ⊆ ys) : s.Later δ xs s' :=
  ⟨⟨h.world.workflow.mono hsub, h.world.vms, h.world.session⟩, h.instants⟩

theorem Later.note (h : s.Later δ xs s') (n n' : Note ℚ) : (s.note n).Later δ xs (s'.note n') :=
  ⟨⟨h.world.workflow, h.world.vms, h.world.session⟩, h.instants⟩

section

variable (h : s.Later δ xs s')

include h

theorem Later.task (ht : s.workflow.find? x = some t) :
    ∃ t', s'.workflow.find? x = some t' ∧ t.Later δ xs t' := by
  have hfind := h.world.workflow.find? x
  rw [ht] at hfind
  generalize s'.workflow.find? x = r' at hfind
  cases hfind with
  | some hl => exact ⟨_, rfl, hl⟩

theorem Later.parents {ps : List (Task ℚ)} (hps : s.parents x = .ok ps) :
    ∃ ps', s'.parents x = .ok ps' ∧ List.Forall₂ (Task.Later δ xs) ps ps' := by
  obtain ⟨t, ht, hps⟩ := bind_eq_ok.1 hps
  obtain ⟨t', ht', hl⟩ := h.task (Workflow.get_eq_ok.1 ht)
  obtain ⟨ps', hps', hall⟩ := h.world.workflow.getAll hps
  refine ⟨ps', ?_, hall⟩
  rw [Sketch.parents, Sketch.task, Workflow.get_eq_ok.2 ht', ok_bind, hl.parents, hps']

/-- A later span collides where the span as it was collides. -/
theorem Later.collides (span : Span ℚ) : s'.collides (span.shift δ) = s.collides span := by
  unfold Sketch.collides
  rw [h.instants, Span.shift_start, Span.shift_finish, Span.taken_map_add, Span.taken_map_add]

/-- A span that starts later goes around the later instants in as many steps. -/
theorem Later.advance {start average step : ℚ} {span : Span ℚ}
    (hspan : Span.advance s.collides step (moves start (latest s.instants) step)
      ⟨start, start + average⟩ = .ok span) :
    Span.advance s'.collides step (moves (start + δ) (latest s'.instants) step)
      ⟨start + δ, start + δ + average⟩ = .ok (span.shift δ) := by
  have hshift := Span.advance_shift h.collides hspan
  rw [Span.shift, add_right_comm] at hshift
  by_cases hne : s.instants = []
  -- without instants the bound on the steps is another, but no step is taken
  · have hfree : s'.collides ⟨start + δ, start + δ + average⟩ = false := by
      unfold Sketch.collides Span.taken
      rw [h.instants, hne]
      rfl
    rwa [Span.advance_of_free hfree] at hshift ⊢
  · rwa [h.instants, latest_map_add δ hne, moves_add]

omit h in
/-- What starts behind later parents, or on a later floor, starts later. -/
theorem start_later (ps : List (Task ℚ)) (floor : ℚ) :
    (latest? ((ps.map (Task.delay δ)).map Task.plannedFinish)).getD (floor + δ) =
      (latest? (ps.map Task.plannedFinish)).getD floor + δ := by
  have hfinishes : (ps.map (Task.delay δ)).map Task.plannedFinish =
      (ps.map Task.plannedFinish).map (· + δ) := by
    rw [List.map_map, List.map_map]
    rfl
  rw [hfinishes, latest?_map_add]
  cases latest? (ps.map Task.plannedFinish) <;> rfl

/-- A trial behind planned parents finds a later span. -/
theorem Later.trial {span : Span ℚ} {ps : List (Task ℚ)} (hps : s.parents x = .ok ps)
    (hknown : ∀ u ∈ ps, u.isEstimated = true ∨ u.id ∈ xs) (hspan : s.trial o x = .ok span) :
    s'.trial (o.delay δ) x = .ok (span.shift δ) := by
  obtain ⟨t, ht, hspan⟩ := bind_eq_ok.1 hspan
  obtain ⟨ps₁, hps₁, hspan⟩ := bind_eq_ok.1 hspan
  obtain rfl := Except.ok.inj (hps.symm.trans hps₁)
  obtain ⟨average, havg, hspan⟩ := bind_eq_ok.1 hspan
  obtain ⟨t', ht', hl⟩ := h.task (Workflow.get_eq_ok.1 ht)
  obtain ⟨ps', hps', hall⟩ := h.parents hps
  obtain rfl := Task.eq_map_delay hall hknown
  have hstep : evasion (o.delay δ) t' = evasion o t := by
    unfold evasion
    rw [hl.latency]
    rfl
  have hfloor : (o.delay δ).floor = o.floor + δ := rfl
  generalize hbegin : (latest? (ps.map Task.plannedFinish)).getD o.floor = start at hspan
  have hadv : Span.advance s.collides (evasion o t) (moves start (latest s.instants) (evasion o t))
      ⟨start, start + average⟩ = .ok span := by
    dsimp only at hspan
    split at hspan
    · next found hfound => rw [hfound, Except.ok.inj hspan]
    · cases hspan
  unfold Sketch.trial
  rw [Sketch.task, Workflow.get_eq_ok.2 ht', ok_bind, hps', ok_bind]
  show (o.costs.average x >>= _) = _
  rw [havg, ok_bind]
  dsimp only
  rw [hfloor, start_later, hbegin, hstep, h.advance hadv]

/-- A later estimate counts from then on. -/
theorem Later.write (x : ℤ) (span : Span ℚ) :
    (s.write x span).Later δ (xs ++ [x]) (s'.write x (span.shift δ)) where
  world := ⟨h.world.workflow.modify x (fun _ => rfl) (fun _ => rfl)
      (fun _ _ ht _ => ht.redate _ span.start span.finish) fun _ hy hne =>
        (List.mem_append.1 hy).resolve_right fun hm => hne (List.mem_singleton.1 hm),
    h.world.vms, h.world.session⟩
  instants := h.instants

/-- A later estimate for good. -/
theorem Later.confirm (x : ℤ) (span : Span ℚ) :
    (s.confirm x span).Later δ xs (s'.confirm x (span.shift δ)) where
  world := by
    have hwrite := (h.write x span).world
    refine ⟨hwrite.workflow.modify x (fun _ => rfl) (fun _ => rfl) (fun t t' ht hx => ?_)
      fun _ hy _ => List.mem_append_left _ hy, hwrite.vms, hwrite.session⟩
    rw [ht.delay (Or.inr (hx ▸ List.mem_append_right _ (List.mem_singleton.2 rfl)))]
    exact Task.later_delay δ xs { t with isEstimated := true }
  instants := by
    show s'.instants ++ [span.start + δ, span.finish + δ] =
      (s.instants ++ [span.start, span.finish]).map (· + δ)
    rw [h.instants, List.map_append]
    rfl

section

variable (hpos : 0 < o.fallback) (hd : Drawn o rank s) (hid : x ∈ s.workflow.ids) (hready : s.Ready x)

include hpos hd hid hready

/-- A task whose parents are estimated takes a later span. -/
theorem Later.exists_trial :
    ∃ span, s.trial o x = .ok span ∧ s'.trial (o.delay δ) x = .ok (span.shift δ) := by
  obtain ⟨t, ht⟩ := Workflow.mem_ids.1 hid
  obtain ⟨span, hspan, -⟩ := trial_ok hpos hd ht
  obtain ⟨ps, hps, hmap, hfind⟩ := parents_ok hd ht
  refine ⟨span, hspan, h.trial hps (fun u hu => Or.inl ?_) hspan⟩
  obtain ⟨v, hv, he⟩ := hready t ht u.id (hmap ▸ List.mem_map_of_mem hu)
  rwa [Option.some.inj ((hfind u hu).symm.trans hv)]

theorem rehearse_later : Both (rehearse o x) s (rehearse (o.delay δ) x) s'
    (fun _ u _ u' => u.Later δ (xs ++ [x]) u') fun e _ e' _ => e' = e := by
  obtain ⟨span, hspan, hspan'⟩ := h.exists_trial hpos hd hid hready
  unfold Both rehearse atomic
  simp only [hspan, hspan', ok_bind]
  exact h.write x span

theorem commit_later : Both (commit o x) s (commit (o.delay δ) x) s'
    (fun _ u _ u' => u.Later δ xs u') fun e _ e' _ => e' = e := by
  obtain ⟨span, hspan, hspan'⟩ := h.exists_trial hpos hd hid hready
  unfold Both commit atomic
  simp only [hspan, hspan', ok_bind]
  exact h.confirm x span

end

end

/-! ## Arrangements -/

/-- An arrangement with a later end. -/
theorem sooner_later (best : Option (List ℤ × ℚ)) (arrangement : List ℤ) (finish : ℚ) :
    sooner (best.map fun b => (b.1, b.2 + δ)) arrangement (finish + δ) =
      (sooner best arrangement finish).map fun b => (b.1, b.2 + δ) := by
  cases best with
  | none => rfl
  | some b =>
    unfold sooner
    simp only [Option.map_some, add_lt_add_iff_right]
    split <;> rfl

section

variable (hpos : 0 < o.fallback) {group : List ℤ}

include hpos

/-- A rehearsed arrangement ends later by the delay. -/
theorem score_later (h : s.Later δ [] s') (hd : Drawn o rank s) {arrangement : List ℤ}
    (hne : arrangement ≠ []) (hids : ∀ x ∈ arrangement, x ∈ s.workflow.ids)
    (hx : ∀ x ∈ arrangement, ¬ s.Estimated x) (hready : ∀ x ∈ arrangement, s.Ready x) :
    Both (score o arrangement) s (score (o.delay δ) arrangement) s'
      (fun f u f' u' => f' = f.map (· + δ) ∧ u.Later δ [] u') fun e _ e' _ => e' = e := by
  have hloop := Both.each (f := rehearse o) (g := rehearse (o.delay δ)) (E := fun e _ e' _ => e' = e)
    (l := arrangement) (I := fun rest u u' => ∃ done, arrangement = done ++ rest ∧
      Rehearsed o rank s u ∧ u.Later δ done u')
    (fun x rest u u' hI => by
      obtain ⟨done, hsplit, hr, hl⟩ := hI
      have hxm : x ∈ arrangement := by simp [hsplit]
      have hxu : x ∈ u.workflow.ids := hr.grown.ids ▸ hids x hxm
      refine ((rehearse_later hl hpos hr.drawn hxu (hr.grown.ready (hready x hxm))).with_leads
        (rehearse_leads hpos (E := fun _ _ => True) hr.drawn hxu fun he => hx x hxm (hr.same x he))).mono
          (fun _ v _ v' hv => ?_) fun _ _ _ _ he => he
      exact ⟨done ++ [x], by simp [hsplit], hr.trans hv.2, hv.1⟩)
    ⟨[], rfl, hd.rehearsed, h⟩
  refine hloop.bind fun _ u _ u' hu => ?_
  obtain ⟨done, hsplit, hr, hl⟩ := hu
  rw [List.append_nil] at hsplit
  subst hsplit
  refine get_both.2 (both_pure.2 ⟨?_, hl.mono (List.nil_subset _)⟩)
  have hlast := List.getLast_mem hne
  obtain ⟨t, ht⟩ := Workflow.mem_ids.1 (hr.grown.ids ▸ hids _ hlast)
  obtain ⟨t', ht', htl⟩ := hl.task ht
  rw [List.getLast?_eq_some_getLast hne, Option.bind_some, Option.bind_some, ht, ht',
    htl.delay (Or.inr ((Workflow.find?_eq_some.1 ht).2 ▸ hlast))]
  rfl

/-- The search finds the same arrangement. -/
theorem search_later (h : s.Later δ [] s') (hd : Drawn o rank s) (hne : group ≠ [])
    (hids : ∀ x ∈ group, x ∈ s.workflow.ids) (hx : ∀ x ∈ group, ¬ s.Estimated x)
    (hready : ∀ x ∈ group, s.Ready x) {all : List (List ℤ)} (hall : ∀ a ∈ all, a.Perm group)
    (best : Option (List ℤ × ℚ)) :
    Both (search o best all) s (search (o.delay δ) (best.map fun b => (b.1, b.2 + δ)) all) s'
      (fun found u found' u' => found' = found.map (fun b => (b.1, b.2 + δ)) ∧ u.Later δ [] u')
      fun e _ e' _ => e' = e := by
  induction all generalizing s s' best with
  | nil => exact both_pure.2 ⟨rfl, h⟩
  | cons a rest ih =>
    have ha := hall a List.mem_cons_self
    have hane : a ≠ [] := fun he => hne (by rw [he] at ha; exact ha.nil_eq.symm)
    refine ((score_later hpos h hd hane (fun x hxa => hids x (ha.subset hxa))
      (fun x hxa => hx x (ha.subset hxa)) fun x hxa => hready x (ha.subset hxa)).with_leads
        (score_leads hpos hd hane (fun x hxa => hids x (ha.subset hxa))
          fun x hxa => hx x (ha.subset hxa))).bind fun f u f' u' hu => ?_
    obtain ⟨⟨rfl, hl⟩, hfinish, hr⟩ := hu
    obtain ⟨finish, rfl⟩ := Option.ne_none_iff_exists'.1 hfinish
    show Both (search o (sooner best a finish) rest) u
      (search (o.delay δ) (sooner (best.map fun b => (b.1, b.2 + δ)) a (finish + δ)) rest) u' _ _
    rw [sooner_later]
    exact ih hl hr.drawn (fun x hxg => hr.grown.ids ▸ hids x hxg)
      (fun x hxg he => hx x hxg (hr.same x he)) (fun x hxg => hr.grown.ready (hready x hxg))
      (fun c hc => hall c (List.mem_cons_of_mem a hc)) _

/-- Ready tasks are estimated one after the other. -/
theorem commitAll_later (h : s.Later δ xs s') (hd : Drawn o rank s) (hn : group.Nodup)
    (hids : ∀ x ∈ group, x ∈ s.workflow.ids) (hx : ∀ x ∈ group, ¬ s.Estimated x)
    (hready : ∀ x ∈ group, s.Ready x) :
    Both (each (commit o) group) s (each (commit (o.delay δ)) group) s'
      (fun _ u _ u' => u.Later δ xs u') fun e _ e' _ => e' = e := by
  refine (Both.each (f := commit o) (g := commit (o.delay δ)) (l := group)
    (I := fun rest u u' => u.Later δ xs u' ∧ Drawn o rank u ∧ rest.Nodup ∧
      ∀ x ∈ rest, x ∈ u.workflow.ids ∧ ¬ u.Estimated x ∧ u.Ready x)
    (fun x rest u u' hI => ?_) ⟨h, hd, hn, fun x hxg => ⟨hids x hxg, hx x hxg, hready x hxg⟩⟩).mono
      (fun _ _ _ _ hu => hu.1) fun _ _ _ _ he => he
  obtain ⟨hl, hdu, hnodup, hrest⟩ := hI
  obtain ⟨hxid, hxn, hxr⟩ := hrest x List.mem_cons_self
  obtain ⟨hnew, hnodup⟩ := List.nodup_cons.1 hnodup
  refine ((commit_later hl hpos hdu hxid hxr).with_leads
    (commit_leads hpos (E := fun _ _ => True) hdu hxid hxn hxr)).mono (fun _ v _ v' hv => ?_)
      fun _ _ _ _ he => he
  obtain ⟨hlv, hs, -⟩ := hv
  refine ⟨hlv, hs.drawn, hnodup, fun y hy => ?_⟩
  obtain ⟨hyid, hyn, hyr⟩ := hrest y (List.mem_cons_of_mem x hy)
  refine ⟨hs.grown.ids ▸ hyid, fun he => ?_, hs.grown.ready hyr⟩
  rcases hs.only y he with he | he
  · exact hyn he
  · exact hnew (List.mem_singleton.1 he ▸ hy)

/-- A ready group is estimated in the same arrangement, or refused alike. -/
theorem arrange_later (h : s.Later δ [] s') (hd : Drawn o rank s) (hne : group ≠ []) (hn : group.Nodup)
    (hids : ∀ x ∈ group, x ∈ s.workflow.ids) (hx : ∀ x ∈ group, ¬ s.Estimated x)
    (hready : ∀ x ∈ group, s.Ready x) :
    Both (arrange o group) s (arrange (o.delay δ) group) s'
      (fun _ u _ u' => u.Later δ [] u' ∧ Settled o rank group s u) fun e _ e' _ => e' = e := by
  refine Both.with_leads ?_ (arrange_leads hpos hd hne hn hids hx hready)
  unfold arrange
  refine Both.unless (P := fun t t' => t = s ∧ t' = s') Iff.rfl (fun _ => both_throw.2 rfl)
    (fun _ => ⟨rfl, rfl⟩) fun t t' ht => ?_
  obtain ⟨rfl, rfl⟩ := ht
  refine Both.unless (P := fun u u' => Rehearsed o rank t u ∧ u.Later δ [] u') Iff.rfl
    (fun _ => both_modify.2 ⟨hd.note _, h.note _ _⟩) (fun _ => ⟨hd.rehearsed, h⟩) fun u u' hu => ?_
  obtain ⟨hr, hl⟩ := hu
  have hids' : ∀ x ∈ group, x ∈ u.workflow.ids := fun x hxg => hr.grown.ids ▸ hids x hxg
  have hx' : ∀ x ∈ group, ¬ u.Estimated x := fun x hxg he => hx x hxg (hr.same x he)
  have hready' : ∀ x ∈ group, u.Ready x := fun x hxg => hr.grown.ready (hready x hxg)
  refine ((search_later hpos hl hr.drawn hne hids' hx' hready' (fun a => arrangements_perm rfl)
    none).with_leads (search_leads hpos hr.drawn hne hids' hx' (fun a => arrangements_perm rfl) (by simp)
      (Or.inr (arrangements_ne_nil rfl)))).bind fun found v found' v' hv => ?_
  obtain ⟨⟨rfl, hlv⟩, ⟨⟨arrangement, finish⟩, rfl, hperm⟩, hrv⟩ := hv
  have hsub : ∀ x ∈ arrangement, x ∈ group := fun x hxa => hperm.subset hxa
  refine (commitAll_later hpos hlv hrv.drawn (hperm.nodup_iff.2 hn)
    (fun x hxa => hrv.grown.ids ▸ hids' x (hsub x hxa))
    (fun x hxa he => hx' x (hsub x hxa) (hrv.same x he))
    fun x hxa => hrv.grown.ready (hready' x (hsub x hxa))).bind fun _ z _ z' hz => ?_
  exact both_modify.2 (hz.note _ _)

end

/-! ## Ancestors -/

/-- Tasks that settle one after the other settle later one after the other. -/
theorem eachSettled_later {f g : ℤ → Step (Fault ℚ) (Sketch ℚ) Unit} (h : s.Later δ [] s')
    (hd : Drawn o rank s) {xs : List ℤ}
    (hf : ∀ x ∈ xs, ∀ u u', u.Later δ [] u' → Drawn o rank u → Extends s u →
      Both (f x) u (g x) u' (fun _ v _ v' => v.Later δ [] v' ∧ Settled o rank [x] u v)
        fun e _ e' _ => e' = e) :
    Both (each f xs) s (each g xs) s' (fun _ u _ u' => u.Later δ [] u' ∧ Settled o rank xs s u)
      fun e _ e' _ => e' = e := by
  refine (Both.each (l := xs) (I := fun rest u u' => u.Later δ [] u' ∧
    ∃ done, xs = done ++ rest ∧ Settled o rank done s u) (fun x rest u u' hI => ?_)
      ⟨h, [], rfl, hd.settled⟩).mono (fun _ u _ u' hu => ?_) fun _ _ _ _ he => he
  · obtain ⟨hl, done, hxs, hs⟩ := hI
    refine (hf x (by simp [hxs]) u u' hl hs.drawn hs.grown).mono (fun _ v _ v' hv => ?_)
      fun _ _ _ _ he => he
    exact ⟨hv.1, done ++ [x], by simp [hxs], hs.trans hv.2⟩
  · obtain ⟨hl, done, hxs, hs⟩ := hu
    rw [List.append_nil] at hxs
    exact ⟨hl, hxs ▸ hs⟩

section

variable {ts ts' : List (Task ℚ)} (hts : List.Forall₂ (Task.Later δ xs) ts ts')

include hts

theorem pendingOf_later : pendingOf ts' = pendingOf ts := by
  induction hts with
  | nil => rfl
  | cons ht _ ih =>
    unfold pendingOf at ih ⊢
    rw [List.filter_cons, List.filter_cons, ht.isEstimated]
    split
    · rw [List.map_cons, List.map_cons, ht.id, ih]
    · exact ih

theorem all_isEstimated_later : ts'.all Task.isEstimated = ts.all Task.isEstimated := by
  induction hts with
  | nil => rfl
  | cons ht _ ih => rw [List.all_cons, List.all_cons, ht.isEstimated, ih]

end

section

variable (h : s.Later δ xs s')

include h

theorem isEstimated_later {b : Bool} (hb : isEstimated s x = .ok b) : isEstimated s' x = .ok b := by
  obtain ⟨t, ht, hb⟩ := bind_eq_ok.1 hb
  obtain ⟨t', ht', hl⟩ := h.task (Workflow.get_eq_ok.1 ht)
  rw [isEstimated, task, Workflow.get_eq_ok.2 ht', ok_bind, hl.isEstimated]
  exact hb

theorem stillPending_later {group rest : List ℤ} (hrest : stillPending s group = .ok rest) :
    stillPending s' group = .ok rest := by
  obtain ⟨ts, hts, hrest⟩ := bind_eq_ok.1 hrest
  obtain ⟨ts', hts', hall⟩ := h.world.workflow.getAll hts
  rw [stillPending, hts', ok_bind, pendingOf_later hall]
  exact hrest

theorem siblings_later {t t' : Task ℚ} (ht : t.Later δ xs t') {sibs : List ℤ}
    (hsibs : siblings o s t = .ok sibs) : siblings (o.delay δ) s' t' = .ok sibs := by
  unfold siblings at hsibs ⊢
  rw [ht.children]
  split at hsibs
  · obtain ⟨ps, hps, hsibs⟩ := bind_eq_ok.1 hsibs
    obtain ⟨ps', hps', hall⟩ := h.parents hps
    rw [hps', ok_bind, pendingOf_later hall]
    exact hsibs
  · exact hsibs

theorem isReadyGroup_later {group : List ℤ} {b : Bool} (hb : isReadyGroup s group = .ok b) :
    isReadyGroup s' group = .ok b := by
  unfold isReadyGroup at hb ⊢
  by_cases hlen : group.length ≤ 1
  · rwa [if_pos hlen] at hb ⊢
  · rw [if_neg hlen] at hb ⊢
    obtain ⟨pss, hpss, hb⟩ := bind_eq_ok.1 hb
    obtain ⟨pss', hpss', hall⟩ := mapM_ok_of_forall (fun _ _ hps => h.parents hps) hpss
    rw [hpss', ok_bind, all_isEstimated_later (List.rel_flatten hall)]
    exact hb

end

section

variable (hpos : 0 < o.fallback)

include hpos

/-- A task whose parents are estimated is estimated in the end. -/
theorem finish_later (h : s.Later δ [] s') (hd : Drawn o rank s) (hid : x ∈ s.workflow.ids)
    (hready : s.Ready x) :
    Both (do if !(← query (isEstimated · x)) then commit o x) s
      (do if !(← query (isEstimated · x)) then commit (o.delay δ) x) s'
      (fun _ u _ u' => u.Later δ [] u' ∧ Settled o rank [x] s u) fun e _ e' _ => e' = e := by
  refine Both.with_leads ?_ (finish_leads hpos hd hid hready)
  obtain ⟨b, hb, -⟩ := isEstimated_ok hid
  refine both_query_ok hb (isEstimated_later h hb) ?_
  cases b with
  | true => exact both_pure.2 h
  | false => exact commit_later h hpos hd hid hready

/-- So is a task whose siblings are arranged first, if they are ready. -/
theorem finishGroup_later (h : s.Later δ [] s') (hd : Drawn o rank s) (hid : x ∈ s.workflow.ids)
    (hready : s.Ready x) {sibs : List ℤ} (hn : sibs.Nodup) (hids : ∀ y ∈ sibs, y ∈ s.workflow.ids) :
    Both (do
      let rest ← query (stillPending · sibs)
      if ← query (isReadyGroup · rest) then arrange o rest
      if !(← query (isEstimated · x)) then commit o x) s
      (do
        let rest ← query (stillPending · sibs)
        if ← query (isReadyGroup · rest) then arrange (o.delay δ) rest
        if !(← query (isEstimated · x)) then commit (o.delay δ) x) s'
      (fun _ u _ u' => u.Later δ [] u' ∧ Settled o rank [x] s u) fun e _ e' _ => e' = e := by
  refine Both.with_leads ?_ (finishGroup_leads hpos hd hid hready hn hids)
  obtain ⟨rest, hrest, hrn, hrids⟩ := stillPending_ok (s := s) hn hids
  obtain ⟨b, hb, hgroup⟩ := isReadyGroup_ok hd fun y hy => (hrids y hy).1
  refine both_query_ok hrest (stillPending_later h hrest) (both_query_ok hb (isReadyGroup_later h hb) ?_)
  refine Both.unless (P := fun u u' => u.Later δ [] u' ∧ Settled o rank [] s u) Iff.rfl (fun hbt => ?_)
    (fun _ => ⟨h, hd.settled⟩) fun u u' hu => ?_
  · obtain ⟨hne, hall⟩ := hgroup hbt
    exact (arrange_later hpos h hd hne hrn (fun y hy => (hrids y hy).1) (fun y hy => (hrids y hy).2)
      hall).mono (fun _ _ _ _ hu => ⟨hu.1, hu.2.mono (List.nil_subset _)⟩) fun _ _ _ _ he => he
  · obtain ⟨hl, hs⟩ := hu
    exact (finish_later hpos hl hs.drawn (hs.grown.ids ▸ hid) (hs.grown.ready hready)).mono
      (fun _ _ _ _ hv => hv.1) fun _ _ _ _ he => he

/-- A task settles later if the fuel exceeds its rank. -/
theorem settle_later (fuel : ℕ) (h : s.Later δ [] s') (hd : Drawn o rank s) (hid : x ∈ s.workflow.ids)
    (hfuel : rank x < fuel) :
    Both (settle o fuel x) s (settle (o.delay δ) fuel x) s'
      (fun _ u _ u' => u.Later δ [] u' ∧ Settled o rank [x] s u) fun e _ e' _ => e' = e := by
  induction fuel generalizing s s' x with
  | zero => exact absurd hfuel (Nat.not_lt_zero _)
  | succ fuel ih =>
    refine Both.with_leads ?_ (settle_leads hpos (fuel + 1) hd hid hfuel)
    obtain ⟨t, ht⟩ := Workflow.mem_ids.1 hid
    obtain ⟨t', ht', htl⟩ := h.task ht
    obtain ⟨hm, rfl⟩ := Workflow.find?_eq_some.1 ht
    obtain ⟨ps, hps, hmap, hfind⟩ := parents_ok hd ht
    obtain ⟨ps', hps', hall⟩ := h.parents hps
    obtain ⟨sibs, hsibs, hsn, hsids⟩ := siblings_ok (o := o) hd hm
    have hpending := hd.pendingParents ht hmap hfind
    have hpids : ∀ y ∈ pendingOf ps, y ∈ s.workflow.ids := fun y hy => (hpending y hy).1
    have hready : ∀ u, Settled o rank (pendingOf ps) s u → u.Ready t.id := fun _ hu =>
      Settled.ready ht hmap hfind hu
    obtain ⟨b, hb, hgroup⟩ := isReadyGroup_ok hd hpids
    unfold settle
    refine both_query_ok (Workflow.get_eq_ok.2 ht) (Workflow.get_eq_ok.2 ht') ?_
    dsimp only
    rw [htl.isEstimated]
    split
    · refine both_query_ok hps hps' (both_query_ok hsibs (siblings_later h htl hsibs) ?_)
      rw [pendingOf_later hall]
      refine both_query_ok hb (isReadyGroup_later h hb) ?_
      split
      · next hbt =>
        obtain ⟨hne, hrall⟩ := hgroup hbt
        refine (arrange_later hpos h hd hne (nodup_pendingOf (hmap ▸ hd.distinct.parents t hm)) hpids
          (fun y hy => (hpending y hy).2.1) hrall).bind fun _ u _ u' hu => ?_
        obtain ⟨hl, hs⟩ := hu
        exact (finish_later hpos hl hs.drawn (hs.grown.ids ▸ hid) (hready u hs)).mono
          (fun _ _ _ _ hv => hv.1) fun _ _ _ _ he => he
      · refine (eachSettled_later (f := settle o fuel) (g := settle (o.delay δ) fuel) h hd
          fun y hy u u' hl hdu hext => ?_).bind fun _ u _ u' hu => ?_
        · have hlt := (hpending y hy).2.2
          exact ih hl hdu (hext.ids ▸ hpids y hy) (by omega)
        · obtain ⟨hl, hs⟩ := hu
          exact (finishGroup_later hpos hl hs.drawn (hs.grown.ids ▸ hid) (hready u hs) hsn
            fun y hy => hs.grown.ids ▸ hsids y hy).mono (fun _ _ _ _ hv => hv.1) fun _ _ _ _ he => he
    · exact both_pure.2 h

theorem settleCritical_later (fuel : ℕ) (h : s.Later δ [] s') (hd : Drawn o rank s)
    (hid : x ∈ s.workflow.ids) (hfuel : rank x < fuel) :
    Both (settleCritical o fuel x) s (settleCritical (o.delay δ) fuel x) s'
      (fun _ u _ u' => u.Later δ [] u' ∧ Settled o rank [x] s u) fun e _ e' _ => e' = e := by
  refine Both.with_leads ?_ (settleCritical_leads hpos fuel hd hid hfuel)
  obtain ⟨t, ht⟩ := Workflow.mem_ids.1 hid
  obtain ⟨t', ht', htl⟩ := h.task ht
  obtain ⟨ps, hps, hmap, hfind⟩ := parents_ok hd ht
  obtain ⟨ps', hps', hall⟩ := h.parents hps
  unfold settleCritical
  refine both_query_ok (Workflow.get_eq_ok.2 ht) (Workflow.get_eq_ok.2 ht') (both_query_ok hps hps' ?_)
  rw [htl.isEstimated, all_isEstimated_later hall]
  refine Both.unless (P := fun u u' => u.Later δ [] u' ∧ Settled o rank [] s u) Iff.rfl (fun hc => ?_)
    (fun _ => ⟨h, hd.settled⟩) fun u u' hu => ?_
  · rw [Bool.and_eq_true, Bool.not_eq_true', List.all_eq_true] at hc
    have hready := ready_of_parents ht hmap hfind hc.2
    exact ((commit_later h hpos hd hid hready).with_leads
      (commit_leads hpos (E := fun _ _ => True) hd hid (not_estimated ht hc.1) hready)).mono
        (fun _ _ _ _ hu => ⟨hu.1, hu.2.1.mono (List.nil_subset _)⟩) fun _ _ _ _ he => he
  · obtain ⟨hl, hs⟩ := hu
    exact (settle_later hpos fuel hl hs.drawn (hs.grown.ids ▸ hid) hfuel).mono (fun _ _ _ _ hv => hv.1)
      fun _ _ _ _ he => he

/-- Every task is estimated later by the delay, or a group of siblings is refused alike. -/
theorem estimateAll_later (h : s.Later δ [] s') (hd : Drawn o rank s) {order : List ℤ}
    (hlen : s.workflow.size ≤ order.length) (horder : ∀ x ∈ order, x ∈ s.workflow.ids)
    (hcritical : ∀ x ∈ o.critical, x ∈ s.workflow.ids) :
    Both (estimateAll o order) s (estimateAll (o.delay δ) order) s'
      (fun _ u _ u' => u.Later δ [] u' ∧ Settled o rank order s u) fun e _ e' _ => e' = e := by
  refine Both.with_leads ?_ (estimateAll_leads hpos hd hlen horder hcritical)
  have hfuel : ∀ x ∈ s.workflow.ids, rank x < order.length := fun x hx =>
    (hd.ranking.lt_size x hx).trans_le hlen
  unfold estimateAll
  refine (eachSettled_later (f := settleCritical o order.length)
    (g := settleCritical (o.delay δ) order.length) h hd fun x hx u u' hl hdu hext => ?_).bind
      fun _ u _ u' hu => ?_
  · exact settleCritical_later hpos _ hl hdu (hext.ids ▸ hcritical x hx) (hfuel x (hcritical x hx))
  · obtain ⟨hl, hs⟩ := hu
    exact (eachSettled_later hl hs.drawn fun x hx v v' hlv hdv hext => settle_later hpos _ hlv hdv
      (hext.ids ▸ hs.grown.ids ▸ horder x hx) (hfuel x (horder x hx))).mono
        (fun _ _ _ _ hv => hv.1) fun _ _ _ _ he => he

end

end Sketch

end FlowSched

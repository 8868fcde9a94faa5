import FlowSched.Proofs.Planning.Ancestors
import FlowSched.Proofs.Planning.Arrangement
import FlowSched.Proofs.Planning.Diary
import FlowSched.Proofs.Planning.Enumeration
import FlowSched.Proofs.Planning.Estimate
import FlowSched.Proofs.Planning.Lineup
import FlowSched.Proofs.Planning.Planner

/-!
# Ancestors first

No task is ever estimated before its ancestors. The recursion climbs along the ranks, so it never runs out
of depth, and a task that it leaves is estimated. Whatever it arranges is a group of tasks beside the
critical path of which none is estimated, all are ready, and none is an ancestor of another: the critical
tasks among the ancestors of a task are estimated before it is called for. So it is in every run, whether it
returns or fails (`Planner.run_keeps_ancestry`).
-/

namespace FlowSched

open Quantity Step

variable {α : Type} [Quantity α]

/-! ## What the diary says -/

namespace Diary

open Sketch

variable {o : Outlook α} {w : Workflow α} {rank : ℤ → ℕ} {d d' d'' : Diary α} {x : ℤ}

/-- What is to be true where something happens. The recursion must never be cut short. -/
def Holds (o : Outlook α) (w : Workflow α) (s : Sketch α) : Happening → Prop
  | .settled x => s.workflow.Marked x
  | .cut _ => False
  | .arranging group => Group o w s group
  | _ => True

/-- Estimated tasks have estimated parents now and in every entry, and all entries hold. -/
structure Sound (o : Outlook α) (w : Workflow α) (d : Diary α) : Prop where
  sane : Sane w d.toSketch
  entries : ∀ e ∈ d.entries, Sane w e.1 ∧ Holds o w e.1 e.2

/-- A sound diary that was continued, with the same tasks estimated. -/
structure Continued (o : Outlook α) (w : Workflow α) (d d' : Diary α) : Prop where
  sound : Sound o w d'
  same : ∀ x, d'.workflow.Marked x ↔ d.workflow.Marked x

/-- A sound diary that was continued by the estimates of some tasks. -/
structure Settled (o : Outlook α) (w : Workflow α) (xs : List ℤ) (d d' : Diary α) : Prop where
  sound : Sound o w d'
  grown : ∀ x, d.workflow.Marked x → d'.workflow.Marked x
  marked : ∀ x ∈ xs, d'.workflow.Marked x

theorem Sound.continued (h : Sound o w d) : Continued o w d d := ⟨h, fun _ => Iff.rfl⟩

theorem Continued.trans (h : Continued o w d d') (h' : Continued o w d' d'') : Continued o w d d'' :=
  ⟨h'.sound, fun x => (h'.same x).trans (h.same x)⟩

theorem Sound.settled (h : Sound o w d) : Settled o w [] d d := ⟨h, fun _ => id, by simp⟩

theorem Settled.trans {xs ys : List ℤ} (h : Settled o w xs d d') (h' : Settled o w ys d' d'') :
    Settled o w (xs ++ ys) d d'' where
  sound := h'.sound
  grown x hx := h'.grown x (h.grown x hx)
  marked x hx := (List.mem_append.1 hx).elim (fun hx => h'.grown x (h.marked x hx)) (h'.marked x)

theorem Settled.mono {xs ys : List ℤ} (h : Settled o w xs d d') (hsub : ys ⊆ xs) :
    Settled o w ys d d' := ⟨h.sound, h.grown, fun x hx => h.marked x (hsub hx)⟩

theorem leads_draw {β : Type} {m : Step (Fault α) (Sketch α) β} {Q : β → Diary α → Prop}
    {E : Fault α → Diary α → Prop} : Leads (draw m) d Q E ↔
      Leads m d.toSketch (fun b s => Q b { d with toSketch := s })
        fun fault s => E fault { d with toSketch := s } := leads_zoom

theorem leads_draw_query {β : Type} {g : Sketch α → Except (Fault α) β} {b : β}
    (hg : g d.toSketch = .ok b) {Q : β → Diary α → Prop} {E : Fault α → Diary α → Prop} (h : Q b d) :
    Leads (draw (query g)) d Q E := leads_draw.2 (leads_query_ok hg h)

/-- A change that keeps ancestors first, with its entry. -/
theorem Sound.change (h : Sound o w d) {s : Sketch α} (hs : Sane w s) {e : Happening}
    (he : Holds o w s e) : Sound o w { toSketch := s, entries := d.entries ++ [(s, e)] } := by
  refine ⟨hs, fun p hp => ?_⟩
  rcases List.mem_append.1 hp with hp | hp
  · exact h.entries p hp
  · rw [List.mem_singleton.1 hp]
    exact ⟨hs, he⟩

theorem Sound.note (h : Sound o w d) (n : Note α) :
    Sound o w { d with toSketch := d.toSketch.note n } := ⟨⟨h.sane.kin, h.sane.ripe⟩, h.entries⟩

theorem rehearse_leads (h : Sound o w d) (x : ℤ) :
    Leads (rehearse o x) d (fun _ d' => Continued o w d d') fun _ d' => Sound o w d' := by
  unfold rehearse
  rw [leads_bind, leads_draw]
  refine leads_atomic.2 ⟨fun s hs => ?_, fun _ _ => h⟩
  obtain ⟨span, -, hs⟩ := bind_eq_ok.1 hs
  obtain rfl := Except.ok.inj hs
  exact ⟨h.change (h.sane.write span) trivial, fun y => marked_write span⟩

/-- A ready task is estimated for good. -/
theorem commit_leads (h : Sound o w d) (hx : x ∈ w.ids) (hr : Ripe w d.toSketch x) :
    Leads (commit o x) d (fun _ d' => Settled o w [x] d d') fun _ d' => Sound o w d' := by
  unfold commit
  rw [leads_bind, leads_draw]
  refine leads_atomic.2 ⟨fun s hs => ?_, fun _ _ => h⟩
  obtain ⟨span, -, hs⟩ := bind_eq_ok.1 hs
  obtain rfl := Except.ok.inj hs
  have hmark : ∀ y, (d.toSketch.confirm x span).workflow.Marked y ↔ d.workflow.Marked y ∨ y = x :=
    fun y => marked_confirm span (Workflow.ids_of_kin h.sane.kin ▸ hx)
  exact ⟨h.change (h.sane.confirm span hx hr) trivial, fun y hy => (hmark y).2 (Or.inl hy),
    fun y hy => (hmark y).2 (Or.inr (List.mem_singleton.1 hy))⟩

/-- Tasks that settle one after the other are all estimated. -/
theorem each_leads {f : ℤ → Step (Fault α) (Diary α) Unit} (h : Sound o w d) {xs : List ℤ}
    (hf : ∀ done x rest d', xs = done ++ x :: rest → Settled o w done d d' →
      Leads (f x) d' (fun _ d'' => Settled o w [x] d' d'') fun _ d'' => Sound o w d'') :
    Leads (each f xs) d (fun _ d' => Settled o w xs d d') fun _ d' => Sound o w d' :=
  Leads.each_done (I := fun done d' => Settled o w done d d')
    (fun done x rest d' hsplit hd => (hf done x rest d' hsplit hd).mono (fun _ _ h => hd.trans h)
      fun _ _ h => h) h.settled

theorem of_sooner {best : Option (List ℤ × α)} {arrangement : List ℤ} {finish : α}
    {p : List ℤ × α} (h : sooner best arrangement finish = some p) :
    best = some p ∨ p = (arrangement, finish) := by
  unfold sooner at h
  split at h
  · split_ifs at h
    exact Or.inr (Option.some.inj h).symm
  · split_ifs at h
    · exact Or.inr (Option.some.inj h).symm
    · exact Or.inl h

/-- Trying arrangements estimates nothing for good. -/
theorem search_leads (h : Sound o w d) (best : Option (List ℤ × α)) (all : List (List ℤ)) :
    Leads (search o best all) d (fun found d' => Continued o w d d' ∧
      ∀ p, found = some p → best = some p ∨ p.1 ∈ all) fun _ d' => Sound o w d' := by
  induction all generalizing best d with
  | nil => exact leads_pure.2 ⟨h.continued, fun p hp => Or.inl hp⟩
  | cons arrangement rest ih =>
    have hscore : Leads (score o arrangement) d (fun _ d' => Continued o w d d')
        fun _ d' => Sound o w d' := by
      unfold score
      rw [leads_bind]
      exact Leads.each (I := fun _ d' => Continued o w d d')
        (fun x _ d' hd' => (rehearse_leads hd'.sound x).mono (fun _ _ h => hd'.trans h) fun _ _ h => h)
        h.continued
    unfold search
    refine hscore.bind fun finish d' hd' => ?_
    cases finish with
    | none =>
      exact (ih hd'.sound best).mono (fun _ d'' hd'' => ⟨hd'.trans hd''.1, fun p hp =>
        (hd''.2 p hp).imp_right (List.mem_cons_of_mem _)⟩) fun _ _ h => h
    | some finish =>
      refine (ih hd'.sound _).mono (fun _ d'' hd'' => ⟨hd'.trans hd''.1, fun p hp => ?_⟩) fun _ _ h => h
      rcases hd''.2 p hp with hbest | hp
      · refine (of_sooner hbest).imp_right fun he => ?_
        rw [he]
        exact List.mem_cons_self
      · exact Or.inr (List.mem_cons_of_mem _ hp)

/-- Arranging a group estimates all of it. -/
theorem arrange_leads (h : Sound o w d) {group : List ℤ} (hg : Group o w d.toSketch group) :
    Leads (arrange o group) d (fun _ d' => Settled o w group d d') fun _ d' => Sound o w d' := by
  unfold arrange
  rw [leads_bind]
  refine leads_modify.2 ?_
  have hentered := h.change h.sane (e := .arranging group) hg
  refine Leads.unless (P := Continued o w d) (fun _ => leads_throw.2 hentered)
    (fun _ => ⟨hentered, fun _ => Iff.rfl⟩) fun d₁ hd₁ => ?_
  refine Leads.unless (P := Continued o w d)
    (fun _ => leads_draw.2 (leads_modify.2 ⟨hd₁.sound.note _, hd₁.same⟩)) (fun _ => hd₁) fun d₂ hd₂ => ?_
  refine (search_leads hd₂.sound none _).bind fun found d₃ hd₃ => ?_
  obtain ⟨hd₃, hfound⟩ := hd₃
  have hsame := (hd₂.trans hd₃).same
  cases found with
  | none => exact leads_throw.2 hd₃.sound
  | some p =>
    have hmem := (hfound p rfl).resolve_left (by simp)
    have hperm : p.1.Perm group := arrangements_perm rfl hmem
    refine (each_leads hd₃.sound fun done x rest d' hsplit hd' => ?_).bind fun _ d₄ hd₄ => ?_
    · have hx : x ∈ group := hperm.subset (by rw [hsplit]; simp)
      exact commit_leads hd'.sound (hg.known x hx)
        ((hg.ripe x hx).mono fun y hy => hd'.grown y ((hsame y).2 hy))
    · exact leads_draw.2 (leads_modify.2 ⟨hd₄.sound.note _, fun y hy => hd₄.grown y ((hsame y).2 hy),
        fun y hy => hd₄.marked y (hperm.symm.subset hy)⟩)

section

variable (hw : w.Woven rank) (hd : w.Distinct)

/-- A task whose parents are estimated is estimated in the end. -/
theorem finish_leads (h : Sound o w d) (hx : x ∈ w.ids) (hr : Ripe w d.toSketch x) :
    Leads (do if !(← draw (query (Sketch.isEstimated · x))) then commit o x) d
      (fun _ d' => Settled o w [x] d d') fun _ d' => Sound o w d' := by
  obtain ⟨b, hb, hmark⟩ := h.sane.isEstimated_ok hx
  rw [leads_bind]
  refine leads_draw_query hb ?_
  cases b with
  | true => exact leads_pure.2 ⟨h, fun _ => id, fun y hy => List.mem_singleton.1 hy ▸ hmark.1 rfl⟩
  | false => exact commit_leads h hx hr

include hw

/-- So is a task whose siblings are arranged first, if they are ready. -/
theorem finishGroup_leads (h : Sound o w d) (hx : x ∈ w.ids) (hr : Ripe w d.toSketch x)
    {sibs : List ℤ} (hn : sibs.Nodup) (hsibs : ∀ y ∈ sibs, y ∈ w.ids ∧ y ∉ o.critical) :
    Leads (do
      let rest ← draw (query (Sketch.stillPending · sibs))
      if ← draw (query (Sketch.isReadyGroup · rest)) then arrange o rest
      if !(← draw (query (Sketch.isEstimated · x))) then commit o x) d
      (fun _ d' => Settled o w [x] d d') fun _ d' => Sound o w d' := by
  obtain ⟨rest, hrest, hrn, hpending⟩ := h.sane.stillPending_ok hn fun y hy => (hsibs y hy).1
  obtain ⟨b, hb, hready⟩ := h.sane.isReadyGroup_ok hw fun y hy => (hsibs y (hpending y hy).1).1
  rw [leads_bind]
  refine leads_draw_query hrest ?_
  rw [leads_bind]
  refine leads_draw_query hb ?_
  refine Leads.unless (P := fun d' => Settled o w [] d d') (fun hbt => ?_) (fun _ => h.settled)
    fun d₁ hd₁ => ?_
  · obtain ⟨htwo, hripe⟩ := hready hbt
    refine (arrange_leads h (h.sane.group htwo hrn hripe fun y hy => ?_)).mono
      (fun _ _ h => h.mono (List.nil_subset _)) fun _ _ h => h
    obtain ⟨hys, hmark⟩ := hpending y hy
    exact ⟨(hsibs y hys).1, hmark, (hsibs y hys).2⟩
  · exact (finish_leads hd₁.sound hx (hr.mono hd₁.grown)).mono (fun _ _ h => hd₁.trans h) fun _ _ h => h

include hd

/-- A task settles if its parents can be settled and its critical ancestors are estimated already. -/
theorem settleBy_leads {f : ℤ → Step (Fault α) (Diary α) Unit} (h : Sound o w d) (hx : x ∈ w.ids)
    (hcritical : ∀ y ∈ o.critical, w.Ancestor y x → d.workflow.Marked y)
    (hf : ∀ y ∈ w.parentsOf x, ∀ d', Settled o w [] d d' →
      Leads (f y) d' (fun _ d'' => Settled o w [y] d' d'') fun _ d'' => Sound o w d'') :
    Leads (settleBy o f x) d (fun _ d' => Settled o w [x] d d') fun _ d' => Sound o w d' := by
  obtain ⟨t, ht⟩ := Workflow.mem_ids.1 (Workflow.ids_of_kin h.sane.kin ▸ hx : x ∈ d.workflow.ids)
  obtain ⟨hm, rfl⟩ := Workflow.find?_eq_some.1 ht
  obtain ⟨ps, hps, hmap, hfind⟩ := h.sane.parents_ok hw hx
  obtain ⟨sibs, hsibs, hsn, hside⟩ := h.sane.siblings_ok (o := o) hw hd hm
  have hpending : ∀ y, y ∈ pendingOf ps ↔ y ∈ w.parentsOf t.id ∧ ¬ d.workflow.Marked y := fun y => by
    rw [mem_pendingOf_iff hfind, hmap]
  have hpids : ∀ y ∈ pendingOf ps, y ∈ w.ids := fun y hy =>
    hw.mem_ids_of_parentsOf ((hpending y).1 hy).1
  -- once the pending parents are estimated, all parents are
  have hripe : ∀ d', Settled o w (pendingOf ps) d d' → Ripe w d'.toSketch t.id := fun d' hd' y hy => by
    by_cases hmark : d.workflow.Marked y
    · exact hd'.grown y hmark
    · exact hd'.marked y ((hpending y).2 ⟨hy, hmark⟩)
  obtain ⟨b, hb, hready⟩ := h.sane.isReadyGroup_ok hw hpids
  unfold settleBy
  rw [leads_bind]
  refine leads_draw_query (Workflow.get_eq_ok.2 ht) ?_
  dsimp only
  split
  · rw [leads_bind]
    refine leads_draw_query hps ?_
    rw [leads_bind]
    refine leads_draw_query hsibs ?_
    rw [leads_bind]
    refine leads_draw_query hb ?_
    split
    · next hbt =>
      obtain ⟨htwo, hall⟩ := hready hbt
      have hn : (pendingOf ps).Nodup := pendingOf_nodup (hmap ▸ hd.nodup_parentsOf t.id)
      refine (arrange_leads h (h.sane.group htwo hn hall fun y hy => ?_)).bind fun _ d₁ hd₁ => ?_
      · -- a critical parent would be estimated
        obtain ⟨hparent, hmark⟩ := (hpending y).1 hy
        exact ⟨hpids y hy, hmark, fun hc => hmark (hcritical y hc (.single hparent))⟩
      · exact (finish_leads hd₁.sound hx (hripe d₁ hd₁)).mono
          (fun _ _ h => (hd₁.trans h).mono (List.subset_append_right _ _)) fun _ _ h => h
    · refine (each_leads (f := f) h fun done y rest d' hsplit hd' => ?_).bind fun _ d₁ hd₁ => ?_
      · have hy : y ∈ pendingOf ps := by rw [hsplit]; simp
        exact hf y ((hpending y).1 hy).1 d' (hd'.mono (List.nil_subset _))
      · exact (finishGroup_leads hw hd₁.sound hx (hripe d₁ hd₁) hsn hside).mono
          (fun _ _ h => (hd₁.trans h).mono (List.subset_append_right _ _)) fun _ _ h => h
  · next he =>
    exact leads_pure.2 ⟨h, fun _ => id, fun y hy => List.mem_singleton.1 hy ▸ ⟨t, ht, by simpa using he⟩⟩

/-- With depth for the rank of a task, its recursion comes to an end, and the task is estimated. -/
theorem settle_leads (fuel : ℕ) (h : Sound o w d) (hx : x ∈ w.ids) (hfuel : rank x < fuel)
    (hcritical : ∀ y ∈ o.critical, w.Ancestor y x → d.workflow.Marked y) :
    Leads (settle o fuel x) d (fun _ d' => Settled o w [x] d d') fun _ d' => Sound o w d' := by
  induction fuel generalizing d x with
  | zero => exact absurd hfuel (Nat.not_lt_zero _)
  | succ fuel ih =>
    unfold settle
    rw [leads_bind]
    refine leads_modify.2 ?_
    have hcalled := h.change h.sane (e := .called x) trivial
    refine (settleBy_leads (f := settle o fuel) hw hd hcalled hx hcritical fun y hy d' hd' => ?_).bind
      fun _ d₁ hd₁ => ?_
    · have hlt := hw.rank_parentsOf hy
      exact ih hd'.sound (hw.mem_ids_of_parentsOf hy) (by omega) fun z hz ha =>
        hd'.grown z (hcritical z hz (ha.tail hy))
    · have hmark := hd₁.marked x (List.mem_singleton_self x)
      exact leads_modify.2 ⟨hd₁.sound.change hd₁.sound.sane hmark, hd₁.grown, hd₁.marked⟩

theorem settleCritical_leads (fuel : ℕ) (h : Sound o w d) (hx : x ∈ w.ids) (hfuel : rank x < fuel)
    (hcritical : ∀ y ∈ o.critical, w.Ancestor y x → d.workflow.Marked y) :
    Leads (settleCritical o fuel x) d (fun _ d' => Settled o w [x] d d') fun _ d' => Sound o w d' := by
  obtain ⟨t, ht⟩ := Workflow.mem_ids.1 (Workflow.ids_of_kin h.sane.kin ▸ hx : x ∈ d.workflow.ids)
  obtain ⟨ps, hps, hmap, hfind⟩ := h.sane.parents_ok hw hx
  unfold settleCritical
  rw [leads_bind]
  refine leads_draw_query (Workflow.get_eq_ok.2 ht) ?_
  rw [leads_bind]
  refine leads_draw_query hps ?_
  refine Leads.unless (P := fun d' => Settled o w [] d d') (fun hc => ?_) (fun _ => h.settled)
    fun d₁ hd₁ => ?_
  · rw [Bool.and_eq_true, List.all_eq_true] at hc
    refine (commit_leads h hx fun y hy => ?_).mono (fun _ _ h => h.mono (List.nil_subset _))
      fun _ _ h => h
    rw [← hmap] at hy
    obtain ⟨u, hu, rfl⟩ := List.mem_map.1 hy
    exact ⟨u, hfind u hu, hc.2 u hu⟩
  · exact (settle_leads hw hd fuel hd₁.sound hx hfuel fun y hy ha =>
      hd₁.grown y (hcritical y hy ha)).mono (fun _ _ h => hd₁.trans h) fun _ _ h => h

/-- Where the critical path climbs along the ranks, every task of an order is estimated after its
ancestors. -/
theorem estimateAll_leads (h : Sound o w d) {order : List ℤ} (hlen : w.size ≤ order.length)
    (horder : ∀ x ∈ order, x ∈ w.ids) (hknown : ∀ x ∈ o.critical, x ∈ w.ids)
    (hclimbs : o.critical.Pairwise fun x y => rank x < rank y) :
    Leads (estimateAll o order) d (fun _ d' => Settled o w order d d') fun _ d' => Sound o w d' := by
  have hfuel : ∀ x ∈ w.ids, rank x < order.length := fun x hx => (hw.lt_size x hx).trans_le hlen
  unfold estimateAll
  refine (each_leads h fun done x rest d' hsplit hd' => ?_).bind fun _ d₁ hd₁ => ?_
  · have hx : x ∈ o.critical := by rw [hsplit]; simp
    refine settleCritical_leads hw hd _ hd'.sound (hknown x hx) (hfuel x (hknown x hx)) fun y hy ha => ?_
    -- a critical ancestor ranks below, and so stands before the task on the path
    have hlt := hw.rank_ancestor ha
    rw [hsplit] at hy hclimbs
    rcases List.mem_append.1 hy with hy | hy
    · exact hd'.marked y hy
    · rcases List.mem_cons.1 hy with rfl | hy
      · exact absurd hlt (lt_irrefl _)
      · have hgt := (List.pairwise_cons.1 (List.pairwise_append.1 hclimbs).2.1).1 y hy
        omega
  · refine (each_leads hd₁.sound fun done x rest d' hsplit hd' => ?_).mono
      (fun _ _ h => (hd₁.trans h).mono (List.subset_append_right _ _)) fun _ _ h => h
    have hx : x ∈ w.ids := horder x (by rw [hsplit]; simp)
    exact settle_leads hw hd _ hd'.sound hx (hfuel x hx) fun y hy _ => hd'.grown y (hd₁.marked y hy)

end

end Diary

/-! ## Whole runs -/

/-- What a diary is to tell of the estimation of a workflow: whenever something happens, and in the end, all
ancestors of the estimated tasks are estimated, and what happens is in order. -/
structure Diary.Orderly (o : Outlook α) (w : Workflow α) (d : Diary α) : Prop where
  now : ∀ x y, w.Ancestor y x → d.workflow.Marked x → d.workflow.Marked y
  entries : ∀ e ∈ d.entries,
    (∀ x y, w.Ancestor y x → e.1.workflow.Marked x → e.1.workflow.Marked y) ∧ Holds o w e.1 e.2

theorem Diary.Sound.orderly {o : Outlook α} {w : Workflow α} {d : Diary α} (h : Sound o w d) :
    Orderly o w d where
  now _ _ := h.sane.ancestor
  entries e he := ⟨fun _ _ => (h.entries e he).1.ancestor, (h.entries e he).2⟩

theorem mem_of_criticalPath {c : Costs α} {paths : List (List ℤ)} {critical : List ℤ}
    (h : c.criticalPath paths = .ok critical) : critical = [] ∨ critical ∈ paths := by
  obtain ⟨best, hbest, h⟩ := bind_eq_ok.1 h
  have hmem : ∀ p, best = some p → p.1 ∈ paths := by
    refine foldlM_keeps (P := fun best => ∀ p, best = some p → p.1 ∈ paths)
      (fun path hpath best best' hb hf p hp => ?_) (fun p hp => by cases hp) hbest
    obtain ⟨cost, -, hf⟩ := bind_eq_ok.1 hf
    rw [← Except.ok.inj hf] at hp
    unfold Costs.costlier at hp
    split at hp
    · split_ifs at hp
      exact Option.some.inj hp ▸ hpath
    · split_ifs at hp
      · exact Option.some.inj hp ▸ hpath
      · exact hb p hp
  cases best with
  | none => exact Or.inl (Except.ok.inj h).symm
  | some p => exact Or.inr (Except.ok.inj h ▸ hmem p rfl)

/-- Allocation leaves alone which tasks count as estimated. -/
theorem Draft.marked_allocateAll (p : Pricing α) (order : List ℤ) (d : Draft α) :
    Leads (allocateAll p order) d
      (fun _ d' => ∀ x, d'.workflow.Marked x ↔ d.workflow.Marked x)
      fun _ d' => ∀ x, d'.workflow.Marked x ↔ d.workflow.Marked x := by
  refine Leads.each (I := fun _ (d' : Draft α) => ∀ x, d'.workflow.Marked x ↔ d.workflow.Marked x)
    (fun id rest d' hd' => leads_allocate (fun task timeline o _ _ _ x => ?_) fun _ => hd')
    fun _ => Iff.rfl
  refine Iff.trans (Workflow.marked_modify fun t => ?_) (hd' x)
  split <;> rfl

namespace Planner

variable {planner : Planner α} {options : PathOptions α} {w : World α} {c : Costs α}
  {order : List (Task α)} {critical : List ℤ}

/-- The world in which the estimates of earlier runs are cleared. -/
def cleared (planner : Planner α) (c : Costs α) (w : World α) : World α :=
  (planner.opening c w).workflow.ids.foldl
    (fun w id => w.editTask id fun t => { t with isEstimated := false }) (planner.opening c w)

/-- What estimation reads, once a critical path is found. -/
def outlook (planner : Planner α) (options : PathOptions α) (c : Costs α) (critical : List ℤ) :
    Outlook α :=
  { costs := c, floor := planner.floor, maxWidth := options.maxWidth
    warnWidth := options.warnWidth, fallback := options.fallback, critical }

/-- The sketch in which estimation begins. -/
def blank (planner : Planner α) (c : Costs α) (critical : List ℤ) (w : World α) : Sketch α where
  toWorld := (planner.cleared c w).note (.pathsFound (planner.cleared c w).workflow.paths.length)
    |>.note (.criticalPath critical)

/-- A run comes to estimating tasks with an outlook, and this is the diary until that ends or fails. -/
def Estimates (planner : Planner α) (options : PathOptions α) (w : World α) (o : Outlook α)
    (d : Diary α) : Prop :=
  ∃ c order critical, Fit w c order ∧
    c.criticalPath (planner.cleared c w).workflow.paths = .ok critical ∧
    o = planner.outlook options c critical ∧
    Leads (Diary.estimateAll o (order.map Task.id)) { toSketch := planner.blank c critical w }
      (fun _ d' => d' = d) fun _ d' => d' = d

theorem kept_cleared (planner : Planner α) (c : Costs α) (w : World α) : Kept w (planner.cleared c w) :=
  ((kept_note w _).trans (kept_noteAll _ c.summary)).trans (kept_unestimate _ _)

theorem not_marked_cleared {x : ℤ} : ¬ (planner.cleared c w).workflow.Marked x := by
  rintro ⟨t, ht, he⟩
  rw [unestimated_ids (planner.opening c w) x t ht] at he
  cases he

/-- Estimation of a fit workflow keeps ancestors first and estimates every task. -/
theorem estimateAll_orderly (options : PathOptions α) (hfit : Fit w c order) (hd : w.workflow.Distinct)
    (hcritical : c.criticalPath (planner.cleared c w).workflow.paths = .ok critical) :
    Leads (Diary.estimateAll (planner.outlook options c critical) (order.map Task.id))
      { toSketch := planner.blank c critical w }
      (fun _ d => d.Orderly (planner.outlook options c critical) w.workflow ∧
        ∀ x ∈ w.workflow.ids, d.workflow.Marked x)
      fun _ d => d.Orderly (planner.outlook options c critical) w.workflow := by
  obtain ⟨rank, hw⟩ := Workflow.exists_woven hfit.check
  have hk := (kept_cleared planner c w).kin.workflow
  have hperm : (order.map Task.id).Perm w.workflow.ids :=
    (Workflow.topologicalOrder_sound hfit.order).1.map Task.id
  have hsize : w.workflow.size ≤ (order.map Task.id).length := by
    rw [hperm.length_eq, Workflow.ids, List.length_map]
    exact le_refl _
  -- nothing is estimated at first
  have hblank : Diary.Sound (planner.outlook options c critical) w.workflow
      { toSketch := planner.blank c critical w } :=
    ⟨⟨hk, fun x hx => absurd hx not_marked_cleared⟩, by simp⟩
  have hpath : critical = [] ∨ (planner.cleared c w).workflow.Onward critical :=
    (mem_of_criticalPath hcritical).imp_right fun hmem =>
      ((Workflow.mem_paths_iff (hw.of_kin hk)).1 hmem).toOnward
  have hknown : ∀ x ∈ critical, x ∈ w.workflow.ids := by
    rw [← Workflow.ids_of_kin hk]
    rcases hpath with rfl | hpath
    · simp
    · exact hpath.mem_ids
  have hclimbs : critical.Pairwise fun x y => rank x < rank y := by
    rcases hpath with rfl | hpath
    · exact .nil
    · exact hpath.climbs (hw.of_kin hk)
  exact (Diary.estimateAll_leads hw hd hblank hsize (fun x hx => hperm.subset hx) hknown hclimbs).mono
    (fun _ _ h => ⟨h.sound.orderly, fun x hx => h.marked x (hperm.mem_iff.2 hx)⟩)
    fun _ _ h => h.orderly

/-- So does whatever estimation a run comes to. -/
theorem Estimates.orderly {o : Outlook α} {d : Diary α} (h : planner.Estimates options w o d)
    (hd : w.workflow.Distinct) : d.Orderly o w.workflow := by
  obtain ⟨c, order, critical, hfit, hcritical, rfl, hdiary⟩ := h
  have hboth := (estimateAll_orderly options hfit hd hcritical).and hdiary
  have horderly : Leads (Diary.estimateAll (planner.outlook options c critical) (order.map Task.id))
      { toSketch := planner.blank c critical w }
      (fun _ _ => d.Orderly (planner.outlook options c critical) w.workflow)
      fun _ _ => d.Orderly (planner.outlook options c critical) w.workflow :=
    hboth.mono (fun _ _ h => h.2 ▸ h.1.1) fun _ _ h => h.2 ▸ h.1
  unfold Leads at horderly
  split at horderly <;> exact horderly

/-- Lining up a fit workflow estimates every task, unless it fails to find a critical path or to estimate. -/
theorem lineUp_estimates (hs : planner.strategy = .byEstimate options) (hd : w.workflow.Distinct) :
    Leads planner.lineUp w
      (fun _ w' => ∃ o d, planner.Estimates options w o d ∧ (∀ x ∈ w.workflow.ids, d.workflow.Marked x) ∧
        w'.workflow = d.workflow)
      fun _ w' => (∀ o d, ¬ planner.Estimates options w o d) ∨
        ∃ o d, planner.Estimates options w o d ∧ w'.workflow = d.workflow := by
  by_cases hfits : ∃ c order, Fit w c order
  · obtain ⟨c, order, hfit⟩ := hfits
    unfold Leads
    rw [lineUp_eq hfit, arrange, hs]
    change Leads (lineUpByEstimate options _ _ _) _ _ _
    unfold lineUpByEstimate
    rw [leads_bind, leads_modify, leads_bind, leads_get]
    dsimp only
    rw [leads_bind, leads_modify, leads_bind, leads_ofExcept]
    refine ⟨fun critical hcritical => ?_, fun fault hfault => Or.inl fun o d h => ?_⟩
    · rw [leads_bind, leads_modify, leads_bind, leads_within]
      have hdiary := (estimateAll_orderly options hfit hd hcritical).and leads_self
      refine (Diary.Tells.leads (d := { toSketch := planner.blank c critical w })
        (Diary.tells_estimateAll _ _)).2 (hdiary.mono (fun _ d h => ?_) fun fault d h => ?_)
      · obtain ⟨⟨-, hmarked⟩, hrun⟩ := h
        rw [leads_bind, leads_get, leads_bind, leads_modify, leads_pure]
        exact ⟨_, d, ⟨c, order, critical, hfit, hcritical, rfl, leads_of_ok hrun rfl⟩, hmarked,
          (noteAll_eq _ _).1⟩
      · refine Or.inr ⟨_, d, ⟨c, order, critical, hfit, hcritical, rfl, ?_⟩, rfl⟩
        unfold Leads
        rw [h.2]
    · obtain ⟨c', order', critical, hfit', hcritical, -⟩ := h
      obtain rfl := Except.ok.inj (hfit.costs.symm.trans hfit'.costs)
      cases hcritical.symm.trans hfault
  · refine leads_self.mono (fun l w' h => absurd (fit_of_lineUp h) hfits) fun _ _ _ => Or.inl fun o d h => ?_
    obtain ⟨c, order, -, hfit, -⟩ := h
    exact hfits ⟨c, order, hfit⟩

/-- In every run on a workflow that repeats no id in an edge list, the recursion of estimation ends, and the
ancestors of estimated tasks are estimated at all times. A task that was settled is estimated, and only
groups of ready tasks beside the critical path, none an ancestor of another, are arranged. A run that
returns has estimated every task. -/
theorem run_keeps_ancestry (planner : Planner α) (options : PathOptions α) (w : World α)
    (hs : planner.strategy = .byEstimate options) (hd : w.workflow.Distinct) :
    (∀ (o : Outlook α) order,
      Diary.Tells (Diary.estimateAll o order) (Sketch.estimateAll o order)) ∧
    (∀ o d, planner.Estimates options w o d → d.Orderly o w.workflow) ∧
    Leads planner.run w
      (fun _ w' => ∃ o d, planner.Estimates options w o d ∧
        (∀ x ∈ w.workflow.ids, d.workflow.Marked x) ∧ ∀ x, w'.workflow.Marked x ↔ d.workflow.Marked x)
      fun _ w' => (∀ o d, ¬ planner.Estimates options w o d) ∨
        ∃ o d, planner.Estimates options w o d ∧ ∀ x, w'.workflow.Marked x ↔ d.workflow.Marked x := by
  refine ⟨Diary.tells_estimateAll, fun o d h => h.orderly hd, ?_⟩
  rw [run_eq, leads_bind]
  refine (lineUp_estimates hs hd).mono (fun l w₁ h => ?_) fun fault w₁ h => ?_
  · obtain ⟨o, d, hdiary, hmarked, hw₁⟩ := h
    rw [leads_bind, Lineup.leads_allot]
    refine (Draft.marked_allocateAll l.pricing l.order (Draft.fresh w₁)).mono (fun _ d' hd' => ?_)
      fun fault d' hd' => ?_
    · rw [leads_bind, leads_modify, leads_pure]
      refine ⟨o, d, hdiary, hmarked, fun x => ?_⟩
      rw [(noteAll_eq _ _).1, ← hw₁]
      exact hd' x
    · exact Or.inr ⟨o, d, hdiary, fun x => hw₁ ▸ hd' x⟩
  · refine h.imp_right fun h => ?_
    obtain ⟨o, d, hdiary, hw₁⟩ := h
    exact ⟨o, d, hdiary, fun x => by rw [hw₁]⟩

/-- A planner for the crossing of two branches. -/
def crossingPlanner : Planner ℚ := ⟨.byEstimate { fallback := 1 }, 0⟩

/-- It arranges tasks 2 and 3. -/
theorem arranging_crossing {o : Outlook ℚ} {d : Diary ℚ}
    (h : crossingPlanner.Estimates { fallback := 1 } Sketch.crossing o d) :
    ∃ s, (s, .arranging [2, 3]) ∈ d.entries := by
  obtain ⟨c, order, critical, hfit, hcritical, rfl, hd⟩ := h
  obtain rfl := Except.ok.inj (Sketch.costs_crossing.symm.trans hfit.costs)
  have horder : Sketch.crossing.workflow.topologicalOrder.toOption.map (List.map Task.id) =
      some [1, 2, 3, 4, 5] := by decide +kernel
  have hpath : (Sketch.crossingOutlook.costs.criticalPath (crossingPlanner.cleared
      Sketch.crossingOutlook.costs Sketch.crossing).workflow.paths).toOption = some [1, 4, 5] := by
    decide +kernel
  have hlog : (final? (Diary.estimateAll
      (crossingPlanner.outlook { fallback := 1 } Sketch.crossingOutlook.costs [1, 4, 5]) [1, 2, 3, 4, 5])
      { toSketch := crossingPlanner.blank Sketch.crossingOutlook.costs [1, 4, 5] Sketch.crossing }).map
        (fun d => decide (.arranging [2, 3] ∈ d.entries.map Prod.snd)) = some true := by
    decide +kernel
  rw [hfit.order] at horder
  rw [hcritical] at hpath
  rw [Option.some.inj horder, Option.some.inj hpath] at hd
  obtain ⟨d', hd', hmem⟩ := Option.map_eq_some_iff.1 hlog
  obtain rfl := hd.of_ok (of_final? hd')
  obtain ⟨⟨s, _⟩, hmem, rfl⟩ := List.mem_map.1 (of_decide_eq_true hmem)
  exact ⟨s, hmem⟩

theorem run_keeps_ancestry_crossing :
    crossingPlanner.strategy = .byEstimate { fallback := 1 } ∧ Sketch.crossing.workflow.Distinct ∧
    ∃ plan w' o d, crossingPlanner.run Sketch.crossing = .ok plan w' ∧
      crossingPlanner.Estimates { fallback := 1 } Sketch.crossing o d ∧
      d.Orderly o Sketch.crossing.workflow ∧ (∀ x ∈ Sketch.crossing.workflow.ids, d.workflow.Marked x) ∧
      (∀ x, w'.workflow.Marked x ↔ d.workflow.Marked x) ∧ ∃ s, (s, .arranging [2, 3]) ∈ d.entries := by
  have hd : Sketch.crossing.workflow.Distinct := ⟨by decide, by decide⟩
  have hp : Priced { vms := Sketch.crossing.vms, costs := Sketch.crossingOutlook.costs, floor := 0 }
      Sketch.crossing := ⟨Workflow.check_eq_ok.1 rfl, by decide, rfl, Sketch.costs_crossing, by decide⟩
  obtain ⟨plan, w', hrun⟩ := crossingPlanner.run_ok one_pos hp ⟨by decide, by decide⟩ fun options he => by
    obtain rfl := Strategy.byEstimate.inj he
    decide
  obtain ⟨-, horderly, hlead⟩ :=
    run_keeps_ancestry crossingPlanner { fallback := 1 } Sketch.crossing rfl hd
  obtain ⟨o, d, hdiary, hmarked, hsame⟩ := hlead.of_ok hrun
  exact ⟨rfl, hd, plan, w', o, d, hrun, hdiary, horderly o d hdiary, hmarked, hsame,
    arranging_crossing hdiary⟩

end Planner

end FlowSched

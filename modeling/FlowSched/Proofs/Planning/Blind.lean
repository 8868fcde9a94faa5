import FlowSched.Proofs.Blind

/-!
# Planning does not look at the notes

Every part of a planner is blind, and keeps what survives its notes, its edits of tasks and, once it
allocates, its records in the session. Estimation records nothing.
-/

namespace FlowSched

open Quantity Step Holder

variable {α : Type} [Quantity α] {P : World α → Prop} {N : Note α → Prop}
  {S : Session → Session → Prop}

/-- Planning may record what it plans. -/
def Records (S : Session → Session → Prop) : Prop :=
  ∀ (s : Session) x, S s { s with planned := s.planned ++ [x] }

section

variable (h : World.Lasting P N S) (hN : ∀ n : Note α, n.isRebound = false → N n)

include h hN

/-! ## Allocation -/

namespace Draft

theorem blind_allocate (hS : Records S) (p : Pricing α) (id : ℤ) : Blind P (allocate p id) := by
  refine blind_atomic fun d ns hP => ?_
  refine Matching.bind (d.workflow.get id) fun task =>
    Matching.bind (d.bestOffer? p task) fun best => ?_
  cases best with
  | none => rfl
  | some o =>
    have hlines : (renote ns d).timelines = d.timelines := rfl
    dsimp only
    rw [hlines]
    cases d.timelines.get? o.vm with
    | none => rfl
    | some line =>
      refine ⟨⟨_, rfl⟩, h.record _ _ (h.note _ _ ?_ (hN _ rfl)) (hS d.session task.id)⟩
      refine h.editTask _ _ _ (h.note _ _ hP (hN _ rfl)) fun t => ?_
      split <;> rfl

theorem blind_allocateAll (hS : Records S) (p : Pricing α) (order : List ℤ) :
    Blind P (allocateAll p order) :=
  blind_each (blind_allocate h hN hS p) order

end Draft

/-- What a plan tells of a draft does not depend on the notes. -/
theorem blind_allocation (hS : Records S) (p : Pricing α) (order : List ℤ) (f : Plan α → Plan α) :
    Blind P (do
      let (_, draft) ← within Draft.fresh Draft.toWorld (Draft.allocateAll p order)
      pure (f draft.plan)) :=
  blind_within (fun _ _ => rfl) (fun _ _ => rfl) (fun _ => rfl) (fun _ => rfl)
    (Draft.blind_allocateAll h hN hS p order) (fun _ _ => blind_pure _) fun _ _ _ => rfl

/-! ## Estimates -/

namespace Sketch

variable (o : Outlook α)

omit hN in
theorem lasting_write {s : Sketch α} (hP : P s.toWorld) (id : ℤ) (span : Span α) :
    P (s.write id span).toWorld :=
  h.editTask _ _ _ hP fun _ => rfl

omit hN in
theorem lasting_confirm {s : Sketch α} (hP : P s.toWorld) (id : ℤ) (span : Span α) :
    P (s.confirm id span).toWorld :=
  h.editTask _ _ _ (lasting_write h hP id span) fun _ => rfl

theorem blind_note (n : Note α) (hn : n.isRebound = false) :
    Blind P (modify (note n) : Step (Fault α) (Sketch α) PUnit) :=
  blind_modify (fun _ ns => ⟨ns.push n, rfl⟩) fun s hP => h.note s.toWorld n hP (hN n hn)

omit hN in
theorem blind_rehearse (id : ℤ) : Blind P (rehearse o id) := by
  refine blind_atomic fun s ns hP => ?_
  exact Matching.bind (s.trial o id) fun span => ⟨⟨ns, rfl⟩, lasting_write h hP id span⟩

omit hN in
theorem blind_commit (id : ℤ) : Blind P (commit o id) := by
  refine blind_atomic fun s ns hP => ?_
  exact Matching.bind (s.trial o id) fun span => ⟨⟨ns, rfl⟩, lasting_confirm h hP id span⟩

omit hN in
theorem blind_search (best : Option (List ℤ × α)) (all : List (List ℤ)) :
    Blind P (search o best all) := by
  induction all generalizing best with
  | nil => exact blind_pure best
  | cons arrangement rest ih =>
    have hscore : Blind P (score o arrangement) :=
      (blind_each (blind_rehearse h o) arrangement).bind fun _ =>
        get_blind (fun _ => blind_pure _) fun _ _ => rfl
    refine hscore.bind fun finish => ?_
    cases finish with
    | none => exact ih best
    | some finish => exact ih _

theorem blind_arrange (group : List ℤ) : Blind P (arrange o group) := by
  unfold arrange
  refine (blind_throw _).unless fun _ => (blind_note h hN _ rfl).unless fun _ =>
    (blind_search h o _ _).bind fun found => ?_
  cases found with
  | none => exact blind_throw _
  | some found =>
    exact (blind_each (blind_commit h o) _).bind fun _ => blind_note h hN _ rfl

theorem blind_settle (fuel : ℕ) (id : ℤ) : Blind P (settle o fuel id) := by
  induction fuel generalizing id with
  | zero => exact blind_pure ()
  | succ fuel ih =>
    have hfinish : Blind P (do
        if !(← query (isEstimated · id)) then commit o id) := by
      refine (blind_query fun _ _ => rfl).bind fun b => ?_
      split
      · exact blind_commit h o id
      · exact blind_pure ()
    unfold settle
    refine (blind_query fun _ _ => rfl).bind fun t => ?_
    dsimp only
    split
    · refine (blind_query fun _ _ => rfl).bind fun parents =>
        (blind_query fun _ _ => rfl).bind fun siblings =>
        (blind_query fun _ _ => rfl).bind fun ready => ?_
      split
      · exact (blind_arrange h hN o _).bind fun _ => hfinish
      · refine (blind_each ih _).bind fun _ => (blind_query fun _ _ => rfl).bind fun siblings =>
          (blind_query fun _ _ => rfl).bind fun ready => ?_
        split
        · exact (blind_arrange h hN o _).bind fun _ => hfinish
        · exact hfinish
    · exact blind_pure ()

theorem blind_settleCritical (fuel : ℕ) (id : ℤ) : Blind P (settleCritical o fuel id) := by
  unfold settleCritical
  refine (blind_query fun _ _ => rfl).bind fun t => (blind_query fun _ _ => rfl).bind fun parents => ?_
  split
  · exact (blind_commit h o id).bind fun _ => blind_settle h hN o fuel id
  · exact blind_settle h hN o fuel id

theorem blind_estimateAll (order : List ℤ) : Blind P (estimateAll o order) :=
  (blind_each (blind_settleCritical h hN o _) _).bind fun _ => blind_each (blind_settle h hN o _) _

end Sketch

/-! ## Planners -/

theorem blind_noteAll (ns : List (Note α)) (hns : ∀ n ∈ ns, n.isRebound = false) :
    Blind P (modify (World.noteAll ns) : Step (Fault α) (World α) PUnit) :=
  blind_modify (World.renote_noteAll ns) fun _ hP => h.noteAll (fun n hn => hN n (hns n hn)) hP

theorem blind_planByRank (hS : Records S) (p : Pricing α) (place : ℤ → ℕ) :
    Blind P (planByRank p place) := by
  intro w ns hP
  unfold planByRank
  refine get_both.2 ((blind_ofExcept (upwardRanks w.workflow p.costs) w ns hP).bind
    fun ranks w₁ ranks' w₁' hw => ?_)
  obtain ⟨rfl, -, -⟩ := hw
  obtain ⟨ns', hns⟩ := World.renote_noteAll
    (ranks'.entries.map fun e => .ranked e.1 e.2) w ns
  have hlast : P (w.noteAll (ranks'.entries.map fun e => .ranked e.1 e.2)) :=
    h.noteAll (fun n hn => hN n (by obtain ⟨e, -, rfl⟩ := List.mem_map.1 hn; rfl)) hP
  refine Both.bind (Q := fun _ t _ t' => (∃ ns, t' = renote ns t) ∧ P t)
    (both_set.2 ⟨⟨ns', hns⟩, hlast⟩) fun _ t _ t' ht => ?_
  obtain ⟨⟨ns, rfl⟩, hPt⟩ := ht
  exact blind_allocation h hN hS p _ (fun plan => { plan with ranks := ranks' }) t ns hPt

omit h hN in
theorem renote_unestimate (ids : List ℤ) (w : World α) (ns : Array (Note α)) :
    ids.foldl (fun w id => w.editTask id fun t => { t with isEstimated := false }) (renote ns w) =
      renote ns (ids.foldl (fun w id => w.editTask id fun t => { t with isEstimated := false }) w) := by
  induction ids generalizing w with
  | nil => rfl
  | cons id ids ih => exact ih (w.editTask id fun t => { t with isEstimated := false })

omit hN in
theorem lasting_unestimate (ids : List ℤ) {w : World α} (hP : P w) :
    P (ids.foldl (fun w id => w.editTask id fun t => { t with isEstimated := false }) w) := by
  induction ids generalizing w with
  | nil => exact hP
  | cons id ids ih => exact ih (h.editTask w id _ hP fun _ => rfl)

theorem blind_planByEstimate (hS : Records S) (options : PathOptions α) (p : Pricing α)
    (order : List ℤ) (place : ℤ → ℕ) : Blind P (planByEstimate options p order place) := by
  unfold planByEstimate
  dsimp only
  refine (blind_modify (fun w ns => ⟨ns, renote_unestimate w.workflow.ids w ns⟩)
    fun w hP => lasting_unestimate h w.workflow.ids hP).bind fun _ => ?_
  refine get_blind (fun w => ?_) fun _ _ => rfl
  refine (blind_modify (fun _ ns => ⟨ns.push _, rfl⟩) fun w hP => h.note w _ hP (hN _ rfl)).bind
    fun _ => (blind_ofExcept _).bind fun _ =>
    (blind_modify (fun _ ns => ⟨ns.push _, rfl⟩) fun w hP => h.note w _ hP (hN _ rfl)).bind fun _ => ?_
  refine blind_within (fun _ _ => rfl) (fun _ _ => rfl) (fun _ => rfl) (fun _ => rfl)
    (Sketch.blind_estimateAll h hN _ order) (fun _ _ => ?_) fun _ _ _ => rfl
  refine get_blind (fun w => ?_) fun _ _ => rfl
  refine (blind_noteAll h hN _ fun n hn => ?_).bind fun _ => ?_
  · obtain ⟨t, -, rfl⟩ := List.mem_map.1 hn
    rfl
  · exact blind_allocation h hN hS p _ fun plan => { plan with criticalPath := _, paths := _ }

omit h hN in
theorem isRebound_summary (c : Costs α) : ∀ n ∈ c.summary, n.isRebound = false := by
  intro n hn
  rcases List.mem_cons.1 hn with rfl | hn
  · rfl
  · rcases List.mem_append.1 hn with hn | hn
    · obtain ⟨e, -, rfl⟩ := List.mem_map.1 hn
      rfl
    · obtain ⟨e, -, hn⟩ := List.mem_flatMap.1 hn
      obtain ⟨⟨child, cost⟩, -, hx⟩ := List.mem_filterMap.1 hn
      dsimp only at hx
      split_ifs at hx
      rw [← Option.some.inj hx]
      rfl

theorem Planner.blind_run (hS : Records S) (planner : Planner α) : Blind P planner.run := by
  unfold run
  refine get_blind (fun w => ?_) fun _ _ => rfl
  refine (blind_throw _).unless fun _ => (blind_ofExcept _).bind fun _ =>
    (blind_modify (fun _ ns => ⟨ns.push _, rfl⟩) fun w hP => h.note w _ hP (hN _ rfl)).bind fun _ =>
    (blind_ofExcept _).bind fun costs => (blind_noteAll h hN _ fun n hn => ?_).bind fun _ =>
    (blind_ofExcept _).bind fun order => ?_
  · exact isRebound_summary costs n hn
  have htimelines : ∀ plan : Plan α, Blind P (do
      modify (World.noteAll plan.timelineNotes)
      pure plan) := fun plan => (blind_noteAll h hN _ fun n hn => by
    obtain ⟨t, -, rfl⟩ := List.mem_map.1 hn
    rfl).bind fun _ => blind_pure plan
  cases planner.strategy with
  | byRank => exact (blind_planByRank h hN hS _ _).bind htimelines
  | byEstimate options => exact (blind_planByEstimate h hN hS _ _ _ _).bind htimelines

end

end FlowSched

import FlowSched.Execution
import FlowSched.Planning.Planner
import FlowSched.Proofs.Kin
import FlowSched.Proofs.Pair

/-!
# Steps that do not look at the notes

Notes are written and never read. A step is `Blind` if it ends alike in two states that differ in
their notes only, and if it keeps a property of worlds on the way, failing or not. There is one rule
for each way to build a step.
-/

namespace FlowSched

open Quantity Step

variable {α : Type} [Quantity α]

/-- The note tells that a task without a valid VM was given the fallback VM. -/
def Note.isRebound : Note α → Bool
  | .rebound .. => true
  | _ => false

/-- The notes of tasks without a valid VM. -/
def rebounds (notes : Array (Note α)) : List (Note α) := notes.toList.filter Note.isRebound

omit [Quantity α] in
theorem rebounds_push {n : Note α} (hn : n.isRebound = false) (notes : Array (Note α)) :
    rebounds (notes.push n) = rebounds notes := by
  unfold rebounds
  rw [Array.toList_push, List.filter_append, List.filter_singleton, hn]
  exact List.append_nil _

/-- States that hold a world, and so the notes taken in it. -/
class Holder (α : outParam Type) [outParam (Quantity α)] (σ : Type) where
  world : σ → World α
  renote : Array (Note α) → σ → σ

open Holder

instance : Holder α (World α) := ⟨id, fun ns w => { w with notes := ns }⟩

instance : Holder α (Draft α) := ⟨Draft.toWorld, fun ns d => { d with notes := ns }⟩

instance : Holder α (Sketch α) := ⟨Sketch.toWorld, fun ns s => { s with notes := ns }⟩

instance : Holder α (Batch α) := ⟨Batch.toWorld, fun ns b => { b with notes := ns }⟩

instance : Holder α (Execution α) := ⟨Execution.toWorld, fun ns e => { e with notes := ns }⟩

/-- A property of worlds that lasts: it survives notes of some kind, edits that a reset undoes, and some
changes of the session. -/
structure World.Lasting (P : World α → Prop) (N : Note α → Prop) (S : Session → Session → Prop) :
    Prop where
  note : ∀ w n, P w → N n → P (w.note n)
  editTask : ∀ w id f, P w → (∀ t, (f t).reset false = t.reset false) → P (w.editTask id f)
  editVm : ∀ w place f, P w → (∀ v, (f v).release = v.release) → P (w.editVm place f)
  record : ∀ w s, P w → S w.session s → P { w with session := s }

theorem World.Lasting.noteAll {P : World α → Prop} {N : Note α → Prop} {S : Session → Session → Prop}
    (h : Lasting P N S) {ns : List (Note α)} (hN : ∀ n ∈ ns, N n) {w : World α} (hP : P w) :
    P (w.noteAll ns) := by
  unfold World.noteAll
  induction ns generalizing w with
  | nil => exact hP
  | cons n ns ih =>
    exact ih (fun x hx => hN x (List.mem_cons_of_mem n hx)) (h.note w n hP (hN n List.mem_cons_self))

theorem World.renote_noteAll (notes : List (Note α)) (w : World α) (ns : Array (Note α)) :
    ∃ ns', (renote ns w).noteAll notes = renote ns' (w.noteAll notes) := by
  unfold World.noteAll
  induction notes generalizing w ns with
  | nil => exact ⟨ns, rfl⟩
  | cons n notes ih => exact ih (w.note n) (ns.push n)

namespace Step

variable {σ τ β γ : Type} [Holder α σ] [Holder α τ] {P : World α → Prop}

/-- Two ends of a step are alike: the same result, and states that differ in their notes only. The
property still holds. -/
def Alike (P : World α → Prop) (b : β) (s : σ) (b' : β) (s' : σ) : Prop :=
  b' = b ∧ (∃ ns, s' = renote ns s) ∧ P (world s)

/-- A step does not look at the notes, and it keeps a property. -/
def Blind (P : World α → Prop) (m : Step (Fault α) σ β) : Prop :=
  ∀ s ns, P (world s) → Both m s m (renote ns s) (Alike P) (Alike P)

/-- What a blind step keeps. -/
theorem Blind.leads {m : Step (Fault α) σ β} (hm : Blind P m) {s : σ} (hs : renote (world s).notes s = s)
    (hP : P (world s)) : Leads m s (fun _ t => P (world t)) fun _ t => P (world t) := by
  have h := hm s (world s).notes hP
  rw [hs] at h
  exact h.leads.mono (fun _ _ ht => ht.2.2) fun _ _ ht => ht.2.2

theorem blind_pure (b : β) : Blind P (pure b : Step (Fault α) σ β) :=
  fun _ ns hP => both_pure.2 ⟨rfl, ⟨ns, rfl⟩, hP⟩

theorem blind_throw (e : Fault α) : Blind P (throw e : Step (Fault α) σ β) :=
  fun _ ns hP => both_throw.2 ⟨rfl, ⟨ns, rfl⟩, hP⟩

theorem blind_query {g : σ → Except (Fault α) β} (hg : ∀ s ns, g (renote ns s) = g s) :
    Blind P (query g) := by
  intro s ns hP
  refine both_query (fun b hb => ⟨b, (hg s ns).trans hb, rfl, ⟨ns, rfl⟩, hP⟩) fun e he => ?_
  exact ⟨e, (hg s ns).trans he, rfl, ⟨ns, rfl⟩, hP⟩

theorem blind_ofExcept (r : Except (Fault α) β) : Blind P (ofExcept r : Step (Fault α) σ β) :=
  blind_query fun _ _ => rfl

theorem blind_modify {g : σ → σ} (hg : ∀ s ns, ∃ ns', g (renote ns s) = renote ns' (g s))
    (hP : ∀ s, P (world s) → P (world (g s))) :
    Blind P (modify g : Step (Fault α) σ PUnit) :=
  fun s ns hs => both_modify.2 ⟨rfl, hg s ns, hP s hs⟩

/-- Two results are alike: the same failure, or states that differ in their notes only. -/
def Matching (P : World α → Prop) : Except (Fault α) σ → Except (Fault α) σ → Prop
  | .ok t, .ok t' => (∃ ns, t' = renote ns t) ∧ P (world t)
  | .error e, .error e' => e' = e
  | _, _ => False

/-- Results are alike if they go on alike from the same answer. -/
theorem Matching.bind (r : Except (Fault α) β) {f f' : β → Except (Fault α) σ}
    (hf : ∀ b, Matching P (f b) (f' b)) : Matching P (r >>= f) (r >>= f') := by
  cases r with
  | error e => rfl
  | ok b => exact hf b

theorem blind_atomic {g : σ → Except (Fault α) σ}
    (hg : ∀ s ns, P (world s) → Matching P (g s) (g (renote ns s))) : Blind P (atomic g) := by
  intro s ns hP
  have h := hg s ns hP
  refine both_atomic (fun t ht => ?_) fun e he => ?_
  · rw [ht] at h
    cases hr : g (renote ns s) with
    | error e' =>
      rw [hr] at h
      exact h.elim
    | ok t' =>
      rw [hr] at h
      exact ⟨t', rfl, rfl, h⟩
  · rw [he] at h
    cases hr : g (renote ns s) with
    | error e' =>
      rw [hr] at h
      exact ⟨e', rfl, h, ⟨ns, rfl⟩, hP⟩
    | ok t' =>
      rw [hr] at h
      exact h.elim

theorem Blind.bind {m : Step (Fault α) σ β} {f : β → Step (Fault α) σ γ} (hm : Blind P m)
    (hf : ∀ b, Blind P (f b)) : Blind P (m >>= f) := by
  intro s ns hP
  refine (hm s ns hP).bind fun b t b' t' h => ?_
  obtain ⟨rfl, ⟨ns', rfl⟩, hPt⟩ := h
  exact hf b' t ns' hPt

/-- A step that goes on from the state, in a way that does not depend on the notes. -/
theorem get_blind {f : σ → Step (Fault α) σ γ} (hf : ∀ s, Blind P (f s))
    (hsame : ∀ s ns, f (renote ns s) = f s) : Blind P (get >>= f) := by
  intro s ns hP
  refine get_both.2 ?_
  rw [hsame]
  exact hf s s ns hP

theorem Blind.map {m : Step (Fault α) σ β} {g : β → γ} (hm : Blind P m) : Blind P (g <$> m) :=
  fun s ns hP => both_map.2 ((hm s ns hP).mono (fun _ _ _ _ h => ⟨congrArg g h.1, h.2⟩)
    fun _ _ _ _ h => h)

/-- A step that is taken only under a condition, and what comes after it in any case. -/
theorem Blind.unless {c : Prop} [Decidable c] {m : Step (Fault α) σ Unit}
    {f : Unit → Step (Fault α) σ γ} (hm : Blind P m) (hf : ∀ u, Blind P (f u)) :
    Blind P (if c then m >>= f else f ()) := by
  split
  · exact hm.bind hf
  · exact hf ()

theorem blind_each {f : β → Step (Fault α) σ Unit} (hf : ∀ b, Blind P (f b)) (bs : List β) :
    Blind P (each f bs) := by
  induction bs with
  | nil => exact blind_pure ()
  | cons b bs ih => exact (hf b).bind fun _ => ih

/-- A step on a part of the state that holds the world. -/
theorem blind_zoom {view : σ → τ} {put : τ → σ → σ} {m : Step (Fault α) τ β}
    (hview : ∀ s ns, view (renote ns s) = renote ns (view s)) (hworld : ∀ s, world (view s) = world s)
    (hput : ∀ s t ns ns', ∃ ns'', put (renote ns' t) (renote ns s) = renote ns'' (put t s))
    (hback : ∀ s t, world (put t s) = world t) (hm : Blind P m) : Blind P (zoom view put m) := by
  intro s ns hP
  have hm := hm (view s) ns (by rw [hworld]; exact hP)
  rw [← hview] at hm
  refine both_zoom.2 (hm.mono (fun b t b' t' h => ?_) fun e t e' t' h => ?_)
  all_goals
    obtain ⟨rfl, ⟨ns', rfl⟩, hPt⟩ := h
    exact ⟨rfl, hput s t ns ns', (hback s t).symm ▸ hPt⟩

/-- A step on a larger state: what it builds and what it leaves differ in the notes only. -/
theorem blind_within {build : World α → τ} {view : τ → World α}
    (hbuild : ∀ w ns, build (renote ns w) = renote ns (build w))
    (hview : ∀ t ns, view (renote ns t) = renote ns (view t))
    (hworld : ∀ w, world (build w) = w) (hback : ∀ t, world t = view t)
    {m : Step (Fault α) τ β} (hm : Blind P m) {f : β × τ → Step (Fault α) (World α) γ}
    (hf : ∀ b t, Blind P (f (b, t))) (hsame : ∀ b t ns, f (b, renote ns t) = f (b, t)) :
    Blind P (within build view m >>= f) := by
  intro w ns hP
  have hm := hm (build w) ns (by rw [hworld]; exact hP)
  rw [← hbuild] at hm
  refine within_both (hm.mono (fun _ _ _ _ h => h) fun e t e' t' h => ?_) fun b t b' t' h => ?_
  · obtain ⟨rfl, ⟨ns', rfl⟩, hPt⟩ := h
    exact ⟨rfl, ⟨ns', hview t ns'⟩, hback t ▸ hPt⟩
  · obtain ⟨rfl, ⟨ns', rfl⟩, hPt⟩ := h
    rw [hsame, hview]
    exact hf _ t (view t) ns' (hback t ▸ hPt)

end Step

end FlowSched

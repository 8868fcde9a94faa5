import FlowSched.Proofs.Step

/-!
# Two runs side by side

`Both m s m' s' Q E` says that two steps end alike when they start in two states: both in values and
states that satisfy `Q`, or both in faults and states that satisfy `E`. It is the two-run counterpart
of `Leads`, and the steps are taken apart in the same way. Loops over one list run in step.
-/

namespace FlowSched.Step

variable {ε ε' σ σ' τ τ' β β' γ γ' : Type}

/-- Two steps end alike: with values and states that satisfy `Q`, or with faults and states that
satisfy `E`. -/
def Both (m : Step ε σ β) (s : σ) (m' : Step ε' σ' β') (s' : σ') (Q : β → σ → β' → σ' → Prop)
    (E : ε → σ → ε' → σ' → Prop) : Prop :=
  match m s, m' s' with
  | .ok b t, .ok b' t' => Q b t b' t'
  | .error e t, .error e' t' => E e t e' t'
  | _, _ => False

section

variable {m : Step ε σ β} {m' : Step ε' σ' β'} {s : σ} {s' : σ'} {f : β → Step ε σ γ}
  {f' : β' → Step ε' σ' γ'} {Q : β → σ → β' → σ' → Prop} {R : γ → σ → γ' → σ' → Prop}
  {E : ε → σ → ε' → σ' → Prop}

theorem Both.of_ok (h : Both m s m' s' Q E) {b : β} {t : σ} (hm : m s = .ok b t) :
    ∃ b' t', m' s' = .ok b' t' ∧ Q b t b' t' := by
  unfold Both at h
  rw [hm] at h
  cases hm' : m' s' with
  | ok b' t' =>
    rw [hm'] at h
    exact ⟨b', t', rfl, h⟩
  | error e' t' =>
    rw [hm'] at h
    exact h.elim

/-- Two steps that return only together. -/
theorem both_of_ok (hok : ∀ b t, m s = .ok b t → ∃ b' t', m' s' = .ok b' t' ∧ Q b t b' t')
    (hok' : ∀ b' t', m' s' = .ok b' t' → ∃ b t, m s = .ok b t) :
    Both m s m' s' Q fun _ _ _ _ => True := by
  unfold Both
  cases hm : m s with
  | ok b t =>
    obtain ⟨b', t', hm', hQ⟩ := hok b t hm
    rw [hm']
    exact hQ
  | error e t =>
    cases hm' : m' s' with
    | ok b' t' =>
      obtain ⟨b, u, hb⟩ := hok' b' t' hm'
      rw [hm] at hb
      cases hb
    | error e' t' => trivial

/-- A step that ends like itself ends in what related ends have in common. -/
theorem Both.leads {Q : β → σ → β → σ → Prop} {E : ε → σ → ε → σ → Prop}
    (h : Both m s m s Q E) : Leads m s (fun b t => Q b t b t) fun e t => E e t e t := by
  unfold Both at h
  unfold Leads
  cases hm : m s with
  | ok b t =>
    rw [hm] at h
    exact h
  | error e t =>
    rw [hm] at h
    exact h

theorem Both.mono {Q' : β → σ → β' → σ' → Prop} {E' : ε → σ → ε' → σ' → Prop}
    (h : Both m s m' s' Q E) (hQ : ∀ b t b' t', Q b t b' t' → Q' b t b' t')
    (hE : ∀ e t e' t', E e t e' t' → E' e t e' t') : Both m s m' s' Q' E' := by
  unfold Both at *
  split at h
  · exact hQ _ _ _ _ h
  · exact hE _ _ _ _ h
  · exact h.elim

/-- Steps that run as others do end alike where those do. -/
theorem both_congr {n : Step ε σ β} {n' : Step ε' σ' β'} (h : m s = n s) (h' : m' s' = n' s') :
    Both m s m' s' Q E ↔ Both n s n' s' Q E := by
  unfold Both
  rw [h, h']

/-- What one of two steps leads to is known of it beside the other, too. -/
theorem Both.and_leads {P : β → σ → Prop} {F : ε → σ → Prop} (h : Both m s m' s' Q E)
    (hl : Leads m s P F) : Both m s m' s' (fun b t b' t' => Q b t b' t' ∧ P b t)
      fun e t e' t' => E e t e' t' ∧ F e t := by
  unfold Both Leads at *
  cases hm : m s with
  | ok b t =>
    cases hm' : m' s' with
    | ok b' t' =>
      rw [hm, hm'] at h
      rw [hm] at hl
      exact ⟨h, hl⟩
    | error e' t' =>
      rw [hm, hm'] at h
      exact h.elim
  | error e t =>
    cases hm' : m' s' with
    | ok b' t' =>
      rw [hm, hm'] at h
      exact h.elim
    | error e' t' =>
      rw [hm, hm'] at h
      rw [hm] at hl
      exact ⟨h, hl⟩

/-- Where both fail with the same fault, nothing more need be known of a failure. -/
theorem Both.with_leads {m' : Step ε σ β'} {s' : σ} {Q : β → σ → β' → σ → Prop} {P : β → σ → Prop}
    {F : ε → σ → Prop} (h : Both m s m' s' Q fun e _ e' _ => e' = e) (hl : Leads m s P F) :
    Both m s m' s' (fun b t b' t' => Q b t b' t' ∧ P b t) fun e _ e' _ => e' = e :=
  (h.and_leads hl).mono (fun _ _ _ _ h => h) fun _ _ _ _ h => h.1

theorem Both.bind (hm : Both m s m' s' Q E)
    (hf : ∀ b t b' t', Q b t b' t' → Both (f b) t (f' b') t' R E) :
    Both (m >>= f) s (m' >>= f') s' R E := by
  show Both (EStateM.bind m f) s (EStateM.bind m' f') s' R E
  unfold Both at hm
  unfold Both EStateM.bind
  cases hs : m s with
  | ok b t =>
    cases hs' : m' s' with
    | ok b' t' =>
      rw [hs, hs'] at hm
      exact hf b t b' t' hm
    | error e' t' =>
      rw [hs, hs'] at hm
      exact hm.elim
  | error e t =>
    cases hs' : m' s' with
    | ok b' t' =>
      rw [hs, hs'] at hm
      exact hm.elim
    | error e' t' =>
      rw [hs, hs'] at hm
      exact hm

theorem both_map {g : β → γ} {g' : β' → γ'} :
    Both (g <$> m) s (g' <$> m') s' R E ↔
      Both m s m' s' (fun b t b' t' => R (g b) t (g' b') t') E := by
  show Both (EStateM.map g m) s (EStateM.map g' m') s' R E ↔ _
  unfold Both EStateM.map
  cases m s <;> cases m' s' <;> rfl

theorem both_pure {b : β} {b' : β'} :
    Both (pure b : Step ε σ β) s (pure b' : Step ε' σ' β') s' Q E ↔ Q b s b' s' := Iff.rfl

theorem both_throw {e : ε} {e' : ε'} :
    Both (throw e : Step ε σ β) s (throw e' : Step ε' σ' β') s' Q E ↔ E e s e' s' := Iff.rfl

theorem both_set {Q : PUnit → σ → PUnit → σ' → Prop} {t : σ} {t' : σ'} :
    Both (set t : Step ε σ PUnit) s (set t' : Step ε' σ' PUnit) s' Q E ↔ Q ⟨⟩ t ⟨⟩ t' := Iff.rfl

theorem both_modify {Q : PUnit → σ → PUnit → σ' → Prop} {g : σ → σ} {g' : σ' → σ'} :
    Both (modify g : Step ε σ PUnit) s (modify g' : Step ε' σ' PUnit) s' Q E ↔
      Q ⟨⟩ (g s) ⟨⟩ (g' s') := Iff.rfl

theorem get_both {g : σ → Step ε σ γ} {g' : σ' → Step ε' σ' γ'} :
    Both (get >>= g) s (get >>= g') s' R E ↔ Both (g s) s (g' s') s' R E := Iff.rfl

theorem modify_both {g : σ → σ} {g' : σ' → σ'} {f : PUnit → Step ε σ γ} {f' : PUnit → Step ε' σ' γ'} :
    Both (modify g >>= f) s (modify g' >>= f') s' R E ↔ Both (f ⟨⟩) (g s) (f' ⟨⟩) (g' s') R E := Iff.rfl

theorem set_both {t : σ} {t' : σ'} {f : PUnit → Step ε σ γ} {f' : PUnit → Step ε' σ' γ'} :
    Both (set t >>= f) s (set t' >>= f') s' R E ↔ Both (f ⟨⟩) t (f' ⟨⟩) t' R E := Iff.rfl

/-- Two steps that go on from one result found elsewhere. -/
theorem ofExcept_both {E : ε → σ → ε → σ' → Prop} {r : Except ε β} {f : β → Step ε σ γ}
    {f' : β → Step ε σ' γ'} (hf : ∀ b, r = .ok b → Both (f b) s (f' b) s' R E)
    (he : ∀ e, E e s e s') : Both (ofExcept r >>= f) s (ofExcept r >>= f') s' R E := by
  cases r with
  | ok b => exact hf b rfl
  | error e => exact he e

/-- Two steps that are taken only under conditions that agree, and what comes after them in any case. -/
theorem Both.unless {c c' : Prop} [Decidable c] [Decidable c'] {m : Step ε σ Unit}
    {m' : Step ε' σ' Unit} {f : Unit → Step ε σ γ} {f' : Unit → Step ε' σ' γ'}
    {P : σ → σ' → Prop} (hc : c ↔ c')
    (hm : c → Both m s m' s' (fun _ t _ t' => P t t') E) (hn : ¬ c → P s s')
    (hf : ∀ t t', P t t' → Both (f ()) t (f' ()) t' R E) :
    Both (if c then m >>= f else f ()) s (if c' then m' >>= f' else f' ()) s' R E := by
  by_cases h : c
  · rw [if_pos h, if_pos (hc.1 h)]
    exact (hm h).bind fun _ t _ t' ht => hf t t' ht
  · rw [if_neg h, if_neg fun h' => h (hc.2 h')]
    exact hf s s' (hn h)

end

section

variable {s : σ} {s' : σ'} {E : ε → σ → ε' → σ' → Prop}

theorem both_query {g : σ → Except ε β} {g' : σ' → Except ε' β'} {Q : β → σ → β' → σ' → Prop}
    (hok : ∀ b, g s = .ok b → ∃ b', g' s' = .ok b' ∧ Q b s b' s')
    (herror : ∀ e, g s = .error e → ∃ e', g' s' = .error e' ∧ E e s e' s') :
    Both (query g) s (query g') s' Q E := by
  unfold Both query
  cases hg : g s with
  | ok b =>
    obtain ⟨b', hg', hQ⟩ := hok b hg
    rw [hg']
    exact hQ
  | error e =>
    obtain ⟨e', hg', hE⟩ := herror e hg
    rw [hg']
    exact hE

theorem both_query_ok {g : σ → Except ε β} {g' : σ' → Except ε' β'} {f : β → Step ε σ γ}
    {f' : β' → Step ε' σ' γ'} {R : γ → σ → γ' → σ' → Prop} {b : β} {b' : β'} (hg : g s = .ok b)
    (hg' : g' s' = .ok b') (h : Both (f b) s (f' b') s' R E) :
    Both (query g >>= f) s (query g' >>= f') s' R E := by
  refine (both_query (Q := fun c t c' t' => c = b ∧ t = s ∧ c' = b' ∧ t' = s') (fun c hc => ?_)
    fun e he => ?_).bind fun c t c' t' hQ => ?_
  · exact ⟨b', hg', Except.ok.inj (hc.symm.trans hg), rfl, rfl, rfl⟩
  · rw [hg] at he
    cases he
  · obtain ⟨rfl, rfl, rfl, rfl⟩ := hQ
    exact h

theorem both_atomic {g : σ → Except ε σ} {g' : σ' → Except ε' σ'} {Q : Unit → σ → Unit → σ' → Prop}
    (hok : ∀ t, g s = .ok t → ∃ t', g' s' = .ok t' ∧ Q () t () t')
    (herror : ∀ e, g s = .error e → ∃ e', g' s' = .error e' ∧ E e s e' s') :
    Both (atomic g) s (atomic g') s' Q E := by
  unfold Both atomic
  cases hg : g s with
  | ok t =>
    obtain ⟨t', hg', hQ⟩ := hok t hg
    rw [hg']
    exact hQ
  | error e =>
    obtain ⟨e', hg', hE⟩ := herror e hg
    rw [hg']
    exact hE

theorem both_zoom {view : σ → τ} {put : τ → σ → σ} {view' : σ' → τ'} {put' : τ' → σ' → σ'}
    {m : Step ε τ β} {m' : Step ε' τ' β'} {Q : β → σ → β' → σ' → Prop} :
    Both (zoom view put m) s (zoom view' put' m') s' Q E ↔
      Both m (view s) m' (view' s') (fun b t b' t' => Q b (put t s) b' (put' t' s'))
        fun e t e' t' => E e (put t s) e' (put' t' s') := by
  unfold Both zoom
  cases m (view s) <;> cases m' (view' s') <;> rfl

theorem both_within {build : σ → τ} {view : τ → σ} {build' : σ' → τ'} {view' : τ' → σ'}
    {m : Step ε τ β} {m' : Step ε' τ' β'} {Q : β × τ → σ → β' × τ' → σ' → Prop} :
    Both (within build view m) s (within build' view' m') s' Q E ↔
      Both m (build s) m' (build' s') (fun b t b' t' => Q (b, t) (view t) (b', t') (view' t'))
        fun e t e' t' => E e (view t) e' (view' t') := by
  unfold Both within
  cases m (build s) <;> cases m' (build' s') <;> rfl

/-- Two steps that go on from what two steps in other states lead to. -/
theorem within_both {build : σ → τ} {view : τ → σ} {build' : σ' → τ'} {view' : τ' → σ'}
    {m : Step ε τ β} {m' : Step ε' τ' β'} {f : β × τ → Step ε σ γ} {f' : β' × τ' → Step ε' σ' γ'}
    {Q : β → τ → β' → τ' → Prop} {R : γ → σ → γ' → σ' → Prop}
    (h : Both m (build s) m' (build' s') Q fun e t e' t' => E e (view t) e' (view' t'))
    (hf : ∀ b t b' t', Q b t b' t' → Both (f (b, t)) (view t) (f' (b', t')) (view' t') R E) :
    Both (within build view m >>= f) s (within build' view' m' >>= f') s' R E := by
  refine (both_within (Q := fun r u r' u' =>
    u = view r.2 ∧ u' = view' r'.2 ∧ Q r.1 r.2 r'.1 r'.2)).2 (h.mono (fun _ _ _ _ hQ => ⟨rfl, rfl, hQ⟩)
      fun _ _ _ _ he => he) |>.bind fun r u r' u' hr => ?_
  obtain ⟨rfl, rfl, hQ⟩ := hr
  exact hf r.1 r.2 r'.1 r'.2 hQ

/-- Two loops over one list keep a relation that may depend on the elements that are left. -/
theorem Both.each {f : β → Step ε σ Unit} {g : β → Step ε' σ' Unit} {I : List β → σ → σ' → Prop}
    (h : ∀ b rest t t', I (b :: rest) t t' →
      Both (f b) t (g b) t' (fun _ u _ u' => I rest u u') E) :
    ∀ {l : List β} {s : σ} {s' : σ'}, I l s s' →
      Both (each f l) s (each g l) s' (fun _ t _ t' => I [] t t') E
  | [], _, _, hI => hI
  | b :: rest, _, _, hI => (h b rest _ _ hI).bind fun _ _ _ _ ht => Both.each h ht

end

-- how two runs end is told by the lemmas above, never by unfolding the runs
attribute [irreducible] Both

end FlowSched.Step

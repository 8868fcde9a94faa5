import Mathlib.Data.List.Perm.Basic
import FlowSched.Step

/-!
# What a step leads to

`Leads m s Q E` says how the step `m` ends when it starts in the state `s`: in a value and a state
that satisfy `Q`, or in a fault and a state that satisfy `E`. Each way to build a step has one
equivalence that moves `Leads` inside, so that a program is taken apart by rewriting. Loops have
no such equivalence: `Leads.each` asks for an invariant over the elements that are left, and
`Leads.each_done` for one over those that are done.
-/

namespace FlowSched

variable {ε σ τ β γ : Type}

@[simp] theorem ok_bind (b : β) (f : β → Except ε γ) : (Except.ok b >>= f) = f b := rfl

@[simp] theorem error_bind (e : ε) (f : β → Except ε γ) : (Except.error e >>= f) = .error e := rfl

theorem bind_eq_ok {m : Except ε β} {f : β → Except ε γ} {c : γ} :
    (m >>= f) = .ok c ↔ ∃ b, m = .ok b ∧ f b = .ok c := by
  cases m <;> simp

theorem exists_eq_ok {m : Except ε β} (h : m.isOk = true) : ∃ b, m = .ok b := by
  cases m with
  | error e => cases h
  | ok b => exact ⟨b, rfl⟩

theorem eq_ok_of_toOption {m : Except ε β} {b : β} (h : m.toOption = some b) : m = .ok b := by
  cases m with
  | error e => cases h
  | ok c => rw [Option.some.inj h]

/-- The results of a list of computations that all succeeded. -/
theorem mapM_eq_ok {f : β → Except ε γ} {bs : List β} {cs : List γ} :
    bs.mapM f = .ok cs ↔ List.Forall₂ (fun b c => f b = .ok c) bs cs := by
  induction bs generalizing cs with
  | nil => cases cs <;> simp [pure, Except.pure]
  | cons b bs ih =>
    rw [List.mapM_cons]
    cases hb : f b with
    | error e => cases cs <;> simp [hb]
    | ok c =>
      rw [ok_bind]
      cases hbs : bs.mapM f with
      | error e => cases cs <;> simp [hb, ← ih, hbs]
      | ok cs' => cases cs <;> simp [hb, ← ih, hbs, pure, Except.pure]

/-- If one computation goes as another does at each element, so it does over a list. -/
theorem mapM_ok_of_forall {R : γ → γ → Prop} {f f' : β → Except ε γ}
    (h : ∀ b c, f b = .ok c → ∃ c', f' b = .ok c' ∧ R c c') {bs : List β} {cs : List γ}
    (hcs : bs.mapM f = .ok cs) : ∃ cs', bs.mapM f' = .ok cs' ∧ List.Forall₂ R cs cs' := by
  rw [mapM_eq_ok] at hcs
  simp only [mapM_eq_ok]
  induction hcs with
  | nil => exact ⟨[], .nil, .nil⟩
  | cons hb _ ih =>
    obtain ⟨c', hc', hR⟩ := h _ _ hb
    obtain ⟨cs', hcs', hall⟩ := ih
    exact ⟨c' :: cs', .cons hc' hcs', .cons hR hall⟩

theorem exists_of_forall₂_left {R : β → γ → Prop} {bs : List β} {cs : List γ}
    (h : List.Forall₂ R bs cs) : ∀ b ∈ bs, ∃ c ∈ cs, R b c := by
  induction h with
  | nil => simp
  | cons hbc _ ih =>
    intro b hm
    rcases List.mem_cons.1 hm with rfl | hm
    · exact ⟨_, List.mem_cons_self, hbc⟩
    · obtain ⟨c, hc, hr⟩ := ih b hm
      exact ⟨c, List.mem_cons_of_mem _ hc, hr⟩

theorem exists_of_forall₂_right {R : β → γ → Prop} {bs : List β} {cs : List γ}
    (h : List.Forall₂ R bs cs) : ∀ c ∈ cs, ∃ b ∈ bs, R b c :=
  exists_of_forall₂_left h.flip

/-- What stands at a place of one list is related to what stands there in the other. -/
theorem exists_getElem?_left {R : β → γ → Prop} {bs : List β} {cs : List γ}
    (h : List.Forall₂ R bs cs) {i : ℕ} {b : β} (hb : bs[i]? = some b) :
    ∃ c, cs[i]? = some c ∧ R b c := by
  obtain ⟨hlen, hget⟩ := List.forall₂_iff_get.1 h
  obtain ⟨hlt, rfl⟩ := List.getElem?_eq_some_iff.1 hb
  have hlt' : i < cs.length := hlen ▸ hlt
  exact ⟨cs[i], List.getElem?_eq_getElem hlt', hget i hlt hlt'⟩

theorem exists_getElem?_right {R : β → γ → Prop} {bs : List β} {cs : List γ}
    (h : List.Forall₂ R bs cs) {i : ℕ} {c : γ} (hc : cs[i]? = some c) :
    ∃ b, bs[i]? = some b ∧ R b c :=
  exists_getElem?_left h.flip hc

/-- Images are the same where the single ones are. -/
theorem map_eq_map {δ : Type} {f : β → δ} {g : γ → δ} {bs : List β} {cs : List γ}
    (h : List.Forall₂ (fun b c => g c = f b) bs cs) : cs.map g = bs.map f := by
  induction h with
  | nil => rfl
  | cons hbc _ ih => rw [List.map_cons, List.map_cons, hbc, ih]

/-- What is searched for in two related lists is found in both or in neither. -/
theorem rel_find? {R : β → γ → Prop} {p : β → Bool} {q : γ → Bool} (hpq : ∀ b c, R b c → q c = p b)
    {bs : List β} {cs : List γ} (h : List.Forall₂ R bs cs) :
    Option.Rel R (bs.find? p) (cs.find? q) := by
  induction h with
  | nil => exact .none
  | cons hbc _ ih =>
    rw [List.find?_cons, List.find?_cons, hpq _ _ hbc]
    split
    · exact .some hbc
    · exact ih

theorem exists_of_mem_mapM {f : β → Except ε γ} {bs : List β} {cs : List γ}
    (h : bs.mapM f = .ok cs) : ∀ c ∈ cs, ∃ b ∈ bs, f b = .ok c :=
  exists_of_forall₂_right (mapM_eq_ok.1 h)

theorem mem_mapM_of_mem {f : β → Except ε γ} {bs : List β} {cs : List γ} (h : bs.mapM f = .ok cs) :
    ∀ b ∈ bs, ∃ c ∈ cs, f b = .ok c :=
  exists_of_forall₂_left (mapM_eq_ok.1 h)

/-- Computations that can only result in images result in all images. -/
theorem eq_map_of_mapM {f : β → Except ε γ} {g : β → γ} (hf : ∀ b c, f b = .ok c → c = g b)
    {bs : List β} {cs : List γ} (h : bs.mapM f = .ok cs) : cs = bs.map g := by
  rw [mapM_eq_ok] at h
  induction h with
  | nil => rfl
  | cons hc _ ih => rw [List.map_cons, hf _ _ hc, ih]

theorem exists_mapM_ok {f : β → Except ε γ} {l : List β} (h : ∀ b ∈ l, ∃ c, f b = .ok c) :
    ∃ cs, l.mapM f = .ok cs := by
  induction l with
  | nil => exact ⟨[], rfl⟩
  | cons b l ih =>
    obtain ⟨c, hc⟩ := h b List.mem_cons_self
    obtain ⟨cs, hcs⟩ := ih fun x hx => h x (List.mem_cons_of_mem b hx)
    exact ⟨c :: cs, by rw [List.mapM_cons, hc, ok_bind, hcs]; rfl⟩

/-- Computations done in another order have the same results in another order. -/
theorem mapM_of_perm {f : β → Except ε γ} {bs bs' : List β} {cs : List γ} (hp : bs'.Perm bs)
    (h : bs.mapM f = .ok cs) : ∃ cs', bs'.mapM f = .ok cs' ∧ cs'.Perm cs := by
  obtain ⟨cs', hcs', hperm⟩ := List.perm_comp_forall₂ hp (mapM_eq_ok.1 h)
  exact ⟨cs', mapM_eq_ok.2 hcs', hperm⟩

/-- Results are related to what they were computed from as each single one is. -/
theorem forall₂_of_mapM {f : β → Except ε γ} {P : β → γ → Prop} {bs : List β} {cs : List γ}
    (h : bs.mapM f = .ok cs) (hP : ∀ b ∈ bs, ∀ c, f b = .ok c → P b c) : List.Forall₂ P bs cs := by
  rw [mapM_eq_ok] at h
  induction h with
  | nil => exact .nil
  | cons hc _ ih =>
    exact .cons (hP _ List.mem_cons_self _ hc) (ih fun b hb => hP b (List.mem_cons_of_mem _ hb))

/-- Two lists of computations, one on the results of the other, done as one. -/
theorem mapM_trans {δ : Type} {f : β → Except ε γ} {g : γ → Except ε δ} {k : β → Except ε δ}
    {bs : List β} {cs : List γ} {ds : List δ} (hf : bs.mapM f = .ok cs) (hg : cs.mapM g = .ok ds)
    (hk : ∀ b ∈ bs, ∀ c d, f b = .ok c → g c = .ok d → k b = .ok d) : bs.mapM k = .ok ds := by
  rw [mapM_eq_ok] at *
  induction hf generalizing ds with
  | nil =>
    cases hg
    exact .nil
  | cons hb _ ih =>
    cases hg with
    | cons hc hg =>
      exact .cons (hk _ List.mem_cons_self _ _ hb hc)
        (ih hg fun b hb => hk b (List.mem_cons_of_mem _ hb))

/-- Computations that succeed where others do have related results if the single ones have. -/
theorem mapM_rel {δ : Type} {R : γ → δ → Prop} {f : β → Except ε γ} {g : β → Except ε δ} {bs : List β}
    {cs : List γ} (h : bs.mapM f = .ok cs)
    (hR : ∀ b ∈ bs, ∀ c, f b = .ok c → ∃ d, g b = .ok d ∧ R c d) :
    ∃ ds, bs.mapM g = .ok ds ∧ List.Forall₂ R cs ds := by
  rw [mapM_eq_ok] at h
  induction h with
  | nil => exact ⟨[], rfl, .nil⟩
  | cons hc _ ih =>
    obtain ⟨d, hd, hr⟩ := hR _ List.mem_cons_self _ hc
    obtain ⟨ds, hds, hrs⟩ := ih fun b hb => hR b (List.mem_cons_of_mem _ hb)
    exact ⟨d :: ds, mapM_eq_ok.2 (.cons hd (mapM_eq_ok.1 hds)), .cons hr hrs⟩

/-- A fold in which each step computes something from its element first. -/
theorem foldlM_of_mapM {δ : Type} {f : β → Except ε γ} {bs : List β} {cs : List γ}
    (h : bs.mapM f = .ok cs) (g : δ → γ → δ) (d : δ) :
    bs.foldlM (fun d b => do
      let c ← f b
      .ok (g d c)) d = .ok (cs.foldl g d) := by
  rw [mapM_eq_ok] at h
  induction h generalizing d with
  | nil => rfl
  | cons hc _ ih =>
    rw [List.foldlM_cons, hc, ok_bind, ok_bind]
    exact ih _

/-- Checks that all passed. -/
theorem forM_eq_ok {f : β → Except ε PUnit} {bs : List β} :
    bs.forM f = .ok () ↔ ∀ b ∈ bs, f b = .ok () := by
  induction bs with
  | nil => simp [pure, Except.pure]
  | cons b bs ih =>
    show (f b >>= fun _ => bs.forM f) = .ok () ↔ _
    cases hb : f b with
    | error e => simp [hb]
    | ok u => rw [ok_bind, ih]; simp [hb]

/-- A fold of computations succeeds if an invariant over what is done lets each of them succeed. -/
theorem foldlM_ok {f : γ → β → Except ε γ} {P : List β → γ → Prop} {l : List β}
    (h : ∀ done, ∀ b ∈ l, ∀ c, P done c → ∃ c', f c b = .ok c' ∧ P (done ++ [b]) c') {c : γ}
    (hc : P [] c) : ∃ c', l.foldlM f c = .ok c' ∧ P l c' := by
  suffices hgen : ∀ done c, P done c → ∃ c', l.foldlM f c = .ok c' ∧ P (done ++ l) c' from
    hgen [] c hc
  clear hc c
  induction l with
  | nil => exact fun done c hc => ⟨c, rfl, by rwa [List.append_nil]⟩
  | cons b l ih =>
    intro done c hc
    obtain ⟨c', hf, hc'⟩ := h done b List.mem_cons_self c hc
    rw [List.foldlM_cons, hf, ok_bind]
    have hrest := ih (fun done b hb => h done b (List.mem_cons_of_mem _ hb)) (done ++ [b]) c' hc'
    rwa [List.append_assoc] at hrest

/-- Folds go alike if their steps do. -/
theorem foldlM_congr {f g : γ → β → Except ε γ} {l : List β} (h : ∀ b ∈ l, ∀ c, f c b = g c b) (c : γ) :
    l.foldlM f c = l.foldlM g c := by
  induction l generalizing c with
  | nil => rfl
  | cons b l ih =>
    rw [List.foldlM_cons, List.foldlM_cons, h b List.mem_cons_self]
    congr 1
    funext d
    exact ih (fun b hb => h b (List.mem_cons_of_mem _ hb)) d

/-- What each step of a fold keeps holds of its result. -/
theorem foldlM_keeps {f : γ → β → Except ε γ} {P : γ → Prop} {l : List β}
    (h : ∀ b ∈ l, ∀ c c', P c → f c b = .ok c' → P c') {c c' : γ} (hc : P c)
    (hl : l.foldlM f c = .ok c') : P c' := by
  induction l generalizing c with
  | nil => exact Except.ok.inj hl ▸ hc
  | cons b l ih =>
    rw [List.foldlM_cons] at hl
    obtain ⟨d, hd, hl⟩ := bind_eq_ok.1 hl
    exact ih (fun b hb => h b (List.mem_cons_of_mem _ hb)) (h b List.mem_cons_self c d hc hd) hl

/-- A fold that succeeds does so at each element. -/
theorem exists_of_foldlM {f : γ → β → Except ε γ} {l : List β} {c c' : γ}
    (h : l.foldlM f c = .ok c') : ∀ b ∈ l, ∃ d d', f d b = .ok d' := by
  induction l generalizing c with
  | nil => simp
  | cons b l ih =>
    rw [List.foldlM_cons] at h
    obtain ⟨d, hd, hl⟩ := bind_eq_ok.1 h
    intro x hx
    rcases List.mem_cons.1 hx with rfl | hx
    · exact ⟨c, d, hd⟩
    · exact ih hl x hx

/-- A fold in which each step computes something from its element first goes well exactly if all of that
can be computed. -/
theorem foldlM_eq_ok {δ : Type} {f : β → Except ε γ} {g : δ → γ → δ} {bs : List β} {d d' : δ} :
    bs.foldlM (fun d b => do
      let c ← f b
      .ok (g d c)) d = .ok d' ↔ ∃ cs, bs.mapM f = .ok cs ∧ cs.foldl g d = d' := by
  constructor
  · intro h
    obtain ⟨cs, hcs⟩ := exists_mapM_ok (f := f) fun b hb => by
      obtain ⟨_, _, hstep⟩ := exists_of_foldlM h b hb
      obtain ⟨c, hc, -⟩ := bind_eq_ok.1 hstep
      exact ⟨c, hc⟩
    rw [foldlM_of_mapM hcs] at h
    exact ⟨cs, hcs, Except.ok.inj h⟩
  · rintro ⟨cs, hcs, rfl⟩
    exact foldlM_of_mapM hcs g d

namespace Step

/-- How a step ends: with a value and a state that satisfy `Q`, or with a fault and a state that
satisfy `E`. -/
def Leads (m : Step ε σ β) (s : σ) (Q : β → σ → Prop) (E : ε → σ → Prop) : Prop :=
  match m s with
  | .ok b t => Q b t
  | .error e t => E e t

/-- The state in which a step ends, unless it fails. -/
def final? (m : Step ε σ Unit) (s : σ) : Option σ :=
  match m s with
  | .ok _ t => some t
  | .error _ _ => none

theorem of_final? {m : Step ε σ Unit} {s t : σ} (h : final? m s = some t) : m s = .ok () t := by
  unfold final? at h
  cases hm : m s with
  | ok _ u =>
    rw [hm] at h
    rw [Option.some.inj h]
  | error e u =>
    rw [hm] at h
    cases h

section

variable {m : Step ε σ β} {f : β → Step ε σ γ} {s : σ} {Q : β → σ → Prop} {R : γ → σ → Prop}
  {E E' : ε → σ → Prop}

theorem Leads.of_ok (h : Leads m s Q E) {b : β} {t : σ} (hm : m s = .ok b t) : Q b t := by
  unfold Leads at h
  rwa [hm] at h

theorem Leads.of_error (h : Leads m s Q E) {e : ε} {t : σ} (hm : m s = .error e t) : E e t := by
  unfold Leads at h
  rwa [hm] at h

/-- A step that leads to no fault ends in a value. -/
theorem Leads.exists_ok (h : Leads m s Q fun _ _ => False) : ∃ b t, m s = .ok b t ∧ Q b t := by
  cases hm : m s with
  | ok b t => exact ⟨b, t, rfl, h.of_ok hm⟩
  | error e t => exact (h.of_error hm).elim

theorem get_bind (g : σ → Step ε σ γ) (s : σ) : (get >>= g) s = g s s := rfl

theorem leads_true : Leads m s (fun _ _ => True) fun _ _ => True := by
  unfold Leads
  cases m s <;> trivial

/-- A step ends as it does. -/
theorem leads_self : Leads m s (fun b t => m s = .ok b t) fun e t => m s = .error e t := by
  unfold Leads
  cases m s <;> rfl

theorem leads_of_ok {b : β} {t : σ} (hm : m s = .ok b t) (h : Q b t) : Leads m s Q E := by
  unfold Leads
  rwa [hm]

theorem Leads.mono {Q' : β → σ → Prop} (h : Leads m s Q E) (hQ : ∀ b t, Q b t → Q' b t)
    (hE : ∀ e t, E e t → E' e t) : Leads m s Q' E' := by
  unfold Leads at *
  split at h
  · exact hQ _ _ h
  · exact hE _ _ h

theorem Leads.and {Q' : β → σ → Prop} (h : Leads m s Q E) (h' : Leads m s Q' E') :
    Leads m s (fun b t => Q b t ∧ Q' b t) fun e t => E e t ∧ E' e t := by
  unfold Leads at *
  cases hm : m s with
  | ok b t =>
    rw [hm] at h h'
    exact ⟨h, h'⟩
  | error e t =>
    rw [hm] at h h'
    exact ⟨h, h'⟩

theorem leads_bind : Leads (m >>= f) s R E ↔ Leads m s (fun b t => Leads (f b) t R E) E := by
  show Leads (EStateM.bind m f) s R E ↔ _
  unfold Leads EStateM.bind
  cases m s <;> rfl

theorem leads_map {g : β → γ} : Leads (g <$> m) s R E ↔ Leads m s (fun b => R (g b)) E := by
  show Leads (EStateM.map g m) s R E ↔ _
  unfold Leads EStateM.map
  cases m s <;> rfl

theorem Leads.bind {P : β → σ → Prop} (hm : Leads m s P E) (hf : ∀ b t, P b t → Leads (f b) t R E) :
    Leads (m >>= f) s R E :=
  leads_bind.2 (hm.mono hf fun _ _ h => h)

/-- A step that is taken only under a condition, and what comes after it in any case. -/
theorem Leads.unless {c : Prop} [Decidable c] {m : Step ε σ Unit} {f : Unit → Step ε σ γ} {P : σ → Prop}
    (hm : c → Leads m s (fun _ t => P t) E) (hn : ¬ c → P s)
    (hf : ∀ t, P t → Leads (f ()) t R E) : Leads (if c then m >>= f else f ()) s R E := by
  split
  · next hc => exact (hm hc).bind fun _ t ht => hf t ht
  · next hc => exact hf s (hn hc)

theorem leads_pure {b : β} : Leads (pure b : Step ε σ β) s Q E ↔ Q b s := Iff.rfl

theorem leads_get {Q : σ → σ → Prop} : Leads (get : Step ε σ σ) s Q E ↔ Q s s := Iff.rfl

theorem leads_set {Q : PUnit → σ → Prop} {t : σ} :
    Leads (set t : Step ε σ PUnit) s Q E ↔ Q ⟨⟩ t := Iff.rfl

theorem leads_modify {Q : PUnit → σ → Prop} {g : σ → σ} :
    Leads (modify g : Step ε σ PUnit) s Q E ↔ Q ⟨⟩ (g s) := Iff.rfl

theorem leads_throw {e : ε} : Leads (throw e : Step ε σ β) s Q E ↔ E e s := Iff.rfl

end

section

variable {s : σ} {E : ε → σ → Prop}

theorem leads_query {g : σ → Except ε β} {Q : β → σ → Prop} :
    Leads (query g) s Q E ↔ (∀ b, g s = .ok b → Q b s) ∧ ∀ e, g s = .error e → E e s := by
  unfold Leads query
  cases g s <;> simp

theorem leads_ofExcept {r : Except ε β} {Q : β → σ → Prop} :
    Leads (ofExcept r) s Q E ↔ (∀ b, r = .ok b → Q b s) ∧ ∀ e, r = .error e → E e s :=
  leads_query

theorem leads_atomic {g : σ → Except ε σ} {Q : Unit → σ → Prop} :
    Leads (atomic g) s Q E ↔ (∀ t, g s = .ok t → Q () t) ∧ ∀ e, g s = .error e → E e s := by
  unfold Leads atomic
  cases g s <;> simp

theorem leads_zoom {view : σ → τ} {put : τ → σ → σ} {m : Step ε τ β} {Q : β → σ → Prop} :
    Leads (zoom view put m) s Q E ↔
      Leads m (view s) (fun b t => Q b (put t s)) (fun e t => E e (put t s)) := by
  unfold Leads zoom
  cases m (view s) <;> rfl

theorem leads_within {build : σ → τ} {view : τ → σ} {m : Step ε τ β} {Q : β × τ → σ → Prop} :
    Leads (within build view m) s Q E ↔
      Leads m (build s) (fun b t => Q (b, t) (view t)) (fun e t => E e (view t)) := by
  unfold Leads within
  cases m (build s) <;> rfl

/-- A query whose answer is known. -/
theorem leads_query_ok {g : σ → Except ε β} {Q : β → σ → Prop} {b : β} (hg : g s = .ok b)
    (h : Q b s) : Leads (query g) s Q E :=
  leads_query.2 ⟨fun c hc => by rw [hg] at hc; exact Except.ok.inj hc ▸ h,
    fun e he => by rw [hg] at he; cases he⟩

/-- An atomic step whose result is known. -/
theorem leads_atomic_ok {g : σ → Except ε σ} {Q : Unit → σ → Prop} {t : σ} (hg : g s = .ok t)
    (h : Q () t) : Leads (atomic g) s Q E :=
  leads_atomic.2 ⟨fun u hu => by rw [hg] at hu; exact Except.ok.inj hu ▸ h,
    fun e he => by rw [hg] at he; cases he⟩

/-- A loop keeps an invariant over the elements that are left. -/
theorem Leads.each {f : β → Step ε σ Unit} {I : List β → σ → Prop}
    (h : ∀ b rest t, I (b :: rest) t → Leads (f b) t (fun _ t' => I rest t') E) :
    ∀ {l : List β} {s : σ}, I l s → Leads (each f l) s (fun _ t => I [] t) E
  | [], _, hI => hI
  | b :: rest, _, hI => (h b rest _ hI).bind fun _ _ ht => Leads.each h ht

/-- A loop keeps an invariant over the elements that are done. -/
theorem Leads.each_done {f : β → Step ε σ Unit} {l : List β} {I : List β → σ → Prop}
    (h : ∀ done b rest t, l = done ++ b :: rest → I done t →
      Leads (f b) t (fun _ t' => I (done ++ [b]) t') E) (hs : I [] s) :
    Leads (Step.each f l) s (fun _ t => I l t) E := by
  have hloop := Leads.each (f := f) (E := E) (l := l)
    (I := fun rest t => ∃ done, l = done ++ rest ∧ I done t)
    (fun b rest t hI => by
      obtain ⟨done, hsplit, hI⟩ := hI
      exact (h done b rest t hsplit hI).mono (fun _ _ ht => ⟨done ++ [b], by simp [hsplit], ht⟩)
        fun _ _ h => h) ⟨[], rfl, hs⟩
  refine hloop.mono (fun _ t ht => ?_) fun _ _ h => h
  obtain ⟨done, hsplit, ht⟩ := ht
  rw [hsplit, List.append_nil]
  exact ht

end

end Step

end FlowSched

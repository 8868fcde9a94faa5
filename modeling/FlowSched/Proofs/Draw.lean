import Mathlib.Tactic.Linarith
import FlowSched.Random.Source
import FlowSched.Proofs.Exact
import FlowSched.Proofs.Step

/-!
# What a draw yields

`Yields m P` says that the draw `m` succeeds on every source, with a value that satisfies `P`. What is
drawn next depends on the source that is left, so the statement is about all sources from the start, and
draws are then joined by looking at their values alone.
-/

namespace FlowSched.Draw

open Step

variable {γ β δ : Type} {m : Draw ℚ γ β} {P : β → Prop}

/-- Whatever the source, the draw succeeds with a value that satisfies `P`. -/
def Yields (m : Draw ℚ γ β) (P : β → Prop) : Prop := ∀ g, Leads m g (fun b _ => P b) fun _ _ => False

theorem Yields.exists_ok (h : Yields m P) (g : γ) : ∃ b g', m g = .ok b g' ∧ P b := (h g).exists_ok

/-! ## Joining draws -/

theorem yields_pure {b : β} (h : P b) : Yields (γ := γ) (pure b) P := fun _ => h

theorem yields_ofExcept {r : Except (Fault ℚ) β} {b : β} (hr : r = .ok b) (h : P b) :
    Yields (γ := γ) (Step.ofExcept r) P :=
  fun _ => leads_query_ok hr h

/-- Goes on with a result that is known. -/
theorem yields_ofExcept_bind {r : Except (Fault ℚ) β} {b : β} (hr : r = .ok b) {f : β → Draw ℚ γ δ}
    {Q : δ → Prop} (h : Yields (f b) Q) : Yields (Step.ofExcept r >>= f) Q :=
  fun g => leads_bind.2 (leads_query_ok hr (h g))

theorem Yields.bind {f : β → Draw ℚ γ δ} {Q : δ → Prop} (hm : Yields m P)
    (hf : ∀ b, P b → Yields (f b) Q) : Yields (m >>= f) Q :=
  fun g => (hm g).bind fun b g' hb => hf b hb g'

theorem Yields.mono {Q : β → Prop} (h : Yields m P) (hPQ : ∀ b, P b → Q b) : Yields m Q :=
  fun g => (h g).mono (fun b _ => hPQ b) fun _ _ => id

/-- Draws for each element of a list. -/
theorem yields_mapM {f : δ → Draw ℚ γ β} {R : δ → β → Prop} {l : List δ}
    (h : ∀ x ∈ l, Yields (f x) (R x)) : Yields (l.mapM f) (List.Forall₂ R l) := by
  induction l with
  | nil => exact yields_pure .nil
  | cons x l ih =>
    rw [List.mapM_cons]
    refine (h x List.mem_cons_self).bind fun b hb => ?_
    refine (ih fun y hy => h y (List.mem_cons_of_mem x hy)).bind fun bs hbs => ?_
    exact yields_pure (.cons hb hbs)

/-- Draws that follow each other keep an invariant over the elements that are done. -/
theorem yields_foldlM {f : β → δ → Draw ℚ γ β} {I : List δ → β → Prop} {l : List δ}
    (h : ∀ done x rest, l = done ++ x :: rest → ∀ b, I done b → Yields (f b x) (I (done ++ [x])))
    {b : β} (hb : I [] b) : Yields (l.foldlM f b) (I l) := by
  suffices hgen : ∀ rest done, l = done ++ rest → ∀ b, I done b → Yields (rest.foldlM f b) (I l) from
    hgen l [] rfl b hb
  intro rest
  induction rest with
  | nil =>
    intro done hsplit b hb
    rw [hsplit, List.append_nil]
    exact yields_pure hb
  | cons x rest ih =>
    intro done hsplit b hb
    rw [List.foldlM_cons]
    exact (h done x rest hsplit b hb).bind fun b' hb' => ih (done ++ [x]) (by simp [hsplit]) b' hb'

/-! ## Numbers -/

variable [Source γ]

/-- A whole number between two bounds. -/
theorem yields_between {low high : ℤ} (h : low ≤ high) :
    Yields (between (γ := γ) low high) fun n => low ≤ n ∧ n ≤ high := by
  intro g
  have hlt := Source.below_lt (high - low + 1).toNat g (by omega)
  unfold Leads between
  rw [if_neg (not_lt.2 h)]
  dsimp only
  omega

/-- An element of the list. -/
theorem yields_choice {xs : List ℤ} (h : xs ≠ []) : Yields (choice (γ := γ) xs) fun x => x ∈ xs := by
  intro g
  have hlt := Source.below_lt xs.length g (List.length_pos_iff.2 h)
  unfold Leads choice
  simp only [List.getElem?_eq_getElem hlt]
  exact List.getElem_mem hlt

/-- A fraction of the interval. -/
theorem yields_fraction : Yields (fraction (γ := γ)) fun x : ℚ => 0 ≤ x ∧ x < 1 := by
  intro g
  have hlt := Source.steps_lt g
  have hpos : (0 : ℚ) < (resolution : ℕ) := by norm_num [resolution]
  refine ⟨div_nonneg (Nat.cast_nonneg _) hpos.le, ?_⟩
  show ((Source.steps g).1 : ℚ) / (resolution : ℕ) < 1
  rw [div_lt_one hpos]
  exact_mod_cast hlt

/-- A value of the interval. -/
theorem yields_uniform {low high : ℚ} (h : low ≤ high) :
    Yields (uniform (γ := γ) low high) fun x => low ≤ x ∧ x ≤ high := by
  refine yields_fraction.bind fun x hx => yields_pure ?_
  have hspan : 0 ≤ (high - low) * x := mul_nonneg (sub_nonneg.2 h) hx.1
  have hshort : (high - low) * x ≤ high - low := mul_le_of_le_one_right (sub_nonneg.2 h) hx.2.le
  constructor <;> linarith

end FlowSched.Draw

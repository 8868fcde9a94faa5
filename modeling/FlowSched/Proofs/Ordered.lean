import Mathlib.Data.List.Induction
import FlowSched.Proofs.Exact

/-!
# What comparisons may rely on

Doubles are ordered up to values that are no number, which compare with nothing, not even with
themselves. `Ordered` asks for no more than that, and the rationals have it. It is enough to tell what a scan
that keeps the best element so far ends with. Among numbers it is the first of the greatest or of the
least (`foldl_greatest`, `foldl_least`), and in any case an element that none exceeds and none ahead of it
reaches (`foldl_unexceeded`).
-/

namespace FlowSched.Quantity

/-- The value is a number, and so equal to itself. -/
def IsNumber {α : Type} [Quantity α] (x : α) : Prop := (x == x) = true

/-- Comparisons as doubles have them. Only numbers have to compare. -/
structure Ordered (α : Type) [Quantity α] : Prop where
  irrefl : ∀ a : α, ¬ a < a
  lt_trans : ∀ a b c : α, a < b → b < c → a < c
  lt_of_lt_of_le : ∀ a b c : α, a < b → b ≤ c → a < c
  lt_of_le_of_lt : ∀ a b c : α, a ≤ b → b < c → a < c
  le_of_not_lt : ∀ a b : α, IsNumber a → IsNumber b → ¬ a < b → b ≤ a

theorem ordered_rat : Ordered ℚ where
  irrefl := lt_irrefl
  lt_trans _ _ _ := lt_trans
  lt_of_lt_of_le _ _ _ := lt_of_lt_of_le
  lt_of_le_of_lt _ _ _ := lt_of_le_of_lt
  le_of_not_lt _ _ _ _ := not_lt.1

theorem isNumber_rat (x : ℚ) : IsNumber x := beq_self_eq_true x

/-! ## Keeping the best so far -/

section

variable {β : Type} (x : β) (xs : List β)

/-- A scan that replaces the best element by each one that beats it ends with an element that none beats.
All elements ahead of that one were beaten, or passed over for one that was. -/
theorem foldl_best {beats ahead : β → β → Prop} [∀ a b, Decidable (beats a b)]
    (hirrefl : ∀ a, ¬ beats a a) (htrans : ∀ a b c, beats a b → beats b c → beats a c)
    (hpassed : ∀ a ∈ x :: xs, ∀ b ∈ x :: xs, ∀ c ∈ x :: xs, ¬ beats b a → beats b c → ahead a c) :
    ∃ front best rear, xs.foldl (fun best y => if beats best y then y else best) x = best ∧
      x :: xs = front ++ best :: rear ∧ (∀ a ∈ front, ahead a best) ∧ ∀ a ∈ x :: xs, ¬ beats best a := by
  induction xs using List.reverseRecOn with
  | nil => exact ⟨[], x, [], rfl, rfl, by simp, by simpa using hirrefl x⟩
  | append_singleton xs y ih =>
    have hsub : ∀ a ∈ x :: xs, a ∈ x :: (xs ++ [y]) := fun a ha => List.mem_append_left [y] ha
    obtain ⟨front, best, rear, hfold, hsplit, hfront, hbest⟩ := ih fun a ha b hb c hc =>
      hpassed a (hsub a ha) b (hsub b hb) c (hsub c hc)
    rw [List.foldl_append, List.foldl_cons, List.foldl_nil, ← List.cons_append, hfold]
    have hmem : best ∈ x :: xs := by rw [hsplit]; simp
    split
    · next hy =>
      refine ⟨x :: xs, y, [], rfl, rfl, fun a ha => ?_, fun a ha hya => ?_⟩
      · exact hpassed a (hsub a ha) best (hsub best hmem) y (by simp) (hbest a ha) hy
      · rcases List.mem_append.1 ha with ha | ha
        · exact hbest a ha (htrans _ _ _ hy hya)
        · exact hirrefl y (List.mem_singleton.1 ha ▸ hya)
    · next hy =>
      refine ⟨front, best, rear ++ [y], rfl, by rw [hsplit, List.append_assoc, List.cons_append], hfront,
        fun a ha => ?_⟩
      rcases List.mem_append.1 ha with ha | ha
      · exact hbest a ha
      · exact List.mem_singleton.1 ha ▸ hy

variable {α : Type} [Quantity α] (h : Ordered α) (key : β → α)

include h

/-- Of numbers the scan keeps the first of the greatest. -/
theorem foldl_greatest (hnum : ∀ a ∈ x :: xs, IsNumber (key a)) :
    ∃ front best rear, xs.foldl (fun best y => if key best < key y then y else best) x = best ∧
      x :: xs = front ++ best :: rear ∧ (∀ a ∈ front, key a < key best) ∧
      ∀ a ∈ x :: xs, ¬ key best < key a :=
  foldl_best x xs (fun _ => h.irrefl _) (fun _ _ _ => h.lt_trans _ _ _) fun a ha b hb _ _ hba hbc =>
    h.lt_of_le_of_lt _ _ _ (h.le_of_not_lt _ _ (hnum b hb) (hnum a ha) hba) hbc

/-- Of numbers the scan the other way round keeps the first of the least. -/
theorem foldl_least (hnum : ∀ a ∈ x :: xs, IsNumber (key a)) :
    ∃ front best rear, xs.foldl (fun best y => if key y < key best then y else best) x = best ∧
      x :: xs = front ++ best :: rear ∧ (∀ a ∈ front, key best < key a) ∧
      ∀ a ∈ x :: xs, ¬ key a < key best :=
  foldl_best x xs (fun _ => h.irrefl _) (fun _ _ _ hab hbc => h.lt_trans _ _ _ hbc hab)
    fun a ha b hb _ _ hab hcb =>
      h.lt_of_lt_of_le _ _ _ hcb (h.le_of_not_lt _ _ (hnum a ha) (hnum b hb) hab)

/-- Whatever the keys are, the scan keeps an element that none exceeds, and that none ahead of it
reaches. -/
theorem foldl_unexceeded :
    ∃ front best rear, xs.foldl (fun best y => if key best < key y then y else best) x = best ∧
      x :: xs = front ++ best :: rear ∧ (∀ a ∈ front, ¬ key best ≤ key a) ∧
      ∀ a ∈ x :: xs, ¬ key best < key a :=
  foldl_best x xs (fun _ => h.irrefl _) (fun _ _ _ => h.lt_trans _ _ _) fun _ _ _ _ _ _ hba hbc hca =>
    hba (h.lt_of_lt_of_le _ _ _ hbc hca)

end

end FlowSched.Quantity

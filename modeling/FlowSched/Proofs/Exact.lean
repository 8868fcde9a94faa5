import Mathlib.Data.Rat.Floor
import Mathlib.Tactic.Linarith
import FlowSched.Number.Quantity

/-!
# Quantities without rounding

Over the rationals the operations of `Quantity` are those of an ordered field: the later of two
instants is their maximum, the latest of a list bounds all of it, and `moves` counts enough steps
to get behind a limit.
-/

namespace FlowSched.Quantity

theorem later_eq_max (a b : ℚ) : later a b = max a b := by
  unfold later
  split_ifs with h
  · exact (max_eq_right h.le).symm
  · exact (max_eq_left (not_lt.1 h)).symm

theorem le_later_left (a b : ℚ) : a ≤ later a b := by rw [later_eq_max]; exact le_max_left a b

theorem le_later_right (a b : ℚ) : b ≤ later a b := by rw [later_eq_max]; exact le_max_right a b

@[simp] theorem isFinite_rat (x : ℚ) : isFinite x = true := rfl

@[simp] theorem isTop_rat (x : ℚ) : isTop x = false := Bool.and_false _

/-! ## The latest of a list -/

theorem le_foldl_later (xs : List ℚ) (a : ℚ) : a ≤ xs.foldl later a := by
  induction xs generalizing a with
  | nil => exact le_refl a
  | cons x xs ih => exact (le_later_left a x).trans (ih _)

theorem le_foldl_later_of_mem {xs : List ℚ} {x : ℚ} (a : ℚ) (h : x ∈ xs) :
    x ≤ xs.foldl later a := by
  induction xs generalizing a with
  | nil => cases h
  | cons y xs ih =>
    rcases List.mem_cons.1 h with rfl | h
    · exact (le_later_right a x).trans (le_foldl_later xs _)
    · exact ih _ h

theorem foldl_later_mem (xs : List ℚ) (a : ℚ) :
    xs.foldl later a = a ∨ xs.foldl later a ∈ xs := by
  induction xs generalizing a with
  | nil => exact Or.inl rfl
  | cons x xs ih =>
    have hx : later a x = a ∨ later a x = x := by
      rw [later_eq_max]; exact max_choice a x
    rcases ih (later a x) with h | h
    · rcases hx with hx | hx
      · exact Or.inl (h.trans hx)
      · exact Or.inr (by rw [List.foldl_cons, h, hx]; exact List.mem_cons_self)
    · exact Or.inr (List.mem_cons_of_mem _ h)

@[simp] theorem latest?_eq_none {xs : List ℚ} : latest? xs = none ↔ xs = [] := by
  cases xs <;> simp [latest?]

/-- The latest of a list is an element that none exceeds. -/
theorem latest?_eq_some {xs : List ℚ} {m : ℚ} (h : latest? xs = some m) :
    m ∈ xs ∧ ∀ x ∈ xs, x ≤ m := by
  cases xs with
  | nil => cases h
  | cons y xs =>
    obtain rfl := Option.some.inj h
    constructor
    · rcases foldl_later_mem xs y with e | hm
      · rw [e]; exact List.mem_cons_self
      · exact List.mem_cons_of_mem _ hm
    · intro x hx
      rcases List.mem_cons.1 hx with rfl | hx
      · exact le_foldl_later xs x
      · exact le_foldl_later_of_mem y hx

theorem le_latest {xs : List ℚ} {x : ℚ} (h : x ∈ xs) : x ≤ latest xs := by
  unfold latest
  cases hm : latest? xs with
  | none => rw [latest?_eq_none.1 hm] at h; cases h
  | some m => exact (latest?_eq_some hm).2 x h

@[simp] theorem latest_nil : latest ([] : List ℚ) = 0 := rfl

@[simp] theorem latest_singleton (x : ℚ) : latest [x] = x := rfl

theorem latest_mem {xs : List ℚ} (hne : xs ≠ []) : latest xs ∈ xs := by
  unfold latest
  cases hm : latest? xs with
  | none => exact absurd (latest?_eq_none.1 hm) hne
  | some m => exact (latest?_eq_some hm).1

/-- The latest of a list is the element that bounds it. -/
theorem latest_eq {xs : List ℚ} {m : ℚ} (hm : m ∈ xs) (hle : ∀ x ∈ xs, x ≤ m) : latest xs = m :=
  le_antisymm (hle _ (latest_mem (List.ne_nil_of_mem hm))) (le_latest hm)

theorem latest_cons {xs : List ℚ} (x : ℚ) (hne : xs ≠ []) :
    latest (x :: xs) = max x (latest xs) := by
  apply latest_eq
  · rcases max_choice x (latest xs) with h | h
    · rw [h]
      exact List.mem_cons_self
    · rw [h]
      exact List.mem_cons_of_mem _ (latest_mem hne)
  · intro y hy
    rcases List.mem_cons.1 hy with rfl | hy
    · exact le_max_left _ _
    · exact (le_latest hy).trans (le_max_right _ _)

theorem latest_zero_cons {x : ℚ} (hx : 0 ≤ x) (xs : List ℚ) :
    latest (0 :: x :: xs) = max (latest xs) x := by
  rw [latest_cons 0 (by simp)]
  rcases eq_or_ne xs [] with rfl | hne
  · rfl
  · rw [latest_cons x hne, max_comm x]
    exact max_eq_right (hx.trans (le_max_right _ _))

/-- If every instant of a list moves backwards, so does the latest. -/
theorem latest_le_latest {xs ys : List ℚ} (h : List.Forall₂ (· ≤ ·) xs ys) :
    latest xs ≤ latest ys := by
  induction h with
  | nil => exact le_refl _
  | @cons x y xs ys hxy hs ih =>
    rcases List.eq_nil_or_concat xs with rfl | ⟨_, _, he⟩
    · cases hs
      exact hxy
    · have hx : xs ≠ [] := by simp [he]
      have hy : ys ≠ [] := fun hn => hx (by
        subst hn
        cases hs
        rfl)
      rw [latest_cons x hx, latest_cons y hy]
      exact max_le_max hxy ih

/-! ## Steps up to a limit -/

/-- As many steps as `moves` counts lead behind the limit. -/
theorem lt_add_moves_mul (start limit : ℚ) {step : ℚ} (h : 0 < step) :
    limit < start + (moves start limit step : ℕ) * step := by
  have hfloor : ((limit - start) / step).floor + 1 ≤ (moves start limit step : ℤ) :=
    add_le_add_left (Int.self_le_toNat _) 1
  have hq : (limit - start) / step < (moves start limit step : ℕ) :=
    (Rat.lt_floor_add_one _).trans_le (by exact_mod_cast hfloor)
  have := (div_lt_iff₀ h).1 hq
  linarith

end FlowSched.Quantity

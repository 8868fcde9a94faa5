import Mathlib.Tactic.Ring
import FlowSched.Span
import FlowSched.Proofs.Exact
import FlowSched.Proofs.Step

/-!
# Where a moved span comes to rest

Without rounding a positive step is never idle. A span that is blocked only up to a limit therefore
comes to rest: at the first multiple of the step at which it is not blocked (`advance_rests`). That
is the least move past what blocks it (`Rests`), and least moves one after the other are the least
move past everything, as long as no later one leaves what an earlier one has reached (`Rests.bind`).
-/

namespace FlowSched.Span

open Quantity

@[simp] theorem shift_start (s : Span ℚ) (x : ℚ) : (s.shift x).start = s.start + x := by
  simp only [shift]

@[simp] theorem shift_finish (s : Span ℚ) (x : ℚ) : (s.shift x).finish = s.finish + x := by
  simp only [shift]

@[simp] theorem shift_zero (s : Span ℚ) : s.shift 0 = s := by
  cases s
  simp [shift]

theorem shift_shift (s : Span ℚ) (x y : ℚ) : (s.shift x).shift y = s.shift (x + y) := by
  simp [shift, add_assoc]

theorem shift_succ (s : Span ℚ) (k : ℕ) (step : ℚ) :
    s.shift ((k + 1 : ℕ) * step) = (s.shift step).shift (k * step) := by
  rw [shift_shift]
  congr 1
  push_cast
  ring

/-- The instants taken are those listed. -/
@[simp] theorem taken_iff {instants : List ℚ} {x : ℚ} : taken instants x = true ↔ x ∈ instants := by
  simp [taken]

variable (blocked : Span ℚ → Bool) {step : ℚ}

/-- With a positive step a span is moved a whole number of times, only while it is blocked, and it
is still blocked only when the moves are used up. -/
theorem advance_eq (h : 0 < step) (fuel : ℕ) (s : Span ℚ) :
    ∃ k ≤ fuel, advance blocked step fuel s = .ok (s.shift (k * step)) ∧
      (∀ i < k, blocked (s.shift (i * step)) = true) ∧
      (blocked (s.shift (k * step)) = true → k = fuel) := by
  induction fuel generalizing s with
  | zero => exact ⟨0, le_refl 0, by simp [advance], by simp, fun _ => rfl⟩
  | succ fuel ih =>
    by_cases hb : blocked s = true
    · obtain ⟨k, hk, hadv, hbefore, hlast⟩ := ih (s.shift step)
      have hmoves : ¬ (s.start + step == s.start) = true := by simpa using h.ne'
      refine ⟨k + 1, Nat.succ_le_succ hk, ?_, ?_, ?_⟩
      · rw [advance, if_pos hb, if_neg hmoves, hadv, shift_succ]
      · intro i hi
        cases i with
        | zero => simpa using hb
        | succ i => rw [shift_succ]; exact hbefore i (Nat.lt_of_succ_lt_succ hi)
      · intro hb'
        rw [shift_succ] at hb'
        rw [hlast hb']
    · refine ⟨0, Nat.zero_le _, ?_, by simp, fun hb' => absurd (by simpa using hb') hb⟩
      rw [advance, if_neg hb]
      simp

/-- A span that is blocked only up to a limit comes to rest where it is not blocked. -/
theorem advance_rests (h : 0 < step) (limit : ℚ) (s : Span ℚ)
    (hb : ∀ k : ℕ, blocked (s.shift (k * step)) = true → s.start + k * step ≤ limit) :
    ∃ k : ℕ, advance blocked step (moves s.start limit step) s = .ok (s.shift (k * step)) ∧
      (∀ i < k, blocked (s.shift (i * step)) = true) ∧
      blocked (s.shift (k * step)) = false := by
  obtain ⟨k, -, hadv, hbefore, hlast⟩ := advance_eq blocked h (moves s.start limit step) s
  refine ⟨k, hadv, hbefore, ?_⟩
  by_contra hk
  have hk : blocked (s.shift (k * step)) = true := by simpa using hk
  have hle := hb k hk
  rw [hlast hk] at hle
  exact absurd (lt_add_moves_mul s.start limit h) (not_lt.2 hle)

/-- The span is moved by as few steps as bring its start to a place that has `P`. -/
def Rests {ε : Type} (step : ℚ) (P : ℚ → Prop) (s : Span ℚ) (r : Except ε (Span ℚ)) : Prop :=
  ∃ k : ℕ, r = .ok (s.shift (k * step)) ∧ IsLeast {k : ℕ | P (s.start + k * step)} k

variable {blocked} {fuel : ℕ} {s t : Span ℚ}

/-- A span that is blocked exactly off `P`, and only up to a limit, makes the least move to `P`. -/
theorem rests_advance {P : ℚ → Prop} (h : 0 < step) {limit : ℚ}
    (hblocked : ∀ s, blocked s = true ↔ ¬ P s.start) (hlimit : ∀ x, ¬ P x → x ≤ limit) :
    Rests step P s (advance blocked step (moves s.start limit step) s) := by
  obtain ⟨k, hadv, hbefore, hfree⟩ := advance_rests blocked h limit s fun k hk => by
    simpa using hlimit _ ((hblocked _).1 hk)
  refine ⟨k, hadv, ?_, fun i hi => ?_⟩
  · by_contra hP
    have hb : blocked (s.shift (k * step)) = true := (hblocked _).2 (by simpa using hP)
    rw [hfree] at hb
    cases hb
  · by_contra hik
    have hb := (hblocked _).1 (hbefore i (not_le.1 hik))
    rw [shift_start] at hb
    exact hb hi

namespace Rests

variable {ε : Type} {P Q : ℚ → Prop} {r : Except ε (Span ℚ)}

/-- A span whose place has `P` stays where it is. -/
theorem of_free (h : P s.start) : Rests step P s (.ok s : Except ε (Span ℚ)) :=
  ⟨0, by simp, by simpa using h, fun _ _ => Nat.zero_le _⟩

theorem congr (h : Rests step P s r) (hPQ : ∀ x, P x ↔ Q x) : Rests step Q s r := by
  rwa [← funext fun x => propext (hPQ x)]

/-- Two least moves are together the least move past both, if moving on keeps what the first one
has reached. -/
theorem bind (hstep : 0 ≤ step) (hP : Monotone P) (h : Rests step P s r)
    {f : Span ℚ → Except ε (Span ℚ)} (hf : ∀ t, Rests step Q t (f t)) :
    Rests step (fun x => P x ∧ Q x) s (r >>= f) := by
  obtain ⟨k, rfl, hk, hkleast⟩ := h
  obtain ⟨l, hl, hlmem, hlleast⟩ := hf (s.shift (k * step))
  have hadd : ∀ m : ℕ, s.start + k * step + m * step = s.start + (k + m : ℕ) * step := by
    intro m
    push_cast
    ring
  simp only [shift_start, Set.mem_ofPred_eq, hadd] at hlmem
  refine ⟨k + l, ?_, ⟨hP ?_ hk, hlmem⟩, ?_⟩
  · rw [ok_bind, hl, shift_shift]
    push_cast
    rw [add_mul]
  · rw [← hadd]
    exact le_add_of_nonneg_right (by positivity)
  · rintro m ⟨hPm, hQm⟩
    obtain ⟨i, rfl⟩ := Nat.exists_eq_add_of_le (hkleast hPm)
    refine Nat.add_le_add_left (hlleast ?_) k
    simpa only [shift_start, Set.mem_ofPred_eq, hadd] using hQm

end Rests

/-- A span that is not blocked stays where it is. -/
theorem advance_of_free (h : blocked s = false) : advance blocked step fuel s = .ok s := by
  cases fuel with
  | zero => rfl
  | succ fuel => rw [advance, if_neg (by simp [h])]

/-- What holds of a span and is kept by a shift holds where the span comes to rest. -/
theorem of_advance {P : Span ℚ → Prop} (hP : ∀ s, P s → P (s.shift step)) (hs : P s)
    (h : advance blocked step fuel s = .ok t) : P t := by
  induction fuel generalizing s with
  | zero => exact Except.ok.inj h ▸ hs
  | succ fuel ih =>
    unfold advance at h
    split_ifs at h
    · exact ih (hP s hs) h
    · exact Except.ok.inj h ▸ hs

end FlowSched.Span

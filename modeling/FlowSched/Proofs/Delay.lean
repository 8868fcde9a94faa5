import Mathlib.Data.List.InsertIdx
import FlowSched.Proofs.Span
import FlowSched.Proofs.Table
import FlowSched.Proofs.Timeline

/-!
# Delayed timelines

When all instants are moved by one delay, whatever is found among them is found later by that delay:
the latest of some instants, the rest of a moved span, and the place of a new slot. Nothing that is
found depends on where the clock stands at zero.
-/

namespace FlowSched

open Quantity

/-! ## Instants -/

namespace Quantity

variable (δ : ℚ)

@[simp] theorem later_add (a b : ℚ) : later (a + δ) (b + δ) = later a b + δ := by
  rw [later_eq_max, later_eq_max, max_add_add_right]

theorem foldl_later_add (xs : List ℚ) (a : ℚ) :
    (xs.map (· + δ)).foldl later (a + δ) = xs.foldl later a + δ := by
  induction xs generalizing a with
  | nil => rfl
  | cons x xs ih => rw [List.map_cons, List.foldl_cons, List.foldl_cons, later_add, ih]

theorem latest?_map_add (xs : List ℚ) : latest? (xs.map (· + δ)) = (latest? xs).map (· + δ) := by
  cases xs with
  | nil => rfl
  | cons x xs => exact congrArg some (foldl_later_add δ xs x)

theorem latest_map_add {xs : List ℚ} (hne : xs ≠ []) : latest (xs.map (· + δ)) = latest xs + δ := by
  obtain ⟨m, hm⟩ := Option.ne_none_iff_exists'.1 (mt latest?_eq_none.1 hne)
  rw [latest, latest, latest?_map_add, hm]
  rfl

theorem moves_add (start limit step : ℚ) : moves (start + δ) (limit + δ) step = moves start limit step := by
  show ((limit + δ - (start + δ)) / step).floor.toNat + 1 = ((limit - start) / step).floor.toNat + 1
  rw [add_sub_add_right_eq_sub]

end Quantity

/-! ## Tables -/

namespace Table

variable {β γ : Type} (f : β → γ) (t : Table β)

theorem find_map (key : ℤ) (entries : List (ℤ × β)) :
    find key (entries.map fun e => (e.1, f e.2)) = (find key entries).map f := by
  induction entries with
  | nil => rfl
  | cons e rest ih =>
    obtain ⟨k, v⟩ := e
    rw [List.map_cons, find, find]
    split
    · rfl
    · exact ih

@[simp] theorem get?_map (key : ℤ) : (t.map f).get? key = (t.get? key).map f :=
  find_map f key t.entries

theorem enter_map (key : ℤ) (v : β) (entries : List (ℤ × β)) :
    enter key (f v) (entries.map fun e => (e.1, f e.2)) =
      (enter key v entries).map fun e => (e.1, f e.2) := by
  induction entries with
  | nil => rfl
  | cons e rest ih =>
    obtain ⟨k, u⟩ := e
    rw [List.map_cons, enter, enter]
    split
    · rfl
    · rw [List.map_cons, ih]

theorem map_set (key : ℤ) (v : β) : (t.set key v).map f = (t.map f).set key (f v) :=
  congrArg Table.mk (enter_map f key v t.entries).symm

theorem map_foldl_set (pairs : List (ℤ × β)) :
    (pairs.foldl (fun t e => t.set e.1 e.2) t).map f =
      (pairs.map fun e => (e.1, f e.2)).foldl (fun t e => t.set e.1 e.2) (t.map f) := by
  induction pairs generalizing t with
  | nil => rfl
  | cons e pairs ih => rw [List.foldl_cons, ih, map_set, List.map_cons, List.foldl_cons]

theorem map_ofList (pairs : List (ℤ × β)) :
    (ofList pairs).map f = ofList (pairs.map fun e => (e.1, f e.2)) :=
  map_foldl_set f {} pairs

end Table

/-! ## Spans -/

namespace Span

variable {δ : ℚ}

theorem taken_map_add (instants : List ℚ) (x : ℚ) :
    taken (instants.map (· + δ)) (x + δ) = taken instants x := by
  rw [Bool.eq_iff_iff, taken_iff, taken_iff, List.mem_map]
  simp

/-- A span that is blocked where its delayed copy is comes to rest where the copy does. -/
theorem advance_shift {blocked blocked' : Span ℚ → Bool} {step : ℚ}
    (h : ∀ s, blocked' (s.shift δ) = blocked s) {fuel : ℕ} {s t : Span ℚ}
    (hs : advance blocked step fuel s = .ok t) :
    advance blocked' step fuel (s.shift δ) = .ok (t.shift δ) := by
  induction fuel generalizing s with
  | zero => exact congrArg (Except.ok ∘ (shift · δ)) (Except.ok.inj hs)
  | succ fuel ih =>
    rw [advance] at hs ⊢
    rw [h]
    split at hs
    · next hb =>
      split at hs
      · cases hs
      · next hmoves =>
        have hmoves' : ¬ ((s.shift δ).start + step == (s.shift δ).start) = true := by
          simpa using hmoves
        have hcomm : (s.shift δ).shift step = (s.shift step).shift δ := by
          rw [shift_shift, shift_shift, add_comm]
        rw [if_pos hb, if_neg hmoves', hcomm]
        exact ih hs
    · next hb =>
      rw [if_neg hb]
      exact congrArg (Except.ok ∘ (shift · δ)) (Except.ok.inj hs)

end Span

/-! ## Slots -/

section

variable (δ : ℚ)

/-- A slot moved by a delay. -/
def Slot.delay (s : Slot ℚ) : Slot ℚ := { s with start := s.start + δ, finish := s.finish + δ }

@[simp] theorem Slot.start_delay (s : Slot ℚ) : (s.delay δ).start = s.start + δ := rfl

@[simp] theorem Slot.finish_delay (s : Slot ℚ) : (s.delay δ).finish = s.finish + δ := rfl

/-- An opening moved by a delay. -/
def Opening.delay (o : Opening ℚ) : Opening ℚ := ⟨o.start + δ, o.finish + δ, o.index⟩

@[simp] theorem Opening.finish_delay (o : Opening ℚ) : (o.delay δ).finish = o.finish + δ := rfl

end

namespace Timeline

/-- A timeline whose slots are all moved by a delay. -/
def delay (δ : ℚ) (t : Timeline ℚ) : Timeline ℚ := { t with slots := t.slots.map (Slot.delay δ) }

variable (δ : ℚ)

theorem opening_delay (start cost : ℚ) (index : ℕ) :
    (⟨start + δ, start + δ + cost, index⟩ : Opening ℚ) = Opening.delay δ ⟨start, start + cost, index⟩ := by
  rw [Opening.delay, add_right_comm]

theorem walkGaps_delay (cost ready : ℚ) (reversed : List (Slot ℚ)) (best : Opening ℚ) :
    walkGaps cost (ready + δ) (best.delay δ) (reversed.map (Slot.delay δ)) =
      (walkGaps cost ready best reversed).delay δ := by
  induction reversed generalizing best with
  | nil => rfl
  | cons current reversed ih =>
    cases reversed with
    | nil => rfl
    | cons previous rest =>
      rw [List.map_cons, List.map_cons, walkGaps, walkGaps]
      simp only [Slot.start_delay, Slot.finish_delay, Opening.finish_delay, List.length_map,
        add_right_comm _ δ cost, add_lt_add_iff_right, add_le_add_iff_right]
      split
      · split
        · rfl
        · rfl
      · split
        · exact ih ⟨previous.finish, previous.finish + cost, rest.length + 1⟩
        · exact ih best

/-- The place of a new slot is delayed with the slots, at the same index. -/
theorem findSlot_delay (slots : List (Slot ℚ)) (cost ready : ℚ) :
    findSlot (slots.map (Slot.delay δ)) cost (ready + δ) =
      ((findSlot slots cost ready).1 + δ, (findSlot slots cost ready).2) := by
  match slots with
  | [] => rfl
  | [only] =>
    rw [List.map_cons, List.map_nil, findSlot, findSlot]
    simp only [Slot.start_delay, Slot.finish_delay, add_right_comm _ δ cost, add_le_add_iff_right]
    split
    · rfl
    · split
      · rfl
      · rfl
  | first :: second :: rest =>
    have hlast : ((second :: rest).map (Slot.delay δ)).getLastD (first.delay δ) =
        ((second :: rest).getLastD first).delay δ := by
      rw [List.getLastD_eq_getLast?, List.getLastD_eq_getLast?, List.getLast?_map]
      cases (second :: rest).getLast? <;> rfl
    have hwalk := walkGaps_delay δ cost ready (first :: second :: rest).reverse
      ⟨later ready ((second :: rest).getLastD first).finish,
        later ready ((second :: rest).getLastD first).finish + cost, (first :: second :: rest).length⟩
    rw [← opening_delay, ← later_add, ← Slot.finish_delay, ← hlast, List.map_reverse] at hwalk
    have hfirst : ready + δ + cost ≤ (first.delay δ).start ↔ ready + cost ≤ first.start := by
      rw [Slot.start_delay, add_right_comm, add_le_add_iff_right]
    show (if ready + δ + cost ≤ (first.delay δ).start then (ready + δ, 0) else _) =
      ((if ready + cost ≤ first.start then (ready, 0) else _).1 + δ,
        (if ready + cost ≤ first.start then (ready, 0) else _).2)
    by_cases h : ready + cost ≤ first.start
    · rw [if_pos h, if_pos (hfirst.2 h)]
    · rw [if_neg h, if_neg (mt hfirst.1 h)]
      rw [List.length_map]
      exact congrArg (fun o : Opening ℚ => (o.start, o.index)) hwalk

variable (t : Timeline ℚ) (cost ready : ℚ)

theorem finishTime_delay :
    (t.delay δ).finishTime cost (ready + δ) = t.finishTime cost ready + δ := by
  show (findSlot (t.slots.map (Slot.delay δ)) cost (ready + δ)).1 + cost = _
  rw [findSlot_delay, add_right_comm]
  rfl

theorem slotFor_delay (task : ℤ) : (t.delay δ).slotFor task cost (ready + δ) =
    ((t.slotFor task cost ready).1.delay δ, (t.slotFor task cost ready).2) := by
  show ((⟨(findSlot (t.slots.map (Slot.delay δ)) cost (ready + δ)).1,
      (findSlot (t.slots.map (Slot.delay δ)) cost (ready + δ)).1 + cost, task, t.vm⟩ : Slot ℚ),
    (findSlot (t.slots.map (Slot.delay δ)) cost (ready + δ)).2) = _
  rw [findSlot_delay, add_right_comm]
  rfl

/-- A delayed task takes the place that it would take among the slots as they were. -/
theorem occupy_delay (task : ℤ) :
    (t.delay δ).occupy task cost (ready + δ) = (t.occupy task cost ready).delay δ := by
  unfold occupy
  rw [slotFor_delay]
  exact congrArg (Timeline.mk t.vm) (List.map_insertIdx (Slot.delay δ) t.slots _ _).symm

end Timeline

end FlowSched

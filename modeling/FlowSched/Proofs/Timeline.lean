import Mathlib.Algebra.Order.BigOperators.Group.List
import Mathlib.Algebra.Ring.Rat
import Mathlib.Data.List.Perm.Basic
import FlowSched.Timeline
import FlowSched.Proofs.Exact

/-!
# Timelines stay tidy

The slots of a timeline stand in order, and each ends before the next one starts. The place that is
found for a new slot lies in a gap that holds it (`findSlot_gap`), so reserving it leaves the timeline
tidy (`Tidy.occupy`), whatever instant the task is ready at. It is the earliest place that does
(`findSlot_least`): the walk from the last slot backwards only ever finds an earlier one, and where it
breaks off the gaps that are left lie before the instant the task is ready at (`walkGaps_least`).
-/

namespace FlowSched.Timeline

open Quantity

/-- Slots in order, none of which starts before the ones ahead of it have ended. -/
structure Tidy (slots : List (Slot ℚ)) : Prop where
  forward : ∀ s ∈ slots, s.start ≤ s.finish
  apart : slots.Pairwise fun a b => a.finish ≤ b.start

/-- A start from which some time fits between the slots, and the number of slots ahead of it. -/
structure Gap (slots : List (Slot ℚ)) (cost ready start : ℚ) (index : ℕ) : Prop where
  ready_le : ready ≤ start
  fits : ∃ ahead behind, slots = ahead ++ behind ∧ ahead.length = index ∧
    (∀ a ∈ ahead, a.finish ≤ start) ∧ ∀ b ∈ behind, start + cost ≤ b.start

variable {slots ahead behind : List (Slot ℚ)} {slot : Slot ℚ} {line : Timeline ℚ}
  {cost ready start : ℚ} {task : ℤ}

theorem tidy_nil : Tidy [] := ⟨by simp, .nil⟩

theorem Tidy.sorted (h : Tidy slots) : slots.Pairwise fun a b => a.start ≤ b.start := by
  refine h.apart.imp_of_mem fun {a b} ha _ hab => ?_
  exact (h.forward a ha).trans hab

section

variable (h : Tidy (ahead ++ slot :: behind))

include h

theorem Tidy.finish_le : ∀ a ∈ ahead ++ [slot], a.finish ≤ slot.finish := by
  intro a ha
  rcases List.mem_append.1 ha with ha | ha
  · exact ((List.pairwise_append.1 h.apart).2.2 a ha slot List.mem_cons_self).trans
      (h.forward slot (by simp))
  · rw [List.mem_singleton.1 ha]

theorem Tidy.start_le : ∀ b ∈ slot :: behind, slot.start ≤ b.start := by
  intro b hb
  rcases List.mem_cons.1 hb with rfl | hb
  · exact le_refl _
  · have hrest := List.pairwise_cons.1 (List.pairwise_append.1 h.apart).2.1
    exact (h.forward slot (by simp)).trans (hrest.1 b hb)

/-- Behind a slot that has ended there is a gap up to the next one. -/
theorem Tidy.gap (hready : ready ≤ start) (hend : slot.finish ≤ start)
    (hnext : ∀ b ∈ behind.head?, start + cost ≤ b.start) :
    Gap (ahead ++ slot :: behind) cost ready start (ahead.length + 1) := by
  refine ⟨hready, ahead ++ [slot], behind, by simp, by simp,
    fun a ha => (h.finish_le a ha).trans hend, ?_⟩
  cases behind with
  | nil => simp
  | cons next rest =>
    have hrest : Tidy ((ahead ++ [slot]) ++ next :: rest) := by simpa using h
    intro b hb
    exact (hnext next rfl).trans (hrest.start_le b hb)

end

/-- Slots that lie between two instants take no longer than the time between them. -/
theorem Tidy.sum_le (h : Tidy slots) {floor time : ℚ} (hle : floor ≤ time)
    (hfloor : ∀ s ∈ slots, floor ≤ s.start) (htime : ∀ s ∈ slots, s.finish ≤ time) :
    floor + (slots.map Slot.duration).sum ≤ time := by
  induction slots generalizing floor with
  | nil => simpa using hle
  | cons slot slots ih =>
    obtain ⟨hnext, hrest⟩ := List.pairwise_cons.1 h.apart
    have hsum := ih ⟨fun s hs => h.forward s (List.mem_cons_of_mem _ hs), hrest⟩
      (htime slot List.mem_cons_self) hnext fun s hs => htime s (List.mem_cons_of_mem _ hs)
    have hstart := hfloor slot List.mem_cons_self
    rw [List.map_cons, List.sum_cons, Slot.duration]
    linarith

/-! ## Finding a place -/

/-- Walking the gaps leads from one gap to another. -/
theorem walkGaps_gap (h : Tidy slots) (reversed : List (Slot ℚ)) {best : Opening ℚ}
    (hbest : Gap slots cost ready best.start best.index) (hslots : slots = reversed.reverse ++ behind) :
    Gap slots cost ready (walkGaps cost ready best reversed).start
      (walkGaps cost ready best reversed).index := by
  induction reversed generalizing best behind with
  | nil => exact hbest
  | cons current reversed ih =>
    cases reversed with
    | nil => exact hbest
    | cons previous rest =>
      have hshape : slots = rest.reverse ++ previous :: current :: behind := by simpa using hslots
      have hrest : slots = (previous :: rest).reverse ++ current :: behind := by simpa using hslots
      have hgap : ∀ start, ready ≤ start → previous.finish ≤ start → start + cost ≤ current.start →
          Gap slots cost ready start (rest.length + 1) := by
        intro start hready hend hnext
        have hgap := (hshape ▸ h).gap hready hend fun b hb => Option.some.inj hb ▸ hnext
        rwa [← hshape, List.length_reverse] at hgap
      rw [walkGaps]
      split
      · next hlt =>
        split
        · next hfit => exact hgap ready (le_refl ready) hlt.le hfit.1
        · exact hbest
      · next hle =>
        split
        · next hfit => exact ih (hgap _ (not_lt.1 hle) (le_refl _) hfit.1) hrest
        · exact ih hbest hrest

/-- The place that is found lies in a gap. -/
theorem findSlot_gap (h : Tidy slots) (cost ready : ℚ) :
    Gap slots cost ready (findSlot slots cost ready).1 (findSlot slots cost ready).2 := by
  -- a gap before all slots, and one behind them
  have hfront : ∀ first rest, slots = first :: rest → ready + cost ≤ first.start →
      Gap slots cost ready ready 0 := by
    rintro first rest rfl hle
    have htidy : Tidy ([] ++ first :: rest) := h
    exact ⟨le_refl _, [], _, rfl, rfl, by simp, fun b hb => hle.trans (htidy.start_le b hb)⟩
  have hback : ∀ ahead last start, slots = ahead ++ [last] → ready ≤ start → last.finish ≤ start →
      Gap slots cost ready start (ahead.length + 1) := by
    rintro ahead last start rfl hready hend
    exact h.gap hready hend (by simp)
  unfold findSlot
  split
  · exact ⟨le_refl _, [], [], rfl, rfl, by simp, by simp⟩
  · next only =>
    split
    · next hle => exact hback [] only ready rfl (le_refl _) hle
    · next hlt =>
      split
      · next hle => exact hfront only [] rfl hle
      · exact hback [] only only.finish rfl (not_le.1 hlt).le (le_refl _)
  · next first second rest =>
    dsimp only
    split
    · next hle => exact hfront first _ rfl hle
    · refine walkGaps_gap h _ ?_ (by rw [List.reverse_reverse, List.append_nil])
      obtain ⟨ahead, last, he⟩ := List.eq_nil_or_concat (second :: rest) |>.resolve_left (by simp)
      have hlast : (second :: rest).getLastD first = last := by simp [he]
      rw [hlast]
      have hgap := hback (first :: ahead) last (later ready last.finish) (by simp [he])
        (le_later_left _ _) (le_later_right _ _)
      have hlength : (first :: second :: rest).length = (first :: ahead).length + 1 := by simp [he]
      rwa [hlength]

/-! ## The earliest place -/

/-- From a start on some time passes clear of all slots: each has ended by then or starts behind it. -/
def Fits (slots : List (Slot ℚ)) (cost start : ℚ) : Prop :=
  ∀ s ∈ slots, start + cost ≤ s.start ∨ s.finish ≤ start

theorem Gap.clear {index : ℕ} (h : Gap slots cost ready start index) : Fits slots cost start := by
  obtain ⟨-, ahead, behind, rfl, -, hahead, hbehind⟩ := h
  intro s hs
  rcases List.mem_append.1 hs with hs | hs
  · exact Or.inr (hahead s hs)
  · exact Or.inl (hbehind s hs)

/-- Walking the gaps never leads to a later start. -/
theorem walkGaps_le (reversed : List (Slot ℚ)) {best : Opening ℚ}
    (hbest : best.finish = best.start + cost) :
    (walkGaps cost ready best reversed).start ≤ best.start := by
  induction reversed generalizing best with
  | nil => exact le_refl _
  | cons current reversed ih =>
    cases reversed with
    | nil => exact le_refl _
    | cons previous rest =>
      have hearlier : ∀ start, start + cost < best.finish → start ≤ best.start := by
        intro start hlt
        rw [hbest] at hlt
        exact (lt_of_add_lt_add_right hlt).le
      rw [walkGaps]
      split
      · split
        · next hfit => exact hearlier ready hfit.2
        · exact le_refl _
      · split
        · next hfit => exact (ih rfl).trans (hearlier previous.finish hfit.2)
        · exact ih hbest

/-- The walk finds no later start than one that lies in a gap on its way. It may end before it gets to
that gap only where a slot has ended before the task is ready, and then the gap is too early. -/
theorem walkGaps_least {passed earlier : List (Slot ℚ)} {next : Slot ℚ} {best : Opening ℚ}
    (hbest : best.finish = best.start + cost)
    (h : Tidy ((passed ++ next :: slot :: earlier).reverse ++ behind)) (hready : ready ≤ start)
    (hend : slot.finish ≤ start) (hnext : start < next.finish) (hfit : start + cost ≤ next.start) :
    (walkGaps cost ready best (passed ++ next :: slot :: earlier)).start ≤ start := by
  induction passed generalizing best behind with
  | nil =>
    -- the gap is the one before `next`: what is found there, or was found before, is no later
    have hbefore : ∀ x, x ≤ start → ¬ (x + cost ≤ next.start ∧ x + cost < best.finish) →
        best.start ≤ start := by
      intro x hx hno
      have hle := not_lt.1 (not_and.1 hno ((add_le_add_left hx cost).trans hfit))
      rw [hbest] at hle
      exact (le_of_add_le_add_right hle).trans hx
    rw [List.nil_append, walkGaps]
    split
    · split
      · exact hready
      · next hno => exact hbefore ready hready hno
    · split
      · exact (walkGaps_le _ rfl).trans hend
      · next hno => exact (walkGaps_le _ hbest).trans (hbefore slot.finish hend hno)
  | cons current passed ih =>
    have htidy : Tidy ((passed ++ next :: slot :: earlier).reverse ++ current :: behind) := by
      simpa using h
    have hmem : next ∈ passed ++ next :: slot :: earlier := by simp
    rw [List.cons_append]
    generalize passed ++ next :: slot :: earlier = reversed at ih htidy hmem
    cases reversed with
    | nil => cases hmem
    | cons previous rest =>
      rw [walkGaps]
      split
      · next hlt =>
        rw [List.reverse_cons, List.append_assoc] at htidy
        have hle := htidy.finish_le next (by simpa [or_comm] using hmem)
        exact absurd (hle.trans_lt (hlt.trans_le hready)) hnext.not_gt
      · split
        · exact ih rfl htidy
        · exact ih hbest htidy

/-- No start that fits is earlier than the one that is found. -/
theorem findSlot_le (h : Tidy slots) (hready : ready ≤ start) (hfits : Fits slots cost start) :
    (findSlot slots cost ready).1 ≤ start := by
  unfold findSlot
  split
  · exact hready
  · next only =>
    split
    · exact hready
    · split
      · exact hready
      · next hbefore =>
        refine (hfits only List.mem_cons_self).resolve_left fun hle => hbefore ?_
        exact (add_le_add_left hready cost).trans hle
  · next first second rest =>
    dsimp only
    split
    · exact hready
    · next hbefore =>
      -- the start lies behind all slots, or right before the first one that has not ended
      cases hfind : (first :: second :: rest).find? (start < ·.finish) with
      | none =>
        have hlast : (second :: rest).getLastD first ∈ second :: rest := by
          rw [List.getLastD_cons, ← List.getLast_eq_getLastD (List.cons_ne_nil second rest)]
          exact List.getLast_mem _
        have hended := List.find?_eq_none.1 hfind _ (List.mem_cons_of_mem first hlast)
        refine (walkGaps_le _ rfl).trans ?_
        rw [later_eq_max]
        exact max_le hready (by simpa using hended)
      | some next =>
        obtain ⟨hnext, ahead, behind, hslots, hahead⟩ := List.find?_eq_some_iff_append.1 hfind
        have hnext : start < next.finish := of_decide_eq_true hnext
        have hfit : start + cost ≤ next.start :=
          (hfits next (by simp [hslots])).resolve_right hnext.not_ge
        rcases List.eq_nil_or_concat ahead with rfl | ⟨ahead, slot, rfl⟩
        · obtain ⟨rfl, -⟩ := List.cons.inj hslots
          exact absurd ((add_le_add_left hready cost).trans hfit) hbefore
        · have hend : slot.finish ≤ start := by simpa using hahead slot (by simp)
          have hreverse : (first :: second :: rest).reverse =
              behind.reverse ++ next :: slot :: ahead.reverse := by simp [hslots]
          have htidy : Tidy ((behind.reverse ++ next :: slot :: ahead.reverse).reverse ++ []) := by
            rwa [← hreverse, List.reverse_reverse, List.append_nil]
          rw [hreverse]
          exact walkGaps_least rfl htidy hready hend hnext hfit

/-- The place that is found starts at the earliest instant, from when the task is ready on, at which it
fits; all slots ahead of its index have ended by then, and all others start behind it. -/
theorem findSlot_least (h : Tidy slots) (cost ready : ℚ) :
    IsLeast {start | ready ≤ start ∧ Fits slots cost start} (findSlot slots cost ready).1 ∧
      (findSlot slots cost ready).2 ≤ slots.length ∧
      (∀ s ∈ slots.take (findSlot slots cost ready).2, s.finish ≤ (findSlot slots cost ready).1) ∧
      ∀ s ∈ slots.drop (findSlot slots cost ready).2, (findSlot slots cost ready).1 + cost ≤ s.start := by
  have hgap := findSlot_gap h cost ready
  refine ⟨⟨⟨hgap.ready_le, hgap.clear⟩, fun start hstart => findSlot_le h hstart.1 hstart.2⟩, ?_⟩
  obtain ⟨-, ahead, behind, hslots, hindex, hahead, hbehind⟩ := hgap
  rw [← hindex]
  refine ⟨by simp [hslots], fun s hs => hahead s ?_, fun s hs => hbehind s ?_⟩
  · rwa [hslots, List.take_left] at hs
  · rwa [hslots, List.drop_left] at hs

/-- Four slots, of which the second and the third touch and the third takes no time. -/
def crowded : List (Slot ℚ) := [⟨0, 2, 1, 0⟩, ⟨4, 5, 2, 0⟩, ⟨5, 5, 3, 0⟩, ⟨9, 12, 4, 0⟩]

/-- A task of four seconds that is ready at `1` just fits between the third slot and the fourth. -/
theorem findSlot_least_crowded : Tidy crowded ∧ findSlot crowded 4 1 = (5, 3) ∧
    IsLeast {start | 1 ≤ start ∧ Fits crowded 4 start} 5 ∧
    (∀ s ∈ crowded.take 3, s.finish ≤ 5) ∧ ∀ s ∈ crowded.drop 3, 5 + 4 ≤ s.start := by
  have htidy : Tidy crowded := ⟨by decide +kernel, by decide +kernel⟩
  have hfound : findSlot crowded 4 1 = (5, 3) := by decide +kernel
  obtain ⟨hleast, -, hahead, hbehind⟩ := findSlot_least htidy 4 1
  rw [hfound] at hleast hahead hbehind
  exact ⟨htidy, hfound, hleast, hahead, hbehind⟩

/-! ## Reserving a place -/

theorem insertIdx_length {β : Type} (before after : List β) (b : β) :
    (before ++ after).insertIdx before.length b = before ++ b :: after := by
  induction before with
  | nil => simp
  | cons a before ih => simpa using ih

/-- A reservation puts one slot into a gap that holds it. -/
theorem occupy_eq (h : Tidy line.slots) (task : ℤ) (cost ready : ℚ) : ∃ before after,
    line.slots = before ++ after ∧
    line.occupy task cost ready =
      { line with slots := before ++ (line.slotFor task cost ready).1 :: after } ∧
    (∀ s ∈ before, s.finish ≤ (line.slotFor task cost ready).1.start) ∧
    ∀ s ∈ after, (line.slotFor task cost ready).1.finish ≤ s.start := by
  obtain ⟨-, before, after, hslots, hindex, hbefore, hafter⟩ := findSlot_gap h cost ready
  refine ⟨before, after, hslots, ?_, hbefore, hafter⟩
  have hinsert : ∀ slot, line.slots.insertIdx before.length slot = before ++ slot :: after :=
    fun slot => by rw [hslots, insertIdx_length]
  rw [← hinsert, hindex]
  rfl

/-- A reservation adds one slot. -/
theorem occupy_perm (h : Tidy line.slots) :
    (line.occupy task cost ready).slots.Perm ((line.slotFor task cost ready).1 :: line.slots) := by
  obtain ⟨before, after, hslots, heq, -⟩ := occupy_eq h task cost ready
  rw [heq, hslots]
  exact List.perm_middle

theorem Tidy.occupy (h : Tidy line.slots) (hcost : 0 ≤ cost) :
    Tidy (line.occupy task cost ready).slots := by
  refine ⟨fun s hs => ?_, ?_⟩
  · rcases List.mem_cons.1 ((occupy_perm h).subset hs) with rfl | hs
    · exact le_add_of_nonneg_right hcost
    · exact h.forward s hs
  · obtain ⟨before, after, hslots, heq, hbefore, hafter⟩ := occupy_eq h task cost ready
    have happ := List.pairwise_append.1 (hslots ▸ h.apart)
    rw [heq]
    refine List.pairwise_append.2 ⟨happ.1, List.pairwise_cons.2 ⟨hafter, happ.2.1⟩, fun a ha b hb => ?_⟩
    rcases List.mem_cons.1 hb with rfl | hb
    · exact hbefore a ha
    · exact happ.2.2 a ha b hb

/-! ## The end of a timeline -/

theorem finish_le_makespan (h : Tidy line.slots) : ∀ s ∈ line.slots, s.finish ≤ line.makespan := by
  unfold makespan
  rcases List.eq_nil_or_concat line.slots with hnil | ⟨ahead, last, he⟩
  · simp [hnil]
  · rw [List.concat_eq_append] at he
    rw [he] at h ⊢
    simpa using h.finish_le

theorem makespan_mem (hne : line.slots ≠ []) : ∃ s ∈ line.slots, s.finish = line.makespan := by
  unfold makespan
  rw [List.getLast?_eq_some_getLast hne]
  exact ⟨_, List.getLast_mem hne, rfl⟩

theorem makespan_nil (hnil : line.slots = []) : line.makespan = 0 := by
  unfold makespan
  rw [hnil]
  rfl

end FlowSched.Timeline

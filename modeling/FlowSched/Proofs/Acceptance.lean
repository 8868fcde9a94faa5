import Mathlib.Data.List.Chain
import FlowSched.Proofs.Audit

/-!
# What audits accept

An audit compares neighbours only. That one entry starts no later than another and reaches into it by
no more than the tolerance is a transitive relation, however, so neighbours have it exactly if all pairs
do, and no overlap is missed and no tolerance adds up (`forall_neighbours_iff`, `spaced_iff`). An audit
therefore accepts a schedule exactly if it is `Orderly` (`schedule_eq_nil_iff`), and timelines exactly if
their slots stand in order and apart (`timelines_eq_nil_iff`).
-/

namespace FlowSched.Audit

open Quantity

/-! ## Neighbours and pairs -/

section

variable {β : Type} {R : β → β → Prop} {xs : List β}

theorem isChain_iff_neighbours : xs.IsChain R ↔ ∀ p ∈ neighbours xs, R p.1 p.2 := by
  unfold neighbours
  induction xs with
  | nil => simp
  | cons x xs ih =>
    cases xs with
    | nil => simp
    | cons y xs =>
      rw [List.isChain_cons_cons, ih, List.tail_cons, List.tail_cons, List.zip_cons_cons,
        List.forall_mem_cons]

/-- A transitive relation holds of all neighbours exactly if it holds of all pairs. -/
theorem forall_neighbours_iff (htrans : ∀ a b c, R a b → R b c → R a c) :
    (∀ p ∈ neighbours xs, R p.1 p.2) ↔ xs.Pairwise R := by
  have : Trans R R R := ⟨fun {a b c} => htrans a b c⟩
  rw [← isChain_iff_neighbours, List.isChain_iff_pairwise]

end

/-- One entry starts no later than another and reaches into it by no more than a tolerance. -/
structure Spaced {β : Type} (start finish : β → ℚ) (ε : ℚ) (a b : β) : Prop where
  start_le : start a ≤ start b
  reach : finish a - start b ≤ ε

theorem Spaced.trans {β : Type} {start finish : β → ℚ} {ε : ℚ} {a b c : β}
    (h : Spaced start finish ε a b) (h' : Spaced start finish ε b c) : Spaced start finish ε a c :=
  ⟨h.start_le.trans h'.start_le, by linarith [h.reach, h'.start_le]⟩

/-! ## Overlaps on a VM -/

/-- Of two jobs the first starts earlier, or at the same instant and ends no later. -/
def NotAfter (a b : Job ℚ) : Prop := a.start < b.start ∨ a.start = b.start ∧ a.finish ≤ b.finish

variable {ε : ℚ} {strict : Bool} {jobs : List (Job ℚ)} {a b c : Job ℚ}

theorem NotAfter.start_le (h : NotAfter a b) : a.start ≤ b.start :=
  h.elim le_of_lt fun he => he.1.le

theorem NotAfter.trans (h : NotAfter a b) (h' : NotAfter b c) : NotAfter a c := by
  rcases h with h | ⟨hs, hf⟩
  · exact Or.inl (h.trans_le h'.start_le)
  · rcases h' with h' | ⟨hs', hf'⟩
    · exact Or.inl (hs ▸ h')
    · exact Or.inr ⟨hs.trans hs', hf.trans hf'⟩

theorem NotAfter.total (a b : Job ℚ) : NotAfter a b ∨ NotAfter b a := by
  rcases lt_trichotomy a.start b.start with h | h | h
  · exact Or.inl (Or.inl h)
  · exact (le_total a.finish b.finish).imp (fun hf => Or.inr ⟨h, hf⟩) fun hf => Or.inr ⟨h.symm, hf⟩
  · exact Or.inr (Or.inl h)

/-- How jobs are compared by time. -/
theorem notAfter_iff : (if a.start == b.start then !decide (b.finish < a.finish)
    else !decide (b.start < a.start)) = true ↔ NotAfter a b := by
  unfold NotAfter
  by_cases h : a.start = b.start
  · simp [h]
  · rw [if_neg (by simpa using h)]
    simp only [h, false_and, or_false, Bool.not_eq_true', decide_eq_false_iff_not, not_lt]
    exact ⟨fun hle => lt_of_le_of_ne hle h, le_of_lt⟩

theorem byTime_perm (jobs : List (Job ℚ)) : (byTime jobs).Perm jobs := List.mergeSort_perm _ _

theorem byTime_sorted (jobs : List (Job ℚ)) : (byTime jobs).Pairwise NotAfter := by
  refine (List.pairwise_mergeSort (fun a b c hab hbc => ?_) (fun a b => ?_) jobs).imp notAfter_iff.1
  · rw [notAfter_iff] at hab hbc ⊢
    exact hab.trans hbc
  · rw [Bool.or_eq_true, notAfter_iff, notAfter_iff]
    exact NotAfter.total a b

/-- Among jobs in the order of their times, those that stand ahead are those that are not after. -/
theorem pairwise_spaced_iff (hsorted : jobs.Pairwise NotAfter) (hn : jobs.Nodup) :
    jobs.Pairwise (Spaced Job.start Job.finish ε) ↔
      ∀ a ∈ jobs, ∀ b ∈ jobs, a ≠ b → NotAfter a b → a.finish - b.start ≤ ε := by
  constructor
  · intro h a ha b hb hne hab
    obtain ⟨before, after, rfl⟩ := List.append_of_mem ha
    rw [List.pairwise_append, List.pairwise_cons] at h hsorted
    rcases List.mem_append.1 hb with hb | hb
    · -- the other job stands ahead, so both have the same times
      have hreach := (h.2.2 b hb a List.mem_cons_self).reach
      rcases hab with hlt | ⟨hs, hf⟩
      · exact absurd hlt (hsorted.2.2 b hb a List.mem_cons_self).start_le.not_gt
      · linarith
    · exact (h.2.1.1 b ((List.mem_cons.1 hb).resolve_left hne.symm)).reach
  · intro h
    refine (hsorted.and hn).imp_of_mem fun {a b} ha hb hab => ?_
    exact ⟨hab.1.start_le, h a ha b hb hab.2 hab.1⟩

/-- No overlap is reported exactly if no two jobs of a VM overlap, be they neighbours or not. -/
theorem vmOverlaps_eq_nil_iff (hn : jobs.Nodup) : vmOverlaps ε jobs = [] ↔
    ∀ a ∈ jobs, ∀ b ∈ jobs, a ≠ b → a.vm = b.vm → NotAfter a b → a.finish - b.start ≤ ε := by
  have hvm : ∀ vm, (neighbours (byTime (jobs.filter (·.vm = vm)))).filterMap (fun p =>
        if ε < p.1.finish - p.2.start then
          some (Violation.vmOverlap vm p.2.task p.1.task p.2.start p.1.finish)
        else none) = [] ↔
      ∀ a ∈ jobs.filter (·.vm = vm), ∀ b ∈ jobs.filter (·.vm = vm), a ≠ b → NotAfter a b →
        a.finish - b.start ≤ ε := by
    intro vm
    have hperm := byTime_perm (jobs.filter (·.vm = vm))
    have hsorted := byTime_sorted (jobs.filter (·.vm = vm))
    have hpairs := pairwise_spaced_iff (ε := ε) hsorted (hperm.nodup_iff.2 (hn.filter _))
    rw [← forall_neighbours_iff fun _ _ _ => Spaced.trans] at hpairs
    simp only [hperm.mem_iff] at hpairs
    rw [← hpairs, List.filterMap_eq_nil_iff]
    refine forall₂_congr fun p hp => ?_
    have hle := (of_mem_neighbours hsorted p hp).start_le
    rw [ite_eq_right_iff]
    exact ⟨fun h => ⟨hle, not_lt.1 fun hlt => by cases h hlt⟩, fun h hlt => absurd h.reach (not_le.2 hlt)⟩
  refine List.flatMap_eq_nil_iff.trans ?_
  constructor
  · intro h a ha b hb hne hv hab
    have hmem : a.vm ∈ vmsOf jobs := List.mem_eraseDups.2 (List.mem_map_of_mem ha)
    exact (hvm a.vm).1 (h a.vm hmem) a (by simp [ha]) b (by simp [hb, hv]) hne hab
  · intro h vm _
    refine (hvm vm).2 fun a ha b hb hne hab => ?_
    rw [List.mem_filter, decide_eq_true_eq] at ha hb
    exact h a ha.1 b hb.1 hne (ha.2.trans hb.2.symm) hab

/-! ## Dependencies and instants -/

/-- No dependency is reported exactly if every parent has a job that ends early enough. -/
theorem dependencies_eq_nil_iff (hn : (jobs.map Job.task).Nodup) : dependencies ε strict jobs = [] ↔
    ∀ j ∈ jobs, ∀ p ∈ j.parents, p ∈ jobs.map Job.task ∧
      ∀ a ∈ jobs, a.task = p → startsEarly ε strict a j = false := by
  unfold dependencies
  rw [List.flatMap_eq_nil_iff]
  refine forall₂_congr fun j _ => ?_
  rw [List.filterMap_eq_nil_iff]
  refine forall₂_congr fun p _ => ?_
  unfold dependency?
  cases ha : jobOf? jobs p with
  | none => simp [jobOf?_eq_none.1 ha]
  | some a =>
    obtain ⟨hmem, rfl⟩ := (jobOf?_eq_some hn).1 ha
    have hall : (∀ b ∈ jobs, b.task = a.task → startsEarly ε strict b j = false) ↔
        startsEarly ε strict a j = false :=
      ⟨fun h => h a hmem rfl, fun h b hb he => List.inj_on_of_nodup_map hn hb hmem he ▸ h⟩
    rw [hall, and_iff_right (List.mem_map_of_mem hmem)]
    simp

/-- No shared instant is reported exactly if no job starts at an instant seen before or at the start or
the end of a job ahead of it. -/
theorem duplicates_eq_nil_iff {seen : List ℚ} : duplicates seen jobs = [] ↔
    (∀ j ∈ jobs, j.start ∉ seen) ∧ jobs.Pairwise fun a b => b.start ≠ a.start ∧ b.start ≠ a.finish := by
  refine ⟨fun h => ?_, fun h => duplicates_eq_nil h.1 h.2⟩
  induction jobs generalizing seen with
  | nil => simp
  | cons j jobs ih =>
    obtain ⟨hfound, hrest⟩ := List.append_eq_nil_iff.1 h
    obtain ⟨hseen, hpair⟩ := ih hrest
    have hfresh : j.start ∉ seen := fun hm => by
      rw [if_pos (List.any_eq_true.2 ⟨_, hm, by simp⟩)] at hfound
      cases hfound
    refine ⟨List.forall_mem_cons.2 ⟨hfresh, fun k hk hm => hseen k hk (by simp [hm])⟩,
      List.pairwise_cons.2 ⟨fun k hk => ⟨fun he => hseen k hk ?_, fun he => hseen k hk ?_⟩, hpair⟩⟩
    · simp [he]
    · simp [he]

/-! ## Verdicts -/

/-- A schedule without faults: jobs of one VM overlap by no more than a tolerance, and every parent has a
job, which ends by the job's start but for the tolerance. In a strict audit it ends before, and no job
starts when a job ahead of it starts or ends. -/
structure Orderly (ε : ℚ) (strict : Bool) (jobs : List (Job ℚ)) : Prop where
  apart : ∀ a ∈ jobs, ∀ b ∈ jobs, a ≠ b → a.vm = b.vm → NotAfter a b → a.finish - b.start ≤ ε
  scheduled : ∀ j ∈ jobs, ∀ p ∈ j.parents, p ∈ jobs.map Job.task
  behind : strict = false → ∀ j ∈ jobs, ∀ a ∈ jobs, a.task ∈ j.parents → a.finish - j.start ≤ ε
  strictly : strict = true → ∀ j ∈ jobs, ∀ a ∈ jobs, a.task ∈ j.parents → a.finish < j.start
  instants : strict = true → jobs.Pairwise fun a b => b.start ≠ a.start ∧ b.start ≠ a.finish

theorem startsEarly_eq_false {a j : Job ℚ} : startsEarly ε strict a j = false ↔
    (strict = false → a.finish - j.start ≤ ε) ∧ (strict = true → a.finish < j.start) := by
  cases strict <;> simp [startsEarly]

/-- An audit of jobs of distinct tasks reports nothing exactly if they are orderly. -/
theorem schedule_eq_nil_iff (ε : ℚ) (strict : Bool) (jobs : List (Job ℚ))
    (hn : (jobs.map Job.task).Nodup) : schedule ε strict jobs = [] ↔ Orderly ε strict jobs := by
  have hinstants : (if strict = true then duplicates [] jobs else []) = [] ↔
      (strict = true → jobs.Pairwise fun a b => b.start ≠ a.start ∧ b.start ≠ a.finish) := by
    cases strict <;> simp [duplicates_eq_nil_iff]
  unfold schedule
  rw [List.append_eq_nil_iff, List.append_eq_nil_iff, vmOverlaps_eq_nil_iff hn.of_map,
    dependencies_eq_nil_iff hn, hinstants]
  simp only [startsEarly_eq_false]
  constructor
  · rintro ⟨⟨hvm, hdep⟩, hinst⟩
    exact ⟨hvm, fun j hj p hp => (hdep j hj p hp).1,
      fun hs j hj a ha hp => ((hdep j hj _ hp).2 a ha rfl).1 hs,
      fun hs j hj a ha hp => ((hdep j hj _ hp).2 a ha rfl).2 hs, hinst⟩
  · intro h
    refine ⟨⟨h.apart, fun j hj p hp => ⟨h.scheduled j hj p hp, ?_⟩⟩, h.instants⟩
    rintro a ha rfl
    exact ⟨fun hs => h.behind hs j hj a ha hp, fun hs => h.strictly hs j hj a ha hp⟩

/-- On one VM a job from `0` to `10`, one from `4` to `5` and one from `6` to `8`, which depends on the
first. The last one is no neighbour of the first. -/
def spanned : List (Job ℚ) :=
  [{ id := 0, task := 1, vm := 0, start := 0, finish := 10 },
    { id := 1, task := 2, vm := 0, start := 4, finish := 5 },
    { id := 2, task := 3, vm := 0, start := 6, finish := 8, parents := [1] }]

/-- The jobs pass with a tolerance of `6`, by which the first reaches into the second, and not with one
of `5`, although the first reaches into the last by no more than `4`. -/
theorem schedule_eq_nil_iff_spanned : (spanned.map Job.task).Nodup ∧
    schedule 6 false spanned = [] ∧ schedule 5 false spanned ≠ [] := by
  refine ⟨by decide, (schedule_eq_nil_iff 6 false spanned (by decide)).2 ?_,
    mt (schedule_eq_nil_iff 5 false spanned (by decide)).1 fun h => ?_⟩
  · constructor <;> simp [spanned, NotAfter] <;> norm_num
  · have hreach := h.apart _ List.mem_cons_self _ (List.mem_cons_of_mem _ List.mem_cons_self)
      (by simp) rfl (Or.inl (by norm_num))
    norm_num at hreach

/-- Slots of a timeline that stand in order, and in which no overlap is longer than a tolerance. -/
theorem timeline_eq_nil_iff (ε : ℚ) (vm : ℤ) (slots : List (Slot ℚ)) : timeline ε vm slots = [] ↔
    slots.Pairwise (Spaced Slot.start Slot.finish ε) := by
  unfold timeline
  rw [List.filterMap_eq_nil_iff, ← forall_neighbours_iff fun _ _ _ => Spaced.trans]
  refine forall₂_congr fun p _ => ?_
  dsimp only
  split_ifs with hstart hreach
  · exact iff_of_false (by simp) fun h => absurd hstart h.start_le.not_gt
  · exact iff_of_false (by simp) fun h => absurd hreach h.reach.not_gt
  · exact iff_of_true rfl ⟨not_lt.1 hstart, not_lt.1 hreach⟩

/-- Slots that do not end before they start do not reach into the next one exactly if they reach into
none behind them. -/
theorem hasOverlap_eq_false {line : Timeline ℚ} (h : ∀ s ∈ line.slots, s.start ≤ s.finish) :
    line.hasOverlap = false ↔ line.slots.Pairwise fun a b => a.finish ≤ b.start := by
  have hneighbours : line.hasOverlap = false ↔ ∀ p ∈ neighbours line.slots, p.1.finish ≤ p.2.start := by
    simp only [Timeline.hasOverlap, neighbours, List.any_eq_false, decide_eq_true_eq, not_lt]
  have hforward : ∀ p ∈ neighbours line.slots, p.1.finish ≤ p.2.start ↔
      p.1.finish ≤ p.2.start ∧ p.2.start ≤ p.2.finish := fun p hp =>
    (and_iff_left (h _ (List.mem_of_mem_tail (List.of_mem_zip hp).2))).symm
  rw [hneighbours, forall₂_congr hforward,
    forall_neighbours_iff (R := fun a b : Slot ℚ => a.finish ≤ b.start ∧ b.start ≤ b.finish)
      fun _ _ _ hab hbc => ⟨hab.1.trans (hab.2.trans hbc.1), hbc.2⟩]
  exact ⟨fun hp => hp.imp And.left, fun hp => hp.imp_of_mem fun _ hb hab => ⟨hab, h _ hb⟩⟩

/-- An audit accepts timelines exactly if in each one starts do not descend and no slot reaches into one
behind it by more than the tolerance. A timeline whose slots do not end before they start has no overlap
exactly if each slot ends by the start of every one behind it, which is when an audit without tolerance
accepts it. -/
theorem timelines_eq_nil_iff (ε : ℚ) (ts : Table (Timeline ℚ)) :
    (timelines ε ts = [] ↔ ∀ e ∈ ts.entries,
      e.2.slots.Pairwise fun a b => a.start ≤ b.start ∧ a.finish - b.start ≤ ε) ∧
    ∀ (vm : ℤ) (line : Timeline ℚ), (∀ s ∈ line.slots, s.start ≤ s.finish) →
      (line.hasOverlap = false ↔ line.slots.Pairwise fun a b => a.finish ≤ b.start) ∧
      (timelines 0 ⟨[(vm, line)]⟩ = [] ↔ line.slots.Pairwise fun a b => a.finish ≤ b.start) := by
  have hpair : ∀ (ε : ℚ) (slots : List (Slot ℚ)), slots.Pairwise (Spaced Slot.start Slot.finish ε) ↔
      slots.Pairwise fun a b => a.start ≤ b.start ∧ a.finish - b.start ≤ ε := fun ε slots =>
    ⟨fun h => h.imp fun hab => ⟨hab.start_le, hab.reach⟩, fun h => h.imp fun hab => ⟨hab.1, hab.2⟩⟩
  have hall : ∀ (ε : ℚ) (ts : Table (Timeline ℚ)), timelines ε ts = [] ↔ ∀ e ∈ ts.entries,
      e.2.slots.Pairwise fun a b => a.start ≤ b.start ∧ a.finish - b.start ≤ ε := fun ε ts =>
    List.flatMap_eq_nil_iff.trans (forall₂_congr fun e _ => (timeline_eq_nil_iff ε e.1 _).trans (hpair ε _))
  refine ⟨hall ε ts, fun vm line h => ⟨hasOverlap_eq_false h, ?_⟩⟩
  rw [hall, List.forall_mem_singleton]
  refine ⟨fun hp => hp.imp fun hab => sub_nonpos.1 hab.2, fun hp => hp.imp_of_mem fun ha _ hab => ?_⟩
  exact ⟨(h _ ha).trans hab, sub_nonpos.2 hab⟩

/-- A long slot, a short one within it and one that starts where the long one ends. -/
def covering : Timeline ℚ where
  vm := 0
  slots := [⟨0, 10, 1, 0⟩, ⟨4, 5, 2, 0⟩, ⟨10, 12, 3, 0⟩]

/-- The slots are in order. They pass with a tolerance of `6`, and the short one is an overlap. -/
theorem timelines_eq_nil_iff_covering : (∀ s ∈ covering.slots, s.start ≤ s.finish) ∧
    timelines 6 ⟨[(0, covering)]⟩ = [] ∧ covering.hasOverlap = true ∧
    timelines 0 ⟨[(0, covering)]⟩ ≠ [] := by
  obtain ⟨hpass, hline⟩ := timelines_eq_nil_iff 6 ⟨[(0, covering)]⟩
  have hforward : ∀ s ∈ covering.slots, s.start ≤ s.finish := by
    simp [covering]
    norm_num
  have hreach : ¬ covering.slots.Pairwise fun a b => a.finish ≤ b.start := by
    simp [covering]
    norm_num
  obtain ⟨hoverlap, hstrict⟩ := hline 0 covering hforward
  refine ⟨hforward, hpass.2 ?_, ?_, mt hstrict.1 hreach⟩
  · simp [covering]
    norm_num
  · exact Bool.not_eq_false _ ▸ mt hoverlap.1 hreach

end FlowSched.Audit

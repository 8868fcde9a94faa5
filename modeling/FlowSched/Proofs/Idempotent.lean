import FlowSched.Proofs.Reconcile

/-!
# Reconciling again

Jobs that are clear of each other are in normal form: none of the pushing loops of a further pass
finds them blocked, whatever its delay (`settleAll_of_clear`). A parent that does not end before it
starts blocks by its end alone, so it makes no difference whether its start counts too
(`reconcile_congr`).
-/

namespace FlowSched

open Quantity

namespace Reconcile

variable {delay : ℚ} {f g : Bool} {submitted : List ℤ} {settled jobs : List (Job ℚ)}
  {notes : List (Note ℚ)} {j j' parent : Job ℚ} {vm : ℤ} {ps : List ℤ} {s t : Span ℚ}

/-! ## Whether the start of a parent counts -/

/-- A parent that does not end before it starts blocks by its end alone. -/
theorem waitsFor_eq (hle : parent.start ≤ parent.finish) :
    waitsFor f parent = fun s => decide (s.start ≤ parent.finish) := by
  funext s
  have himp : s.start ≤ parent.start → s.start ≤ parent.finish := fun h => h.trans hle
  by_cases hs : s.start ≤ parent.finish
  · simp [waitsFor, hs]
  · simp [waitsFor, hs, mt himp hs]

theorem pastParents_congr (hle : ∀ a ∈ settled, a.start ≤ a.finish) :
    pastParents delay f submitted settled j ps s = pastParents delay g submitted settled j ps s := by
  induction ps generalizing s with
  | nil => rfl
  | cons p ps ih =>
    unfold pastParents
    cases hp : jobOf? settled p with
    | none => simp only [ih]
    | some a =>
      unfold jobOf? at hp
      rw [List.findRev?_eq_find?_reverse] at hp
      have ha := hle a (List.mem_reverse.1 (List.mem_of_find?_eq_some hp))
      simp only [pastParent, waitsFor_eq ha, ih]

theorem settle_congr (hle : ∀ a ∈ settled, a.start ≤ a.finish) :
    settle delay f submitted settled j = settle delay g submitted settled j := by
  simp only [settle, pastParents_congr (f := f) (g := g) hle]

/-! ## Spans with their ends in order -/

/-- The span does not end before it starts. -/
def Forward (s : Span ℚ) : Prop := s.start ≤ s.finish

theorem Forward.shift (h : Forward s) (x : ℚ) : Forward (s.shift x) := by
  show s.start + x ≤ s.finish + x
  exact add_le_add_left h x

theorem orIdle_eq_ok {r : Except ℚ (Span ℚ)} : orIdle delay r = .ok t ↔ r = .ok t := by
  cases r <;> simp [orIdle]

theorem forward_of_pastVm (hs : Forward s) (h : pastVm delay settled vm s = .ok t) : Forward t := by
  unfold pastVm at h
  split at h
  · exact Except.ok.inj h ▸ hs
  · exact Span.of_advance (fun _ h => h.shift delay) hs h

theorem forward_of_pastParents (hs : Forward s)
    (h : pastParents delay f submitted settled j ps s = .ok t) : Forward t := by
  induction ps generalizing s with
  | nil => exact Except.ok.inj h ▸ hs
  | cons p ps ih =>
    unfold pastParents at h
    split at h
    · split_ifs at h
      exact ih hs h
    · obtain ⟨u, hu, h⟩ := bind_eq_ok.1 h
      exact ih (Span.of_advance (fun _ h => h.shift delay) hs (orIdle_eq_ok.1 hu)) h

/-- Settling a job keeps its ends in order, whether or not the delay is positive. -/
theorem forward_of_settle (hj : j.start ≤ j.finish)
    (h : settle delay f submitted settled j = .ok j') : j'.start ≤ j'.finish := by
  unfold settle at h
  obtain ⟨s₁, h₁, h⟩ := bind_eq_ok.1 h
  obtain ⟨s₂, h₂, h⟩ := bind_eq_ok.1 h
  obtain ⟨s₃, h₃, h⟩ := bind_eq_ok.1 h
  have hs₁ : Forward s₁ := forward_of_pastVm (s := span j) hj (orIdle_eq_ok.1 h₁)
  have hs₂ : Forward s₂ := forward_of_pastParents hs₁ h₂
  have hs₃ : Forward s₃ := Span.of_advance (fun _ h => h.shift delay) hs₂ (orIdle_eq_ok.1 h₃)
  rw [← Except.ok.inj h]
  exact hs₃

theorem settleAll_congr (hsettled : ∀ a ∈ settled, a.start ≤ a.finish)
    (hjobs : ∀ j ∈ jobs, j.start ≤ j.finish) :
    settleAll delay f submitted settled notes jobs = settleAll delay g submitted settled notes jobs := by
  induction jobs generalizing settled notes with
  | nil => rfl
  | cons j jobs ih =>
    unfold settleAll
    rw [settle_congr (g := g) hsettled]
    cases hj : settle delay g submitted settled j with
    | error fault => rfl
    | ok j' =>
      refine ih (fun a ha => ?_) fun k hk => hjobs k (List.mem_cons_of_mem _ hk)
      rcases List.mem_append.1 ha with ha | ha
      · exact hsettled a ha
      · rw [List.mem_singleton.1 ha]
        exact forward_of_settle (hjobs j List.mem_cons_self) hj

/-! ## Jobs that are clear already -/

theorem pastVm_of_behind (h : ∀ a ∈ settled, a.vm = vm → a.finish < s.start) :
    pastVm delay settled vm s = .ok s := by
  unfold pastVm
  cases hl : lastFinish? settled vm with
  | none => rfl
  | some last =>
    obtain ⟨a, ha, rfl⟩ := List.mem_map.1 (latest?_eq_some hl).1
    obtain ⟨ha, hvm⟩ := List.mem_filter.1 ha
    refine Span.advance_of_free ?_
    simpa using h a ha (of_decide_eq_true hvm)

/-- Behind the ends of all its parents a span is not moved. -/
theorem pastParents_of_behind (hn : (settled.map Job.task).Nodup)
    (hle : ∀ a ∈ settled, a.start ≤ a.finish)
    (hps : ∀ p ∈ ps, p ∈ submitted → p ∈ settled.map Job.task)
    (h : ∀ a ∈ settled, a.task ∈ ps → a.finish < s.start) :
    pastParents delay f submitted settled j ps s = .ok s := by
  induction ps with
  | nil => rfl
  | cons p ps ih =>
    have hrest := ih (fun q hq => hps q (List.mem_cons_of_mem _ hq))
      fun a ha hp => h a ha (List.mem_cons_of_mem _ hp)
    unfold pastParents
    cases hp : jobOf? settled p with
    | none =>
      have hsub : p ∉ submitted := fun hs => jobOf?_eq_none.1 hp (hps p List.mem_cons_self hs)
      simpa [hsub] using hrest
    | some a =>
      obtain ⟨ha, rfl⟩ := (jobOf?_eq_some hn).1 hp
      have hfree : pastParent delay f a s = .ok s := by
        unfold pastParent
        rw [waitsFor_eq (hle a ha)]
        refine Span.advance_of_free ?_
        simpa using h a ha List.mem_cons_self
      simpa only [hfree, orIdle, ok_bind] using hrest

/-- A job that is clear of all settled ones stays where it is. -/
theorem settle_of_clear (hn : (settled.map Job.task).Nodup)
    (hle : ∀ a ∈ settled, a.start ≤ a.finish)
    (hps : ∀ p ∈ j.parents, p ∈ submitted → p ∈ settled.map Job.task)
    (h : ∀ a ∈ settled, Clear a j) : settle delay f submitted settled j = .ok j := by
  have hvm : pastVm delay settled j.vm (span j) = .ok (span j) :=
    pastVm_of_behind fun a ha hv => (h a ha).vm hv
  have hparents : pastParents delay f submitted settled j j.parents (span j) = .ok (span j) :=
    pastParents_of_behind hn hle hps fun a ha hp => (h a ha).parent hp
  have hinst : pastInstants delay settled (span j) = .ok (span j) := by
    refine Span.advance_of_free ?_
    rw [← Bool.not_eq_true, Span.taken_iff]
    intro hm
    obtain ⟨a, ha, hx⟩ := List.mem_flatMap.1 hm
    simp only [List.mem_cons, List.not_mem_nil, or_false] at hx
    exact hx.elim (h a ha).start_ne (h a ha).finish_ne
  simp only [settle, hvm, hparents, hinst, orIdle, ok_bind]
  rfl

/-- Jobs that are clear of each other all stay where they are, and no shift is reported. -/
theorem settleAll_of_clear (hsub : submitted = (settled ++ jobs).map Job.task) (hn : submitted.Nodup)
    (hle : ∀ j ∈ settled ++ jobs, j.start ≤ j.finish) (hclear : (settled ++ jobs).Pairwise Clear)
    (hplaced : ¬ Misplaced jobs) :
    settleAll delay f submitted settled notes jobs = (settled ++ jobs, notes, none) := by
  induction jobs generalizing settled with
  | nil => simp [settleAll]
  | cons j jobs ih =>
    rw [misplaced_cons, not_or] at hplaced
    have hj : settle delay f submitted settled j = .ok j := by
      refine settle_of_clear ?_ (fun a ha => hle a (List.mem_append_left _ ha)) (fun p hp hps => ?_)
        fun a ha => (List.pairwise_append.1 hclear).2.2 a ha j List.mem_cons_self
      · rw [hsub, List.map_append] at hn
        exact hn.of_append_left
      · rw [hsub, List.map_append, List.mem_append] at hps
        exact hps.resolve_right fun h => hplaced.1 ⟨p, hp, h⟩
    have hnote : shiftNote? j j = none := by simp [shiftNote?]
    have hshift : (settled ++ [j]) ++ jobs = settled ++ j :: jobs := by simp
    rw [settleAll, hj]
    dsimp only
    rw [hnote, Option.toList_none, List.append_nil, ← hshift]
    rw [← hshift] at hsub hle hclear
    exact ih hsub hle hclear hplaced.2

end Reconcile

open Reconcile

/-- For jobs that do not end before they start, reconciling has one result, whether or not the starts
of parents count. -/
theorem reconcile_congr (delay : ℚ) (f g : Bool) {jobs : List (Job ℚ)}
    (hle : ∀ j ∈ jobs, j.start ≤ j.finish) : reconcile delay f jobs = reconcile delay g jobs := by
  have hsettled : ∀ a ∈ ([] : List (Job ℚ)), a.start ≤ a.finish := by simp
  simp only [reconcile, settleAll_congr (f := f) (g := g) hsettled hle]

/-- Reconciling jobs that are clear of each other moves none of them. -/
theorem reconcile_of_clear {delay : ℚ} (hd : 0 ≤ delay) (f : Bool) {jobs : List (Job ℚ)}
    (hn : (jobs.map Job.task).Nodup) (hle : ∀ j ∈ jobs, j.start ≤ j.finish)
    (hclear : jobs.Pairwise Clear) (hplaced : ¬ Misplaced jobs) :
    (reconcile delay f jobs).fault = none ∧ (reconcile delay f jobs).jobs = jobs := by
  rcases hd.eq_or_lt with rfl | hpos
  · exact ⟨by simp [reconcile], by simp [reconcile]⟩
  · obtain ⟨hjobs, hfault⟩ := reconcile_eq hpos f jobs
    have hall : settleAll delay f (jobs.map Job.task) [] [] jobs = (jobs, [], none) :=
      settleAll_of_clear rfl hn hle hclear hplaced
    rw [hjobs, hfault, hall]
    exact ⟨rfl, rfl⟩

/-- What reconciling returns is a fixed point of every later pass, whatever its delay and whether or
not the starts of parents count; and the first pass has one result, whether or not they count. -/
theorem reconcile_again (first second : ℚ) (f g : Bool) (jobs : List (Job ℚ)) (hfirst : 0 < first)
    (hsecond : 0 ≤ second) (hn : (jobs.map Job.task).Nodup) (hle : ∀ j ∈ jobs, j.start ≤ j.finish)
    (hreturns : (reconcile first f jobs).fault = none) :
    (reconcile second g (reconcile first f jobs).jobs).fault = none ∧
    (reconcile second g (reconcile first f jobs).jobs).jobs = (reconcile first f jobs).jobs ∧
    reconcile first true jobs = reconcile first false jobs := by
  have hplaced : ¬ Misplaced jobs := fun hmis => by
    obtain ⟨j, p, hfault⟩ := reconcile_of_misplaced hfirst f jobs hn hmis
    rw [hreturns] at hfault
    cases hfault
  obtain ⟨-, hall, hclear⟩ := reconcile_of_placed hfirst f jobs hn hplaced
  obtain ⟨hfault, hjobs⟩ := reconcile_of_clear hsecond g (by rwa [map_task_of_shifted hall])
    (start_le_finish_of_shifted hall hle) hclear (by rwa [misplaced_iff_of_shifted hall])
  exact ⟨hfault, hjobs, reconcile_congr first true false hle⟩

/-- Two jobs that overlap on one VM, and a third on another VM that needs the first. -/
def overlap : List (Job ℚ) :=
  [{ id := 0, task := 1, vm := 0, start := 0, finish := 10 },
    { id := 1, task := 2, vm := 0, start := 8, finish := 18 },
    { id := 2, task := 3, vm := 1, start := 10, finish := 10, parents := [1] }]

/-- Steps of five seconds move the second job to `13` and the third to `15`, where steps of one second
leave them. -/
theorem reconcile_again_overlap :
    (reconcile 5 true overlap).jobs.map Job.start = [0, 13, 15] ∧
    (reconcile 1 false (reconcile 5 true overlap).jobs).jobs = (reconcile 5 true overlap).jobs :=
  ⟨by decide +kernel, (reconcile_again 5 1 true false overlap (by decide) (by decide) (by decide)
    (by decide) (Option.isNone_iff_eq_none.1 (by decide +kernel))).2.1⟩

end FlowSched

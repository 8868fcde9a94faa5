import Mathlib.Data.List.Nodup
import FlowSched.Reconcile
import FlowSched.Proofs.Span
import FlowSched.Proofs.Step
import FlowSched.Proofs.Table

/-!
# What reconciling achieves

Without rounding each job comes to rest after whole port delays, as few as take it past everything
settled before it (`settle_rests`). The loops over the VM and over the parents ask for a start behind
some instant, which the loops after them keep. Only the last one, over the instants of settled jobs,
asks for what a further move can lose. Reconciling fails exactly on lists in which a parent stands
too late (`settleAll_of_misplaced`), and otherwise pushes each job past every earlier one
(`reconcile_pushed`), so that every pair of jobs is `Clear`.
-/

namespace FlowSched

/-- The job of a task in a list of jobs with distinct tasks. -/
theorem jobOf?_eq_some {jobs : List (Job ℚ)} (hn : (jobs.map Job.task).Nodup) {a : Job ℚ} {id : ℤ} :
    jobOf? jobs id = some a ↔ a ∈ jobs ∧ a.task = id :=
  findRev?_eq_some hn

theorem jobOf?_eq_none {jobs : List (Job ℚ)} {id : ℤ} :
    jobOf? jobs id = none ↔ id ∉ jobs.map Job.task := by
  unfold jobOf?
  rw [List.findRev?_eq_find?_reverse]
  simp

namespace Reconcile

open Quantity

/-- The job moved forward by a whole number of delays. -/
def Shifted (delay : ℚ) (before after : Job ℚ) : Prop :=
  ∃ k : ℕ, after = moved before ((span before).shift (k * delay))

/-- A job starts clear of an earlier one: behind it if they share a VM, behind it if it is a parent,
and never at an instant at which it starts or ends. -/
structure Clear (earlier later : Job ℚ) : Prop where
  vm : earlier.vm = later.vm → earlier.finish < later.start
  parent : earlier.task ∈ later.parents → earlier.finish < later.start
  start_ne : later.start ≠ earlier.start
  finish_ne : later.start ≠ earlier.finish

/-- Some job names as a parent a task whose job stands at its own place or behind it. -/
def Misplaced (jobs : List (Job ℚ)) : Prop :=
  ∃ before j after, jobs = before ++ j :: after ∧
    ∃ p ∈ j.parents, p ∈ (j :: after).map Job.task

/-- The instant lies behind the end of a parent, and behind its start if that counts too. -/
def Behind (withStart : Bool) (parent : Job ℚ) (x : ℚ) : Prop :=
  parent.finish < x ∧ (withStart = true → parent.start < x)

/-- A start at the instant `x` takes the job past a settled one: behind it if they share a VM, behind
it as a parent, and at none of its instants. -/
structure Passes (withStart : Bool) (settled j : Job ℚ) (x : ℚ) : Prop where
  vm : settled.vm = j.vm → settled.finish < x
  parent : settled.task ∈ j.parents → Behind withStart settled x
  start_ne : x ≠ settled.start
  finish_ne : x ≠ settled.finish

/-- The job moved by as few delays as take it past every settled one. -/
def PushedPast (delay : ℚ) (withStart : Bool) (settled : List (Job ℚ)) (before after : Job ℚ) :
    Prop :=
  ∃ k : ℕ, after = moved before ((span before).shift (k * delay)) ∧
    IsLeast {k : ℕ | ∀ a ∈ settled, Passes withStart a before (before.start + k * delay)} k

/-- One job after the other is pushed past everything settled before it. -/
inductive Pushed (delay : ℚ) (withStart : Bool) :
    List (Job ℚ) → List (Job ℚ) → List (Job ℚ) → Prop
  | nil {settled : List (Job ℚ)} : Pushed delay withStart settled [] []
  | cons {settled jobs out : List (Job ℚ)} {j j' : Job ℚ}
      (hj : PushedPast delay withStart settled j j')
      (hjobs : Pushed delay withStart (settled ++ [j']) jobs out) :
      Pushed delay withStart settled (j :: jobs) (j' :: out)

/-! ## What a push keeps -/

section Shifted

variable {delay : ℚ} {withStart : Bool} {settled jobs out : List (Job ℚ)} {j j' : Job ℚ}

theorem Shifted.task (h : Shifted delay j j') : j'.task = j.task := by obtain ⟨k, rfl⟩ := h; rfl

theorem Shifted.id (h : Shifted delay j j') : j'.id = j.id := by obtain ⟨k, rfl⟩ := h; rfl

theorem Shifted.parents (h : Shifted delay j j') : j'.parents = j.parents := by
  obtain ⟨k, rfl⟩ := h; rfl

/-- Moving a job keeps its ends in order. -/
theorem Shifted.start_le_finish (h : Shifted delay j j') (hj : j.start ≤ j.finish) :
    j'.start ≤ j'.finish := by
  obtain ⟨k, rfl⟩ := h
  show j.start + k * delay ≤ j.finish + k * delay
  linarith

theorem PushedPast.shifted (h : PushedPast delay withStart settled j j') : Shifted delay j j' := by
  obtain ⟨k, rfl, -⟩ := h
  exact ⟨k, rfl⟩

theorem PushedPast.clear (h : PushedPast delay withStart settled j j') :
    ∀ a ∈ settled, Clear a j' := by
  obtain ⟨k, rfl, hk, -⟩ := h
  intro a ha
  obtain ⟨hvm, hparent, hstart, hfinish⟩ := hk a ha
  exact ⟨hvm, fun hp => (hparent hp).1, hstart, hfinish⟩

theorem Pushed.shifted (h : Pushed delay withStart settled jobs out) :
    List.Forall₂ (Shifted delay) jobs out := by
  induction h with
  | nil => exact .nil
  | cons hj _ ih => exact .cons hj.shifted ih

/-- Where the settled jobs are clear of each other, so are they and the jobs pushed past them. -/
theorem Pushed.clear (h : Pushed delay withStart settled jobs out)
    (hclear : settled.Pairwise Clear) : (settled ++ out).Pairwise Clear := by
  induction h with
  | nil => simpa using hclear
  | @cons settled jobs out j j' hj _ ih =>
    have hj' : (settled ++ [j']).Pairwise Clear := by
      rw [List.pairwise_append]
      refine ⟨hclear, List.pairwise_singleton _ _, fun a ha b hb => ?_⟩
      rw [List.mem_singleton.1 hb]
      exact hj.clear a ha
    simpa using ih hj'

end Shifted

/-! ## The three loops -/

section Loops

variable {delay : ℚ} (hd : 0 < delay)

theorem Behind.monotone (withStart : Bool) (parent : Job ℚ) : Monotone (Behind withStart parent) :=
  fun _ _ hxy h => ⟨h.1.trans_le hxy, fun hs => (h.2 hs).trans_le hxy⟩

theorem waitsFor_iff {withStart : Bool} {parent : Job ℚ} {s : Span ℚ} :
    waitsFor withStart parent s = true ↔ ¬ Behind withStart parent s.start := by
  simp only [waitsFor, Behind, Bool.or_eq_true, Bool.and_eq_true, decide_eq_true_eq, not_and_or,
    Classical.not_imp, not_lt]
  exact Or.comm

/-- A span that rests does so whether or not being stuck is a fault. -/
theorem rests_orIdle {P : ℚ → Prop} {s : Span ℚ} {r : Except ℚ (Span ℚ)}
    (h : Span.Rests delay P s r) : Span.Rests delay P s (orIdle delay r) := by
  obtain ⟨k, rfl, hk⟩ := h
  exact ⟨k, rfl, hk⟩

include hd

theorem pastVm_rests (settled : List (Job ℚ)) (vm : ℤ) (s : Span ℚ) :
    Span.Rests delay (fun x => ∀ a ∈ settled, a.vm = vm → a.finish < x) s
      (pastVm delay settled vm s) := by
  unfold pastVm
  cases hl : lastFinish? settled vm with
  | none =>
    refine Span.Rests.of_free fun a ha hv => ?_
    simp only [lastFinish?, latest?_eq_none, List.map_eq_nil_iff, List.filter_eq_nil_iff] at hl
    exact absurd hv (by simpa using hl a ha)
  | some last =>
    have hrests : Span.Rests delay (fun x => last < x) s (s.advancePast last delay) :=
      Span.rests_advance hd (by simp) fun _ => not_lt.1
    refine hrests.congr fun x => ⟨fun hx a ha hv => lt_of_le_of_lt ?_ hx, fun hx => ?_⟩
    · refine (latest?_eq_some hl).2 _ (List.mem_map_of_mem ?_)
      exact List.mem_filter.2 ⟨ha, by simpa using hv⟩
    · obtain ⟨a, ha, rfl⟩ := List.mem_map.1 (latest?_eq_some hl).1
      obtain ⟨ha, hv⟩ := List.mem_filter.1 ha
      exact hx a ha (of_decide_eq_true hv)

theorem pastParent_rests (withStart : Bool) (parent : Job ℚ) (s : Span ℚ) :
    Span.Rests delay (Behind withStart parent) s (pastParent delay withStart parent s) := by
  refine Span.rests_advance hd (fun s => waitsFor_iff) fun x hx => ?_
  simp only [Behind, not_and_or, Classical.not_imp, not_lt] at hx
  rcases hx with hx | ⟨-, hx⟩
  · exact hx.trans (le_later_right _ _)
  · exact hx.trans (le_later_left _ _)

theorem pastInstants_rests (settled : List (Job ℚ)) (s : Span ℚ) :
    Span.Rests delay (fun x => x ∉ instants settled) s (pastInstants delay settled s) :=
  Span.rests_advance hd (fun _ => Span.taken_iff.trans not_not.symm) fun _ hx =>
    le_latest (not_not.1 hx)

variable (withStart : Bool) (submitted : List ℤ) {settled : List (Job ℚ)}

/-- Past parents that are all settled or not submitted, a span comes to rest behind each. -/
theorem pastParents_rests (j : Job ℚ) {ps : List ℤ}
    (hps : ∀ p ∈ ps, p ∈ submitted → p ∈ settled.map Job.task) (s : Span ℚ) :
    Span.Rests delay (fun x => ∀ p ∈ ps, ∀ a, jobOf? settled p = some a → Behind withStart a x) s
      (pastParents delay withStart submitted settled j ps s) := by
  induction ps generalizing s with
  | nil => exact Span.Rests.of_free (by simp)
  | cons p ps ih =>
    have hrest := ih fun q hq => hps q (List.mem_cons_of_mem p hq)
    unfold pastParents
    cases hp : jobOf? settled p with
    | none =>
      have hsub : p ∉ submitted := fun h => jobOf?_eq_none.1 hp (hps p List.mem_cons_self h)
      simpa [hsub, hp] using hrest s
    | some a =>
      refine ((rests_orIdle (pastParent_rests hd withStart a s)).bind hd.le (Behind.monotone _ _)
        hrest).congr fun x => ?_
      simp only [List.forall_mem_cons, hp, Option.some.injEq, forall_eq']

/-- A parent that is submitted but not settled is found. -/
theorem pastParents_early (j : Job ℚ) {ps : List ℤ}
    (hps : ∃ p ∈ ps, p ∈ submitted ∧ p ∉ settled.map Job.task) (s : Span ℚ) :
    ∃ p, pastParents delay withStart submitted settled j ps s =
      .error (.earlyJob j.id j.task p) := by
  induction ps generalizing s with
  | nil => obtain ⟨p, hp, -⟩ := hps; cases hp
  | cons q ps ih =>
    unfold pastParents
    cases hq : jobOf? settled q with
    | none =>
      by_cases hsub : q ∈ submitted
      · exact ⟨q, by simp [hsub]⟩
      · obtain ⟨p, hp, hps⟩ := hps
        have hp : p ∈ ps := (List.mem_cons.1 hp).resolve_left fun e => hsub (e ▸ hps.1)
        obtain ⟨r, hr⟩ := ih ⟨p, hp, hps⟩ s
        exact ⟨r, by simpa [hsub] using hr⟩
    | some a =>
      obtain ⟨k, hk, -⟩ := pastParent_rests hd withStart a s
      obtain ⟨p, hp, hps⟩ := hps
      have hp : p ∈ ps := (List.mem_cons.1 hp).resolve_left fun e => by
        subst e
        rw [jobOf?_eq_none.2 hps.2] at hq
        cases hq
      obtain ⟨r, hr⟩ := ih ⟨p, hp, hps⟩ (s.shift (k * delay))
      exact ⟨r, by simpa only [hk, orIdle, ok_bind] using hr⟩

/-! ## One job -/

omit hd in
/-- What the three loops ask for is together what takes the job past everything settled. -/
theorem passes_all_iff (hn : (settled.map Job.task).Nodup) {j : Job ℚ} {x : ℚ} :
    ((∀ a ∈ settled, a.vm = j.vm → a.finish < x) ∧
      (∀ p ∈ j.parents, ∀ a, jobOf? settled p = some a → Behind withStart a x) ∧
        x ∉ instants settled) ↔ ∀ a ∈ settled, Passes withStart a j x := by
  constructor
  · rintro ⟨hvm, hparents, hinstants⟩ a ha
    simp only [instants, List.mem_flatMap, not_exists, not_and, List.mem_cons, List.not_mem_nil,
      or_false, not_or] at hinstants
    exact ⟨hvm a ha, fun hp => hparents a.task hp a ((jobOf?_eq_some hn).2 ⟨ha, rfl⟩),
      (hinstants a ha).1, (hinstants a ha).2⟩
  · refine fun h => ⟨fun a ha => (h a ha).vm, fun p hp a ha => ?_, fun hx => ?_⟩
    · obtain ⟨ham, rfl⟩ := (jobOf?_eq_some hn).1 ha
      exact (h a ham).parent hp
    · obtain ⟨a, ha, hx⟩ := List.mem_flatMap.1 hx
      simp only [List.mem_cons, List.not_mem_nil, or_false] at hx
      exact hx.elim (h a ha).start_ne (h a ha).finish_ne

/-- A job whose submitted parents are all settled is pushed past everything settled, and no
further. -/
theorem settle_rests (hn : (settled.map Job.task).Nodup) {j : Job ℚ}
    (hps : ∀ p ∈ j.parents, p ∈ submitted → p ∈ settled.map Job.task) :
    ∃ j', settle delay withStart submitted settled j = .ok j' ∧
      PushedPast delay withStart settled j j' := by
  have hvm : Monotone fun x : ℚ => ∀ a ∈ settled, a.vm = j.vm → a.finish < x :=
    fun x y hxy h a ha hv => (h a ha hv).trans_le hxy
  have hparents : Monotone fun x : ℚ => ∀ p ∈ j.parents, ∀ a, jobOf? settled p = some a →
      Behind withStart a x :=
    fun x y hxy h p hp a ha => Behind.monotone withStart a hxy (h p hp a ha)
  obtain ⟨k, hk, hleast⟩ := ((rests_orIdle (pastVm_rests hd settled j.vm (span j))).bind hd.le hvm
    fun s => (pastParents_rests hd withStart submitted j hps s).bind hd.le hparents
      fun s => rests_orIdle (pastInstants_rests hd settled s)).congr fun x =>
        passes_all_iff withStart hn
  refine ⟨moved j ((span j).shift (k * delay)), ?_, k, rfl, hleast⟩
  calc settle delay withStart submitted settled j
    _ = (orIdle delay (pastVm delay settled j.vm (span j)) >>= fun s =>
          pastParents delay withStart submitted settled j j.parents s >>= fun s =>
            orIdle delay (pastInstants delay settled s)) >>= fun s => .ok (moved j s) := by
      simp only [settle, bind_assoc]
    _ = .ok (moved j ((span j).shift (k * delay))) := by rw [hk, ok_bind]

/-- A job with a submitted parent that is not settled fails. -/
theorem settle_early {j : Job ℚ}
    (hps : ∃ p ∈ j.parents, p ∈ submitted ∧ p ∉ settled.map Job.task) :
    ∃ p, settle delay withStart submitted settled j = .error (.earlyJob j.id j.task p) := by
  obtain ⟨k, hk, -⟩ := pastVm_rests hd settled j.vm (span j)
  obtain ⟨p, hp⟩ := pastParents_early hd withStart submitted j hps
    ((span j).shift (k * delay))
  exact ⟨p, by simp only [settle, hk, hp, orIdle, ok_bind, error_bind]⟩

end Loops

/-! ## All jobs -/

section All

variable {delay : ℚ} (hd : 0 < delay) (withStart : Bool) (submitted : List ℤ)

theorem not_misplaced_nil : ¬ Misplaced [] := by
  rintro ⟨before, j, after, h, -⟩
  simp at h

theorem misplaced_cons {j : Job ℚ} {jobs : List (Job ℚ)} :
    Misplaced (j :: jobs) ↔ (∃ p ∈ j.parents, p ∈ (j :: jobs).map Job.task) ∨ Misplaced jobs := by
  constructor
  · rintro ⟨before, k, after, h, hp⟩
    cases before with
    | nil => obtain ⟨rfl, rfl⟩ := List.cons.inj h; exact Or.inl hp
    | cons b before => obtain ⟨rfl, rfl⟩ := List.cons.inj h; exact Or.inr ⟨before, k, after, rfl, hp⟩
  · rintro (hp | ⟨before, k, after, rfl, hp⟩)
    · exact ⟨[], j, jobs, rfl, hp⟩
    · exact ⟨j :: before, k, after, rfl, hp⟩

section Kept

variable {R : Job ℚ → Job ℚ → Prop} {jobs out : List (Job ℚ)} (h : List.Forall₂ R jobs out)
  (htask : ∀ j j', R j j' → j'.task = j.task)

include h htask

theorem map_task_of_forall₂ : out.map Job.task = jobs.map Job.task := by
  induction h with
  | nil => rfl
  | cons hj _ ih => simp [htask _ _ hj, ih]

/-- What keeps each task and the parents it names misplaces no job. -/
theorem misplaced_iff_of_forall₂ (hparents : ∀ j j', R j j' → ∀ p, p ∈ j'.parents ↔ p ∈ j.parents) :
    Misplaced out ↔ Misplaced jobs := by
  induction h with
  | nil => rfl
  | cons hj hjobs ih =>
    simp only [misplaced_cons, ih, hparents _ _ hj, List.map_cons, htask _ _ hj,
      map_task_of_forall₂ hjobs htask]

end Kept

section Moved

variable {jobs out : List (Job ℚ)} (h : List.Forall₂ (Shifted delay) jobs out)

include h

theorem map_task_of_shifted : out.map Job.task = jobs.map Job.task :=
  map_task_of_forall₂ h fun _ _ => Shifted.task

/-- Moving jobs misplaces none. -/
theorem misplaced_iff_of_shifted : Misplaced out ↔ Misplaced jobs :=
  misplaced_iff_of_forall₂ h (fun _ _ => Shifted.task) fun _ _ hj p => by rw [hj.parents]

theorem start_le_finish_of_shifted (hle : ∀ j ∈ jobs, j.start ≤ j.finish) :
    ∀ j ∈ out, j.start ≤ j.finish := by
  induction h with
  | nil => simp
  | cons hj _ ih =>
    intro k hk
    rcases List.mem_cons.1 hk with rfl | hk
    · exact hj.start_le_finish (hle _ List.mem_cons_self)
    · exact ih (fun j hj => hle j (List.mem_cons_of_mem _ hj)) k hk

end Moved

include hd

/-- Jobs none of which is misplaced all settle, each pushed past every earlier one. -/
theorem settleAll_of_placed (jobs : List (Job ℚ)) (settled : List (Job ℚ)) (notes : List (Note ℚ))
    (hsub : submitted = (settled ++ jobs).map Job.task) (hn : submitted.Nodup)
    (hplaced : ¬ Misplaced jobs) :
    ∃ out notes', settleAll delay withStart submitted settled notes jobs =
        (settled ++ out, notes', none) ∧ Pushed delay withStart settled jobs out := by
  induction jobs generalizing settled notes with
  | nil => exact ⟨[], notes, by simp [settleAll], .nil⟩
  | cons j jobs ih =>
    rw [misplaced_cons, not_or] at hplaced
    have hn' : (settled.map Job.task).Nodup := by
      rw [hsub, List.map_append] at hn
      exact hn.of_append_left
    obtain ⟨j', hj', hpast⟩ := settle_rests hd withStart submitted hn' (j := j)
      (fun p hp hps => by
        rw [hsub, List.map_append, List.mem_append] at hps
        exact hps.resolve_right fun h => hplaced.1 ⟨p, hp, h⟩)
    have hsub' : submitted = ((settled ++ [j']) ++ jobs).map Job.task := by
      rw [hsub]; simp [hpast.shifted.task]
    obtain ⟨out, notes', hout, hpushed⟩ := ih (settled ++ [j']) _ hsub' hplaced.2
    refine ⟨j' :: out, notes', ?_, .cons hpast hpushed⟩
    rw [settleAll, hj']
    simpa using hout

/-- A misplaced job is found. -/
theorem settleAll_of_misplaced (jobs : List (Job ℚ)) (settled : List (Job ℚ))
    (notes : List (Note ℚ)) (hsub : submitted = (settled ++ jobs).map Job.task)
    (hn : submitted.Nodup) (hmis : Misplaced jobs) :
    ∃ (j : Job ℚ) (p : ℤ), (settleAll delay withStart submitted settled notes jobs).2.2 =
      some (.earlyJob j.id j.task p) := by
  induction jobs generalizing settled notes with
  | nil => exact absurd hmis not_misplaced_nil
  | cons j jobs ih =>
    have hn' := hn
    rw [hsub, List.map_append] at hn'
    by_cases hearly : ∃ p ∈ j.parents, p ∈ (j :: jobs).map Job.task
    · obtain ⟨p, hp, hpm⟩ := hearly
      obtain ⟨q, hq⟩ := settle_early hd withStart submitted (j := j)
        ⟨p, hp, by rw [hsub, List.map_append]; exact List.mem_append_right _ hpm,
          fun h => List.disjoint_of_nodup_append hn' h hpm⟩
      exact ⟨j, q, by rw [settleAll, hq]⟩
    · obtain ⟨j', hj', hpast⟩ := settle_rests hd withStart submitted
        hn'.of_append_left (j := j) (fun p hp hps => by
          rw [hsub, List.map_append, List.mem_append] at hps
          exact hps.resolve_right fun h => hearly ⟨p, hp, h⟩)
      have hsub' : submitted = ((settled ++ [j']) ++ jobs).map Job.task := by
        rw [hsub]; simp [hpast.shifted.task]
      rw [settleAll, hj']
      exact ih (settled ++ [j']) _ hsub' ((misplaced_cons.1 hmis).resolve_left hearly)

end All

end Reconcile

section

open Reconcile

variable {delay : ℚ} (hd : 0 < delay) (withStart : Bool) (jobs : List (Job ℚ))
  (hn : (jobs.map Job.task).Nodup)

include hd

theorem reconcile_eq :
    (reconcile delay withStart jobs).jobs =
        (settleAll delay withStart (jobs.map Job.task) [] [] jobs).1 ∧
      (reconcile delay withStart jobs).fault =
        (settleAll delay withStart (jobs.map Job.task) [] [] jobs).2.2 := by
  have hzero : (delay == 0) = false := by simpa using hd.ne'
  unfold reconcile
  rw [if_neg (not_lt.2 hd.le), hzero, if_neg Bool.false_ne_true]
  rcases settleAll delay withStart (jobs.map Job.task) [] [] jobs with ⟨settled, notes, _ | fault⟩
  · exact ⟨rfl, rfl⟩
  · exact ⟨rfl, rfl⟩

include hn

/-- Jobs none of which is misplaced are reconciled, each pushed past every earlier one. -/
theorem reconcile_pushed (hplaced : ¬ Misplaced jobs) :
    (reconcile delay withStart jobs).fault = none ∧
      Pushed delay withStart [] jobs (reconcile delay withStart jobs).jobs := by
  obtain ⟨hjobs, hfault⟩ := reconcile_eq hd withStart jobs
  obtain ⟨out, notes, hout, hpushed⟩ := settleAll_of_placed hd withStart
    (jobs.map Job.task) jobs [] [] rfl hn hplaced
  rw [hjobs, hfault, hout]
  exact ⟨rfl, hpushed⟩

/-- Jobs none of which is misplaced are reconciled. -/
theorem reconcile_of_placed (hplaced : ¬ Misplaced jobs) :
    (reconcile delay withStart jobs).fault = none ∧
      List.Forall₂ (Shifted delay) jobs (reconcile delay withStart jobs).jobs ∧
      (reconcile delay withStart jobs).jobs.Pairwise Clear := by
  obtain ⟨hfault, hpushed⟩ := reconcile_pushed hd withStart jobs hn hplaced
  exact ⟨hfault, hpushed.shifted, hpushed.clear .nil⟩

/-- A misplaced job is reported. -/
theorem reconcile_of_misplaced (hmis : Misplaced jobs) :
    ∃ (j : Job ℚ) (p : ℤ),
      (reconcile delay withStart jobs).fault = some (.earlyJob j.id j.task p) := by
  rw [(reconcile_eq hd withStart jobs).2]
  exact settleAll_of_misplaced hd withStart (jobs.map Job.task) jobs [] [] rfl hn hmis

end

open Reconcile in
/-- Where no job is misplaced, reconciling does not fail, with a delay or without. -/
theorem fault_of_placed {delay : ℚ} (hd : 0 ≤ delay) (withStart : Bool) {jobs : List (Job ℚ)}
    (hn : (jobs.map Job.task).Nodup) (hplaced : ¬ Misplaced jobs) :
    (reconcile delay withStart jobs).fault = none := by
  rcases hd.eq_or_lt with rfl | hpos
  · simp [reconcile]
  · exact (reconcile_of_placed hpos withStart jobs hn hplaced).1

end FlowSched

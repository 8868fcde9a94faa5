import FlowSched.Proofs.Execution.Binding
import FlowSched.Proofs.Execution.Complete

/-!
# Whole executions

Each instant completes a task, so as many instants as tasks leave no completion ahead
(`loop_leads`). Then nothing is pending, and a task that never started lacks credits: the execution
ends with every task started, or some task has more parents than credits (`run_leads`). What else the
moves of an execution keep (`Stable`) holds at its end (`run_keeps`).
-/

namespace FlowSched.Execution

open Quantity Step

variable {rule : Rule} {w : World ℚ} {c : Costs ℚ} {e : Execution ℚ} {now : ℚ} {done : List ℤ}

/-! ## Dispatching -/

/-- The batch that an execution hands to its rule. -/
def batch (e : Execution ℚ) : Batch ℚ := { toWorld := e.toWorld, ready := e.pending }

theorem Inv.handed (h : Inv rule w e now [] [] done) : Handed w e.batch where
  kin := h.records.kin
  bound := rfl
  nodup := h.places.nodup.of_append_left
  known x hx := h.places.mem_ids (List.mem_append_left _ hx)
  waiting x hx := by
    refine h.records.waiting x (by simp) fun hs => ?_
    exact (List.nodup_append.1 h.places.nodup).2.2 x hx x (by simpa using hs) rfl

/-- The execution after a rule has dealt with the pending tasks. -/
def dealt (b : Batch ℚ) (e : Execution ℚ) : Execution ℚ :=
  { e with toWorld := b.toWorld, pending := b.ready }

/-- Bound tasks are queued for their start. -/
theorem Inv.dealt {b : Batch ℚ} (h : Inv rule w e now [] [] done) (hd : Dealing rule w e.batch b) :
    Inv rule w (e.dealt b) now b.bound [] done := by
  have hperm : (b.ready ++ (b.bound ++ e.started)).Perm (e.pending ++ ([] ++ e.started)) := by
    rw [← List.append_assoc, List.nil_append]
    exact (List.perm_append_comm.trans hd.perm).append_right _
  have hstarted : ∀ x ∈ e.started, x ∉ b.bound := by
    intro x hx hb
    have hn := hperm.nodup_iff.2 h.places.nodup
    exact (List.nodup_append.1 hn.of_append_right).2.2 x hb x hx rfl
  refine ⟨⟨?_, ?_, h.places.running, h.places.remaining⟩,
    ⟨h.clock.ahead, h.clock.due, h.clock.done, ?_⟩, ⟨hd.kin, ?_, ?_, h.records.ids, ?_, hd.chosen, ?_⟩,
    ⟨h.lanes.free, h.lanes.running, ?_⟩,
    ⟨h.history.vm, h.history.forward, h.history.ordered, h.history.released, h.history.parents⟩⟩
  · exact hperm.nodup_iff.2 h.places.nodup
  · exact fun t => hperm.mem_iff.trans (h.places.released t)
  · exact fun t ht => h.clock.release t (hperm.mem_iff.1 ht)
  · exact (congrArg Session.planned hd.session).trans h.records.planned
  · exact (congrArg Session.submitted hd.session).trans h.records.submitted
  · intro j hj
    obtain ⟨t, ht, hrec⟩ := h.records.job j hj
    exact ⟨t, (hd.untouched j.task (hstarted j.task (List.mem_map_of_mem hj))).trans ht, hrec⟩
  · exact fun t hq hs => (hd.untouched t hq).trans (h.records.waiting t (by simp) hs)
  · intro hidle v hv hb
    rcases hd.busy v hv hb with ⟨u, hu, hid, hub⟩ | hbound
    · rcases h.lanes.busy hidle u hu hub with hact | ⟨q, hq, -⟩
      · exact Or.inl (hid ▸ hact)
      · cases hq
    · exact Or.inr hbound

/-! ## Properties along a run -/

/-- A property of executions that every move keeps: handing the pending tasks to the rule, starting a
queued task, coming to the next instant, and completing a due task. -/
structure Stable (c : Costs ℚ) (rule : Rule) (w : World ℚ)
    (J : Execution ℚ → ℚ → List ℤ → List ℤ → List ℤ → Prop) : Prop where
  deal : ∀ {e b now done}, Inv rule w e now [] [] done → J e now [] [] done →
    Batch.dispatch rule e.batch = .ok () b → Dealing rule w e.batch b → Drained rule (e.dealt b) →
    J (e.dealt b) now b.bound [] done
  start : ∀ {e now t rest done v place s}, Inv rule w e now (t.id :: rest) [] done →
    J e now (t.id :: rest) [] done → Startable e now t v place s →
    startTime c now (submit t.id e) t v.id = .ok s → J (startAt t v place s e) now rest [] done
  due : ∀ {e now done first}, Inv rule w e now [] [] done → Drained rule e → J e now [] [] done →
    earliest? e.completions = some first →
    J { e with completions := e.completions.filter fun c => !isDue first c } first.finish []
      ((e.completions.filter (isDue first)).map Completion.task) done
  complete : ∀ {e e' now t rest done v place freed}, Inv rule w e now [] (t.id :: rest) done →
    J e now [] (t.id :: rest) done → Completed now t v place freed e e' →
    J e' now [] rest (t.id :: done)

theorem stable_true : Stable c rule w fun _ _ _ _ _ => True := by
  constructor <;> intros <;> trivial

section

variable (hc : Prepared w c) {J : Execution ℚ → ℚ → List ℤ → List ℤ → List ℤ → Prop}
  (hJ : Stable c rule w J)

include hc hJ

theorem bindPending_leads (h : Inv rule w e now [] [] done) (hj : J e now [] [] done) :
    Leads (bindPending rule) e
      (fun bound e' => Inv rule w e' now bound [] done ∧ Drained rule e' ∧ J e' now bound [] done)
      fun _ _ => ¬ Fits rule w := by
  by_cases hp : e.pending = []
  · refine leads_of_ok (b := []) (t := e) ?_ ⟨h, Or.inl hp, hj⟩
    simp only [bindPending, hp, List.isEmpty_nil, if_true]
  · have hd := dispatch_leads rule h.handed (roster_of_costs hc.costs).1
    have hne : ¬ e.pending.isEmpty = true := by simpa using hp
    have hrun : bindPending rule e = match Batch.dispatch rule e.batch with
        | .ok _ b => .ok b.bound (e.dealt b)
        | .error fault b => .error fault (e.dealt b) := by
      unfold bindPending
      rw [if_neg hne]
      dsimp only [batch]
      cases Batch.dispatch rule { toWorld := e.toWorld, ready := e.pending } <;> rfl
    unfold Leads at hd ⊢
    rw [hrun]
    cases hm : Batch.dispatch rule e.batch with
    | ok u b =>
      rw [hm] at hd
      exact ⟨h.dealt hd.1, hd.2, hJ.deal h hj hm hd.1 hd.2⟩
    | error fault b =>
      rw [hm] at hd
      exact hd

/-- Dispatching starts what a rule can bind and keeps the invariant. -/
theorem dispatchPending_leads (h : Inv rule w e now [] [] done) (hj : J e now [] [] done) :
    Leads (dispatch c rule now) e
      (fun _ e' => Inv rule w e' now [] [] done ∧ Drained rule e' ∧ J e' now [] [] done)
      fun _ _ => ¬ Fits rule w := by
  unfold dispatch
  refine (bindPending_leads hc hJ h hj).bind fun bound e' hb => ?_
  refine Leads.each (f := startTask c now) (E := fun _ _ => ¬ Fits rule w)
    (I := fun rest (e : Execution ℚ) =>
      Inv rule w e now rest [] done ∧ Drained rule e ∧ J e now rest [] done) ?_ hb
  intro q rest e ⟨hinv, hd, hj⟩
  refine (startTask_leads hc hinv).mono (fun _ e' he' => ?_) fun _ _ hF => hF
  obtain ⟨t, v, place, s, rfl, hs, hstart, rfl⟩ := he'
  exact ⟨hinv.startAt hs, hd.startAt t v place s, hJ.start hinv hj hs hstart⟩

/-- Completing all due tasks succeeds and keeps the invariant. -/
theorem completeAll_leads {due : List ℤ} (h : Inv rule w e now [] due done)
    (hj : J e now [] due done) :
    Leads (each (complete now) due) e
      (fun _ e' => Inv rule w e' now [] [] (due.reverse ++ done) ∧
        J e' now [] [] (due.reverse ++ done)) fun _ _ => False := by
  have hloop := Leads.each (f := complete now) (E := fun _ _ => False)
    (I := fun rest (e' : Execution ℚ) => ∃ done', rest.reverse ++ done' = due.reverse ++ done ∧
      Inv rule w e' now [] rest done' ∧ J e' now [] rest done')
    (fun p rest e' ⟨done', he, hinv, hj⟩ => by
      refine (complete_leads hc hinv).mono (fun _ e'' he'' => ?_) fun _ _ hF => hF
      obtain ⟨t, v, place, freed, rfl, hcomp⟩ := he''
      refine ⟨t.id :: done', ?_, hinv.complete hcomp hc.checked hc.ids, hJ.complete hinv hj hcomp⟩
      rw [← he, List.reverse_cons, List.append_assoc, List.singleton_append]) ⟨done, rfl, h, hj⟩
  refine hloop.mono (fun _ e' hend => ?_) fun _ _ hF => hF
  obtain ⟨done', he, hinv, hj'⟩ := hend
  rw [List.reverse_nil, List.nil_append] at he
  exact he ▸ ⟨hinv, hj'⟩

/-! ## The loop -/

/-- Processing one instant completes at least one more task. -/
theorem tick_leads (h : Inv rule w e now [] [] done) (hd : Drained rule e) (hj : J e now [] [] done)
    {first : Completion ℚ} (hf : earliest? e.completions = some first) :
    Leads (tick c rule first) e
      (fun _ e' => ∃ done', done.length < done'.length ∧ Inv rule w e' first.finish [] [] done' ∧
        Drained rule e' ∧ J e' first.finish [] [] done') fun _ _ => ¬ Fits rule w := by
  have hfirst : first ∈ e.completions.filter (isDue first) :=
    List.mem_filter.2 ⟨(earliest?_eq_some hf).1, by simp [isDue]⟩
  have hpos := List.length_pos_of_mem hfirst
  unfold tick
  rw [leads_bind, leads_get, leads_bind, leads_set]
  refine ((completeAll_leads hc hJ (h.due hf) (hJ.due h hd hj hf)).mono (fun _ _ hq => hq)
    fun _ _ hF => hF.elim).bind fun _ e' he' => ?_
  obtain ⟨hinv, hj'⟩ := he'
  refine (dispatchPending_leads hc hJ hinv hj').mono (fun _ e'' hq => ⟨_, ?_, hq⟩) fun _ _ hF => hF
  rw [List.length_append, List.length_reverse, List.length_map]
  omega

/-- As many instants as tasks leave no completion ahead. -/
theorem loop_leads (fuel : ℕ) (h : Inv rule w e now [] [] done) (hd : Drained rule e)
    (hj : J e now [] [] done) (hfuel : w.workflow.size ≤ done.length + fuel) :
    Leads (loop c rule fuel) e
      (fun _ e' => ∃ now' done', Inv rule w e' now' [] [] done' ∧ Drained rule e' ∧
        J e' now' [] [] done' ∧ e'.completions = []) fun _ _ => ¬ Fits rule w := by
  induction fuel generalizing e now done with
  | zero =>
    obtain ⟨hlen, hle⟩ := h.length_started_le
    have hnone : e.completions = [] := List.eq_nil_of_length_eq_zero (by omega)
    exact leads_pure.2 ⟨now, done, h, hd, hj, hnone⟩
  | succ fuel ih =>
    unfold loop
    rw [leads_bind, leads_get]
    cases hf : earliest? e.completions with
    | none => exact leads_pure.2 ⟨now, done, h, hd, hj, earliest?_eq_none.1 hf⟩
    | some first =>
      refine (tick_leads hc hJ h hd hj hf).bind fun _ e' he' => ?_
      obtain ⟨done', hlt, hinv, hdr, hj'⟩ := he'
      exact ih hinv hdr hj' (by omega)

end

theorem loop_of_none (n : ℕ) (hf : earliest? e.completions = none) : loop c rule n e = .ok () e := by
  cases n with
  | zero => rfl
  | succ n =>
    conv_lhs => unfold loop
    rw [get_bind, hf]
    rfl

theorem loop_of_some (n : ℕ) {first : Completion ℚ} (hf : earliest? e.completions = some first) :
    loop c rule (n + 1) e = (tick c rule first >>= fun _ => loop c rule n) e := by
  conv_lhs => unfold loop
  rw [get_bind, hf]

/-- The bound on the instants never cuts a loop short: a greater one leads to the same end. -/
theorem loop_add (hc : Prepared w c) (fuel k : ℕ) (h : Inv rule w e now [] [] done)
    (hd : Drained rule e) (hfuel : w.workflow.size ≤ done.length + fuel) :
    loop c rule (fuel + k) e = loop c rule fuel e := by
  induction fuel generalizing e now done with
  | zero =>
    obtain ⟨hlen, hle⟩ := h.length_started_le
    have hnone : e.completions = [] := List.eq_nil_of_length_eq_zero (by omega)
    have hf := earliest?_eq_none.2 hnone
    rw [loop_of_none _ hf, loop_of_none _ hf]
  | succ fuel ih =>
    cases hf : earliest? e.completions with
    | none => rw [loop_of_none _ hf, loop_of_none _ hf]
    | some first =>
      rw [show fuel + 1 + k = fuel + k + 1 by omega, loop_of_some _ hf, loop_of_some _ hf]
      have htick := tick_leads hc stable_true h hd trivial hf
      show EStateM.bind _ _ e = EStateM.bind _ _ e
      unfold EStateM.bind
      cases ht : tick c rule first e with
      | ok u e' =>
        -- one more task is done, so one instant less is enough
        obtain ⟨done', hlt, hinv, hdr, -⟩ := htick.of_ok ht
        exact ih hinv hdr (by omega)
      | error fault e' => rfl

/-! ## The start -/

/-- The execution after the roots were released. -/
def rooted (w : World ℚ) : Execution ℚ :=
  w.workflow.roots.foldl (fun e t => e.releaseTask 0 t.id) (fresh w)

theorem foldl_releaseTask (now : ℚ) (ts : List (Task ℚ)) (e : Execution ℚ) :
    let e' := ts.foldl (fun e t => e.releaseTask now t.id) e
    e'.pending = e.pending ++ ts.map Task.id ∧
      (∀ x, e'.release.get? x = if x ∈ ts.map Task.id then some now else e.release.get? x) ∧
      e' = { e with pending := e'.pending, release := e'.release } := by
  induction ts generalizing e with
  | nil => simp
  | cons t ts ih =>
    obtain ⟨hp, hr, he⟩ := ih (e.releaseTask now t.id)
    refine ⟨?_, fun x => ?_, ?_⟩
    · rw [List.foldl_cons, hp]
      simp [releaseTask]
    · rw [List.foldl_cons, hr]
      by_cases hx : x ∈ ts.map Task.id
      · simp [hx]
      · rw [if_neg hx]
        simp only [releaseTask, Table.get?_set, List.map_cons, List.mem_cons, hx, or_false, eq_comm]
    · rw [List.foldl_cons, he]
      rfl

theorem mem_roots {t : ℤ} :
    t ∈ w.workflow.roots.map Task.id ↔ t ∈ w.workflow.ids ∧ w.workflow.need t = 0 := by
  simp only [Workflow.roots, List.mem_map, List.mem_filter, Workflow.mem_ids]
  constructor
  · rintro ⟨u, ⟨hu, hp⟩, rfl⟩
    have hf := Workflow.find?_self hu
    refine ⟨⟨u, hf⟩, ?_⟩
    rw [Workflow.need_eq hf, List.length_eq_zero_iff]
    exact List.isEmpty_iff.1 hp
  · rintro ⟨⟨u, hu⟩, hn⟩
    rw [Workflow.need_eq hu, List.length_eq_zero_iff] at hn
    obtain ⟨hm, rfl⟩ := Workflow.find?_eq_some.1 hu
    exact ⟨u, ⟨hm, List.isEmpty_iff.2 hn⟩, rfl⟩

/-- How many parents a task waits for at first. -/
theorem remaining_fresh {t : ℤ} (ht : t ∈ w.workflow.ids) :
    ((fresh w).remaining.get? t).getD 0 = w.workflow.need t := by
  obtain ⟨u, hu⟩ := Workflow.mem_ids.1 ht
  rw [Workflow.need_eq hu]
  have hfind : ∀ ts : List (Task ℚ), Table.find t (ts.map fun u => (u.id, (u.parents.length : ℤ))) =
      (ts.find? (·.id = t)).map fun u => (u.parents.length : ℤ) := by
    intro ts
    induction ts with
    | nil => rfl
    | cons v ts ih => by_cases hv : v.id = t <;> simp [Table.find, hv, ih]
  have hget : (fresh w).remaining.get? t = some (u.parents.length : ℤ) := by
    have hf := hfind w.workflow.tasks
    rw [show w.workflow.tasks.find? (·.id = t) = some u from hu] at hf
    exact hf
  rw [hget]
  rfl

/-- An execution of which only the roots were released. -/
structure Rooted (w : World ℚ) (e : Execution ℚ) : Prop where
  world : e.toWorld = w
  jobs : e.jobs = []
  completions : e.completions = []
  vmFree : e.vmFree = (fresh w).vmFree
  running : e.running = (fresh w).running
  remaining : e.remaining = (fresh w).remaining
  pending : e.pending = w.workflow.roots.map Task.id
  release : ∀ x ∈ w.workflow.roots.map Task.id, e.release.get? x = some 0

theorem rooted_rooted (w : World ℚ) : Rooted w (rooted w) := by
  obtain ⟨hp, hr, he⟩ := foldl_releaseTask 0 w.workflow.roots (fresh w)
  change rooted w = { fresh w with pending := (rooted w).pending, release := (rooted w).release } at he
  exact
    { world := (congrArg Execution.toWorld he :)
      jobs := (congrArg Execution.jobs he :)
      completions := (congrArg Execution.completions he :)
      vmFree := (congrArg Execution.vmFree he :)
      running := (congrArg Execution.running he :)
      remaining := (congrArg Execution.remaining he :)
      pending := hp
      release := fun x hx => (hr x).trans (if_pos hx) }

section

variable (h : Rooted w e)

include h

theorem Rooted.started : e.started = [] := by rw [Execution.started, h.jobs, List.map_nil]

theorem Rooted.places_eq : e.pending ++ ([] ++ e.started) = w.workflow.roots.map Task.id := by
  rw [h.pending, h.started]
  simp

theorem Rooted.places : Places w e [] [] [] where
  nodup := by
    rw [h.places_eq]
    exact w.workflow.nodup.sublist (List.filter_sublist.map _)
  released t := by rw [h.places_eq, mem_roots, Workflow.credits_nil, Nat.le_zero]
  running := by simp [h.completions, h.started]
  remaining t ht := by
    rw [h.remaining, remaining_fresh ht, Workflow.credits_nil]
    simp

theorem Rooted.clock : Clock w e 0 [] [] [] where
  ahead := by simp [h.completions]
  due := by simp [h.jobs]
  done := by simp [h.jobs]
  release t ht := by
    rw [h.places_eq] at ht
    have hneed := (mem_roots.1 ht).2
    refine ⟨0, le_refl 0, h.release t ht, ?_, fun hne => absurd hneed hne, fun _ => rfl⟩
    rw [hneed]
    exact Nat.zero_le _

theorem Rooted.records (rule : Rule) : Records rule w e [] where
  kin := by
    rw [h.world]
    exact World.Kin.refl w
  planned := by rw [h.world]
  submitted := by rw [h.world, h.started, List.append_nil]
  ids := by simp [h.jobs]
  job := by simp [h.jobs]
  queued := by simp
  waiting t _ _ := by rw [h.world]

theorem Rooted.vmFree_eq (hids : (w.vms.map Vm.id).Nodup) {v : Vm ℚ} (hv : v ∈ w.vms) :
    e.vmFree.get? v.id = some 0 := by
  rw [h.vmFree]
  exact Table.get?_ofList_map (f := fun v : Vm ℚ => (v.id, (0 : ℚ))) hids hv

theorem Rooted.lanes (hids : (w.vms.map Vm.id).Nodup) : Lanes w e [] [] where
  free v hv := ⟨0, h.vmFree_eq hids hv, by simp [h.jobs]⟩
  running v hv := by
    have hget : (fresh w).running.get? v.id = some 0 :=
      Table.get?_ofList_map (f := fun v : Vm ℚ => (v.id, (0 : ℤ))) hids hv
    rw [h.running, hget, h.jobs]
    rfl
  busy hidle v hv hb := by
    rw [h.world] at hv
    rw [hidle v hv] at hb
    cases hb

theorem Rooted.history : History w e := by
  constructor
  all_goals simp [h.jobs]

end

/-- The invariant holds once the roots are released. -/
theorem inv_rooted (hids : (w.vms.map Vm.id).Nodup) (rule : Rule) :
    Inv rule w (rooted w) 0 [] [] [] :=
  have h := rooted_rooted w
  ⟨h.places, h.clock, h.records rule, h.lanes hids, h.history⟩

/-! ## The end -/

/-- When no completion is ahead and VMs were idle at first, nothing is pending. -/
theorem pending_eq_nil (hne : w.vms ≠ []) (hidle : rule = .roundRobin → ∀ v ∈ w.vms, v.busy = false)
    (h : Inv rule w e now [] [] done) (hd : Drained rule e) (hcs : e.completions = []) :
    e.pending = [] := by
  rcases hd with hp | ⟨hr, hb⟩
  · exact hp
  · have hvms : e.vms ≠ [] := fun he => hne (by
      have hids : e.vms.map Vm.id = w.vms.map Vm.id :=
        World.map_vms_of_kin h.records.kin fun _ => rfl
      rw [he] at hids
      exact List.map_eq_nil_iff.1 hids.symm)
    obtain ⟨v, hv⟩ := List.exists_mem_of_ne_nil _ hvms
    rcases h.lanes.busy (hidle hr) v hv (hb v hv) with hact | ⟨q, hq, -⟩
    · -- an active job has a completion ahead
      obtain ⟨j, hj⟩ := List.exists_mem_of_length_pos hact
      obtain ⟨hj, hact⟩ := List.mem_filter.1 hj
      have hdone : j.task ∈ done := by
        have := h.places.running.mem_iff.2 (List.mem_map_of_mem hj)
        simpa [hcs] using this
      exact absurd hdone (of_decide_eq_true hact).2
    · cases hq

/-- Once nothing moves any more, a task that was not started lacks credits. -/
theorem started_of_credits (hw : w.workflow.Checked) (h : Inv rule w e now [] [] done)
    (hp : e.pending = []) (hcs : e.completions = [])
    (hcredits : ∀ t ∈ w.workflow.tasks,
      w.workflow.need t.id ≤ w.workflow.credits w.workflow.ids t.id) :
    ∀ t ∈ w.workflow.ids, t ∈ e.started := by
  obtain ⟨rank, hrank⟩ := hw.ranked
  have hdone : done.Perm e.started := by simpa [hcs] using h.places.running
  -- induction on the rank: the parents of a task rank below it
  intro t
  induction hn : rank t using Nat.strong_induction_on generalizing t with
  | h n ih =>
    intro ht
    obtain ⟨u, hu⟩ := Workflow.mem_ids.1 ht
    obtain ⟨hum, rfl⟩ := Workflow.find?_eq_some.1 hu
    have hparents : ∀ p ∈ u.parents, p ∈ done := by
      intro p hpm
      obtain ⟨v, hv, hc⟩ := hw.parent u hum p hpm
      have hlt := hrank v (Workflow.find?_eq_some.1 hv).1 u.id hc
      rw [(Workflow.find?_eq_some.1 hv).2] at hlt
      exact hdone.mem_iff.2 (ih (rank p) (hn ▸ hlt) p rfl (Workflow.mem_ids.2 ⟨v, hv⟩))
    have htotal := hw.credits_eq_total hu h.places.nodup_done
      (fun x hx => h.places.mem_ids_of_started (h.places.mem_started_of_done hx)) hparents
    have hrel := (h.places.released u.id).2 ⟨ht, htotal ▸ hcredits u hum⟩
    simpa [hp] using hrel

theorem Inv.started_subperm (h : Inv rule w e now [] [] done) :
    e.started.Subperm w.workflow.ids :=
  List.subperm_of_subset h.places.nodup_started fun _ hx => h.places.mem_ids_of_started hx

theorem Inv.size_eq (h : Inv rule w e now [] [] done) :
    e.workflow.size = w.workflow.ids.length := by
  rw [Workflow.size_of_kin h.records.kin.workflow]
  exact (List.length_map _).symm

/-- With as many jobs as tasks, every task was started. -/
theorem Inv.started_perm (h : Inv rule w e now [] [] done)
    (hlen : e.jobs.length = e.workflow.size) : e.started.Perm w.workflow.ids :=
  h.started_subperm.perm_of_length_le (by rw [← h.size_eq, ← hlen, started, List.length_map])

/-- With fewer jobs than tasks once nothing moves any more, some task lacks credits. -/
theorem Inv.exists_short (h : Inv rule w e now [] [] done) (hw : w.workflow.Checked)
    (hp : e.pending = []) (hcs : e.completions = []) (hlen : e.jobs.length ≠ e.workflow.size) :
    ∃ t ∈ w.workflow.tasks, w.workflow.credits w.workflow.ids t.id < w.workflow.need t.id := by
  by_contra hnone
  have hall := started_of_credits hw h hp hcs fun t ht => not_lt.1 fun hlt => hnone ⟨t, ht, hlt⟩
  have hle : w.workflow.ids.length ≤ e.started.length :=
    (List.subperm_of_subset w.workflow.nodup hall).length_le
  have hge := h.started_subperm.length_le
  have hsize := h.size_eq
  have hjobs : e.started.length = e.jobs.length := List.length_map _
  exact hlen (by omega)

theorem Inv.note (h : Inv rule w e now [] [] done) (n : Note ℚ) :
    Inv rule w { e with toWorld := e.toWorld.note n } now [] [] done :=
  ⟨⟨h.places.nodup, h.places.released, h.places.running, h.places.remaining⟩,
    ⟨h.clock.ahead, h.clock.due, h.clock.done, h.clock.release⟩,
    ⟨⟨h.records.kin.workflow, h.records.kin.vms⟩, h.records.planned, h.records.submitted,
      h.records.ids, h.records.job, h.records.queued, h.records.waiting⟩,
    ⟨h.lanes.free, h.lanes.running, h.lanes.busy⟩,
    ⟨h.history.vm, h.history.forward, h.history.ordered, h.history.released, h.history.parents⟩⟩

/-- Every task was started and is done. -/
def Ended (rule : Rule) (w : World ℚ) (e : Execution ℚ) : Prop :=
  ∃ now done, Inv rule w e now [] [] done ∧ done.Perm e.started ∧ e.started.Perm w.workflow.ids

/-- An execution ends with every task done, and a property that every move keeps holds at its end. It
fails only if its rule cannot fit the workflow, if there are no tasks, or by stalling, which some task
with more parents than credits brings about. -/
theorem run_keeps (hc : Prepared w c) {J : Execution ℚ → ℚ → List ℤ → List ℤ → List ℤ → Prop}
    (hJ : Stable c rule w J) (h₀ : J (rooted w) 0 [] [] [])
    (hidle : rule = .roundRobin → ∀ v ∈ w.vms, v.busy = false) :
    Leads (run c rule) (fresh w)
      (fun _ e' => Ended rule w e' ∧ ∃ e now done n, Inv rule w e now [] [] done ∧
        J e now [] [] done ∧ e' = { e with toWorld := e.toWorld.note n })
      fun fault _ => (¬ Fits rule w ∨ w.workflow.tasks = []) ∨ ((∃ stuck, fault = .stalled stuck) ∧
        ∃ t ∈ w.workflow.tasks, w.workflow.credits w.workflow.ids t.id < w.workflow.need t.id) := by
  unfold run
  rw [leads_bind, leads_get]
  dsimp only
  rw [leads_bind, leads_modify]
  refine ((dispatchPending_leads hc hJ (inv_rooted hc.ids rule) h₀).mono (fun _ _ hq => hq)
    fun _ _ hF => Or.inl (Or.inl hF)).bind fun _ e₁ he₁ => ?_
  obtain ⟨h₁, hd₁, hj₁⟩ := he₁
  rw [leads_bind, leads_get]
  have hsize : w.workflow.size ≤ ([] : List ℤ).length + e₁.workflow.size := by
    rw [Workflow.size_of_kin h₁.records.kin.workflow]
    simp
  refine ((loop_leads hc hJ _ h₁ hd₁ hj₁ hsize).mono (fun _ _ hq => hq)
    fun _ _ hF => Or.inl (Or.inl hF)).bind fun _ e₂ he₂ => ?_
  obtain ⟨now, done, h, hd, hj, hcs⟩ := he₂
  rw [leads_bind, leads_get]
  have hp := pending_eq_nil (roster_of_costs hc.costs).1 hidle h hd hcs
  split
  · next hlen =>
    rw [leads_bind, leads_throw]
    exact Or.inr ⟨⟨_, rfl⟩, h.exists_short hc.checked hp hcs hlen⟩
  · next hlen =>
    have hdone : done.Perm e₂.started := by simpa [hcs] using h.places.running
    have hperm := h.started_perm (not_not.1 hlen)
    cases hl : latest? (e₂.jobs.map Job.finish) with
    | none =>
      rw [latest?_eq_none, List.map_eq_nil_iff] at hl
      rw [started, hl, List.map_nil] at hperm
      exact leads_throw.2 (Or.inl (Or.inr (List.map_eq_nil_iff.1 hperm.nil_eq.symm)))
    | some makespan =>
      rw [leads_modify]
      exact ⟨⟨now, done, h.note _, hdone, hperm⟩, e₂, now, done, _, h, hj, rfl⟩

/-- An execution ends with every task done, or fails for the reasons that `run_keeps` names. -/
theorem run_leads (rule : Rule) (hc : Prepared w c)
    (hidle : rule = .roundRobin → ∀ v ∈ w.vms, v.busy = false) :
    Leads (run c rule) (fresh w) (fun _ e' => Ended rule w e')
      fun fault _ => (¬ Fits rule w ∨ w.workflow.tasks = []) ∨ ((∃ stuck, fault = .stalled stuck) ∧
        ∃ t ∈ w.workflow.tasks, w.workflow.credits w.workflow.ids t.id < w.workflow.need t.id) :=
  (run_keeps hc stable_true trivial hidle).mono (fun _ _ h => h.1) fun _ _ h => h

end FlowSched.Execution

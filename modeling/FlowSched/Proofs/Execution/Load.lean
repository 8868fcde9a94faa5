import FlowSched.Proofs.Idle
import FlowSched.Proofs.Run

/-!
# What VMs hold during a run

A VM counts the jobs that it was given and that are not completed yet, is busy while there are any,
and its load is their number times its speed; a VM that tasks are dealt to in turn holds one at a time
(`Carries`). Every move of an execution keeps this (`Loaded`), so it is known after each dispatch of a
run (`Balanced`). As idle VMs are therefore unloaded, the list rules take the first idle VM that is
feasible, and a run that returns leaves all VMs idle (`run_steady`).
-/

namespace FlowSched.Execution

open Quantity Step

/-! ## One VM -/

/-- A VM carries a number of jobs, and further tasks are queued for it. -/
structure Carries (rule : Rule) (v : Vm ℚ) (jobs queued : ℕ) : Prop where
  load : v.load = jobs * v.mips
  busy : 0 < jobs → v.busy = true
  single : rule = .roundRobin → jobs + queued ≤ 1

section

variable {rule : Rule} {v : Vm ℚ} {n q : ℕ}

theorem Carries.start (h : Carries rule v n (q + 1)) :
    Carries rule { v with busy := true, load := v.load + v.mips } (n + 1) q where
  load := by
    rw [h.load]
    push_cast
    ring
  busy _ := rfl
  single hr := by
    have := h.single hr
    omega

/-- The last job leaves a VM idle. -/
theorem Carries.unload (h : Carries rule v (n + 1) q) (hv : 0 ≤ v.mips) :
    Carries rule (if n = 0 then v.release else { v with load := later 0 (v.load - v.mips) }) n q := by
  have hsingle : rule = .roundRobin → n + q ≤ 1 := fun hr => by
    have := h.single hr
    omega
  split
  · next h0 =>
    subst h0
    exact ⟨by simp [Vm.release], fun hpos => absurd hpos (lt_irrefl 0), hsingle⟩
  · next hne =>
    refine ⟨?_, fun _ => h.busy (Nat.succ_pos n), hsingle⟩
    have hload : v.load - v.mips = n * v.mips := by
      rw [h.load]
      push_cast
      ring
    show later 0 (v.load - v.mips) = n * v.mips
    rw [hload, later_eq_max]
    exact max_eq_right (by positivity)

end

/-! ## All VMs -/

/-- VMs count and carry the jobs that they were given and that are not done. -/
structure Loaded (rule : Rule) (w : World ℚ) (e : Execution ℚ) (queue done : List ℤ) : Prop where
  running : ∀ v ∈ w.vms, e.running.get? v.id = some (active e.jobs done v.id : ℤ)
  carries : ∀ v ∈ e.vms, Carries rule v (active e.jobs done v.id) (Batch.onVm e.workflow queue v.id)

section

variable {rule : Rule} {w : World ℚ} {c : Costs ℚ} {e e' : Execution ℚ} {now : ℚ}
  {rest done freed : List ℤ} {t : Task ℚ} {v : Vm ℚ} {place : ℕ} {s : ℚ}

theorem Loaded.deal {b : Batch ℚ} (hl : Loaded rule w e [] done) (h : Inv rule w e now [] [] done)
    (hids : (w.vms.map Vm.id).Nodup) (hm : Batch.dispatch rule e.batch = .ok () b) :
    Loaded rule w (e.dealt b) b.bound done := by
  obtain ⟨hd, -⟩ := (Batch.dispatch_leads rule h.handed.fresh).of_ok hm
  refine ⟨hl.running, fun v hv => ?_⟩
  obtain ⟨i, hi⟩ := List.getElem?_of_mem hv
  obtain ⟨u, hu, huv⟩ := exists_getElem?_right hd.vms hi
  have hcarries := hl.carries u (List.mem_of_getElem? hu)
  rw [← huv.id] at hcarries
  refine ⟨?_, fun hpos => huv.busy (hcarries.busy hpos), fun hr => ?_⟩
  · rw [huv.load, huv.mips]
    exact hcarries.load
  · subst hr
    have hspread := Batch.spread_of_dispatch h.handed.fresh (h.records.nodup_vms hids) hm i u v hu hi
    -- a VM that carries a job was busy, so it was given none
    have hact : active e.jobs done v.id ≤ u.busy.toNat := by
      rcases Nat.eq_zero_or_pos (active e.jobs done v.id) with h0 | hpos
      · omega
      · rw [hcarries.busy hpos]
        exact (Nat.le_add_right _ _).trans (hcarries.single rfl)
    have hone := Bool.toNat_le v.busy
    show active e.jobs done v.id + Batch.onVm b.workflow b.bound v.id ≤ 1
    omega

theorem Loaded.startAt (hl : Loaded rule w e (t.id :: rest) done)
    (h : Inv rule w e now (t.id :: rest) [] done) (hids : (w.vms.map Vm.id).Nodup)
    (hs : Startable e now t v place s) :
    Loaded rule w (Execution.startAt t v place s e) rest done := by
  obtain ⟨hrest, hstarted⟩ := h.places.head_fresh
  have hnew : t.id ∉ done := fun hd => hstarted (h.places.mem_started_of_done hd)
  have hqueue : ∀ x, Batch.onVm (Execution.startAt t v place s e).workflow rest x =
      Batch.onVm e.workflow rest x := fun x => Batch.onVm_congr fun q hq => by
    rw [find?_startAt_of_ne t v place s e fun he => hrest (he ▸ hq)]
  refine ⟨fun u hu => ?_, fun u hu => ?_⟩
  · rw [running_startAt, Table.get?_set, active_startAt hnew]
    by_cases hid : v.id = u.id
    · rw [if_pos hid, if_pos hid, hid, hl.running u hu]
      rfl
    · rw [if_neg hid, if_neg hid]
      exact hl.running u hu
  · rw [active_startAt hnew, hqueue]
    rw [vms_startAt] at hu
    rcases Vm.mem_modify (h.records.nodup_vms hids) hs.vm hu with rfl | ⟨hu, hne⟩
    · have hcarries := hl.carries v (List.mem_of_getElem? hs.vm)
      rw [Batch.onVm_cons hs.task, if_pos hs.bound.symm] at hcarries
      rw [if_pos rfl]
      exact hcarries.start
    · have hcarries := hl.carries u hu
      rw [Batch.onVm_cons hs.task, if_neg fun he => hne (he.symm.trans hs.bound.symm)] at hcarries
      rwa [if_neg hne.symm]

theorem Loaded.complete (hl : Loaded rule w e [] done) (h : Inv rule w e now [] (t.id :: rest) done)
    (hc : Prepared w c) (hcomp : Completed now t v place freed e e') :
    Loaded rule w e' [] (t.id :: done) := by
  have hactive := active_complete h hcomp
  have hself := hactive v.id
  rw [if_pos rfl] at hself
  obtain ⟨v₀, hv₀, hkv⟩ := World.exists_vm_of_kin h.records.kin hcomp.vm
  have hv₀ : v₀ ∈ w.vms := List.mem_of_getElem? hv₀
  have hid₀ : v₀.id = v.id := (congrArg Vm.id hkv :).symm
  have hmips : v.mips = v₀.mips := (congrArg Vm.mips hkv :)
  have hleft : (e.running.get? v.id).getD 0 - 1 = (active e.jobs (t.id :: done) v.id : ℤ) := by
    rw [← hid₀, hl.running v₀ hv₀, Option.getD_some, hid₀, hself]
    push_cast
    ring
  refine ⟨fun u hu => ?_, fun u hu => ?_⟩
  · rw [hcomp.counted.running, hcomp.jobs]
    show (e.running.set v.id ((e.running.get? v.id).getD 0 - 1)).get? u.id = _
    rw [Table.get?_set]
    by_cases hid : v.id = u.id
    · rw [if_pos hid, hleft, hid]
    · rw [if_neg hid, hl.running u hu, hactive u.id, if_neg hid, Nat.add_zero]
  · rw [hcomp.jobs]
    rw [hcomp.counted.world] at hu
    have hu : u ∈ e.vms.modify place fun u => if (e.running.get? v.id).getD 0 - 1 = 0 then u.release
        else { u with load := later 0 (u.load - u.mips) } := hu
    simp only [hleft, Int.natCast_eq_zero] at hu
    rcases Vm.mem_modify (h.records.nodup_vms hc.ids) hcomp.vm hu with rfl | ⟨hu, hne⟩
    · have hcarries := hl.carries v (List.mem_of_getElem? hcomp.vm)
      rw [hself] at hcarries
      have hid : (if active e.jobs (t.id :: done) v.id = 0 then v.release
          else { v with load := later 0 (v.load - v.mips) }).id = v.id := by split <;> rfl
      rw [hid]
      exact hcarries.unload (hmips ▸ ((roster_of_costs hc.costs).2 v₀ hv₀).le)
    · have hcarries := hl.carries u hu
      rwa [hactive u.id, if_neg hne.symm, Nat.add_zero] at hcarries

/-- Every move of an execution keeps VMs loaded as they should be. -/
theorem stable_loaded (hc : Prepared w c) :
    Stable c rule w fun e _ queue _ done => Loaded rule w e queue done where
  deal h hl hm _ _ := hl.deal h hc.ids hm
  start h hl hs _ := hl.startAt h hc.ids hs
  due _ _ hl _ := ⟨hl.running, hl.carries⟩
  complete h hl hcomp := hl.complete h hc hcomp

theorem loaded_rooted (hids : (w.vms.map Vm.id).Nodup) (hload : ∀ v ∈ w.vms, v.load = 0) :
    Loaded rule w (rooted w) [] [] := by
  have h := rooted_rooted w
  refine ⟨fun v hv => ?_, fun v hv => ?_⟩
  · rw [h.running, h.jobs]
    exact Table.get?_ofList_map (f := fun v : Vm ℚ => (v.id, (0 : ℤ))) hids hv
  · rw [h.world] at hv
    rw [h.jobs]
    refine ⟨?_, fun hpos => absurd hpos (lt_irrefl 0), fun _ => Nat.zero_le 1⟩
    rw [hload v hv]
    exact (zero_mul _).symm

end

/-! ## Along a run -/

/-- The executions that come to be dispatched during a run, with the present instant and the
completions popped so far: the one in which the roots were released, and after a dispatch the one in
which all completions of the next instant were processed. -/
inductive Reached (c : Costs ℚ) (rule : Rule) (w : World ℚ) :
    ℚ → List (Completion ℚ) → Execution ℚ → Prop
  | root : Reached c rule w 0 [] (rooted w)
  | next {now : ℚ} {popped : List (Completion ℚ)} {e e₁ e₂ : Execution ℚ} {first : Completion ℚ} :
    Reached c rule w now popped e → dispatch c rule now e = .ok () e₁ →
    earliest? e₁.completions = some first →
    each (complete first.finish) ((e₁.completions.filter (isDue first)).map Completion.task)
      { e₁ with completions := e₁.completions.filter fun c => !isDue first c } = .ok () e₂ →
    Reached c rule w first.finish (popped ++ e₁.completions.filter (isDue first)) e₂

section

variable {rule : Rule} {w : World ℚ} {c : Costs ℚ} {e e' : Execution ℚ} {now : ℚ}
  {popped : List (Completion ℚ)}

/-- The tasks that were completed, the last one first. -/
def completed (popped : List (Completion ℚ)) : List ℤ := (popped.map Completion.task).reverse

section

variable (hc : Prepared w c) {J : Execution ℚ → ℚ → List ℤ → List ℤ → List ℤ → Prop}
  (hJ : Stable c rule w J) (h₀ : J (rooted w) 0 [] [] [])

include hc hJ h₀

/-- What every move keeps holds whenever an execution is dispatched. -/
theorem Reached.keeps (h : Reached c rule w now popped e) :
    Inv rule w e now [] [] (completed popped) ∧ J e now [] [] (completed popped) := by
  induction h with
  | root => exact ⟨inv_rooted hc.ids rule, h₀⟩
  | next _ hd hf hall ih =>
    obtain ⟨hinv, hdr, hj⟩ := (dispatchPending_leads hc hJ ih.1 ih.2).of_ok hd
    have hend := (completeAll_leads hc hJ (hinv.due hf) (hJ.due hinv hdr hj hf)).of_ok hall
    rw [completed, List.map_append, List.reverse_append]
    exact hend

/-- And it holds after the dispatch. -/
theorem Reached.dispatched (h : Reached c rule w now popped e)
    (hd : dispatch c rule now e = .ok () e') :
    Inv rule w e' now [] [] (completed popped) ∧ J e' now [] [] (completed popped) := by
  obtain ⟨hinv, hj⟩ := h.keeps hc hJ h₀
  obtain ⟨hinv', -, hj'⟩ := (dispatchPending_leads hc hJ hinv hj).of_ok hd
  exact ⟨hinv', hj'⟩

end

/-- Completions are popped in order of their instants, none of which lies ahead. -/
theorem Reached.ascending (hc : Prepared w c) (h : Reached c rule w now popped e) :
    (popped.map Completion.finish).Pairwise (· ≤ ·) ∧ ∀ x ∈ popped, x.finish ≤ now := by
  induction h with
  | root => exact ⟨.nil, by simp⟩
  | @next now popped e e₁ e₂ first hreached hd hf _ ih =>
    obtain ⟨hinv, -⟩ := hreached.dispatched hc stable_true trivial hd
    have hnow : now ≤ first.finish := (hinv.clock.ahead first (earliest?_eq_some hf).1).1
    have hearlier : ∀ x ∈ popped, x.finish ≤ first.finish := fun x hx => (ih.2 x hx).trans hnow
    have hdue : ∀ x ∈ e₁.completions.filter (isDue first), x.finish = first.finish := fun x hx =>
      hinv.finish_of_isDue hf (List.mem_of_mem_filter hx) (List.mem_filter.1 hx).2
    constructor
    · rw [List.pairwise_map] at ih ⊢
      refine List.pairwise_append.2 ⟨ih.1, ?_, fun x hx y hy => (hdue y hy).symm ▸ hearlier x hx⟩
      refine List.pairwise_of_forall_mem_list fun x hx y hy => ?_
      rw [hdue x hx, hdue y hy]
    · intro x hx
      exact (List.mem_append.1 hx).elim (hearlier x) fun hx => (hdue x hx).le

/-- The loop stops after a dispatch. -/
theorem loop_reaches (fuel : ℕ) {e₁ : Execution ℚ} (h : Reached c rule w now popped e)
    (hd : dispatch c rule now e = .ok () e₁) (hloop : loop c rule fuel e₁ = .ok () e') :
    ∃ now popped e, Reached c rule w now popped e ∧ dispatch c rule now e = .ok () e' := by
  induction fuel generalizing now popped e e' e₁ with
  | zero =>
    obtain ⟨-, rfl⟩ := EStateM.Result.ok.inj hloop
    exact ⟨now, popped, e, h, hd⟩
  | succ fuel ih =>
    cases hf : earliest? e₁.completions with
    | none =>
      rw [loop_of_none _ hf] at hloop
      obtain ⟨-, rfl⟩ := EStateM.Result.ok.inj hloop
      exact ⟨now, popped, e, h, hd⟩
    | some first =>
      have hlead : Leads (tick c rule first >>= fun _ => loop c rule fuel) e₁
          (fun _ e' => ∃ now popped e, Reached c rule w now popped e ∧
            dispatch c rule now e = .ok () e') fun _ _ => True := by
        unfold tick
        simp only [bind_assoc]
        rw [leads_bind, leads_get, leads_bind, leads_set]
        refine (leads_self.mono (fun _ _ h => h) fun _ _ _ => trivial).bind fun _ e₂ hall => ?_
        refine (leads_self.mono (fun _ _ h => h) fun _ _ _ => trivial).bind fun _ e₃ hd' => ?_
        exact leads_self.mono (fun _ _ hl => ih (.next h hd hf hall) hd' hl) fun _ _ _ => trivial
      rw [loop_of_some _ hf] at hloop
      exact hlead.of_ok hloop

/-- An execution that returns has stopped after a dispatch, and takes one more note. -/
theorem run_reaches (hrun : run c rule (fresh w) = .ok () e') :
    ∃ now popped e e₁ n, Reached c rule w now popped e ∧ dispatch c rule now e = .ok () e₁ ∧
      e' = { e₁ with toWorld := e₁.toWorld.note n } := by
  have hlead : Leads (run c rule) (fresh w) (fun _ e' => ∃ now popped e e₁ n,
      Reached c rule w now popped e ∧ dispatch c rule now e = .ok () e₁ ∧
        e' = { e₁ with toWorld := e₁.toWorld.note n }) fun _ _ => True := by
    unfold run
    rw [leads_bind, leads_get]
    dsimp only
    rw [leads_bind, leads_modify]
    refine (leads_self.mono (fun _ _ h => h) fun _ _ _ => trivial).bind fun _ e₀ hd => ?_
    rw [leads_bind, leads_get]
    refine (leads_self.mono (fun _ _ h => h) fun _ _ _ => trivial).bind fun _ e₁ hloop => ?_
    obtain ⟨now, popped, e, h, hd⟩ := loop_reaches _ .root hd hloop
    rw [leads_bind, leads_get]
    split
    · rw [leads_bind, leads_throw]
      trivial
    · split
      · exact leads_throw.2 trivial
      · exact leads_modify.2 ⟨now, popped, e, e₁, _, h, hd, rfl⟩
  exact hlead.of_ok hrun

/-! ## After each dispatch -/

/-- What the VMs of a roster show, given the completions popped so far: each counts the jobs that were started on
it and not completed, is busy if there are any, and its load is their number times its speed. -/
structure Balanced (rule : Rule) (w : World ℚ) (popped : List (Completion ℚ)) (e : Execution ℚ) :
    Prop where
  roster : e.vms.map Vm.release = w.vms.map Vm.release
  running : ∀ v ∈ e.vms,
    e.running.get? v.id = some (active e.jobs (popped.map Completion.task) v.id : ℤ)
  busy : ∀ v ∈ e.vms, v.busy = true ↔ 0 < active e.jobs (popped.map Completion.task) v.id
  load : ∀ v ∈ e.vms, v.load = active e.jobs (popped.map Completion.task) v.id * v.mips
  single : rule = .roundRobin → ∀ v ∈ e.vms, active e.jobs (popped.map Completion.task) v.id ≤ 1

theorem active_completed (jobs : List (Job ℚ)) (vm : ℤ) :
    active jobs (completed popped) vm = active jobs (popped.map Completion.task) vm := by
  simp only [active, completed, List.mem_reverse]

theorem Loaded.balanced (hl : Loaded rule w e [] (completed popped))
    (h : Inv rule w e now [] [] (completed popped)) (hidle : ∀ v ∈ w.vms, v.busy = false) :
    Balanced rule w popped e := by
  have hcarries : ∀ v ∈ e.vms,
      Carries rule v (active e.jobs (popped.map Completion.task) v.id) 0 := fun v hv => by
    rw [← active_completed]
    exact hl.carries v hv
  refine ⟨h.records.kin.vms, fun v hv => ?_, fun v hv => ⟨fun hb => ?_, (hcarries v hv).busy⟩,
    fun v hv => (hcarries v hv).load, fun hr v hv => (hcarries v hv).single hr⟩
  · obtain ⟨i, hi⟩ := List.getElem?_of_mem hv
    obtain ⟨u, hu, hk⟩ := World.exists_vm_of_kin h.records.kin hi
    have hid : v.id = u.id := (congrArg Vm.id hk :)
    rw [← active_completed, hid]
    exact hl.running u (List.mem_of_getElem? hu)
  · rw [← active_completed]
    rcases h.lanes.busy hidle v hv hb with hact | ⟨q, hq, -⟩
    · exact hact
    · cases hq

/-- While VMs are loaded as they should be, a list rule that deals with the pending tasks takes the
first idle VM that is feasible, whatever it has bound already. -/
theorem Loaded.takesFirstIdle (hl : Loaded rule w e [] (completed popped))
    (h : Inv rule w e now [] [] (completed popped)) (hidle : ∀ v ∈ w.vms, v.busy = false)
    (hr : Batch.isListRule rule) {k : ℕ} (hk : k ≤ e.pending.length) {b : Batch ℚ}
    (hb : each (fun _ => atomic (Batch.bindNext rule)) (List.replicate k ()) e.batch = .ok () b) :
    Batch.TakesFirstIdle rule b := by
  have h₀ := h.handed.fresh
  obtain ⟨hd, -⟩ := (Batch.bindAll_leads h₀ hr k (h₀.dealt rule) hk).of_ok hb
  refine Batch.takesFirstIdle_of_unloaded fun v hv hvidle => ?_
  obtain ⟨u, hu, huv⟩ := hd.exists_vm hv
  obtain rfl := huv.eq_of_idle hvidle
  have hbal := hl.balanced h hidle
  have hzero : active e.jobs (popped.map Completion.task) v.id = 0 :=
    Nat.eq_zero_of_not_pos fun hpos => by
      rw [(hbal.busy v hu).2 hpos] at hvidle
      cases hvidle
  rw [hbal.load v hu, hzero]
  exact zero_mul _

/-- Releasing VMs that are idle and carry no load changes nothing. -/
theorem map_release_of_idle {vms : List (Vm ℚ)} (h : ∀ v ∈ vms, v.busy = false ∧ v.load = 0) :
    vms.map Vm.release = vms := by
  refine (List.map_congr_left (g := id) fun v hv => ?_).trans (List.map_id vms)
  obtain ⟨hb, hl⟩ := h v hv
  show { v with busy := false, load := 0 } = v
  rw [← hb, ← hl]

/-- Once every task is done, no VM has active jobs. -/
theorem Ended.active_eq_zero (h : Ended rule w e) {done : List ℤ} (hinv : Inv rule w e now [] [] done)
    (vm : ℤ) : active e.jobs done vm = 0 := by
  obtain ⟨now', done', hinv', hperm, -⟩ := h
  have hnone : e.completions = [] := by
    have hlen := hinv'.length_started_le.1
    rw [hperm.length_eq] at hlen
    exact List.eq_nil_of_length_eq_zero (by omega)
  have hdone : done.Perm e.started := by simpa [hnone] using hinv.places.running
  unfold active
  rw [List.length_eq_zero_iff, List.filter_eq_nil_iff]
  intro j hj hact
  exact (of_decide_eq_true hact).2 (hdone.mem_iff.2 (List.mem_map_of_mem hj))

/-- What holds throughout an execution: completions are popped in order of their instants, the VMs are
balanced after each dispatch, list rules take the first idle VM that is feasible, and an execution
that returns has stopped after a dispatch and leaves every VM idle. -/
structure Steady (c : Costs ℚ) (rule : Rule) (w : World ℚ) : Prop where
  ascending : ∀ {now popped e}, Reached c rule w now popped e →
    (popped.map Completion.finish).Pairwise (· ≤ ·)
  balanced : ∀ {now popped e e'}, Reached c rule w now popped e →
    dispatch c rule now e = .ok () e' → Balanced rule w popped e'
  firstIdle : Batch.isListRule rule → ∀ {now popped e}, Reached c rule w now popped e →
    ∀ k ≤ e.pending.length, ∀ b,
      each (fun _ => atomic (Batch.bindNext rule)) (List.replicate k ()) e.batch = .ok () b →
      Batch.TakesFirstIdle rule b
  stops : ∀ {e'}, run c rule (fresh w) = .ok () e' → ∃ now popped e e₁ n,
    Reached c rule w now popped e ∧ dispatch c rule now e = .ok () e₁ ∧
      e' = { e₁ with toWorld := e₁.toWorld.note n }
  idle : ∀ {e'}, run c rule (fresh w) = .ok () e' → e'.vms = w.vms.map Vm.release

theorem steady_of_prepared (hc : Prepared w c) (hidle : ∀ v ∈ w.vms, v.busy = false ∧ v.load = 0) :
    Steady c rule w := by
  have hbusy : ∀ v ∈ w.vms, v.busy = false := fun v hv => (hidle v hv).1
  have h₀ : Loaded rule w (rooted w) [] [] := loaded_rooted hc.ids fun v hv => (hidle v hv).2
  refine ⟨fun h => (h.ascending hc).1, fun h hd => ?_, fun hr _ _ _ h k hk b hb => ?_, run_reaches,
    fun hrun => ?_⟩
  · obtain ⟨hinv, hl⟩ := h.dispatched hc (stable_loaded hc) h₀ hd
    exact hl.balanced hinv hbusy
  · obtain ⟨hinv, hl⟩ := h.keeps hc (stable_loaded hc) h₀
    exact hl.takesFirstIdle hinv hbusy hr hk hb
  · have hend := (run_leads rule hc fun _ => hbusy).of_ok hrun
    obtain ⟨now, popped, e, e₁, n, h, hd, rfl⟩ := run_reaches hrun
    obtain ⟨hinv, hl⟩ := h.dispatched hc (stable_loaded hc) h₀ hd
    have hbal := hl.balanced hinv hbusy
    refine (map_release_of_idle fun v hv => ?_).symm.trans hbal.roster
    have hzero : active e₁.jobs (popped.map Completion.task) v.id = 0 := by
      rw [← active_completed]
      exact hend.active_eq_zero (hinv.note n) v.id
    constructor
    · rw [← Bool.not_eq_true, hbal.busy v hv, hzero]
      exact lt_irrefl 0
    · rw [hbal.load v hv, hzero]
      exact zero_mul _

end

end FlowSched.Execution

namespace FlowSched

open Execution

/-- Whatever is planned, the execution of a well-formed input is steady, and a run that returns leaves
every VM idle and without load. -/
theorem run_steady (w : World ℚ) (s : Settings ℚ) (hw : w.WellFormed) :
    (∀ notes plan w₁ c, World.plan s (World.start s w notes) = .ok plan w₁ → prepare w₁ = .ok c →
      Steady c s.algorithm.rule w₁) ∧
    ∀ o w', World.run s w = .ok o w' → w'.vms = w.vms.map Vm.release := by
  have hsteady : ∀ notes plan w₁ c, World.plan s (World.start s w notes) = .ok plan w₁ →
      prepare w₁ = .ok c → Steady c s.algorithm.rule w₁ := by
    intro notes plan w₁ c hplan hc
    obtain ⟨-, hw₁, hidle⟩ := World.kept_of_plan hw hplan
    exact steady_of_prepared (prepared_of_check hw₁.check hw₁.ids hc) hidle
  refine ⟨hsteady, fun o w' hrun => ?_⟩
  obtain ⟨w₁, c, e, hran⟩ := World.exists_ran hw hrun
  obtain ⟨notes, plan, hplan⟩ := hran.planned
  rw [hran.vms, (hsteady notes plan w₁ c hplan hran.costs).idle hran.execution]
  exact (World.kept_of_plan hw hplan).1.vms

theorem run_steady_fork : ∃ o w', World.run patient fork = .ok o w' ∧
    w'.vms = fork.vms ∧
    ∃ w₁ c now popped e e', prepare w₁ = .ok c ∧ Reached c .minMin w₁ now popped e ∧
      dispatch c .minMin now e = .ok () e' ∧ Balanced .minMin w₁ popped e' := by
  have hrun : (match World.run patient fork with
    | .ok _ _ => true
    | .error _ _ => false) = true := by decide +kernel
  cases h : World.run patient fork with
  | error fault w' => rw [h] at hrun; cases hrun
  | ok o w' =>
    obtain ⟨hall, hidle⟩ := run_steady fork patient wellFormed_fork
    obtain ⟨w₁, c, e₁, hran⟩ := World.exists_ran wellFormed_fork h
    obtain ⟨notes, plan, hplan⟩ := hran.planned
    have hsteady := hall notes plan w₁ c hplan hran.costs
    obtain ⟨now, popped, e, e', n, hreached, hd, -⟩ := hsteady.stops hran.execution
    exact ⟨o, w', rfl, hidle o w' h, w₁, c, now, popped, e, e', hran.costs, hreached, hd,
      hsteady.balanced hreached hd⟩

end FlowSched

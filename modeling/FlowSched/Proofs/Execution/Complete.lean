import FlowSched.Proofs.Execution.Start

/-!
# Completing a task

A completion counts its children down by one for each entry of the child list, and releases those
that reach zero. A counter passes zero once, so a task is released once (`countedDown_foldl`). A
completed task is done, and its VM turns idle when nothing is left on it (`complete_leads`).
-/

namespace FlowSched.Execution

open Quantity Step

/-! ## Counting down -/

/-- How many parents a task still waits for. -/
def left (e : Execution ℚ) (t : ℤ) : ℤ := (e.remaining.get? t).getD 0

/-- What counting down a list of children changes: `freed` are released. -/
structure CountedDown (now : ℚ) (children freed : List ℤ) (e e' : Execution ℚ) : Prop where
  world : e'.toWorld = e.toWorld
  jobs : e'.jobs = e.jobs
  completions : e'.completions = e.completions
  vmFree : e'.vmFree = e.vmFree
  running : e'.running = e.running
  left : ∀ t, e'.left t = e.left t - children.count t
  pending : e'.pending = e.pending ++ freed
  release : ∀ t, e'.release.get? t = if t ∈ freed then some now else e.release.get? t
  nodup : freed.Nodup
  mem_freed : ∀ t, t ∈ freed ↔ 0 < e.left t ∧ e.left t ≤ children.count t

section

variable (now : ℚ) (e : Execution ℚ) (child : ℤ)

theorem left_countDown (t : ℤ) :
    (countDown now e child).left t = e.left t - if child = t then 1 else 0 := by
  have hset : left { e with remaining := e.remaining.set child (e.left child - 1) } t =
      e.left t - if child = t then 1 else 0 := by
    unfold left
    simp only [Table.get?_set]
    split_ifs with h
    · rw [← h]
      rfl
    · rw [sub_zero]
  unfold countDown
  dsimp only
  split
  · exact hset
  · exact hset

/-- The last parent of a task releases it. -/
theorem countDown_of_last (h : e.left child = 1) : countDown now e child =
    releaseTask now child { e with remaining := e.remaining.set child (e.left child - 1) } := by
  have hz : (e.remaining.get? child).getD 0 - 1 = 0 := sub_eq_zero.2 h
  simp only [countDown, hz, if_true]
  rw [h]
  rfl

theorem countDown_of_not_last (h : e.left child ≠ 1) : countDown now e child =
    { e with remaining := e.remaining.set child (e.left child - 1) } := by
  have hz : ¬ (e.remaining.get? child).getD 0 - 1 = 0 := fun hz => h (sub_eq_zero.1 hz)
  simp only [countDown, hz, if_false]
  rfl

theorem countedDown_singleton :
    ∃ freed, CountedDown now [child] freed e (countDown now e child) := by
  have hleft : ∀ t, (countDown now e child).left t = e.left t - ([child] : List ℤ).count t := by
    intro t
    rw [left_countDown]
    by_cases h : child = t <;> simp [h]
  have hfreed : ∀ t, t = child ∧ e.left child = 1 ↔
      0 < e.left t ∧ e.left t ≤ ([child] : List ℤ).count t := by
    intro t
    by_cases h : child = t
    · subst h
      rw [List.count_singleton_self, and_iff_right rfl]
      omega
    · rw [List.count_eq_zero.2 (by simpa using Ne.symm h)]
      constructor
      · rintro ⟨rfl, -⟩
        exact absurd rfl h
      · rintro ⟨hpos, hle⟩
        omega
  by_cases hone : e.left child = 1
  · have heq := countDown_of_last now e child hone
    refine ⟨[child], ?_⟩
    constructor
    case left => exact hleft
    case nodup => exact List.nodup_singleton _
    case release =>
      intro t
      rw [heq]
      simp only [releaseTask, Table.get?_set, List.mem_singleton, eq_comm]
    case mem_freed =>
      intro t
      rw [← hfreed, List.mem_singleton, and_iff_left hone]
    all_goals
      rw [heq]
      rfl
  · have heq := countDown_of_not_last now e child hone
    refine ⟨[], ?_⟩
    constructor
    case left => exact hleft
    case nodup => exact List.nodup_nil
    case release =>
      intro t
      rw [heq]
      simp
    case pending =>
      rw [heq]
      simp
    case mem_freed =>
      intro t
      rw [← hfreed]
      simp [hone]
    all_goals
      rw [heq]

end

theorem CountedDown.trans {now : ℚ} {xs ys a b : List ℤ} {e e' e'' : Execution ℚ}
    (h : CountedDown now xs a e e') (h' : CountedDown now ys b e' e'') :
    CountedDown now (xs ++ ys) (a ++ b) e e'' := by
  have hleft : ∀ t, e''.left t = e.left t - (xs ++ ys).count t := by
    intro t
    rw [h'.left, h.left, List.count_append]
    push_cast
    ring
  have hmem : ∀ t, t ∈ a ++ b ↔ 0 < e.left t ∧ e.left t ≤ (xs ++ ys).count t := by
    intro t
    rw [List.mem_append, h.mem_freed, h'.mem_freed, h.left, List.count_append]
    push_cast
    omega
  refine ⟨h'.world.trans h.world, h'.jobs.trans h.jobs, h'.completions.trans h.completions,
    h'.vmFree.trans h.vmFree, h'.running.trans h.running, hleft, ?_, fun t => ?_, ?_, hmem⟩
  · rw [h'.pending, h.pending, List.append_assoc]
  · rw [h'.release, h.release]
    by_cases ha : t ∈ a <;> by_cases hb : t ∈ b <;> simp [ha, hb]
  · refine List.nodup_append.2 ⟨h.nodup, h'.nodup, fun x hx y hy he => ?_⟩
    subst he
    have hx := (h.mem_freed x).1 hx
    have hy := (h'.mem_freed x).1 hy
    rw [h.left] at hy
    omega

/-- Counting down a list releases each task whose counter reaches zero, once. -/
theorem countedDown_foldl (now : ℚ) (children : List ℤ) (e : Execution ℚ) :
    ∃ freed, CountedDown now children freed e (children.foldl (countDown now) e) := by
  induction children generalizing e with
  | nil =>
    refine ⟨[], ?_⟩
    constructor
    all_goals simp
  | cons c cs ih =>
    obtain ⟨a, ha⟩ := countedDown_singleton now e c
    obtain ⟨b, hb⟩ := ih (countDown now e c)
    exact ⟨a ++ b, ha.trans hb⟩

/-! ## The invariant -/

/-- The execution after a task was taken off its VM and its children were counted down. -/
structure Completed (now : ℚ) (t : Task ℚ) (v : Vm ℚ) (place : ℕ) (freed : List ℤ)
    (e e' : Execution ℚ) : Prop where
  task : e.workflow.find? t.id = some t
  vm : e.vms[place]? = some v
  bound : v.id = t.vm
  counted : CountedDown now t.children freed (unload v place e) e'

section

variable {rule : Rule} {w : World ℚ} {e e' : Execution ℚ} {now : ℚ} {rest done freed : List ℤ}
  {t : Task ℚ} {v : Vm ℚ} {place : ℕ}

theorem Completed.jobs (hc : Completed now t v place freed e e') : e'.jobs = e.jobs := hc.counted.jobs

theorem Completed.started (hc : Completed now t v place freed e e') : e'.started = e.started :=
  congrArg (List.map Job.task) hc.jobs

theorem Completed.workflow (hc : Completed now t v place freed e e') : e'.workflow = e.workflow :=
  (congrArg World.workflow hc.counted.world :)

variable (h : Inv rule w e now [] (t.id :: rest) done) (hc : Completed now t v place freed e e')

include h hc

/-- The freed tasks are those for which the completed task makes the difference. -/
theorem mem_freed_iff (hw : w.workflow.Checked) (x : ℤ) : x ∈ freed ↔ x ∈ w.workflow.ids ∧
    w.workflow.credits done x < w.workflow.need x ∧
    w.workflow.need x ≤ w.workflow.credits (t.id :: done) x := by
  obtain ⟨u, hu, hk⟩ := Workflow.exists_of_kin h.records.kin.workflow.symm hc.task
  have hcount : w.workflow.weight t.id x = t.children.count x := by
    rw [Workflow.weight_eq hu, hk.children]
  have hleft : (unload v place e).left x = e.left x := rfl
  rw [hc.counted.mem_freed, hleft, Workflow.credits_cons, hcount]
  constructor
  · rintro ⟨hpos, hle⟩
    have hx : x ∈ u.children := by
      rw [hk.children]
      exact List.count_pos_iff.1 (by omega)
    obtain ⟨y, hy, -⟩ := hw.child u (Workflow.find?_eq_some.1 hu).1 x hx
    have hids := Workflow.mem_ids.2 ⟨y, hy⟩
    have hr : e.left x = _ := h.places.remaining x hids
    exact ⟨hids, by omega, by omega⟩
  · rintro ⟨hids, hlt, hle⟩
    have hr : e.left x = _ := h.places.remaining x hids
    constructor <;> omega

theorem Inv.places_complete (hw : w.workflow.Checked) : Places w e' [] rest (t.id :: done) := by
  have hmem := mem_freed_iff h hc hw
  have hpend : e'.pending = e.pending ++ freed := hc.counted.pending
  have hnew : ∀ x ∈ freed, x ∉ e.pending ++ ([] ++ e.started) := fun x hx hold =>
    absurd ((h.places.released x).1 hold).2 (not_le.2 ((hmem x).1 hx).2.1)
  have hperm : (e'.pending ++ ([] ++ e'.started)).Perm (freed ++ (e.pending ++ ([] ++ e.started))) := by
    rw [hpend, hc.started, ← List.append_assoc freed]
    exact List.perm_append_comm.append_right _
  refine ⟨?_, fun x => ?_, ?_, fun x hx => ?_⟩
  · rw [hperm.nodup_iff, List.nodup_append]
    exact ⟨hc.counted.nodup, h.places.nodup, fun x hx y hy he => hnew x hx (he ▸ hy)⟩
  · rw [hperm.mem_iff, List.mem_append, hmem, h.places.released, Workflow.credits_cons]
    constructor
    · rintro (⟨hi, -, hle⟩ | ⟨hi, hle⟩)
      · exact ⟨hi, hle⟩
      · exact ⟨hi, by omega⟩
    · rintro ⟨hi, hle⟩
      rcases lt_or_ge (w.workflow.credits done x) (w.workflow.need x) with hlt | hge
      · exact Or.inl ⟨hi, hlt, hle⟩
      · exact Or.inr ⟨hi, hge⟩
  · rw [hc.counted.completions, hc.started]
    refine (List.Perm.append_left _ List.perm_middle).trans ?_
    exact h.places.running
  · obtain ⟨u, hu, hk⟩ := Workflow.exists_of_kin h.records.kin.workflow.symm hc.task
    have hleft : e'.left x = (unload v place e).left x - t.children.count x := hc.counted.left x
    have hold : (unload v place e).left x = _ := h.places.remaining x hx
    show e'.left x = _
    rw [hleft, hold, Workflow.credits_cons, Workflow.weight_eq hu, hk.children]
    push_cast
    ring

theorem Inv.clock_complete (hw : w.workflow.Checked) : Clock w e' now [] rest (t.id :: done) := by
  have hmem := mem_freed_iff h hc hw
  have hdone : ∀ j ∈ e.jobs, j.task ∈ t.id :: done → j.finish ≤ now := by
    intro j hj hd
    rcases List.mem_cons.1 hd with he | hd
    · exact (h.clock.due j hj (by rw [he]; exact List.mem_cons_self)).le
    · exact h.clock.done j hj hd
  refine ⟨?_, ?_, ?_, ?_⟩
  · rw [hc.counted.completions, hc.jobs]
    exact h.clock.ahead
  · rw [hc.jobs]
    exact fun j hj hd => h.clock.due j hj (List.mem_cons_of_mem _ hd)
  · rw [hc.jobs]
    exact hdone
  · rw [hc.counted.pending, hc.started, hc.jobs]
    intro x hx
    rw [hc.counted.release]
    by_cases hf : x ∈ freed
    · obtain ⟨-, hlt, hle⟩ := (hmem x).1 hf
      refine ⟨now, le_refl now, if_pos hf, ?_, fun _ => ?_, fun h0 => absurd hlt (by omega)⟩
      · have hplaces := h.places_complete hc hw
        refine hle.trans (le_creditsBy hplaces.nodup_done (fun p hp => ?_) x)
        obtain ⟨j, hj, rfl⟩ := mem_started.1 (hplaces.mem_started_of_done hp)
        rw [hc.jobs] at hj
        exact ⟨j, hj, rfl, hdone j hj hp⟩
      · exact (h.creditsBefore_le x).trans_lt hlt
    · rw [if_neg hf]
      refine h.clock.release x ?_
      simp only [List.mem_append, List.nil_append] at hx ⊢
      exact hx.imp_left fun hx => hx.resolve_right hf

theorem Inv.records_complete : Records rule w e' [] := by
  have hkin : e.toWorld.Kin e'.toWorld := by
    rw [hc.counted.world]
    exact World.kin_editVm e.toWorld place fun u => by split <;> rfl
  have hsession : e'.session = e.session := (congrArg World.session hc.counted.world :)
  refine ⟨h.records.kin.trans hkin, ?_, ?_, ?_, ?_, by simp, ?_⟩
  · rw [hsession]
    exact h.records.planned
  · rw [hsession, hc.started]
    exact h.records.submitted
  · rw [hc.jobs]
    exact h.records.ids
  · rw [hc.jobs, hc.workflow]
    exact h.records.job
  · rw [hc.started, hc.workflow]
    exact h.records.waiting

/-- The job of the completed task was active on its VM until now. -/
theorem active_complete (x : ℤ) : active e.jobs done x =
    active e.jobs (t.id :: done) x + if v.id = x then 1 else 0 := by
  obtain ⟨j, hj, hjt⟩ := mem_started.1 (h.places.mem_started_of_due List.mem_cons_self)
  have hvm : j.vm = v.id := by
    obtain ⟨u, hu, hrec⟩ := h.records.job j hj
    rw [hjt, hc.task] at hu
    rw [← hrec.vm, ← Option.some.inj hu, hc.bound]
  have hfresh : t.id ∉ done := by
    have hn := (h.places.running.nodup_iff.2 h.places.nodup_started).of_append_right
    rw [List.cons_append, List.nodup_cons] at hn
    exact fun hd => hn.1 (List.mem_append_right _ hd)
  rw [← hjt, ← hvm]
  exact active_cons h.places.nodup_started hj (hjt ▸ hfresh) x

theorem Inv.lanes_complete (hids : (w.vms.map Vm.id).Nodup) : Lanes w e' [] (t.id :: done) := by
  have hactive := active_complete h hc
  obtain ⟨v₀, hv₀, hkv⟩ := World.exists_vm_of_kin h.records.kin hc.vm
  have hid₀ : v.id = v₀.id := (congrArg Vm.id hkv :)
  have hrun : (e.running.get? v.id).getD 0 = active e.jobs done v.id := by
    rw [hid₀]
    exact h.lanes.running v₀ (List.mem_of_getElem? hv₀)
  have hself := hactive v.id
  rw [if_pos rfl] at hself
  refine ⟨?_, fun u hu => ?_, fun hidle u hu hbusy => ?_⟩
  · rw [hc.counted.vmFree, hc.jobs]
    exact h.lanes.free
  · rw [hc.counted.running, hc.jobs]
    show ((e.running.set v.id ((e.running.get? v.id).getD 0 - 1)).get? u.id).getD 0 = _
    rw [Table.get?_set]
    by_cases hid : v.id = u.id
    · rw [if_pos hid, ← hid, Option.getD_some, hrun, hself]
      push_cast
      ring
    · have hsame := hactive u.id
      rw [if_neg hid, Nat.add_zero] at hsame
      rw [if_neg hid, h.lanes.running u hu, hsame]
  · left
    rw [hc.jobs]
    rw [hc.counted.world] at hu
    have hu : u ∈ e.vms.modify place fun u =>
        if (e.running.get? v.id).getD 0 - 1 = 0 then u.release
        else { u with load := later 0 (u.load - u.mips) } := hu
    rcases Vm.mem_modify (h.records.nodup_vms hids) hc.vm hu with rfl | ⟨hu, hne⟩
    · split_ifs at hbusy ⊢ with hz
      · cases hbusy
      · rw [hrun, hself] at hz
        show 0 < active e.jobs (t.id :: done) v.id
        push_cast at hz
        omega
    · have hsame := hactive u.id
      rw [if_neg hne.symm, Nat.add_zero] at hsame
      rcases h.lanes.busy hidle u hu hbusy with hact | ⟨q, hq, -⟩
      · omega
      · cases hq

theorem Inv.history_complete (hw : w.workflow.Checked) : History w e' := by
  refine ⟨?_, ?_, ?_, ?_, ?_⟩
  · rw [hc.jobs]
    exact h.history.vm
  · rw [hc.jobs]
    exact h.history.forward
  · rw [hc.jobs]
    exact h.history.ordered
  · rw [hc.jobs]
    intro j hj r hget
    have hnot : j.task ∉ freed := fun hf => by
      have hold : j.task ∈ e.pending ++ ([] ++ e.started) := by
        simp only [List.mem_append, List.nil_append]
        exact Or.inr (List.mem_map_of_mem hj)
      exact absurd ((h.places.released _).1 hold).2
        (not_le.2 ((mem_freed_iff h hc hw j.task).1 hf).2.1)
    rw [hc.counted.release, if_neg hnot] at hget
    exact h.history.released j hj r hget
  · rw [hc.jobs]
    exact h.history.parents

/-- Completing the next due task keeps the invariant. -/
theorem Inv.complete (hw : w.workflow.Checked) (hids : (w.vms.map Vm.id).Nodup) :
    Inv rule w e' now [] rest (t.id :: done) where
  places := h.places_complete hc hw
  clock := h.clock_complete hc hw
  records := h.records_complete hc
  lanes := h.lanes_complete hc hids
  history := h.history_complete hc hw

end

/-! ## The step -/

section

variable {rule : Rule} {w : World ℚ} {c : Costs ℚ} {e : Execution ℚ} {now : ℚ} {p : ℤ}
  {rest done : List ℤ} (hc : Prepared w c)

include hc

/-- Completing the next due task takes it off its VM and counts its children down. -/
theorem complete_leads (h : Inv rule w e now [] (p :: rest) done) :
    Leads (complete now p) e
      (fun _ e' => ∃ t v place freed, t.id = p ∧ Completed now t v place freed e e')
      fun _ _ => False := by
  obtain ⟨j, hj, hjp⟩ := mem_started.1 (h.places.mem_started_of_due List.mem_cons_self)
  obtain ⟨t, ht, hrec⟩ := h.records.job j hj
  obtain ⟨v₀, hv₀, hid₀⟩ := h.history.vm j hj
  have hvm : ∃ v ∈ e.vms, v.id = t.vm := by
    have hm : t.vm ∈ e.vms.map Vm.id := by
      rw [World.map_vms_of_kin h.records.kin (f := Vm.id) fun _ => rfl, hrec.vm, ← hid₀]
      exact List.mem_map_of_mem hv₀
    exact List.mem_map.1 hm
  obtain ⟨v, place, hat, hplace, hid⟩ := vmAt_eq_ok hvm
  rw [hjp] at ht
  obtain ⟨hmem, rfl⟩ := Workflow.find?_eq_some.1 ht
  have hchecked := hc.checked.of_kin h.records.kin.workflow
  obtain ⟨ts, hts, hmap⟩ := Workflow.getAll_eq_ok fun x hx => by
    obtain ⟨u, hu, -⟩ := hchecked.child t hmem x hx
    exact ⟨u, hu⟩
  unfold complete
  rw [leads_bind]
  refine leads_query_ok (Workflow.get_eq_ok.2 ht) ?_
  rw [leads_bind]
  refine leads_query_ok hat ?_
  dsimp only
  rw [leads_bind, leads_modify, leads_bind]
  refine leads_query_ok hts ?_
  rw [leads_modify, hmap]
  obtain ⟨freed, hf⟩ := countedDown_foldl now t.children (unload v place e)
  exact ⟨t, v, place, freed, rfl, ht, hplace, hid, hf⟩

end

/-! ## The instant -/

theorem earliest?_eq_none {cs : List (Completion ℚ)} : earliest? cs = none ↔ cs = [] := by
  cases cs <;> simp [earliest?]

/-- The earliest completion is one that none precedes. -/
theorem earliest?_eq_some {cs : List (Completion ℚ)} {first : Completion ℚ}
    (h : earliest? cs = some first) : first ∈ cs ∧ ∀ c ∈ cs, first.finish ≤ c.finish := by
  cases cs with
  | nil => cases h
  | cons c cs =>
    obtain rfl := Option.some.inj h
    clear h
    induction cs generalizing c with
    | nil => simp
    | cons d cs ih =>
      rw [List.foldl_cons]
      obtain ⟨hmem, hle⟩ := ih (if d.finish < c.finish then d else c)
      have hbest := hle _ List.mem_cons_self
      constructor
      · rcases List.mem_cons.1 hmem with he | hm
        · rw [he]
          split_ifs <;> simp
        · simp [hm]
      · intro x hx
        rcases List.mem_cons.1 hx with rfl | hx
        · split_ifs at hbest ⊢ with hlt
          · exact hbest.trans hlt.le
          · exact hbest
        · rcases List.mem_cons.1 hx with rfl | hx
          · split_ifs at hbest ⊢ with hlt
            · exact hbest
            · exact hbest.trans (not_lt.1 hlt)
          · exact hle x (List.mem_cons_of_mem _ hx)

section

variable {rule : Rule} {w : World ℚ} {e : Execution ℚ} {now : ℚ} {done : List ℤ}

/-- What is due belongs to the earliest instant. -/
theorem Inv.finish_of_isDue (h : Inv rule w e now [] [] done) {first c : Completion ℚ}
    (hf : earliest? e.completions = some first) (hc : c ∈ e.completions)
    (hd : isDue first c = true) : c.finish = first.finish := by
  have hn : (e.completions.map Completion.task).Nodup :=
    (h.places.running.nodup_iff.2 h.places.nodup_started).of_append_left
  simp only [isDue, Bool.or_eq_true, beq_iff_eq, decide_eq_true_eq] at hd
  rcases hd with hd | hd
  · exact hd
  · rw [List.inj_on_of_nodup_map hn hc (earliest?_eq_some hf).1 hd]

/-- The completions of the earliest instant become due. -/
theorem Inv.due (h : Inv rule w e now [] [] done) {first : Completion ℚ}
    (hf : earliest? e.completions = some first) :
    Inv rule w { e with completions := e.completions.filter fun c => !isDue first c } first.finish []
      ((e.completions.filter (isDue first)).map Completion.task) done := by
  obtain ⟨hmem, hmin⟩ := earliest?_eq_some hf
  have hnow := (h.clock.ahead first hmem).1
  refine ⟨⟨h.places.nodup, h.places.released, ?_, h.places.remaining⟩, ⟨?_, ?_, ?_, ?_⟩,
    ⟨h.records.kin, h.records.planned, h.records.submitted, h.records.ids, h.records.job,
      h.records.queued, h.records.waiting⟩,
    ⟨h.lanes.free, h.lanes.running, h.lanes.busy⟩,
    ⟨h.history.vm, h.history.forward, h.history.ordered, h.history.released, h.history.parents⟩⟩
  · refine List.Perm.trans ?_ h.places.running
    rw [List.nil_append, ← List.append_assoc, ← List.map_append]
    refine (List.Perm.map _ ?_).append_right _
    exact List.perm_append_comm.trans (List.filter_append_perm _ _)
  · intro c hc
    have hc := List.mem_of_mem_filter hc
    exact ⟨hmin c hc, (h.clock.ahead c hc).2⟩
  · intro j hj hd
    obtain ⟨c, hc, he⟩ := List.mem_map.1 hd
    obtain ⟨hc, hcd⟩ := List.mem_filter.1 hc
    obtain ⟨-, k, hk, hkt, hkf⟩ := h.clock.ahead c hc
    have hkj := List.inj_on_of_nodup_map h.places.nodup_started hk hj (hkt.trans he)
    rw [← hkj, hkf, h.finish_of_isDue hf hc hcd]
  · exact fun j hj hd => (h.clock.done j hj hd).trans hnow
  · intro x hx
    obtain ⟨r, hr, hget, htimely⟩ := h.clock.release x hx
    exact ⟨r, hr.trans hnow, hget, htimely⟩

end

end FlowSched.Execution

import FlowSched.Proofs.Arrival
import FlowSched.Proofs.Trace
import FlowSched.Proofs.Planning.Bound

/-!
# Chains

In a chain each task has the one before it as its only parent and the one behind it as its only child.
Its order is the only one that puts parents first, so it is planned and executed in that order. By the
time at which the input of a task has arrived, all reserved slots have ended and all VMs are free: a
planner reserves the task from then on (`Draft.Prompt`), and an execution starts it then
(`Execution.start_of_chain`). Both price the way to that time alike (`arrival_of_delivery`), so a run
executes a chain as it was planned, but for the floor (`run_chain`).
-/

namespace FlowSched

open Quantity Step

/-! ## The order of a chain -/

namespace Workflow

/-- An order of all tasks in which each has the one before it as its only parent and the one behind it
as its only child. -/
structure Chain (w : Workflow ℚ) (order : List ℤ) : Prop where
  perm : order.Perm w.ids
  linked : ∀ t ∈ w.tasks, ∃ before after, order = before ++ t.id :: after ∧
    t.parents = before.getLast?.toList ∧ t.children = after.head?.toList

variable {w w' : Workflow ℚ} {order : List ℤ}

theorem Chain.nodup (h : w.Chain order) : order.Nodup := h.perm.nodup_iff.2 w.nodup

/-- A task stands at one place of the order only. -/
theorem Chain.links (h : w.Chain order) {t : Task ℚ} (ht : t ∈ w.tasks) {before after : List ℤ}
    (he : order = before ++ t.id :: after) :
    t.parents = before.getLast?.toList ∧ t.children = after.head?.toList := by
  obtain ⟨before', after', he', hlinks⟩ := h.linked t ht
  have hn := List.nodup_middle.1 (he' ▸ h.nodup)
  rw [List.nodup_cons, List.mem_append, not_or] at hn
  obtain ⟨rfl, -, rfl⟩ := (List.append_cons_inj_of_notMem hn.1.1 hn.1.2).1 (he'.symm.trans he)
  exact hlinks

theorem Chain.distinct (h : w.Chain order) : w.Distinct := by
  have hnodup : ∀ x : Option ℤ, x.toList.Nodup := by
    intro x
    cases x <;> simp
  constructor
  · intro t ht
    obtain ⟨before, after, -, hp, -⟩ := h.linked t ht
    rw [hp]
    exact hnodup _
  · intro t ht
    obtain ⟨before, after, -, -, hc⟩ := h.linked t ht
    rw [hc]
    exact hnodup _

theorem Chain.of_kin (h : w.Chain order) (hk : w.Kin w') : w'.Chain order := by
  constructor
  · rw [ids_of_kin hk]
    exact h.perm
  · intro t' ht'
    obtain ⟨t, ht, hkt⟩ := mem_of_kin hk ht'
    rw [hkt.id, hkt.parents, hkt.children]
    exact h.linked t ht

/-- Between two tasks of a chain, the second one has a parent that is not before the first. -/
theorem Chain.exists_parent (h : w.Chain order) {t : Task ℚ} (ht : t ∈ w.tasks) {x : ℤ}
    {before mid after : List ℤ} (he : order = before ++ x :: (mid ++ t.id :: after)) :
    ∃ p ∈ t.parents, p ∉ before := by
  obtain ⟨ahead, p, hlast⟩ := (List.eq_nil_or_concat (x :: mid)).resolve_left (by simp)
  rw [List.concat_eq_append] at hlast
  have hsplit : order = (before ++ ahead ++ [p]) ++ t.id :: after := by
    rw [he, List.append_assoc before, ← hlast]
    simp
  refine ⟨p, ?_, fun hp => ?_⟩
  · rw [(h.links ht hsplit).1]
    simp
  · have hn := h.nodup
    rw [hsplit, List.append_assoc before, List.append_assoc before] at hn
    exact List.disjoint_of_nodup_append hn hp (by simp)

/-- No other order of a chain puts parents first. -/
theorem Chain.eq_of_topological (h : w.Chain order) {l : List ℤ} (hl : w.Topological l) : l = order := by
  have hlength := (hl.perm.trans h.perm.symm).length_eq
  -- the next task of `l` has its parent before it, so it is the next one of the chain
  have hprefix : ∀ before after, order = before ++ after → ∃ rest, l = before ++ rest := by
    intro before
    induction before using List.reverseRecOn with
    | nil => exact fun _ _ => ⟨l, rfl⟩
    | append_singleton before x ih =>
      intro after he
      rw [List.append_assoc] at he
      obtain ⟨rest, hrest⟩ := ih _ he
      cases rest with
      | nil =>
        rw [he, hrest] at hlength
        simp at hlength
      | cons y rest =>
        obtain ⟨u, hu, rfl⟩ := List.mem_map.1 (hl.perm.subset (a := y) (by simp [hrest]))
        have hm : u.id ∈ order := h.perm.mem_iff.2 (List.mem_map_of_mem hu)
        have hnew : u.id ∉ before := by
          have hn := hl.perm.nodup_iff.2 w.nodup
          rw [hrest] at hn
          exact fun hb => List.disjoint_of_nodup_append hn hb List.mem_cons_self
        rw [he] at hm
        rcases List.mem_cons.1 ((List.mem_append.1 hm).resolve_left hnew) with hx | hm
        · exact ⟨rest, by rw [hrest, hx, List.append_assoc]; rfl⟩
        · obtain ⟨mid, behind, hmid⟩ := List.append_of_mem hm
          obtain ⟨p, hp, hpb⟩ := h.exists_parent (x := x) hu (by rw [he, ← hmid]; rfl)
          exact absurd (hl.first u hu before rest hrest p hp) hpb
  obtain ⟨rest, hrest⟩ := hprefix order [] (List.append_nil _).symm
  rw [hrest, List.length_append] at hlength
  rw [hrest, List.eq_nil_of_length_eq_zero (by omega : rest.length = 0), List.append_nil]

end Workflow

/-! ## Planning -/

namespace Draft

variable {p : Pricing ℚ} {d d' : Draft ℚ} {done rest : List ℤ} {t u : Task ℚ} {o : Offer ℚ}
  {line : Timeline ℚ}

/-- A task is planned from when it is ready on the VM that it is bound to. -/
def Prompt (p : Pricing ℚ) (d : Draft ℚ) (t : Task ℚ) : Prop :=
  ∃ ready cost, d.readyTime p t t.vm = .ok ready ∧
    p.costs.computing t.id t.vm = .ok (some cost) ∧ d.finishes.get? t.id = some (ready + cost)

/-- Only what is known of its parents counts for when a task is ready. -/
theorem readyTime_congr (hid : u.id = t.id) (hparents : u.parents = t.parents)
    (hsame : ∀ x ∈ t.parents, d'.workflow.find? x = d.workflow.find? x ∧
      d'.finishes.get? x = d.finishes.get? x) (vm : ℤ) :
    d'.readyTime p u vm = d.readyTime p t vm := by
  unfold readyTime
  rw [hparents]
  refine foldlM_congr (fun x hx ready => ?_) p.floor
  obtain ⟨hfind, hfinish⟩ := hsame x hx
  unfold arrival Workflow.get
  rw [hfind, hfinish, hid]

theorem Prompt.accept (h : Prompt p d u) (hne : u.id ≠ t.id) (hparents : ∀ x ∈ u.parents, x ≠ t.id) :
    Prompt p (d.accept t line o) u := by
  obtain ⟨ready, cost, hready, hcost, hfinish⟩ := h
  refine ⟨ready, cost, ?_, hcost, ?_⟩
  · rw [← hready]
    apply readyTime_congr rfl rfl
    intro x hx
    exact ⟨find?_accept_of_ne (hparents x hx), by rw [finishes_accept, if_neg (hparents x hx).symm]⟩
  · rw [finishes_accept, if_neg hne.symm, hfinish]

section

variable (h : Allotted p done d) (ht : t ∈ d.workflow.tasks) (hparents : ∀ x ∈ t.parents, x ∈ done)
  (hbest : d.bestOffer? p t = .ok (some o))

include h ht hparents hbest

/-- A task that is ready once all slots have ended is planned from then on. -/
theorem Allotted.finish_eq (hlate : ∀ f ∈ d.finishes.values, f ≤ o.ready) :
    o.finish = o.ready + o.cost := by
  obtain ⟨v, hv, hoffered, -⟩ := h.offered ht hparents hbest
  obtain ⟨line, hline, hfinish⟩ := hoffered.finish
  have hstart : (Timeline.findSlot line.slots o.cost o.ready).1 = o.ready := by
    have hm := Table.mem_values hline
    have hle := (Timeline.findSlot_gap (h.tidy line hm) o.cost o.ready).ready_le
    rcases Timeline.findSlot_start line.slots o.cost o.ready with hr | ⟨slot, hs, hr⟩
    · exact hr
    · have hknown := h.known slot (List.mem_flatMap.2 ⟨line, hm, hs⟩)
      exact le_antisymm (hr ▸ hlate _ (Table.mem_values hknown)) hle
  rw [hfinish, Timeline.finishTime, hstart]

/-- What is accepted from when it is ready is planned from then on. -/
theorem Allotted.prompt_self (hnew : t.id ∉ done) (hfinish : o.finish = o.ready + o.cost) :
    ∃ u, (d.accept t line o).workflow.find? t.id = some u ∧ Prompt p (d.accept t line o) u := by
  obtain ⟨v, hv, hoffered, hready⟩ := h.offered ht hparents hbest
  obtain ⟨u, hu, hvm, hk⟩ := find?_accept_self ht line o
  refine ⟨u, hu, o.ready, o.cost, ?_, ?_, ?_⟩
  · rw [hvm, hoffered.vm, ← hready]
    apply readyTime_congr hk.id hk.parents
    intro x hx
    have hxd := hparents x hx
    exact ⟨find?_accept_of_ne fun e => hnew (e ▸ hxd), finishes_accept_of_mem hnew hxd⟩
  · rw [hk.id, hvm, hoffered.vm]
    exact hoffered.cost
  · rw [hk.id, finishes_accept, if_pos rfl, hfinish]

end

/-- Some tasks are planned from when they are ready, and the last of them ends last. -/
structure Prompted (p : Pricing ℚ) (done : List ℤ) (d : Draft ℚ) : Prop where
  prompt : ∀ x ∈ done, ∃ u, d.workflow.find? x = some u ∧ Prompt p d u
  last : ∀ x f, done.getLast? = some x → d.finishes.get? x = some f → ∀ g ∈ d.finishes.values, g ≤ f

theorem prompted_fresh (p : Pricing ℚ) (w : World ℚ) : Prompted p [] (fresh w) :=
  ⟨by simp, by simp⟩

/-- The next task of a chain is ready when all planned tasks have ended. -/
theorem Prompted.finish_le (hp : Prompted p done d) (h : Allotted p done d)
    (hparents : t.parents = done.getLast?.toList) {v : Vm ℚ} (ho : Offered p d t v o) :
    ∀ f ∈ d.finishes.values, f ≤ o.ready := by
  intro f hf
  cases hlast : done.getLast? with
  | none =>
    -- nothing is planned yet
    rw [List.getLast?_eq_none_iff] at hlast
    obtain ⟨slot, hs, -⟩ := h.ended f hf
    have hm := h.once.subset (List.mem_map_of_mem hs)
    rw [hlast] at hm
    cases hm
  | some x =>
    obtain ⟨u, g, -, hg, hle, -⟩ := ho.parents x (by rw [hparents, hlast]; simp)
    exact (hp.last x g hlast hg f hf).trans hle

/-- Accepting the best offer for the next task of a chain plans it from when it is ready. -/
theorem Prompted.accept (hp : Prompted p done d) (h : Allotted p done d) (ht : t ∈ d.workflow.tasks)
    (hnew : t.id ∉ done) (hparents : t.parents = done.getLast?.toList)
    (hbest : d.bestOffer? p t = .ok (some o)) (line : Timeline ℚ) :
    Prompted p (done ++ [t.id]) (d.accept t line o) := by
  have hdone : ∀ x ∈ t.parents, x ∈ done := by
    intro x hx
    rw [hparents, Option.mem_toList] at hx
    exact List.mem_of_getLast? hx
  obtain ⟨v, hv, ho, -⟩ := h.offered ht hdone hbest
  have hlate := hp.finish_le h hparents ho
  have hfinish := h.finish_eq ht hdone hbest hlate
  constructor
  · intro x hx
    rcases List.mem_append.1 hx with hx | hx
    · obtain ⟨u, hu, hprompt⟩ := hp.prompt x hx
      obtain ⟨u', slot, hu', hb⟩ := h.booked x hx
      obtain rfl := Option.some.inj (hu.symm.trans hu')
      have hid := (Workflow.find?_eq_some.1 hu).2
      have hne : ∀ y ∈ done, y ≠ t.id := fun y hy he => hnew (he ▸ hy)
      refine ⟨u, (find?_accept_of_ne (hne x hx)).trans hu, hprompt.accept (hid ▸ hne x hx) ?_⟩
      intro y hy
      obtain ⟨-, f, -, hf, -⟩ := hb.parents y hy
      exact hne y ((h.finishes y).2 ⟨f, hf⟩)
    · rw [List.mem_singleton.1 hx]
      exact h.prompt_self ht hdone hbest hnew hfinish
  · intro x f hx hf g hg
    rw [List.getLast?_append_of_ne_nil _ (by simp), List.getLast?_singleton] at hx
    rw [← Option.some.inj hx, finishes_accept, if_pos rfl] at hf
    rw [← Option.some.inj hf]
    rcases Table.mem_values_set hg with rfl | hg
    · exact le_refl _
    · have hcost := ho.nonneg
      linarith [hlate g hg]

/-- The tasks of a chain are planned one by one from when they are ready. -/
theorem allocateAll_prompted {w : World ℚ} (hp : Priced p w) {order : List ℤ}
    (hchain : w.workflow.Chain order) (ho : w.workflow.Topological order) :
    Leads (allocateAll p order) (fresh w) (fun _ d => Prompted p order d) fun _ _ => False := by
  refine (allocateAll_passes hp ho (List.append_nil order).symm
    (I := fun done d => ∀ rest, order = done ++ rest → Prompted p done d)
    (fun _ _ => prompted_fresh p w) ?_).mono (fun _ d h => h.2.2 [] (List.append_nil _).symm)
      fun _ _ h => h
  intro done d t o line hk h ht _ hbest hI rest he
  rw [List.append_assoc] at he
  have hsplit : order = done ++ t.id :: rest := he
  have hn := hchain.nodup
  rw [hsplit] at hn
  exact (hI _ he).accept h ht (fun hm => List.disjoint_of_nodup_append hn hm List.mem_cons_self)
    ((hchain.of_kin hk.kin.workflow).links ht hsplit).1 hbest line

end Draft

/-- A planner plans a chain in its order, each task from when it is ready. -/
theorem Planner.exists_prompted {planner : Planner ℚ} {floor : ℚ} {w w' : World ℚ} {plan : Plan ℚ}
    {c : Costs ℚ} {order : List ℤ}
    (hbuilt : byRank floor = .ok planner ∨ ∃ options, byEstimate floor options = .ok planner)
    (hchain : w.workflow.Chain order) (hids : (w.vms.map Vm.id).Nodup)
    (hc : Costs.ofWorkflow w.workflow w.vms = .ok c) (hrun : planner.run w = .ok plan w') :
    ∃ d, Draft.Prompted { vms := w.vms, costs := c, floor } order d ∧ d.workflow = w'.workflow ∧
      plan.order = order ∧ plan.finishes = d.finishes := by
  obtain ⟨c', w₁, order', d, hc', hk, hp, htop, halloc, hreport⟩ :=
    exists_allocated hbuilt hchain.distinct hids hrun
  obtain rfl := Except.ok.inj (hc.symm.trans hc')
  have hchain₁ := hchain.of_kin hk.kin.workflow
  obtain rfl := hchain₁.eq_of_topological htop
  obtain ⟨-, hallotted⟩ := (Draft.allocateAll_leads hp htop).of_ok halloc
  refine ⟨d, (Draft.allocateAll_prompted hp hchain₁ htop).of_ok halloc, hreport.workflow.symm, ?_, ?_⟩
  · rw [hreport.plan]
    exact hallotted.order
  · rw [hreport.plan]
    rfl

/-! ## Execution -/

namespace Execution

variable {rule : Rule} {w : World ℚ} {c : Costs ℚ} {e : Execution ℚ} {order : List ℤ}
  {before after : List (Job ℚ)} {j : Job ℚ}

section

variable (hend : Ended rule w e) (hw : w.WellFormed) (hchain : w.workflow.Chain order)

include hend hw hchain

/-- The tasks of a chain are executed in its order. -/
theorem order_of_chain : e.jobs.map Job.task = order :=
  hchain.eq_of_topological (hend.topological hw.checked hw.distinct)

/-- The one parent of a job is the task of the job before it. -/
theorem parents_of_chain (he : e.jobs = before ++ j :: after) :
    j.parents = (before.map Job.task).getLast?.toList := by
  obtain ⟨t, ht, hid, hparents⟩ := hend.task (j := j) (by simp [he])
  have hsplit : order = before.map Job.task ++ t.id :: after.map Job.task := by
    rw [← order_of_chain hend hw hchain, he, hid, List.map_append, List.map_cons]
  rw [← hparents]
  exact (hchain.links ht hsplit).1

/-- No job of a chain ends before an earlier one. -/
theorem finish_le_of_chain (he : e.jobs = before ++ after) {a : Job ℚ} (ha : before.getLast? = some a) :
    ∀ b ∈ before, b.finish ≤ a.finish := by
  induction before using List.reverseRecOn generalizing after a with
  | nil => simp
  | append_singleton before j ih =>
    rw [List.getLast?_append_of_ne_nil _ (by simp), List.getLast?_singleton] at ha
    obtain rfl := Option.some.inj ha
    rw [List.append_assoc] at he
    have hj : j ∈ e.jobs := by simp [he]
    have hforward := hend.start_le_finish j hj
    intro b hb
    rcases List.mem_append.1 hb with hb | hb
    · cases hlast : before.getLast? with
      | none =>
        rw [List.getLast?_eq_none_iff] at hlast
        rw [hlast] at hb
        cases hb
      | some a =>
        have hparent : a.task ∈ j.parents := by
          rw [parents_of_chain hend hw hchain he, List.getLast?_map, hlast]
          simp
        have ham : a ∈ e.jobs := by
          rw [he]
          exact List.mem_append_left _ (List.mem_of_getLast? hlast)
        exact (ih he hlast b hb).trans
          ((hend.parent_le_start hw.checked hw.distinct hj ham hparent).trans hforward)
    · rw [List.mem_singleton.1 hb]

/-- What a job of a chain waits for is delivered by the job before it. -/
theorem deliveries_of_chain (he : e.jobs = before ++ j :: after) :
    deliveries c before j = before.getLast?.toList.mapM fun a => delivery c a j := by
  unfold deliveries
  rw [parents_of_chain hend hw hchain he, List.getLast?_map]
  cases ha : before.getLast? with
  | none => rfl
  | some a =>
    have hn := hend.nodup
    rw [he, List.map_append] at hn
    have hjob : jobOf? before a.task = some a :=
      (jobOf?_eq_some hn.of_append_left).2 ⟨List.mem_of_getLast? ha, rfl⟩
    simp [hjob]

variable (hlaw : ∀ before j after, e.jobs = before ++ j :: after → Punctual c w before j)

include hlaw

/-- Once the last of some jobs of a chain has ended, every VM has worked off those it was given. -/
theorem freeAt_le_of_chain (he : e.jobs = before ++ after) {a : Job ℚ} (ha : before.getLast? = some a)
    (vm : ℤ) : freeAt before vm ≤ a.finish := by
  rcases freeAt_eq before vm with h0 | ⟨b, hb, -, hbe⟩
  · have ham : a ∈ e.jobs := by
      rw [he]
      exact List.mem_append_left _ (List.mem_of_getLast? ha)
    rw [h0]
    exact hend.finish_nonneg hlaw ham
  · rw [hbe]
    exact finish_le_of_chain hend hw hchain he ha b hb

/-- The first job of a chain starts at zero, and any other one when what the job before it made has
arrived: by then its VM is free. -/
theorem start_of_chain (hc : Costs.ofWorkflow w.workflow w.vms = .ok c)
    (he : e.jobs = before ++ j :: after) :
    (before = [] → j.start = 0) ∧ ∀ a, before.getLast? = some a → delivery c a j = .ok j.start := by
  obtain ⟨inputs, hin, hstart⟩ := (hlaw before j after he).start
  rw [deliveries_of_chain hend hw hchain he] at hin
  constructor
  · rintro rfl
    obtain rfl : [] = inputs := Except.ok.inj hin
    rw [hstart]
    simp [latest_zero_cons]
  · intro a ha
    obtain ⟨x, rfl, hx⟩ : ∃ x, inputs = [x] ∧ delivery c a j = .ok x := by
      rw [ha, mapM_eq_ok] at hin
      cases hin with
      | cons hx hnil =>
        cases hnil
        exact ⟨_, rfl, hx⟩
    have hparent : a.task ∈ j.parents := by
      rw [parents_of_chain hend hw hchain he, List.getLast?_map, ha]
      simp
    have hax : a.finish ≤ x := hend.finish_le_delivery hw.checked hc (by simp [he]) hparent hx
    have hfree := (freeAt_le_of_chain hend hw hchain hlaw he ha j.vm).trans hax
    have hnonneg : 0 ≤ freeAt before j.vm := freeAt_nonneg fun b hb =>
      hend.finish_nonneg hlaw (by rw [he]; exact List.mem_append_left _ hb)
    rw [hx, hstart, latest_zero_cons hnonneg, latest_singleton, max_eq_left hfree]

end

end Execution

/-! ## Runs -/

/-- What a parent made is there for a task in the plan when it is there in the execution, but for the
floor: both let a task wait for the end of its parent, and on another VM for its transfer. -/
theorem arrival_of_delivery {p : Pricing ℚ} {d : Draft ℚ} {t u : Task ℚ} {a j : Job ℚ} {x : ℚ}
    (hid : t.id = j.task) (hu : d.workflow.find? a.task = some u) (hvm : u.vm = a.vm)
    (hf : d.finishes.get? a.task = some (a.finish + p.floor))
    (hx : Execution.delivery p.costs a j = .ok x) :
    d.arrival p t j.vm a.task = .ok (x + p.floor) := by
  unfold Draft.arrival
  simp only [hf, Workflow.get_eq_ok.2 hu, ok_bind, hvm]
  by_cases hsame : a.vm = j.vm
  · rw [Execution.delivery, if_pos hsame] at hx
    rw [if_pos hsame, ← Except.ok.inj hx]
  · obtain ⟨time, htime, rfl⟩ := Execution.delivery_eq_ok hx hsame
    rw [if_neg hsame, hid, htime, ok_bind]
    ring_nf

section

variable {p : Pricing ℚ} {d : Draft ℚ} {rule : Rule} {w : World ℚ} {e : Execution ℚ} {order : List ℤ}
  {before after : List (Job ℚ)} {j : Job ℚ}

/-- The time for which a job runs is that for which its task was planned. -/
theorem cost_of_punctual (hc : Costs.ofWorkflow w.workflow w.vms = .ok p.costs)
    (hids : (w.vms.map Vm.id).Nodup) (hlaw : Execution.Punctual p.costs w before j) {t : Task ℚ}
    (ht : w.workflow.find? j.task = some t) {cost : ℚ}
    (hcost : p.costs.computing t.id j.vm = .ok (some cost)) : j.finish = j.start + cost := by
  obtain ⟨u, hu, v, hv, hid, -, hvm, hfinish⟩ := hlaw.finish
  obtain rfl := Option.some.inj (ht.symm.trans (Workflow.find?_eq_some.2 ⟨hu, hid⟩))
  rw [← hvm, computing_eq_ok hc hids hu hv, computeTime_eq] at hcost
  split_ifs at hcost
  · cases hcost
  · rw [hfinish, Option.some.inj (Except.ok.inj hcost)]

/-- Along a chain that was planned promptly, each job ends when its task was planned to end, but for the
floor. -/
theorem finishes_of_chain (hend : Execution.Ended rule w e) (hw : w.WellFormed)
    (hchain : w.workflow.Chain order) (hc : Costs.ofWorkflow w.workflow w.vms = .ok p.costs)
    (hlaw : ∀ before j after, e.jobs = before ++ j :: after →
      Execution.Punctual p.costs w before j)
    (hplaced : ∀ j ∈ e.jobs, ∃ t, w.workflow.find? j.task = some t ∧ t.vm = j.vm)
    (hd : Draft.Prompted p order d) (hworkflow : d.workflow = w.workflow)
    (he : e.jobs = before ++ after) :
    ∀ j ∈ before, d.finishes.get? j.task = some (j.finish + p.floor) := by
  induction before using List.reverseRecOn generalizing after with
  | nil => simp
  | append_singleton before j ih =>
    rw [List.append_assoc] at he
    have hbefore := ih he
    intro k hk
    rcases List.mem_append.1 hk with hk | hk
    · exact hbefore k hk
    obtain rfl := List.mem_singleton.1 hk
    have hkj : k ∈ e.jobs := by simp [he]
    have horder := Execution.order_of_chain hend hw hchain
    obtain ⟨t, ht, ready, cost, hready, hcost, hfinish⟩ :=
      hd.prompt k.task (horder ▸ List.mem_map_of_mem hkj)
    obtain ⟨t', ht', hvm⟩ := hplaced k hkj
    rw [hworkflow] at ht
    obtain rfl := Option.some.inj (ht.symm.trans ht')
    have hid := (Workflow.find?_eq_some.1 ht).2
    rw [hvm] at hready hcost
    rw [← hid, hfinish, cost_of_punctual hc hw.ids (hlaw before k after he) ht hcost]
    suffices hstart : ready = k.start + p.floor by
      rw [hstart]
      ring_nf
    -- the task is ready in the plan when its job starts in the execution
    obtain ⟨hfirst, hnext⟩ := Execution.start_of_chain hend hw hchain hlaw hc he
    obtain ⟨u, hu, hidu, hparents⟩ := hend.task hkj
    obtain rfl := Option.some.inj (ht.symm.trans (Workflow.find?_eq_some.2 ⟨hu, hidu⟩))
    rw [Execution.parents_of_chain hend hw hchain he, List.getLast?_map] at hparents
    unfold Draft.readyTime at hready
    rw [hparents] at hready
    cases hlast : before.getLast? with
    | none =>
      rw [hlast] at hready
      rw [hfirst (List.getLast?_eq_none_iff.1 hlast), zero_add]
      exact (Except.ok.inj hready).symm
    | some a =>
      have ha := List.mem_of_getLast? hlast
      obtain ⟨ta, hta, hvma⟩ := hplaced a (by rw [he]; exact List.mem_append_left _ ha)
      have harrival := arrival_of_delivery (p := p) (t := t) hid (hworkflow ▸ hta) hvma (hbefore a ha)
        (hnext a hlast)
      have hnonneg := (hlaw before k after he).nonneg
      rw [hlast] at hready
      simp only [Option.map_some, Option.toList_some, List.foldlM_cons, List.foldlM_nil, harrival,
        ok_bind, later_eq_max] at hready
      rw [← Except.ok.inj hready]
      apply max_eq_right
      linarith

end

/-- A run of a chain by an algorithm that plans executes the tasks in the order of the chain, on the VMs
they were planned on, and each ends when it was planned to end, but for the floor. -/
theorem run_chain (w w' : World ℚ) (s : Settings ℚ) (o : Outcome ℚ) (order : List ℤ)
    (hchain : w.workflow.Chain order) (hids : (w.vms.map Vm.id).Nodup)
    (hs : s.algorithm.isPlanner = true) (hrun : World.run s w = .ok o w') :
    ∃ plan, o.plan = some plan ∧ plan.order = order ∧ o.executed.map Job.task = order ∧
      ∀ j ∈ o.executed, plan.assignment.get? j.task = some j.vm ∧
        plan.finishes.get? j.task = some (j.finish + s.startFloor) := by
  obtain ⟨notes, w₁, c, e, htraced⟩ := World.exists_traced hrun
  have hw := htraced.wellFormed hchain.distinct hids
  obtain ⟨hend, hw₁, hlaw⟩ := htraced.exists_executed hw
  rw [htraced.executed] at hlaw
  have hchain₁ := hchain.of_kin htraced.kin.workflow
  have hc₁ : Costs.ofWorkflow w₁.workflow w₁.vms = .ok c := by
    rw [ofWorkflow_of_kin htraced.kin]
    exact htraced.costs_eq
  obtain ⟨planner, plan, w₀, hbuilt, hplan, hk, hplanned⟩ := htraced.exists_planned hs
  have hids₀ : (w₀.vms.map Vm.id).Nodup := by
    rw [World.map_vms_of_kin hk fun _ => rfl]
    exact hids
  have hc₀ : Costs.ofWorkflow w₀.workflow w₀.vms = .ok c := by
    rw [ofWorkflow_of_kin hk]
    exact htraced.costs_eq
  obtain ⟨d, hprompted, hworkflow, horder, hfinishes⟩ :=
    Planner.exists_prompted hbuilt (hchain.of_kin hk.workflow) hids₀ hc₀ hplanned
  have hplaced := htraced.placed hs hplan
  have hdone := finishes_of_chain (p := ⟨_, c, s.startFloor⟩) hend hw₁ hchain₁ hc₁ hlaw
    (fun j hj => (hplaced j (htraced.executed ▸ hj)).2) hprompted hworkflow (List.append_nil _).symm
  refine ⟨plan, hplan, horder, ?_, fun j hj => ⟨(hplaced j hj).1, ?_⟩⟩
  · rw [htraced.executed]
    exact Execution.order_of_chain hend hw₁ hchain₁
  · rw [hfinishes]
    exact hdone j (htraced.executed ▸ hj)

/-- Four tasks in a row, listed in another order, that keep moving between two VMs. The last one takes
no time. -/
def relay : World ℚ where
  workflow :=
    { tasks := [
        { id := 2, length := 10, elements := 2, parents := [1], children := [3], transfers := ⟨[(1, 3)]⟩ },
        { id := 4, length := 0, elements := 2, parents := [3], transfers := ⟨[(3, 1)]⟩ },
        { id := 3, length := 100, parents := [2], children := [4], transfers := ⟨[(2, 4)]⟩ },
        { id := 1, length := 20, children := [2] }]
      nodup := by decide }
  vms := [{ id := 7, mips := 10 }, { id := 4, mips := 5, elements := 2 }]

theorem chain_relay : relay.workflow.Chain [1, 2, 3, 4] where
  perm := by decide
  linked := by
    simp only [relay, List.forall_mem_cons, List.not_mem_nil, false_implies, implies_true, and_true]
    exact ⟨⟨[1], [3, 4], rfl, rfl, rfl⟩, ⟨[1, 2, 3], [], rfl, rfl, rfl⟩, ⟨[1, 2], [4], rfl, rfl, rfl⟩,
      [], [2, 3, 4], rfl, rfl, rfl⟩

theorem wellFormed_relay : relay.WellFormed where
  check := rfl
  distinct := chain_relay.distinct
  roster := by decide
  ids := by decide
  speeds := by decide
  costs := exists_eq_ok (by decide +kernel)

theorem run_chain_relay : ∃ o w' plan, World.run {} relay = .ok o w' ∧ o.plan = some plan ∧
    o.executed.map Job.task = [1, 2, 3, 4] ∧
    ∀ j ∈ o.executed, plan.finishes.get? j.task = some (j.finish + 1 / 10) := by
  obtain ⟨o, w', h⟩ := World.exists_run_of_default wellFormed_relay (by decide) (by decide)
  obtain ⟨plan, hplan, -, htasks, hends⟩ :=
    run_chain relay w' {} o [1, 2, 3, 4] chain_relay (by decide) rfl h
  refine ⟨o, w', plan, h, hplan, htasks, fun j hj => ?_⟩
  rw [(hends j hj).2]
  rfl

end FlowSched

import Mathlib.Data.List.Forall2
import Mathlib.Data.List.Nodup
import FlowSched.Dispatch
import FlowSched.Proofs.Exact
import FlowSched.Proofs.Kin
import FlowSched.Proofs.Session
import FlowSched.Proofs.Step

/-!
# What dispatching does

Every rule moves ready tasks to the bound ones, one at a time: it writes a VM of the roster on each,
turns VMs busy at most, and leaves all else alone (`Dealt`). The rules differ in the VMs they may
choose (`Eligible`). Only dealing out in turn may leave tasks behind, and only when every VM is busy.
All of this holds whether or not numbers are rounded.
-/

namespace FlowSched.Batch

open Quantity Step

variable {α : Type} [Quantity α]

/-! ## VMs that turn busy -/

/-- The same VM, which may have turned busy. -/
def Occupied (u v : Vm α) : Prop := v = u ∨ v = { u with busy := true }

section

variable {u v x : Vm α}

theorem Occupied.refl (u : Vm α) : Occupied u u := Or.inl rfl

theorem Occupied.trans (h : Occupied u v) (h' : Occupied v x) : Occupied u x := by
  rcases h with rfl | rfl
  · exact h'
  · rcases h' with rfl | rfl
    · exact Or.inr rfl
    · exact Or.inr rfl

theorem Occupied.release (h : Occupied u v) : v.release = u.release := by
  rcases h with rfl | rfl <;> rfl

theorem Occupied.id (h : Occupied u v) : v.id = u.id := by rcases h with rfl | rfl <;> rfl

theorem Occupied.mips (h : Occupied u v) : v.mips = u.mips := by rcases h with rfl | rfl <;> rfl

theorem Occupied.load (h : Occupied u v) : v.load = u.load := by rcases h with rfl | rfl <;> rfl

theorem Occupied.busy (h : Occupied u v) (hu : u.busy = true) : v.busy = true := by
  rcases h with rfl | rfl
  · exact hu
  · rfl

/-- A VM that is idle now has been so all along. -/
theorem Occupied.eq_of_idle (h : Occupied u v) (hv : v.busy = false) : v = u := by
  rcases h with rfl | rfl
  · rfl
  · cases hv

end

theorem occupied_refl (vms : List (Vm α)) : List.Forall₂ Occupied vms vms :=
  List.forall₂_same.2 fun v _ => .refl v

theorem occupied_trans {us vs xs : List (Vm α)} (h : List.Forall₂ Occupied us vs)
    (h' : List.Forall₂ Occupied vs xs) : List.Forall₂ Occupied us xs := by
  induction h generalizing xs with
  | nil => exact h'
  | cons huv _ ih =>
    cases h' with
    | cons hvx h' => exact .cons (huv.trans hvx) (ih h')

theorem occupied_modify (place : ℕ) (vms : List (Vm α)) :
    List.Forall₂ Occupied vms (vms.modify place fun v => { v with busy := true }) := by
  induction vms generalizing place with
  | nil => cases place <;> exact .nil
  | cons v vms ih =>
    cases place with
    | zero => exact .cons (Or.inr rfl) (occupied_refl vms)
    | succ place => exact .cons (Occupied.refl v) (ih place)

theorem map_release_of_occupied {us vs : List (Vm α)} (h : List.Forall₂ Occupied us vs) :
    vs.map Vm.release = us.map Vm.release := by
  induction h with
  | nil => rfl
  | cons huv _ ih => rw [List.map_cons, List.map_cons, huv.release, ih]

theorem map_id_of_occupied {us vs : List (Vm α)} (h : List.Forall₂ Occupied us vs) :
    vs.map Vm.id = us.map Vm.id := by
  induction h with
  | nil => rfl
  | cons huv _ ih => rw [List.map_cons, List.map_cons, huv.id, ih]

/-! ## What a rule may do -/

/-- A VM of the roster that a rule may choose for a task: one that is feasible for it, one that is
idle, or the one the task is bound to, with the fallback VM in place of one that is not there. -/
def Eligible (rule : Rule) (vms : List (Vm α)) (t : Task α) (v : Vm α) : Prop :=
  match rule with
  | .minMin | .maxMin | .fcfs => isFeasible t v = true
  | .roundRobin => v.busy = false
  | .static => v.id = t.vm ∨ t.vm ∉ vms.map Vm.id ∧ fallback? vms = some v.id

/-- A batch of distinct tasks of the workflow, none of which is bound yet. -/
structure Fresh (b₀ : Batch α) : Prop where
  bound : b₀.bound = []
  nodup : b₀.ready.Nodup
  known : ∀ x ∈ b₀.ready, x ∈ b₀.workflow.ids

/-- What a rule has done to a batch so far. -/
structure Dealt (rule : Rule) (b₀ b : Batch α) : Prop where
  perm : (b.bound ++ b.ready).Perm b₀.ready
  session : b.session = b₀.session
  workflow : b₀.workflow.Kin b.workflow
  vms : List.Forall₂ Occupied b₀.vms b.vms
  untouched : ∀ x, x ∉ b.bound → b.workflow.find? x = b₀.workflow.find? x
  chosen : ∀ x ∈ b.bound, ∃ t, b₀.workflow.find? x = some t ∧
    ∃ v ∈ b₀.vms, Eligible rule b₀.vms t v ∧ b.workflow.find? x = some { t with vm := v.id }
  busy : ∀ v ∈ b.vms, v.busy = true → (∃ u ∈ b₀.vms, u.id = v.id ∧ u.busy = true) ∨
    ∃ x ∈ b.bound, ∃ t, b.workflow.find? x = some t ∧ t.vm = v.id

variable {rule : Rule} {b₀ b : Batch α}

theorem Fresh.dealt (h : Fresh b₀) (rule : Rule) : Dealt rule b₀ b₀ where
  perm := by rw [h.bound]; exact .refl _
  session := rfl
  workflow := rfl
  vms := occupied_refl _
  untouched _ _ := rfl
  chosen x hx := by rw [h.bound] at hx; cases hx
  busy v hv hb := Or.inl ⟨v, hv, rfl, hb⟩

section

variable (h : Dealt rule b₀ b)

include h

theorem Dealt.kin : b₀.toWorld.Kin b.toWorld := ⟨h.workflow, map_release_of_occupied h.vms⟩

theorem Dealt.exists_vm {v : Vm α} (hv : v ∈ b.vms) : ∃ u ∈ b₀.vms, Occupied u v :=
  exists_of_forall₂_right h.vms v hv

variable (h₀ : Fresh b₀)

include h₀

theorem Dealt.nodup : (b.bound ++ b.ready).Nodup := h.perm.nodup_iff.2 h₀.nodup

theorem Dealt.not_mem_bound {x : ℤ} (hx : x ∈ b.ready) : x ∉ b.bound := fun hb =>
  (List.nodup_append.1 (h.nodup h₀)).2.2 x hb x hx rfl

theorem Dealt.not_mem_ready {x : ℤ} (hx : x ∈ b.bound) : x ∉ b.ready := fun hr =>
  h.not_mem_bound h₀ hr hx

/-- A ready task is as it was. -/
theorem Dealt.find?_ready {x : ℤ} (hx : x ∈ b.ready) :
    b.workflow.find? x = b₀.workflow.find? x := h.untouched x (h.not_mem_bound h₀ hx)

theorem Dealt.exists_ready {x : ℤ} (hx : x ∈ b.ready) : ∃ t, b.workflow.find? x = some t := by
  obtain ⟨t, ht⟩ := Workflow.mem_ids.1 (h₀.known x (h.perm.subset (List.mem_append_right _ hx)))
  exact ⟨t, (h.find?_ready h₀ hx).trans ht⟩

/-- One more ready task is bound: its VM is written, and at most that VM turns busy. -/
theorem Dealt.step {b' : Batch α} {x : ℤ} {t : Task α} {v : Vm α} (hx : x ∈ b.ready)
    (ht : b.workflow.find? x = some t) (hv : v ∈ b₀.vms) (he : Eligible rule b₀.vms t v)
    (hsession : b'.session = b.session) (hkin : b.workflow.Kin b'.workflow)
    (hvms : List.Forall₂ Occupied b.vms b'.vms)
    (hbound : b'.bound = b.bound ++ [x]) (hready : b'.ready = b.ready.erase x)
    (hself : b'.workflow.find? x = some { t with vm := v.id })
    (hother : ∀ y, y ≠ x → b'.workflow.find? y = b.workflow.find? y)
    (hbusy : ∀ u ∈ b'.vms, u.busy = true → u.id = v.id ∨ u ∈ b.vms) : Dealt rule b₀ b' := by
  have hne : ∀ y ∈ b.bound, y ≠ x := fun y hy he => h.not_mem_bound h₀ hx (he ▸ hy)
  constructor
  case perm =>
    rw [hbound, hready, List.append_assoc]
    exact ((List.perm_cons_erase hx).symm.append_left _).trans h.perm
  case session => exact hsession.trans h.session
  case workflow => exact h.workflow.trans hkin
  case vms => exact occupied_trans h.vms hvms
  case untouched =>
    intro y hy
    rw [hbound, List.mem_append, List.mem_singleton, not_or] at hy
    rw [hother y hy.2]
    exact h.untouched y hy.1
  case chosen =>
    intro y hy
    rw [hbound, List.mem_append, List.mem_singleton] at hy
    rcases hy with hy | rfl
    · rw [hother y (hne y hy)]
      exact h.chosen y hy
    · exact ⟨t, (h.find?_ready h₀ hx).symm.trans ht, v, hv, he, hself⟩
  case busy =>
    intro u hu hub
    rw [hbound]
    rcases hbusy u hu hub with hid | hu
    · exact Or.inr ⟨x, by simp, _, hself, hid.symm⟩
    · refine (h.busy u hu hub).imp_right fun ⟨y, hy, s, hs, hsv⟩ => ?_
      exact ⟨y, by simp [hy], s, by rw [hother y (hne y hy)]; exact hs, hsv⟩

/-- Binding a ready task to the VM at a place, which turns busy. -/
theorem Dealt.bind {x : ℤ} {t : Task α} {v : Vm α} {place : ℕ} (r : Rule) (hx : x ∈ b.ready)
    (ht : b.workflow.find? x = some t) (hv : b.vms[place]? = some v)
    (he : ∀ u ∈ b₀.vms, Occupied u v → Eligible rule b₀.vms t u) :
    Dealt rule b₀ ((b.occupy place).bind r x v.id) := by
  obtain ⟨u, hu, huv⟩ := h.exists_vm (List.mem_of_getElem? hv)
  refine h.step h₀ hx ht hu (he u hu huv) rfl (Workflow.kin_modify _ _ fun _ => rfl)
    (occupied_modify place b.vms) rfl rfl ?_ (fun y hy => Workflow.find?_modify_of_ne hy) ?_
  · obtain ⟨-, rfl⟩ := Workflow.find?_eq_some.1 ht
    rw [← huv.id]
    exact Workflow.find?_modify_self ht
  · intro y hy _
    rcases of_mem_modify hv hy with rfl | ⟨i, -, hi⟩
    · exact Or.inl huv.id
    · exact Or.inr (List.mem_of_getElem? hi)

end

/-! ## Taking the shortest, the longest or the oldest task -/

/-- A fold that replaces the best element now and then ends in an element of the list. -/
theorem foldl_pick_mem {β : Type} (p : β → β → Prop) [∀ a b, Decidable (p a b)] (xs : List β) (a : β) :
    xs.foldl (fun best x => if p best x then x else best) a ∈ a :: xs := by
  induction xs generalizing a with
  | nil => exact List.mem_cons_self
  | cons x xs ih =>
    rw [List.foldl_cons]
    rcases List.mem_cons.1 (ih (if p a x then x else a)) with he | hm
    · rw [he]
      split_ifs <;> simp
    · simp [hm]

/-- Of a batch that is not empty a rule takes some task. -/
theorem next?_eq_some (r : Rule) {ts : List (Task α)} (hne : ts ≠ []) :
    ∃ t ∈ ts, next? r ts = some t := by
  cases ts with
  | nil => exact absurd rfl hne
  | cons t ts =>
    unfold next?
    split
    · exact ⟨_, foldl_pick_mem (fun best u : Task α => u.length < best.length) ts t, rfl⟩
    · exact ⟨_, foldl_pick_mem (fun best u : Task α => best.length < u.length) ts t, rfl⟩
    · exact ⟨t, List.mem_cons_self, rfl⟩

theorem mem_feasible {t : Task α} {vms : List (Vm α)} {v : Vm α} {place : ℕ} :
    (v, place) ∈ feasible t vms ↔ vms[place]? = some v ∧ isFeasible t v = true := by
  simp [feasible, List.mem_filter, List.mk_mem_zipIdx_iff_getElem?]

theorem mostLoaded_mem {vs : List (Vm α × ℕ)} {v : Vm α × ℕ} (h : mostLoaded vs = some v) :
    v ∈ vs := by
  cases vs with
  | nil => cases h
  | cons u us =>
    rw [← Option.some.inj h]
    exact foldl_pick_mem (fun best v : Vm α × ℕ => best.1.load < v.1.load) us u

theorem fastest_mem {vs : List (Vm α × ℕ)} {v : Vm α × ℕ} (h : fastest vs = some v) : v ∈ vs := by
  cases vs with
  | nil => cases h
  | cons u us =>
    rw [← Option.some.inj h]
    exact foldl_pick_mem (fun best v : Vm α × ℕ => best.1.mips < v.1.mips) us u

/-- The VM selected is feasible. -/
theorem select_sound {t : Task α} {vms : List (Vm α)} {v : Vm α} {place : ℕ}
    (h : select t vms = .ok (v, place)) : vms[place]? = some v ∧ isFeasible t v = true := by
  rw [← mem_feasible]
  unfold select at h
  dsimp only at h
  split at h
  · next choice hor =>
    rw [← Except.ok.inj h]
    rcases Option.or_eq_some_iff.1 hor with hm | ⟨-, hf⟩
    · exact List.mem_of_mem_filter (mostLoaded_mem hm)
    · exact fastest_mem hf
  · cases h

/-- A feasible VM is found if there is one. -/
theorem select_complete {t : Task α} {vms : List (Vm α)}
    (h : ∃ v ∈ vms, isFeasible t v = true) : ∃ choice, select t vms = .ok choice := by
  obtain ⟨v, hv, hf⟩ := h
  obtain ⟨i, hi⟩ := List.getElem?_of_mem hv
  have hm : (v, i) ∈ feasible t vms := mem_feasible.2 ⟨hi, hf⟩
  unfold select
  dsimp only
  cases hc : feasible t vms with
  | nil => rw [hc] at hm; cases hm
  | cons u us =>
    rw [fastest, Option.or_some]
    exact ⟨_, rfl⟩

/-- Feasibility reads nothing that execution writes. -/
theorem isFeasible_of_kin {t : Task α} {v v' : Vm α} (h : v'.release = v.release) :
    isFeasible t v' = isFeasible t v := by
  have hel : v'.elements = v.elements := (congrArg Vm.elements h :)
  have hdc : v'.datacenter = v.datacenter := (congrArg Vm.datacenter h :)
  simp only [isFeasible, hel, hdc]

/-- The rules that take the shortest, the longest or the oldest task. -/
def isListRule (rule : Rule) : Prop := rule = .minMin ∨ rule = .maxMin ∨ rule = .fcfs

theorem eligible_of_isListRule (hr : isListRule rule) {vms : List (Vm α)} {t : Task α} {v : Vm α} :
    Eligible rule vms t v ↔ isFeasible t v = true := by
  rcases hr with rfl | rfl | rfl <;> rfl

/-- Some ready task has no feasible VM. -/
def Hopeless (b₀ : Batch α) : Prop :=
  ∃ x ∈ b₀.ready, ∃ t, b₀.workflow.find? x = some t ∧ ∀ v ∈ b₀.vms, isFeasible t v = false

section

variable (h : Dealt rule b₀ b) (h₀ : Fresh b₀) (hr : isListRule rule)

include h h₀ hr

/-- Binding the next task of a batch that is not empty fails only for want of a feasible VM. -/
theorem bindNext_leads (hne : b.ready ≠ []) :
    Leads (atomic (bindNext rule)) b
      (fun _ b' => Dealt rule b₀ b' ∧ b'.ready.length + 1 = b.ready.length)
      fun _ _ => Hopeless b₀ := by
  obtain ⟨ts, hts, hmap⟩ := Workflow.getAll_eq_ok fun x hx => h.exists_ready h₀ hx
  have htne : ts ≠ [] := fun he => hne (by rw [← hmap, he]; rfl)
  obtain ⟨t, htm, hnext⟩ := next?_eq_some rule htne
  have hx : t.id ∈ b.ready := hmap ▸ List.mem_map_of_mem htm
  have ht : b.workflow.find? t.id = some t := Workflow.find?_of_getAll hts htm
  rw [leads_atomic]
  unfold bindNext
  simp only [hts, ok_bind, hnext]
  cases hs : select t b.vms with
  | error fault =>
    refine ⟨fun b' hb' => (by cases hb'), fun _ _ => ?_⟩
    refine ⟨t.id, h.perm.subset (List.mem_append_right _ hx), t,
      (h.find?_ready h₀ hx).symm.trans ht, fun u hu => ?_⟩
    by_contra hf
    obtain ⟨v, hv, huv⟩ := exists_of_forall₂_left h.vms u hu
    obtain ⟨choice, hchoice⟩ := select_complete
      ⟨v, hv, (isFeasible_of_kin huv.release).trans (Bool.not_eq_false _ ▸ hf)⟩
    rw [hs] at hchoice
    cases hchoice
  | ok choice =>
    obtain ⟨v, place⟩ := choice
    obtain ⟨hv, hf⟩ := select_sound hs
    refine ⟨fun b' hb' => ?_, fun e he => (by cases he)⟩
    obtain rfl := Except.ok.inj hb'
    refine ⟨h.bind h₀ rule hx ht hv fun u _ huv => ?_, ?_⟩
    · rw [eligible_of_isListRule hr, ← isFeasible_of_kin huv.release]
      exact hf
    · show (b.ready.erase t.id).length + 1 = _
      rw [List.length_erase_of_mem hx]
      have := List.length_pos_of_mem hx
      omega

end

/-- As many bindings as there are ready tasks leave none behind. -/
theorem bindAll_leads (h₀ : Fresh b₀) (hr : isListRule rule) (n : ℕ) (h : Dealt rule b₀ b)
    (hn : n ≤ b.ready.length) :
    Leads (each (fun _ => atomic (bindNext rule)) (List.replicate n ())) b
      (fun _ b' => Dealt rule b₀ b' ∧ b'.ready.length + n = b.ready.length)
      fun _ _ => Hopeless b₀ := by
  have hloop := Leads.each (f := fun _ : Unit => atomic (bindNext rule))
    (E := fun _ _ => Hopeless b₀)
    (I := fun rest (b' : Batch α) =>
      Dealt rule b₀ b' ∧ b'.ready.length + n = b.ready.length + rest.length)
    (fun _ rest b' ⟨hb, hlen⟩ => by
      simp only [List.length_cons] at hlen
      refine (bindNext_leads hb h₀ hr fun he => ?_).mono (fun _ b'' ⟨hb', hlen'⟩ => ⟨hb', ?_⟩)
        fun _ _ he => he
      · rw [he, List.length_nil] at hlen
        omega
      · omega) (l := List.replicate n ()) ⟨h, by simp⟩
  exact hloop.mono (fun _ b' ⟨hb, hlen⟩ => ⟨hb, by simpa using hlen⟩) fun _ _ he => he

/-- A list rule binds every ready task. -/
theorem dispatchList_leads (h₀ : Fresh b₀) (hr : isListRule rule) :
    Leads (dispatchList rule) b₀ (fun _ b => Dealt rule b₀ b ∧ b.ready = [])
      fun _ _ => Hopeless b₀ := by
  unfold dispatchList
  rw [leads_bind, leads_get]
  refine (bindAll_leads h₀ hr _ (h₀.dealt rule) (Nat.le_refl _)).mono (fun _ b ⟨hb, hlen⟩ => ⟨hb, ?_⟩)
    fun _ _ he => he
  exact List.eq_nil_of_length_eq_zero (by omega)

/-! ## Dealing out in turn -/

theorem mem_placesById {vms : List (Vm α)} {v : Vm α} {place : ℕ} :
    (v, place) ∈ placesById vms ↔ vms[place]? = some v := by
  unfold placesById
  rw [(List.mergeSort_perm _ _).mem_iff, List.mk_mem_zipIdx_iff_getElem?]

/-- Dealing out binds ready tasks to idle VMs, one after the other, until none is left or every VM is
busy. What each such binding keeps holds at the end. -/
theorem dealOut_keeps (h₀ : Fresh b₀) {P : Batch α → Prop}
    (hstep : ∀ {b x t v place}, Dealt .roundRobin b₀ b → P b → x ∈ b.ready →
      b.workflow.find? x = some t → b.vms[place]? = some v → v.busy = false →
      P ((b.occupy place).bind .roundRobin x v.id))
    (tasks : List ℤ) {b : Batch α} (h : Dealt .roundRobin b₀ b) (hP : P b)
    (hperm : tasks.Perm b.ready) :
    Dealt .roundRobin b₀ (b.dealOut tasks) ∧ P (b.dealOut tasks) ∧
      ((b.dealOut tasks).ready = [] ∨ ∀ v ∈ (b.dealOut tasks).vms, v.busy = true) := by
  induction tasks generalizing b with
  | nil => exact ⟨h, hP, Or.inl hperm.nil_eq.symm⟩
  | cons x rest ih =>
    unfold dealOut
    generalize hf : List.find? _ (placesById b.vms) = found
    cases found with
    | none =>
      refine ⟨h, hP, Or.inr fun v hv => ?_⟩
      obtain ⟨i, hi⟩ := List.getElem?_of_mem hv
      have := List.find?_eq_none.1 hf (v, i) (mem_placesById.2 hi)
      simpa using this
    | some found =>
      obtain ⟨v, place⟩ := found
      have hv : b.vms[place]? = some v := mem_placesById.1 (List.mem_of_find?_eq_some hf)
      have hidle : v.busy = false := by simpa using List.find?_some hf
      have hx : x ∈ b.ready := hperm.subset List.mem_cons_self
      obtain ⟨t, ht⟩ := h.exists_ready h₀ hx
      refine ih (h.bind h₀ .roundRobin hx ht hv fun u _ huv => ?_) (hstep h hP hx ht hv hidle) ?_
      · exact huv.eq_of_idle hidle ▸ hidle
      · exact List.cons_perm_iff_perm_erase.1 hperm |>.2

/-! ## Keeping the VMs of a plan -/

/-- The fallback VM is one of the roster. -/
theorem fallback?_eq_some {vms : List (Vm α)} {id : ℤ} (h : fallback? vms = some id) :
    ∃ v ∈ vms, v.id = id := by
  unfold fallback? at h
  obtain ⟨v, hv, rfl⟩ := Option.map_eq_some_iff.1 h
  rcases Option.or_eq_some_iff.1 hv with hf | ⟨-, hh⟩
  · exact ⟨v, List.mem_of_find?_eq_some hf, rfl⟩
  · exact ⟨v, List.mem_of_mem_head? hh, rfl⟩

theorem fallback?_eq_none {vms : List (Vm α)} (h : fallback? vms = none) : vms = [] := by
  unfold fallback? at h
  rw [Option.map_eq_none_iff, Option.or_eq_none_iff] at h
  exact List.head?_eq_none_iff.1 h.2

/-- Taking a task as it is planned binds it to its VM, or to the fallback VM if that is not there. -/
theorem Dealt.keepBinding (h : Dealt .static b₀ b) (h₀ : Fresh b₀) (hvms : b.vms = b₀.vms)
    {fallback : ℤ} (hf : fallback? b₀.vms = some fallback) {x : ℤ} (hx : x ∈ b.ready) :
    Dealt .static b₀ (Batch.keepBinding fallback b x) ∧
      (Batch.keepBinding fallback b x).vms = b₀.vms := by
  obtain ⟨t, ht⟩ := h.exists_ready h₀ hx
  by_cases hany : b.vms.any (fun v => decide (v.id = t.vm)) = true
  · have hkeep : Batch.keepBinding fallback b x =
        { b with ready := b.ready.erase x, bound := b.bound ++ [x] } := by
      simp only [Batch.keepBinding, ht, Option.map_some, Option.getD_some, hany, if_true]
    obtain ⟨v, hv, hid⟩ := List.any_eq_true.1 hany
    have hid : v.id = t.vm := of_decide_eq_true hid
    rw [hkeep]
    refine ⟨h.step h₀ hx ht (hvms ▸ hv) (Or.inl hid) rfl rfl (occupied_refl _) rfl rfl ?_
      (fun _ _ => rfl) fun u hu _ => Or.inr hu, hvms⟩
    rw [hid]
    exact ht
  · have hkeep : Batch.keepBinding fallback b x =
        { b with
          toWorld := (b.toWorld.note (.rebound x t.vm fallback)).editTask x
            fun t => { t with vm := fallback }
          ready := b.ready.erase x, bound := b.bound ++ [x] } := by
      simp only [Batch.keepBinding, ht, Option.map_some, Option.getD_some, hany]
      rfl
    obtain ⟨v, hv, hid⟩ := fallback?_eq_some hf
    have hunknown : t.vm ∉ b₀.vms.map Vm.id := fun hm => by
      obtain ⟨u, hu, hut⟩ := List.mem_map.1 hm
      exact hany (List.any_eq_true.2 ⟨u, hvms ▸ hu, decide_eq_true hut⟩)
    rw [hkeep]
    refine ⟨h.step h₀ hx ht hv (Or.inr ⟨hunknown, hid ▸ hf⟩) rfl
      (Workflow.kin_modify _ _ fun _ => rfl) (occupied_refl _) rfl rfl ?_
      (fun y hy => Workflow.find?_modify_of_ne hy) fun u hu _ => Or.inr hu, hvms⟩
    obtain ⟨-, rfl⟩ := Workflow.find?_eq_some.1 ht
    rw [hid]
    exact Workflow.find?_modify_self ht

theorem foldl_keepBinding (h₀ : Fresh b₀) {fallback : ℤ} (hf : fallback? b₀.vms = some fallback)
    (tasks : List ℤ) {b : Batch α} (h : Dealt .static b₀ b) (hvms : b.vms = b₀.vms)
    (hperm : tasks.Perm b.ready) :
    Dealt .static b₀ (tasks.foldl (keepBinding fallback) b) ∧
      (tasks.foldl (keepBinding fallback) b).ready = [] := by
  induction tasks generalizing b with
  | nil => exact ⟨h, hperm.nil_eq.symm⟩
  | cons x rest ih =>
    obtain ⟨hb, hbvms⟩ := h.keepBinding h₀ hvms hf (hperm.subset List.mem_cons_self)
    refine ih hb hbvms ?_
    have hready : (Batch.keepBinding fallback b x).ready = b.ready.erase x := rfl
    rw [hready]
    exact List.cons_perm_iff_perm_erase.1 hperm |>.2

/-! ## Any rule -/

/-- A rule binds ready tasks to VMs that it may choose. It fails only without any VM, or if it looks
for a feasible VM and a ready task has none. -/
theorem dispatch_leads (rule : Rule) (h₀ : Fresh b₀) :
    Leads (dispatch rule) b₀
      (fun _ b => Dealt rule b₀ b ∧
        (b.ready = [] ∨ rule = .roundRobin ∧ ∀ v ∈ b.vms, v.busy = true))
      fun _ _ => b₀.vms = [] ∨ isListRule rule ∧ Hopeless b₀ := by
  have hlist : isListRule rule → Leads (dispatchList rule) b₀
      (fun _ b => Dealt rule b₀ b ∧
        (b.ready = [] ∨ rule = .roundRobin ∧ ∀ v ∈ b.vms, v.busy = true))
      fun _ _ => b₀.vms = [] ∨ isListRule rule ∧ Hopeless b₀ := fun hr =>
    (dispatchList_leads h₀ hr).mono (fun _ _ hb => ⟨hb.1, Or.inl hb.2⟩)
      fun _ _ he => Or.inr ⟨hr, he⟩
  unfold dispatch
  rw [leads_bind, leads_get]
  cases hf : fallback? b₀.vms with
  | none => exact leads_throw.2 (Or.inl (fallback?_eq_none hf))
  | some fallback =>
    cases rule with
    | minMin => exact hlist (Or.inl rfl)
    | maxMin => exact hlist (Or.inr (Or.inl rfl))
    | fcfs => exact hlist (Or.inr (Or.inr rfl))
    | roundRobin =>
      obtain ⟨hd, -, hr⟩ := dealOut_keeps h₀ (P := fun _ => True) (fun _ _ _ _ _ _ => trivial) _
        (h₀.dealt .roundRobin) trivial (List.mergeSort_perm _ _)
      exact leads_modify.2 ⟨hd, hr.imp_right fun hb => ⟨rfl, hb⟩⟩
    | static =>
      obtain ⟨hd, hr⟩ := foldl_keepBinding h₀ hf _ (h₀.dealt .static) rfl
        (Session.orderByPlan_perm b₀.session b₀.ready)
      exact leads_modify.2 ⟨hd, Or.inl hr⟩

end FlowSched.Batch

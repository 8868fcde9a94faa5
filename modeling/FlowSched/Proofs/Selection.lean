import FlowSched.Proofs.Ordered
import FlowSched.Proofs.Session
import FlowSched.Proofs.Dispatch

/-!
# Selecting tasks and VMs

A list rule takes the first shortest, the first longest or the first ready task again and again, so that it
ends with all of them in stable order (`StablySorted`). It gives a task a busy VM only once all feasible
VMs are busy, and then the first of the fastest ones (`Selected`). No task but those and no VM but theirs
is written (`dispatch_selects`). Lengths have to be numbers, but nothing is asked of how they are rounded.
-/

namespace FlowSched.Batch

open Quantity Step

variable {α : Type} [Quantity α] {rule : Rule} {b₀ b b' : Batch α}

/-! ## Stable order -/

/-- A list put into order. What need not come before one another stays as it came. -/
structure StablySorted (before : ℤ → ℤ → Prop) (l out : List ℤ) : Prop where
  perm : out.Perm l
  pairs : out.Pairwise fun x y => before x y ∨ ¬ before y x ∧ [x, y].Sublist l

/-- There is one stable order only. -/
theorem StablySorted.unique {before : ℤ → ℤ → Prop} {l out out' : List ℤ} (h : StablySorted before l out)
    (h' : StablySorted before l out') (hn : l.Nodup) (hasymm : ∀ x y, before x y → ¬ before y x) :
    out = out' := by
  refine (h.perm.trans h'.perm.symm).eq_of_pairwise (fun x y _ _ hxy hyx => ?_) h.pairs h'.pairs
  rcases hxy with hxy | ⟨hnot, hxy⟩
  · exact absurd hxy (hyx.elim (hasymm y x) And.left)
  · exact absurd (hyx.resolve_left hnot).2 (Session.not_pair_sublist hn hxy)

/-- Where nothing need come before anything, a list stays as it is. -/
theorem StablySorted.eq_self {before : ℤ → ℤ → Prop} {l out : List ℤ} (h : StablySorted before l out)
    (hn : l.Nodup) (hnone : ∀ x y, ¬ before x y) : out = l := by
  have hl : StablySorted before l l :=
    ⟨.refl l, List.pairwise_iff_forall_sublist.2 fun hxy => Or.inr ⟨hnone _ _, hxy⟩⟩
  exact h.unique hl hn fun x y hxy => absurd hxy (hnone x y)

/-- The task of one id is shorter than that of another. -/
def Shorter (w : Workflow α) (x y : ℤ) : Prop :=
  ∃ t u, w.find? x = some t ∧ w.find? y = some u ∧ t.length < u.length

/-- Which tasks a rule prefers to which. -/
def Precedes (rule : Rule) (w : Workflow α) (x y : ℤ) : Prop :=
  match rule with
  | .minMin => Shorter w x y
  | .maxMin => Shorter w y x
  | _ => False

theorem shorter_iff {w : Workflow α} {t u : Task α} (ht : w.find? t.id = some t)
    (hu : w.find? u.id = some u) : Shorter w t.id u.id ↔ t.length < u.length := by
  constructor
  · rintro ⟨t', u', ht', hu', hlt⟩
    obtain rfl := Option.some.inj (ht.symm.trans ht')
    obtain rfl := Option.some.inj (hu.symm.trans hu')
    exact hlt
  · exact fun hlt => ⟨t, u, ht, hu, hlt⟩

/-- The task that is taken next is preferred to those ahead of it, and none is preferred to it. -/
theorem next?_splits (hα : Ordered α) (hr : isListRule rule) {w : Workflow α} {ts : List (Task α)}
    {t : Task α} (hts : ∀ u ∈ ts, w.find? u.id = some u) (hnum : ∀ u ∈ ts, IsNumber u.length)
    (h : next? rule ts = some t) : ∃ front rear, ts = front ++ t :: rear ∧
      (∀ u ∈ front, Precedes rule w t.id u.id) ∧ ∀ u ∈ ts, ¬ Precedes rule w u.id t.id := by
  cases ts with
  | nil => rcases hr with rfl | rfl | rfl <;> cases h
  | cons u us =>
    -- the scan picks a task of the list, of which lengths are compared
    have hself : ∀ front rear, u :: us = front ++ t :: rear → w.find? t.id = some t ∧
        ∀ s ∈ front, w.find? s.id = some s := fun front rear hsplit => by
      rw [hsplit] at hts
      exact ⟨hts t (by simp), fun s hs => hts s (List.mem_append_left _ hs)⟩
    rcases hr with rfl | rfl | rfl
    · obtain ⟨front, best, rear, hfold, hsplit, hfront, hbest⟩ :=
        foldl_least u us hα Task.length hnum
      obtain rfl : best = t := hfold.symm.trans (Option.some.inj h)
      obtain ⟨ht, hf⟩ := hself front rear hsplit
      exact ⟨front, rear, hsplit, fun s hs => (shorter_iff ht (hf s hs)).2 (hfront s hs),
        fun s hs hlt => hbest s hs ((shorter_iff (hts s hs) ht).1 hlt)⟩
    · obtain ⟨front, best, rear, hfold, hsplit, hfront, hbest⟩ :=
        foldl_greatest u us hα Task.length hnum
      obtain rfl : best = t := hfold.symm.trans (Option.some.inj h)
      obtain ⟨ht, hf⟩ := hself front rear hsplit
      exact ⟨front, rear, hsplit, fun s hs => (shorter_iff (hf s hs) ht).2 (hfront s hs),
        fun s hs hlt => hbest s hs ((shorter_iff ht (hts s hs)).1 hlt)⟩
    · obtain rfl : u = t := Option.some.inj h
      exact ⟨[], us, rfl, by simp, fun _ _ => id⟩

/-- The task that is taken next comes before all those that are left. -/
theorem next?_before (hα : Ordered α) (hr : isListRule rule) {w : Workflow α} {ts : List (Task α)}
    {t : Task α} (hn : (ts.map Task.id).Nodup) (hts : ∀ u ∈ ts, w.find? u.id = some u)
    (hnum : ∀ u ∈ ts, IsNumber u.length) (h : next? rule ts = some t) :
    t ∈ ts ∧ ∀ y ∈ (ts.map Task.id).erase t.id,
      Precedes rule w t.id y ∨ ¬ Precedes rule w y t.id ∧ [t.id, y].Sublist (ts.map Task.id) := by
  obtain ⟨front, rear, hsplit, hfront, hrest⟩ := next?_splits hα hr hts hnum h
  rw [hsplit, List.map_append, List.map_cons] at hn ⊢
  have hnot : t.id ∉ front.map Task.id := fun hm => (List.nodup_append.1 hn).2.2 _ hm _ (by simp) rfl
  rw [List.erase_append_right _ hnot, List.erase_cons_head]
  refine ⟨by simp, fun y hy => ?_⟩
  rcases List.mem_append.1 hy with hy | hy
  · obtain ⟨s, hs, rfl⟩ := List.mem_map.1 hy
    exact Or.inl (hfront s hs)
  · have hpair : [t.id, y].Sublist (t.id :: rear.map Task.id) := (List.singleton_sublist.2 hy).cons_cons _
    obtain ⟨s, hs, rfl⟩ := List.mem_map.1 hy
    exact Or.inr ⟨hrest s (by rw [hsplit]; simp [hs]), hpair.trans (List.sublist_append_right _ _)⟩

/-! ## Busy VMs -/

theorem mostLoaded_eq_none {l : List (Vm α × ℕ)} (h : mostLoaded l = none) : l = [] := by
  cases l with
  | nil => rfl
  | cons p ps => cases h

/-- The VM that is selected is idle, or all feasible ones are busy and it is the one that is taken for the
fastest. -/
theorem select_cases {t : Task α} {vms : List (Vm α)} {v : Vm α} {place : ℕ}
    (h : select t vms = .ok (v, place)) : v.busy = false ∨
      (∀ p ∈ feasible t vms, p.1.busy = true) ∧ fastest (feasible t vms) = some (v, place) := by
  unfold select at h
  dsimp only at h
  split at h
  · next choice hor =>
    obtain rfl := Except.ok.inj h
    rcases Option.or_eq_some_iff.1 hor with hidle | ⟨hnone, hfast⟩
    · have hin : (!v.busy) = true := (List.mem_filter.1 (mostLoaded_mem hidle)).2
      exact Or.inl (by simpa using hin)
    · refine Or.inr ⟨fun p hp => ?_, hfast⟩
      have hin := List.filter_eq_nil_iff.1 (mostLoaded_eq_none hnone) p hp
      simpa using hin
  · cases h

/-- Places ascend among the feasible VMs. -/
theorem feasible_sorted (t : Task α) (vms : List (Vm α)) :
    (feasible t vms).Pairwise fun p q => p.2 < q.2 := by
  have hrange : ((vms.zipIdx).map Prod.snd).Pairwise (· < ·) := by
    rw [List.zipIdx_map_snd]
    exact List.pairwise_lt_range'
  exact (List.pairwise_map.1 hrange).sublist List.filter_sublist

/-- The VM that is selected is busy only if all feasible ones are, and is then the first of the fastest. -/
theorem select_busy (hα : Ordered α) {t : Task α} {vms : List (Vm α)} {v : Vm α} {place : ℕ}
    (h : select t vms = .ok (v, place)) (hb : v.busy = true) :
    (∀ u ∈ vms, isFeasible t u = true → u.busy = true ∧ ¬ v.mips < u.mips) ∧
      ∀ (i : ℕ) (u : Vm α), i < place → vms[i]? = some u → isFeasible t u = true → ¬ v.mips ≤ u.mips := by
  obtain ⟨hbusy, hfast⟩ := (select_cases h).resolve_left (by simp [hb])
  have hplaces := feasible_sorted t vms
  cases hc : feasible t vms with
  | nil =>
    rw [hc] at hfast
    cases hfast
  | cons p ps =>
    rw [hc] at hfast
    obtain ⟨front, best, rear, hfold, hsplit, hfront, hbest⟩ :=
      foldl_unexceeded p ps hα fun q : Vm α × ℕ => q.1.mips
    obtain rfl : best = (v, place) := hfold.symm.trans (Option.some.inj hfast)
    constructor
    · intro u hu hf
      obtain ⟨i, hi⟩ := List.getElem?_of_mem hu
      have hin : (u, i) ∈ feasible t vms := mem_feasible.2 ⟨hi, hf⟩
      exact ⟨hbusy _ hin, hbest _ (hc ▸ hin)⟩
    · intro i u hlt hi hf
      have hin := mem_feasible.2 ⟨hi, hf⟩
      rw [hc, hsplit] at hin hplaces
      have hafter := (List.pairwise_cons.1 (List.pairwise_append.1 hplaces).2.1).1
      rcases List.mem_append.1 hin with hin | hin
      · exact hfront _ hin
      · rcases List.mem_cons.1 hin with he | hin
        · exact absurd (congrArg Prod.snd he) hlt.ne
        · exact absurd (hafter _ hin) (not_lt.2 hlt.le)

/-- A VM is busy once these tasks have theirs: it was busy before, or is the VM of one of them. -/
def Taken (w : Workflow α) (done : List ℤ) (v : Vm α) : Prop :=
  v.busy = true ∨ ∃ y ∈ done, ∃ t, w.find? y = some t ∧ t.vm = v.id

/-- The choice of a VM for a task, once the tasks `done` have theirs. A VM that is busy by then is chosen
only if all feasible ones are, and it is then the first of the fastest. -/
def Selected (b₀ b : Batch α) (done : List ℤ) (x : ℤ) : Prop :=
  ∃ t v place, b₀.workflow.find? x = some t ∧ b₀.vms[place]? = some v ∧ isFeasible t v = true ∧
    b.workflow.find? x = some { t with vm := v.id } ∧
    (Taken b.workflow done v →
      (∀ u ∈ b₀.vms, isFeasible t u = true → Taken b.workflow done u ∧ ¬ v.mips < u.mips) ∧
      ∀ (i : ℕ) (u : Vm α), i < place → b₀.vms[i]? = some u → isFeasible t u = true → ¬ v.mips ≤ u.mips)

/-- Whether a VM is taken does not depend on tasks that are bound later. -/
theorem taken_congr {w w' : Workflow α} {done : List ℤ} (h : ∀ y ∈ done, w'.find? y = w.find? y)
    {v : Vm α} : Taken w' done v ↔ Taken w done v := by
  refine or_congr_right ⟨?_, ?_⟩
  · rintro ⟨y, hy, t, ht, he⟩
    exact ⟨y, hy, t, (h y hy) ▸ ht, he⟩
  · rintro ⟨y, hy, t, ht, he⟩
    exact ⟨y, hy, t, (h y hy).symm ▸ ht, he⟩

theorem Selected.congr {done : List ℤ} {x : ℤ} (h : Selected b₀ b done x)
    (hsame : ∀ y ∈ x :: done, b'.workflow.find? y = b.workflow.find? y) : Selected b₀ b' done x := by
  obtain ⟨t, v, place, ht, hv, hf, hx, hbusy⟩ := h
  have htaken : ∀ u : Vm α, Taken b'.workflow done u ↔ Taken b.workflow done u := fun u =>
    taken_congr fun y hy => hsame y (List.mem_cons_of_mem x hy)
  refine ⟨t, v, place, ht, hv, hf, (hsame x List.mem_cons_self).trans hx, fun htk => ?_⟩
  obtain ⟨hall, hfirst⟩ := hbusy ((htaken v).1 htk)
  exact ⟨fun u hu huf => ⟨(htaken u).2 (hall u hu huf).1, (hall u hu huf).2⟩, hfirst⟩

/-! ## One task after the other -/

/-- What a list rule has done to a batch so far. -/
structure Served (rule : Rule) (b₀ b : Batch α) : Prop where
  dealt : Dealt rule b₀ b
  rest : b.ready.Sublist b₀.ready
  before : ∀ x ∈ b.bound, ∀ y ∈ b.ready,
    Precedes rule b₀.workflow x y ∨ ¬ Precedes rule b₀.workflow y x ∧ [x, y].Sublist b₀.ready
  pairs : b.bound.Pairwise fun x y =>
    Precedes rule b₀.workflow x y ∨ ¬ Precedes rule b₀.workflow y x ∧ [x, y].Sublist b₀.ready
  busy : ∀ (i : ℕ) (u v : Vm α), b₀.vms[i]? = some u → b.vms[i]? = some v →
    (v.busy = true ↔ Taken b.workflow b.bound u)
  selected : ∀ done x rest, b.bound = done ++ x :: rest → Selected b₀ b done x

theorem Fresh.served (h : Fresh b₀) (rule : Rule) : Served rule b₀ b₀ where
  dealt := h.dealt rule
  rest := .refl _
  before x hx := by rw [h.bound] at hx; cases hx
  pairs := by rw [h.bound]; exact .nil
  busy i u v hu hv := by
    obtain rfl := Option.some.inj (hu.symm.trans hv)
    simp [Taken, h.bound]
  selected done x rest hs := by
    rw [h.bound] at hs
    cases done <;> cases hs

/-- Binding the next of some known tasks. -/
theorem bindNext_eq_ok (hne : b.ready ≠ []) (hknown : ∀ x ∈ b.ready, ∃ t, b.workflow.find? x = some t)
    (h : bindNext rule b = .ok b') :
    ∃ ts t v place, ts.map Task.id = b.ready ∧ (∀ u ∈ ts, b.workflow.find? u.id = some u) ∧
      next? rule ts = some t ∧ select t b.vms = .ok (v, place) ∧
      b' = (b.occupy place).bind rule t.id v.id := by
  obtain ⟨ts, hts, hmap⟩ := Workflow.getAll_eq_ok hknown
  have htne : ts ≠ [] := fun he => hne (by rw [← hmap, he]; rfl)
  obtain ⟨t, -, hnext⟩ := next?_eq_some rule htne
  unfold bindNext at h
  rw [hts, ok_bind] at h
  simp only [hnext] at h
  obtain ⟨⟨v, place⟩, hsel, h⟩ := bind_eq_ok.1 h
  exact ⟨ts, t, v, place, hmap, fun u hu => Workflow.find?_of_getAll hts hu, hnext, hsel,
    (Except.ok.inj h).symm⟩

section

variable (h : Served rule b₀ b) (h₀ : Fresh b₀) {t : Task α} (v : Vm α) (place : ℕ)
  (ht : b.workflow.find? t.id = some t) (hx : t.id ∈ b.ready)

include h h₀ hx

/-- Binding a ready task leaves the VMs of the others as they are. -/
theorem Served.find?_bind {y : ℤ} (hy : y ∈ b.bound) :
    ((b.occupy place).bind rule t.id v.id).workflow.find? y = b.workflow.find? y :=
  Workflow.find?_modify_of_ne fun he => h.dealt.not_mem_bound h₀ hx (he.symm ▸ hy)

variable {v : Vm α} {place : ℕ}

include ht

/-- Once a task has the VM at a place, that VM is busy as well. -/
theorem Served.busy_bind (hn : (b₀.vms.map Vm.id).Nodup) (hv : b.vms[place]? = some v)
    (i : ℕ) (u w : Vm α) (hu : b₀.vms[i]? = some u)
    (hw : ((b.occupy place).bind rule t.id v.id).vms[i]? = some w) :
    w.busy = true ↔
      Taken ((b.occupy place).bind rule t.id v.id).workflow (b.bound ++ [t.id]) u := by
  have hnew : Taken ((b.occupy place).bind rule t.id v.id).workflow (b.bound ++ [t.id]) u ↔
      Taken b.workflow b.bound u ∨ v.id = u.id := by
    have hself : ((b.occupy place).bind rule t.id v.id).workflow.find? t.id =
        some { t with vm := v.id } := Workflow.find?_modify_self ht
    rw [← taken_congr fun y hy => h.find?_bind h₀ v place hx hy]
    simp only [Taken, List.mem_append, List.mem_singleton, or_and_right, exists_or, exists_eq_left, hself,
      Option.some.injEq, exists_eq_left', or_assoc]
  obtain ⟨u', hu', hocc⟩ := exists_getElem?_right h.dealt.vms hv
  have hget : (b.vms.modify place fun v => { v with busy := true })[i]? = some w := hw
  rw [hnew]
  by_cases hi : i = place
  · -- the VM at that place itself
    subst hi
    obtain rfl := Option.some.inj (hu'.symm.trans hu)
    rw [List.getElem?_modify_eq, hv] at hget
    obtain rfl := Option.some.inj hget
    simp [hocc.id]
  · rw [List.getElem?_modify_ne _ _ (Ne.symm hi)] at hget
    have hne : v.id ≠ u.id := fun he => hi (Vm.place_inj hn hu hu' (hocc.id ▸ he).symm)
    rw [h.busy i u w hu hget, or_iff_left hne]

/-- The VM that is selected for a ready task, seen from the batch as it was: busy VMs are those taken. -/
theorem Served.selected_bind (hα : Ordered α) (hsel : select t b.vms = .ok (v, place)) :
    Selected b₀ ((b.occupy place).bind rule t.id v.id) b.bound t.id := by
  obtain ⟨hv, hf⟩ := select_sound hsel
  obtain ⟨u, hu, huv⟩ := exists_getElem?_right h.dealt.vms hv
  have hfeas : ∀ {u w : Vm α}, Occupied u w → (isFeasible t u = true ↔ isFeasible t w = true) :=
    fun huw => by rw [isFeasible_of_kin huw.release]
  have htaken : ∀ {i : ℕ} {s w : Vm α}, b₀.vms[i]? = some s → b.vms[i]? = some w →
      (w.busy = true ↔ Taken ((b.occupy place).bind rule t.id v.id).workflow b.bound s) :=
    fun hs hw => (h.busy _ _ _ hs hw).trans (taken_congr fun y hy => h.find?_bind h₀ v place hx hy).symm
  refine ⟨t, u, place, (h.dealt.find?_ready h₀ hx).symm.trans ht, hu, (hfeas huv).2 hf, ?_, fun htk => ?_⟩
  · rw [← huv.id]
    exact Workflow.find?_modify_self ht
  · obtain ⟨hall, hfirst⟩ := select_busy hα hsel ((htaken hu hv).2 htk)
    constructor
    · intro s hs hsf
      obtain ⟨i, hi⟩ := List.getElem?_of_mem hs
      obtain ⟨w, hw, hsw⟩ := exists_getElem?_left h.dealt.vms hi
      obtain ⟨hbusy, hle⟩ := hall w (List.mem_of_getElem? hw) ((hfeas hsw).1 hsf)
      exact ⟨(htaken hi hw).1 hbusy, by rwa [hsw.mips, huv.mips] at hle⟩
    · intro i s hlt hi hsf
      obtain ⟨w, hw, hsw⟩ := exists_getElem?_left h.dealt.vms hi
      have hle := hfirst i w hlt hw ((hfeas hsw).1 hsf)
      rwa [hsw.mips, huv.mips] at hle

end

section

variable (hα : Ordered α) (h₀ : Fresh b₀) (hn : (b₀.vms.map Vm.id).Nodup) (hr : isListRule rule)
  (hnum : ∀ x ∈ b₀.ready, ∀ t, b₀.workflow.find? x = some t → IsNumber t.length)

include hα h₀ hn hr hnum

/-- Binding one more task keeps to the rule. -/
theorem Served.bindNext (h : Served rule b₀ b) (hne : b.ready ≠ []) (hb : Batch.bindNext rule b = .ok b') :
    Served rule b₀ b' := by
  obtain ⟨ts, t, v, place, hmap, hknown, hnext, hsel, rfl⟩ :=
    bindNext_eq_ok hne (fun x hx => h.dealt.exists_ready h₀ hx) hb
  have hready : ∀ u ∈ ts, u.id ∈ b.ready := fun u hu => hmap ▸ List.mem_map_of_mem hu
  have hfind : ∀ u ∈ ts, b₀.workflow.find? u.id = some u := fun u hu =>
    (h.dealt.find?_ready h₀ (hready u hu)).symm.trans (hknown u hu)
  obtain ⟨htm, hleft⟩ := next?_before hα hr (hmap ▸ h₀.nodup.sublist h.rest) hfind
    (fun u hu => hnum u.id (h.rest.subset (hready u hu)) u (hfind u hu)) hnext
  have hx : t.id ∈ b.ready := hready t htm
  obtain ⟨hv, hf⟩ := select_sound hsel
  constructor
  case dealt =>
    refine h.dealt.bind h₀ rule hx (hknown t htm) hv fun u _ huv => ?_
    rw [eligible_of_isListRule hr, ← isFeasible_of_kin huv.release]
    exact hf
  case rest => exact List.erase_sublist.trans h.rest
  case before =>
    intro x hxb y hy
    have hy : y ∈ b.ready.erase t.id := hy
    rcases List.mem_append.1 hxb with hxb | hxb
    · exact h.before x hxb y (List.mem_of_mem_erase hy)
    · obtain rfl := List.mem_singleton.1 hxb
      rw [hmap] at hleft
      exact (hleft y hy).imp_right fun hy => ⟨hy.1, hy.2.trans h.rest⟩
  case pairs =>
    refine List.pairwise_append.2 ⟨h.pairs, List.pairwise_singleton _ _, fun x hxb y hy => ?_⟩
    obtain rfl := List.mem_singleton.1 hy
    exact h.before x hxb t.id hx
  case busy => exact h.busy_bind h₀ (hknown t htm) hx hn hv
  case selected =>
    intro done x rest hs
    have hs : b.bound ++ [t.id] = done ++ x :: rest := hs
    rcases List.eq_nil_or_concat' rest with rfl | ⟨rest, z, rfl⟩
    · -- the task bound last
      obtain ⟨rfl, hlast⟩ := List.append_inj' hs rfl
      obtain rfl : t.id = x := List.singleton_inj.1 hlast
      exact h.selected_bind h₀ (hknown t htm) hx hα hsel
    · rw [← List.cons_append, ← List.append_assoc] at hs
      obtain ⟨hs, -⟩ := List.append_inj' hs rfl
      refine (h.selected done x rest hs).congr fun y hy => h.find?_bind h₀ v place hx ?_
      rw [hs]
      rcases List.mem_cons.1 hy with rfl | hy <;> simp [*]

/-- A list rule serves all ready tasks. -/
theorem dispatchList_serves :
    Leads (dispatchList rule) b₀ (fun _ b => Served rule b₀ b ∧ b.ready = []) fun _ _ => Hopeless b₀ := by
  have hloop := Leads.each (f := fun _ : Unit => atomic (Batch.bindNext rule))
    (E := fun _ _ => Hopeless b₀)
    (I := fun rest (b : Batch α) => Served rule b₀ b ∧ b.ready.length = rest.length)
    (fun _ rest b ⟨hb, hlen⟩ => by
      have hne : b.ready ≠ [] := fun he => by rw [he] at hlen; cases hlen
      obtain ⟨hok, herr⟩ := leads_atomic.1 (bindNext_leads hb.dealt h₀ hr hne)
      refine leads_atomic.2 ⟨fun b' hb' => ⟨hb.bindNext hα h₀ hn hr hnum hne hb', ?_⟩, herr⟩
      have := (hok b' hb').2
      rw [List.length_cons] at hlen
      omega)
    (l := List.replicate b₀.ready.length ()) ⟨h₀.served rule, by simp⟩
  unfold dispatchList
  rw [leads_bind, leads_get]
  exact hloop.mono (fun _ b hb => ⟨hb.1, List.eq_nil_of_length_eq_zero hb.2⟩) fun _ _ he => he

end

/-- What a list rule does to a batch. The VMs that are busy in the end are those that were busy before and
those that were given a task. -/
structure Selection (rule : Rule) (b₀ b : Batch α) : Prop where
  ready : b.ready = []
  order : StablySorted (Precedes rule b₀.workflow) b₀.ready b.bound
  arrival : rule = .fcfs → b.bound = b₀.ready
  selected : ∀ done x rest, b.bound = done ++ x :: rest → Selected b₀ b done x
  vms : List.Forall₂ (fun u v => v = { u with busy := v.busy } ∧
    (v.busy = true ↔ Taken b.workflow b.bound u)) b₀.vms b.vms
  others : ∀ x, x ∉ b.bound → b.workflow.find? x = b₀.workflow.find? x
  workflow : b₀.workflow.Kin b.workflow
  session : b.session = b₀.session

theorem Served.selection (h : Served rule b₀ b) (h₀ : Fresh b₀) (hready : b.ready = []) :
    Selection rule b₀ b := by
  have horder : StablySorted (Precedes rule b₀.workflow) b₀.ready b.bound := by
    refine ⟨?_, h.pairs⟩
    have hperm := h.dealt.perm
    rwa [hready, List.append_nil] at hperm
  refine ⟨hready, horder, ?_, h.selected, ?_, h.dealt.untouched, h.dealt.workflow, h.dealt.session⟩
  · rintro rfl
    exact horder.eq_self h₀.nodup fun _ _ => id
  · refine List.forall₂_iff_get.2 ⟨h.dealt.vms.length_eq, fun i hi hj => ⟨?_, ?_⟩⟩
    · rcases h.dealt.vms.get hi hj with he | he <;> rw [he]
    · exact h.busy i _ _ (List.getElem?_eq_getElem hi) (List.getElem?_eq_getElem hj)

/-- Where every ready task has a feasible VM, the list rules bind all of them in stable order, and write
nothing but their VMs and which VMs are busy. -/
theorem dispatch_selects (hα : Ordered α) (rule : Rule) (hr : isListRule rule) (b₀ : Batch α)
    (h₀ : Fresh b₀) (hne : b₀.vms ≠ []) (hn : (b₀.vms.map Vm.id).Nodup)
    (hf : ∀ x ∈ b₀.ready, ∃ t, b₀.workflow.find? x = some t ∧ ∃ v ∈ b₀.vms, isFeasible t v = true)
    (hnum : ∀ x ∈ b₀.ready, ∀ t, b₀.workflow.find? x = some t → IsNumber t.length) :
    ∃ b, dispatch rule b₀ = .ok () b ∧ Selection rule b₀ b := by
  have hrun : dispatch rule b₀ = dispatchList rule b₀ := by
    unfold dispatch
    rw [get_bind]
    cases hfb : fallback? b₀.vms with
    | none => exact absurd (fallback?_eq_none hfb) hne
    | some fallback => rcases hr with rfl | rfl | rfl <;> rfl
  have hlead := dispatchList_serves hα h₀ hn hr hnum
  cases hres : dispatchList rule b₀ with
  | ok u b =>
    obtain ⟨hb, hready⟩ := hlead.of_ok hres
    exact ⟨b, hrun.trans hres, hb.selection h₀ hready⟩
  | error fault b =>
    obtain ⟨x, hx, t, ht, hno⟩ := hlead.of_error hres
    obtain ⟨u, hu, v, hv, hfeas⟩ := hf x hx
    obtain rfl := Option.some.inj (ht.symm.trans hu)
    rw [hno v hv] at hfeas
    cases hfeas

/-- Two tasks of one length and two of another, for a busy VM and an idle one. A faster VM is not feasible
for any of them. -/
def crowd : Batch ℚ where
  workflow :=
    { tasks := [{ id := 1, length := 20, offload := 0 }, { id := 2, length := 10, offload := 0 },
        { id := 3, length := 20, offload := 0 }, { id := 4, length := 10, offload := 0 }]
      nodup := by decide }
  vms := [{ id := 7, mips := 10, busy := true }, { id := 5, mips := 10 },
    { id := 6, mips := 50, datacenter := 1 }]
  ready := [3, 4, 1, 2]

theorem dispatch_selects_crowd : crowd.Fresh ∧ crowd.vms ≠ [] ∧ (crowd.vms.map Vm.id).Nodup ∧
    ∃ b, dispatch .minMin crowd = .ok () b ∧ Selection .minMin crowd b := by
  have hfresh : crowd.Fresh := ⟨rfl, by decide, by decide⟩
  have hne : crowd.vms ≠ [] := by decide
  have hn : (crowd.vms.map Vm.id).Nodup := by decide
  refine ⟨hfresh, hne, hn, dispatch_selects ordered_rat .minMin (Or.inl rfl) crowd hfresh hne hn
    (fun x hx => ?_) fun _ _ t _ => isNumber_rat t.length⟩
  have hfeas : ∀ t ∈ crowd.workflow.tasks, ∃ v ∈ crowd.vms, isFeasible t v = true := by decide
  have hknown : x ∈ crowd.workflow.ids := hfresh.known x hx
  obtain ⟨t, ht⟩ := Workflow.mem_ids.1 hknown
  exact ⟨t, ht, hfeas t (Workflow.find?_eq_some.1 ht).1⟩

end FlowSched.Batch

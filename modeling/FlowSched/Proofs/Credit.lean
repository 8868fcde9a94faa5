import Mathlib.Algebra.Order.BigOperators.Group.List
import Mathlib.Data.List.Perm.Subperm
import FlowSched.Proofs.Checked

/-!
# Counting finished parents

A task waits until as many entries of child lists have named it as it has parents. The entries that
the tasks of a list contribute are its `credits`. A workflow may be checked and yet name a task too
often or too rarely; where no list repeats an id, the credits reach the number of parents exactly
when every parent has contributed (`mem_of_need_le`).
-/

namespace FlowSched.Workflow

/-- The number of parents a task waits for. -/
def need (w : Workflow ℚ) (t : ℤ) : ℕ := (((w.find? t).map Task.parents).getD []).length

/-- How often a task names another as its child. -/
def weight (w : Workflow ℚ) (p t : ℤ) : ℕ := (((w.find? p).map Task.children).getD []).count t

/-- How often the tasks of a list name a task as their child. -/
def credits (w : Workflow ℚ) (done : List ℤ) (t : ℤ) : ℕ := (done.map (w.weight · t)).sum

variable {w : Workflow ℚ} {t p : ℤ} {a b : List ℤ}

theorem need_eq {u : Task ℚ} (h : w.find? t = some u) : w.need t = u.parents.length := by
  simp [need, h]

theorem weight_eq {u : Task ℚ} (h : w.find? p = some u) : w.weight p t = u.children.count t := by
  simp [weight, h]

@[simp] theorem credits_nil : w.credits [] t = 0 := by simp only [credits, List.map_nil, List.sum_nil]

@[simp] theorem credits_append : w.credits (a ++ b) t = w.credits a t + w.credits b t := by
  simp only [credits, List.map_append, List.sum_append]

@[simp] theorem credits_cons : w.credits (p :: a) t = w.weight p t + w.credits a t := by
  simp only [credits, List.map_cons, List.sum_cons]

theorem credits_perm (h : a.Perm b) : w.credits a t = w.credits b t := (h.map _).sum_eq

/-- More tasks contribute no less. -/
theorem credits_le (hn : a.Nodup) (h : a ⊆ b) : w.credits a t ≤ w.credits b t := by
  obtain ⟨c, hperm, hsub⟩ := List.subperm_of_subset hn h
  rw [← credits_perm hperm]
  exact (hsub.map _).sum_le_sum fun _ _ => Nat.zero_le _

/-! ## Checked workflows -/

section

variable (hw : w.Checked)

include hw

/-- Only parents contribute. -/
theorem Checked.mem_parents {u : Task ℚ} (hu : w.find? t = some u) (h : w.weight p t ≠ 0) :
    p ∈ u.parents := by
  cases hp : w.find? p with
  | none => simp [weight, hp] at h
  | some v =>
    rw [weight_eq hp] at h
    obtain ⟨hv, rfl⟩ := find?_eq_some.1 hp
    obtain ⟨u', hu', hm⟩ := hw.child v hv t (List.count_pos_iff.1 (Nat.pos_of_ne_zero h))
    rw [hu] at hu'
    exact Option.some.inj hu' ▸ hm

/-- A parent contributes. -/
theorem Checked.weight_ne_zero {u : Task ℚ} (hu : w.find? t = some u) (h : p ∈ u.parents) :
    w.weight p t ≠ 0 := by
  obtain ⟨hmem, rfl⟩ := find?_eq_some.1 hu
  obtain ⟨v, hv, hm⟩ := hw.parent u hmem p h
  rw [weight_eq hv]
  exact (List.count_pos_iff.2 hm).ne'

/-- Once the parents have contributed, nothing is missing. -/
theorem Checked.credits_eq_total {u : Task ℚ} (hu : w.find? t = some u) (hn : a.Nodup)
    (hsub : a ⊆ w.ids) (h : ∀ p ∈ u.parents, p ∈ a) : w.credits a t = w.credits w.ids t := by
  refine le_antisymm (credits_le hn hsub) ?_
  have hrest : w.credits w.ids t = w.credits (w.ids.filter (w.weight · t ≠ 0)) t := by
    unfold credits
    generalize w.ids = ids
    induction ids with
    | nil => rfl
    | cons i ids ih => by_cases hi : w.weight i t = 0 <;> simpa [hi] using ih
  rw [hrest]
  refine credits_le (w.nodup.filter _) fun p hp => h p (hw.mem_parents hu ?_)
  simpa using (List.mem_filter.1 hp).2

end

/-! ## Workflows without repeated edges -/

section

variable (hd : w.Distinct)

include hd

theorem Distinct.weight_le_one (p t : ℤ) : w.weight p t ≤ 1 := by
  cases hp : w.find? p with
  | none => simp [weight, hp]
  | some v =>
    rw [weight_eq hp]
    exact List.nodup_iff_count_le_one.1 (hd.children v (find?_eq_some.1 hp).1) t

/-- Where no edge is listed twice, credits count contributing tasks. -/
theorem Distinct.credits_eq : w.credits a t = (a.filter (w.weight · t ≠ 0)).length := by
  unfold credits
  induction a with
  | nil => rfl
  | cons p a ih =>
    have hle := hd.weight_le_one p t
    by_cases hp : w.weight p t = 0
    · simpa [hp] using ih
    · have hone : w.weight p t = 1 := by omega
      simpa [hone, add_comm] using ih

variable (hw : w.Checked)

include hw

/-- Where no edge is listed twice, enough credits are those of all parents. -/
theorem mem_of_need_le {u : Task ℚ} (hu : w.find? t = some u) (hn : a.Nodup)
    (h : w.need t ≤ w.credits a t) : ∀ p ∈ u.parents, p ∈ a := by
  rw [need_eq hu, hd.credits_eq] at h
  have hsub : (a.filter (w.weight · t ≠ 0)) ⊆ u.parents := fun p hp =>
    hw.mem_parents hu (by simpa using (List.mem_filter.1 hp).2)
  have hperm := (List.subperm_of_subset (hn.filter _) hsub).perm_of_length_le h
  exact fun p hp => List.mem_of_mem_filter (hperm.mem_iff.2 hp)

/-- Where no edge is listed twice, the parents suffice. -/
theorem need_le_of_mem {u : Task ℚ} (hu : w.find? t = some u) (h : ∀ p ∈ u.parents, p ∈ a) :
    w.need t ≤ w.credits a t := by
  rw [need_eq hu, hd.credits_eq]
  refine (List.subperm_of_subset (hd.parents u (find?_eq_some.1 hu).1) fun p hp => ?_).length_le
  exact List.mem_filter.2 ⟨h p hp, by simpa using hw.weight_ne_zero hu hp⟩

end

end FlowSched.Workflow

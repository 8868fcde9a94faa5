import FlowSched.Proofs.Checked

/-!
# Mirrored edges that rise

Whatever its numbers are, a workflow that passes its check lists every edge at both ends, and its ids can be
ranked below their number so that every child stands above its parents (`exists_woven`).
-/

namespace FlowSched.Workflow

variable {α : Type} [Quantity α] {w w' : Workflow α} {rank : ℤ → ℕ} {t : Task α} {x : ℤ}

/-- The two ends of every edge name each other, and every edge leads upwards in a ranking of the ids. -/
structure Woven (w : Workflow α) (rank : ℤ → ℕ) : Prop extends Mirrored w, Ranking w rank

/-- Places in a topological order are such a ranking. -/
theorem exists_woven (h : w.check = .ok ()) : ∃ rank, w.Woven rank := by
  obtain ⟨order, -, hr⟩ := exists_order_of_check h
  exact ⟨place order, mirrored_of_check h, hr⟩

/-- Parents rank below. -/
theorem Woven.rank_parent (h : w.Woven rank) (ht : t ∈ w.tasks) (hx : x ∈ t.parents) :
    rank x < rank t.id := by
  obtain ⟨u, hu, rfl, hc⟩ := h.exists_parent ht hx
  exact h.rise u hu t.id hc

/-- A woven workflow has a topological order. -/
theorem Woven.exists_topologicalOrder (h : w.Woven rank) : ∃ order, w.topologicalOrder = .ok order :=
  orderFrom_complete h.rise fun _ ht _ hc => contains_iff.2 (h.mem_ids_of_child ht hc)

/-- Kin of woven workflows are woven. -/
theorem Woven.of_kin (h : w.Woven rank) (hk : w.Kin w') : w'.Woven rank :=
  ⟨h.toMirrored.of_kin hk, h.toRanking.of_kin hk⟩

end FlowSched.Workflow

import Mathlib.Data.List.Chain
import FlowSched.Planning.Path
import FlowSched.Proofs.Session
import FlowSched.Proofs.Woven

/-!
# The order of paths

The paths that are listed are those a walk with an explicit stack comes upon, which starts at each root and
replaces a path by the paths to the children of its last task (`exists_pathsByStack`). They are all
ways from a root to an exit (`mem_paths_iff`). Roots come in order of discovery, and of two paths from one
root the one that turns to the earlier child where they part comes first (`pairwise_paths`).
-/

namespace FlowSched.Workflow

variable {α : Type} [Quantity α] {w : Workflow α} {rank : ℤ → ℕ} {path : List ℤ} {x : ℤ}

/-! ## Ways from a root to an exit -/

/-- The child list of a task, empty where there is no task. -/
def childrenOf (w : Workflow α) (x : ℤ) : List ℤ := ((w.find? x).map Task.children).getD []

theorem childrenOf_eq {t : Task α} (ht : w.find? x = some t) : w.childrenOf x = t.children := by
  rw [childrenOf, ht]
  rfl

theorem exists_of_mem_childrenOf {y : ℤ} (h : y ∈ w.childrenOf x) :
    ∃ t, w.find? x = some t ∧ y ∈ t.children := by
  cases ht : w.find? x with
  | none =>
    rw [childrenOf, ht] at h
    cases h
  | some t => exact ⟨t, rfl, childrenOf_eq ht ▸ h⟩

/-- A path on which every task is a child of the one before, down to an exit. -/
structure Onward (w : Workflow α) (path : List ℤ) : Prop where
  chain : path.IsChain fun x y => y ∈ w.childrenOf x
  exit : ∃ t ∈ w.exits, path.getLast? = some t.id

/-- Such a path from a root. -/
structure Through (w : Workflow α) (path : List ℤ) : Prop extends Onward w path where
  root : ∃ t ∈ w.roots, path.head? = some t.id

theorem onward_singleton {t : Task α} (ht : t ∈ w.tasks) (he : t.children = []) : w.Onward [t.id] :=
  ⟨.singleton _, t, List.mem_filter.2 ⟨ht, by simp [he]⟩, rfl⟩

theorem onward_cons_cons {y : ℤ} {rest : List ℤ} :
    w.Onward (x :: y :: rest) ↔ y ∈ w.childrenOf x ∧ w.Onward (y :: rest) := by
  constructor
  · rintro ⟨hchain, t, ht, hlast⟩
    obtain ⟨hy, hrest⟩ := List.isChain_cons_cons.1 hchain
    exact ⟨hy, hrest, t, ht, by rwa [List.getLast?_cons_cons] at hlast⟩
  · rintro ⟨hy, hchain, t, ht, hlast⟩
    exact ⟨List.isChain_cons_cons.2 ⟨hy, hchain⟩, t, ht, by rwa [List.getLast?_cons_cons]⟩

/-- From a task a way leads nowhere, if that is an exit, or on to a child. -/
theorem onward_cons {t : Task α} (ht : t ∈ w.tasks) {rest : List ℤ} : w.Onward (t.id :: rest) ↔
    t.children = [] ∧ rest = [] ∨ ∃ c ∈ t.children, ∃ next, rest = c :: next ∧ w.Onward (c :: next) := by
  constructor
  · intro h
    cases rest with
    | nil =>
      obtain ⟨u, hu, hlast⟩ := h.exit
      obtain ⟨hum, hue⟩ := List.mem_filter.1 hu
      obtain rfl := List.inj_on_of_nodup_map w.nodup ht hum (Option.some.inj hlast)
      exact Or.inl ⟨List.isEmpty_iff.1 hue, rfl⟩
    | cons c next =>
      obtain ⟨hc, hnext⟩ := onward_cons_cons.1 h
      rw [childrenOf_eq (find?_self ht)] at hc
      exact Or.inr ⟨c, hc, next, rfl, hnext⟩
  · rintro (⟨he, rfl⟩ | ⟨c, hc, next, rfl, hnext⟩)
    · exact onward_singleton ht he
    · exact onward_cons_cons.2 ⟨childrenOf_eq (find?_self ht) ▸ hc, hnext⟩

theorem pathsFrom_succ (w : Workflow α) (fuel : ℕ) (x : ℤ) : w.pathsFrom (fuel + 1) x =
    if (w.childrenOf x).isEmpty then [[x]]
    else ((w.childrenOf x).flatMap (w.pathsFrom fuel)).map (x :: ·) := rfl

theorem head?_of_mem_pathsFrom {fuel : ℕ} (h : path ∈ w.pathsFrom fuel x) : path.head? = some x := by
  cases fuel with
  | zero => cases h
  | succ fuel =>
    rw [pathsFrom_succ] at h
    split at h
    · rw [List.mem_singleton.1 h]
      rfl
    · obtain ⟨_, -, rfl⟩ := List.mem_map.1 h
      rfl

theorem Onward.mem_ids (h : w.Onward path) : ∀ x ∈ path, x ∈ w.ids := by
  induction path with
  | nil => simp
  | cons x path ih =>
    rw [List.forall_mem_cons]
    cases path with
    | nil =>
      obtain ⟨t, ht, hlast⟩ := h.exit
      have hid : x = t.id := Option.some.inj hlast
      exact ⟨hid ▸ List.mem_map_of_mem (List.mem_of_mem_filter ht), by simp⟩
    | cons y rest =>
      obtain ⟨hy, hrest⟩ := onward_cons_cons.1 h
      obtain ⟨t, ht, -⟩ := exists_of_mem_childrenOf hy
      exact ⟨Workflow.mem_ids.2 ⟨t, ht⟩, ih hrest⟩

section

variable (hw : w.Woven rank)

include hw

/-- Paths climb along the ranks. -/
theorem Onward.climbs (h : w.Onward path) : path.Pairwise fun x y => rank x < rank y := by
  have htrans : IsTrans ℤ fun x y => rank x < rank y := ⟨fun _ _ _ => lt_trans⟩
  refine List.isChain_iff_pairwise.1 (h.chain.imp fun x y hy => ?_)
  obtain ⟨t, ht, hc⟩ := exists_of_mem_childrenOf hy
  obtain ⟨hm, rfl⟩ := find?_eq_some.1 ht
  exact hw.rise t hm y hc

/-- With fuel for the ranks above a task, all ways onward are listed. -/
theorem mem_pathsFrom_iff (fuel : ℕ) (hx : x ∈ w.ids) (hfuel : w.size ≤ rank x + fuel) :
    path ∈ w.pathsFrom fuel x ↔ path.head? = some x ∧ w.Onward path := by
  induction fuel generalizing x path with
  | zero =>
    have := hw.lt_size x hx
    omega
  | succ fuel ih =>
    obtain ⟨t, ht⟩ := mem_ids.1 hx
    obtain ⟨hm, rfl⟩ := find?_eq_some.1 ht
    have hchild : ∀ c ∈ t.children, ∀ path,
        path ∈ w.pathsFrom fuel c ↔ path.head? = some c ∧ w.Onward path := fun c hc path =>
      ih (hw.mem_ids_of_child hm hc) (by have := hw.rise t hm c hc; omega)
    rw [pathsFrom_succ, childrenOf_eq ht]
    split
    · next he =>
      have he : t.children = [] := List.isEmpty_iff.1 he
      rw [List.mem_singleton]
      constructor
      · rintro rfl
        exact ⟨rfl, onward_singleton hm he⟩
      · rintro ⟨hhead, h⟩
        obtain ⟨rest, rfl⟩ := List.head?_eq_some_iff.1 hhead
        rcases (onward_cons hm).1 h with ⟨-, rfl⟩ | ⟨c, hc, -⟩
        · rfl
        · rw [he] at hc
          cases hc
    · next he =>
      simp only [List.mem_map, List.mem_flatMap]
      constructor
      · rintro ⟨p, ⟨c, hc, hp⟩, rfl⟩
        obtain ⟨hhead, h⟩ := (hchild c hc p).1 hp
        obtain ⟨next, rfl⟩ := List.head?_eq_some_iff.1 hhead
        exact ⟨rfl, (onward_cons hm).2 (Or.inr ⟨c, hc, next, rfl, h⟩)⟩
      · rintro ⟨hhead, h⟩
        obtain ⟨rest, rfl⟩ := List.head?_eq_some_iff.1 hhead
        rcases (onward_cons hm).1 h with ⟨hnone, -⟩ | ⟨c, hc, next, rfl, hnext⟩
        · exact absurd (List.isEmpty_iff.2 hnone) he
        · exact ⟨c :: next, ⟨c, hc, (hchild c hc _).2 ⟨rfl, hnext⟩⟩, rfl⟩

theorem mem_pathsFrom_size (hx : x ∈ w.ids) :
    path ∈ w.pathsFrom w.size x ↔ path.head? = some x ∧ w.Onward path :=
  mem_pathsFrom_iff hw w.size hx (Nat.le_add_left _ _)

/-- The paths that are listed are the ways from a root to an exit. -/
theorem mem_paths_iff : path ∈ w.paths ↔ w.Through path := by
  have hone : ∀ t ∈ w.roots, (path ∈ w.pathsFrom w.size t.id ↔ path.head? = some t.id ∧ w.Onward path) :=
    fun t ht => mem_pathsFrom_size hw (List.mem_map_of_mem (List.mem_of_mem_filter ht))
  simp only [paths, List.mem_flatMap]
  constructor
  · rintro ⟨t, ht, hp⟩
    obtain ⟨hhead, h⟩ := (hone t ht).1 hp
    exact ⟨h, t, ht, hhead⟩
  · rintro ⟨h, t, ht, hhead⟩
    exact ⟨t, ht, (hone t ht).2 ⟨hhead, h⟩⟩

/-- From every task some way leads onward. -/
theorem exists_onward (hx : x ∈ w.ids) : ∃ path, path.head? = some x ∧ w.Onward path := by
  -- induction on how many ranks are left above the task
  induction hn : w.size - rank x using Nat.strong_induction_on generalizing x with
  | h n ih =>
    obtain ⟨t, ht⟩ := mem_ids.1 hx
    obtain ⟨hm, rfl⟩ := find?_eq_some.1 ht
    cases hc : t.children with
    | nil => exact ⟨[t.id], rfl, onward_singleton hm hc⟩
    | cons c cs =>
      have hmem : c ∈ t.children := by simp [hc]
      have hid := hw.mem_ids_of_child hm hmem
      have hlt := hw.rise t hm c hmem
      have hsize := hw.lt_size c hid
      obtain ⟨path, hhead, h⟩ := ih _ (by omega) hid rfl
      obtain ⟨rest, rfl⟩ := List.head?_eq_some_iff.1 hhead
      exact ⟨t.id :: c :: rest, rfl, (onward_cons hm).2 (Or.inr ⟨c, hmem, rest, rfl, h⟩)⟩

/-- Where there is a task, there is a path. -/
theorem paths_ne_nil (hne : w.tasks ≠ []) : w.paths ≠ [] := by
  obtain ⟨t, ht⟩ := List.exists_mem_of_ne_nil _ hne
  -- the lowest task has no parents, as a parent would be lower
  obtain ⟨r, hr, hmin⟩ := (measure fun u : Task α => rank u.id).wf.has_min {u | u ∈ w.tasks} ⟨t, ht⟩
  have hroot : r ∈ w.roots := by
    refine List.mem_filter.2 ⟨hr, ?_⟩
    cases hp : r.parents with
    | nil => rfl
    | cons p ps =>
      have hmem : p ∈ r.parents := by simp [hp]
      obtain ⟨u, hu, -⟩ := hw.parent r hr p hmem
      obtain ⟨hum, rfl⟩ := find?_eq_some.1 hu
      exact absurd (hw.rank_parent hr hmem) (hmin u hum)
  obtain ⟨path, hhead, h⟩ := exists_onward hw (List.mem_map_of_mem hr)
  exact List.ne_nil_of_mem ((mem_paths_iff hw).2 ⟨h, r, hroot, hhead⟩)

end

/-! ## Which path comes first -/

/-- The first path turns to an earlier child than the second one where they part. -/
def PartsBefore (w : Workflow α) (p q : List ℤ) : Prop :=
  ∃ common x y z ps qs, p = common ++ x :: y :: ps ∧ q = common ++ x :: z :: qs ∧
    [y, z].Sublist (w.childrenOf x)

/-- The first path starts at an earlier root, or parts from the second one before it. -/
def Earlier (w : Workflow α) (p q : List ℤ) : Prop :=
  (∃ r s ps qs, p = r :: ps ∧ q = s :: qs ∧ [r, s].Sublist (w.roots.map Task.id)) ∨ w.PartsBefore p q

theorem PartsBefore.cons {p q : List ℤ} (h : w.PartsBefore p q) (x : ℤ) :
    w.PartsBefore (x :: p) (x :: q) := by
  obtain ⟨common, y, a, b, ps, qs, rfl, rfl, hab⟩ := h
  exact ⟨x :: common, y, a, b, ps, qs, rfl, rfl, hab⟩

theorem pairwise_pathsFrom (w : Workflow α) (fuel : ℕ) (x : ℤ) :
    (w.pathsFrom fuel x).Pairwise w.PartsBefore := by
  induction fuel generalizing x with
  | zero => exact .nil
  | succ fuel ih =>
    rw [pathsFrom_succ]
    split
    · exact List.pairwise_singleton _ _
    · rw [List.pairwise_map, List.pairwise_flatMap]
      constructor
      · exact fun c _ => (ih c).imp fun h => h.cons x
      · refine List.pairwise_iff_forall_sublist.2 fun hab p hp q hq => ?_
        obtain ⟨ps, rfl⟩ := List.head?_eq_some_iff.1 (head?_of_mem_pathsFrom hp)
        obtain ⟨qs, rfl⟩ := List.head?_eq_some_iff.1 (head?_of_mem_pathsFrom hq)
        exact ⟨[], x, _, _, ps, qs, rfl, rfl, hab⟩

/-- Paths are listed by root, and those of one root in lexicographic order of the child lists. -/
theorem pairwise_paths (w : Workflow α) : w.paths.Pairwise w.Earlier := by
  rw [paths, List.pairwise_flatMap]
  constructor
  · exact fun t _ => (pairwise_pathsFrom w w.size t.id).imp Or.inr
  · refine List.pairwise_iff_forall_sublist.2 fun hab p hp q hq => Or.inl ?_
    obtain ⟨ps, rfl⟩ := List.head?_eq_some_iff.1 (head?_of_mem_pathsFrom hp)
    obtain ⟨qs, rfl⟩ := List.head?_eq_some_iff.1 (head?_of_mem_pathsFrom hq)
    exact ⟨_, _, ps, qs, rfl, rfl, hab.map Task.id⟩

/-- No path comes before itself where no child is repeated. -/
theorem Earlier.ne (hd : w.Distinct) {p q : List ℤ} (h : w.Earlier p q) : p ≠ q := by
  rintro rfl
  have hself : ∀ {l : List ℤ}, l.Nodup → ∀ {x}, ¬ [x, x].Sublist l := fun hn _ h =>
    Session.not_pair_sublist hn h h
  rcases h with ⟨r, s, ps, qs, rfl, he, hrs⟩ | ⟨common, x, y, z, ps, qs, rfl, he, hyz⟩
  · obtain ⟨rfl, -⟩ := List.cons.inj he
    exact hself (w.nodup.sublist (List.filter_sublist.map _)) hrs
  · obtain ⟨-, hyz'⟩ := List.cons.inj (List.append_cancel_left he)
    obtain ⟨rfl, -⟩ := List.cons.inj hyz'
    obtain ⟨t, ht, -⟩ := exists_of_mem_childrenOf (hyz.subset List.mem_cons_self)
    rw [childrenOf_eq ht] at hyz
    exact hself (hd.children t (find?_eq_some.1 ht).1) hyz

theorem nodup_paths (hd : w.Distinct) : w.paths.Nodup := (pairwise_paths w).imp fun h => h.ne hd

/-! ## The walk with a stack -/

/-- Takes the top path off a stack as long as there is one. A path to an exit is found; any other one is
extended by each child of its last task, and the extended paths are pushed in reverse. There is no result if
fuel runs out or a task is missing. -/
def unstack (w : Workflow α) : ℕ → List (List ℤ) → List (List ℤ) → Option (List (List ℤ))
  | _, found, [] => some found
  | 0, _, _ :: _ => none
  | fuel + 1, found, path :: stack => do
    let t ← w.find? (← path.getLast?)
    if t.children.isEmpty then w.unstack fuel (found ++ [path]) stack
    else w.unstack fuel found (t.children.reverse.foldl (fun stack c => (path ++ [c]) :: stack) stack)

/-- What is found from all roots, one after the other. -/
def pathsByStack (w : Workflow α) (fuel : ℕ) : Option (List (List ℤ)) :=
  w.roots.foldlM (fun found t => w.unstack fuel found [[t.id]]) []

theorem foldl_push (path : List ℤ) (children : List ℤ) (stack : List (List ℤ)) :
    children.reverse.foldl (fun stack c => (path ++ [c]) :: stack) stack =
      children.map (fun c => path ++ [c]) ++ stack := by
  rw [List.foldl_reverse]
  induction children with
  | nil => rfl
  | cons c cs ih => rw [List.foldr_cons, ih, List.map_cons, List.cons_append]

/-- Paths on the stack that take finitely many turns each take finitely many turns together. -/
theorem unstack_all (path : List ℤ) (found : ℤ → List (List ℤ)) {children : List ℤ}
    (h : ∀ c ∈ children, ∃ n, ∀ fuel done stack, w.unstack (n + fuel) done ((path ++ [c]) :: stack) =
      w.unstack fuel (done ++ (found c).map (path ++ ·)) stack) :
    ∃ n, ∀ fuel done stack,
      w.unstack (n + fuel) done (children.map (fun c => path ++ [c]) ++ stack) =
        w.unstack fuel (done ++ (children.flatMap found).map (path ++ ·)) stack := by
  induction children with
  | nil => exact ⟨0, fun fuel done stack => by simp⟩
  | cons c cs ih =>
    obtain ⟨n, hn⟩ := h c List.mem_cons_self
    obtain ⟨m, hm⟩ := ih fun c hc => h c (List.mem_cons_of_mem _ hc)
    refine ⟨n + m, fun fuel done stack => ?_⟩
    rw [List.map_cons, List.cons_append, Nat.add_assoc, hn, hm, List.flatMap_cons, List.map_append,
      List.append_assoc]

/-- One turn of the walk. -/
theorem unstack_succ {t : Task α} (ht : w.find? x = some t) (front : List ℤ) (fuel : ℕ)
    (done stack : List (List ℤ)) : w.unstack (fuel + 1) done ((front ++ [x]) :: stack) =
      if t.children.isEmpty then w.unstack fuel (done ++ [front ++ [x]]) stack
      else w.unstack fuel done (t.children.map (fun c => front ++ [x] ++ [c]) ++ stack) := by
  rw [unstack, List.getLast?_concat, ← foldl_push]
  simp only [Option.bind_eq_bind, Option.bind_some, ht]

section

variable (hw : w.Woven rank)

include hw

/-- A path on the stack is replaced by the paths found from its last task on, in finitely many turns. -/
theorem unstack_path (bound : ℕ) (hx : x ∈ w.ids) (hbound : w.size ≤ rank x + bound)
    (front : List ℤ) : ∃ n, ∀ fuel done stack,
      w.unstack (n + fuel) done ((front ++ [x]) :: stack) =
        w.unstack fuel (done ++ (w.pathsFrom bound x).map (front ++ ·)) stack := by
  induction bound generalizing x front with
  | zero =>
    have := hw.lt_size x hx
    omega
  | succ bound ih =>
    obtain ⟨t, ht⟩ := mem_ids.1 hx
    obtain ⟨hm, rfl⟩ := find?_eq_some.1 ht
    rw [pathsFrom_succ, childrenOf_eq ht]
    split
    · next he =>
      refine ⟨1, fun fuel done stack => ?_⟩
      rw [Nat.add_comm, unstack_succ ht, if_pos he]
      rfl
    · next he =>
      obtain ⟨n, hn⟩ := unstack_all (front ++ [t.id]) (w.pathsFrom bound) fun c hc =>
        ih (hw.mem_ids_of_child hm hc) (by have := hw.rise t hm c hc; omega) (front ++ [t.id])
      refine ⟨n + 1, fun fuel done stack => ?_⟩
      rw [Nat.add_right_comm, unstack_succ ht, if_neg he, hn]
      simp [Function.comp_def]

/-- The walk from the roots ends, and has found the paths that are listed. -/
theorem exists_pathsByStack : ∃ n, ∀ fuel, n ≤ fuel → w.pathsByStack fuel = some w.paths := by
  have hall : ∀ ts : List (Task α), (∀ t ∈ ts, t ∈ w.tasks) → ∃ n, ∀ fuel, n ≤ fuel → ∀ found,
      ts.foldlM (fun found t => w.unstack fuel found [[t.id]]) found =
        some (found ++ ts.flatMap fun t => w.pathsFrom w.size t.id) := by
    intro ts hts
    induction ts with
    | nil => exact ⟨0, fun fuel _ found => by simp⟩
    | cons t ts ih =>
      obtain ⟨n, hn⟩ := unstack_path hw w.size (List.mem_map_of_mem (hts t List.mem_cons_self))
        (Nat.le_add_left _ _) []
      obtain ⟨m, hm⟩ := ih fun t ht => hts t (List.mem_cons_of_mem _ ht)
      refine ⟨max n m, fun fuel hfuel found => ?_⟩
      obtain ⟨k, rfl⟩ := Nat.exists_eq_add_of_le ((Nat.le_max_left n m).trans hfuel)
      have hwalk := hn k found []
      have hend : ∀ found, w.unstack k found [] = some found := fun found => by cases k <;> rfl
      rw [List.nil_append, hend] at hwalk
      rw [List.foldlM_cons, hwalk, Option.bind_eq_bind, Option.bind_some,
        hm _ ((Nat.le_max_right n m).trans hfuel)]
      simp
  obtain ⟨n, hn⟩ := hall w.roots fun t ht => List.mem_of_mem_filter ht
  exact ⟨n, fun fuel hfuel => hn fuel hfuel []⟩

end

end FlowSched.Workflow

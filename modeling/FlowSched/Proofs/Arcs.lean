import Mathlib
import FlowSched.Workflow.Layered
import FlowSched.Proofs.Cost
import FlowSched.Proofs.Depth
import FlowSched.Proofs.Edge

/-!
# Workflows strung from arcs

A workflow that was built from bare tasks, one edge after the other, is described by the list of its arcs:
the edges with what each of them carries. The lists, the files and the transfer times of a task are those
of the arcs at it (`Task.strung`), and one more edge is one more arc at the end of the list
(`Strung.withFile`, `Strung.withTime`). As no two edges name the same file, each arc is priced by its own
load (`transferTime_strung`).
-/

namespace FlowSched

open Quantity LayerSpec

/-- An edge with what it carries: the size of its file, or its transfer time. -/
structure Arc where
  parent : ℤ
  child : ℤ
  load : ℚ

namespace Arc

/-- The two ends of an arc. -/
def ends (e : Arc) : ℤ × ℤ := (e.parent, e.child)

/-- The file of an arc, as one of its ends sees it. -/
def file (e : Arc) (role : FileRole) : DataFile ℚ := edgeFile e.parent e.child e.load role

/-- The files of an arc at a task. -/
def files (e : Arc) (id : ℤ) : List (DataFile ℚ) :=
  (if e.parent = id then [e.file .output] else []) ++ if e.child = id then [e.file .input] else []

end Arc

/-- A bare task with the arcs at it: they bring files or transfer times. -/
def Task.strung (useFiles : Bool) (arcs : List Arc) (t : Task ℚ) : Task ℚ :=
  { t with
    parents := (arcs.filter (·.child = t.id)).map Arc.parent
    children := (arcs.filter (·.parent = t.id)).map Arc.child
    files := if useFiles then arcs.flatMap (·.files t.id) else []
    transfers :=
      ⟨if useFiles then [] else (arcs.filter (·.child = t.id)).map fun e => (e.parent, e.load)⟩ }

/-- A workflow of bare tasks and the arcs between them. -/
def Workflow.Strung (w : Workflow ℚ) (useFiles : Bool) (bare : List (Task ℚ)) (arcs : List Arc) :
    Prop :=
  w.tasks = bare.map (Task.strung useFiles arcs)

/-! ## The name of a file -/

/-- The name of the file that passes along an edge. -/
def edgeName (parent child : ℤ) : String :=
  "t" ++ toString parent ++ "_to_t" ++ toString child ++ ".dat"

theorem underscore_notMem_toString (n : ℤ) : '_' ∉ (toString n).toList := by
  rw [Int.toString_eq_repr, Int.repr_eq_if]
  split_ifs
  · rw [Nat.toList_repr]
    exact Nat.underscore_not_in_toDigits
  · rw [String.toList_append, Nat.toList_repr, List.mem_append, not_or]
    exact ⟨by decide, Nat.underscore_not_in_toDigits⟩

theorem toString_inj {m n : ℤ} : toString m = toString n ↔ m = n := by
  rw [Int.toString_eq_repr, Int.toString_eq_repr, Int.repr_inj]

/-- No two edges have the same file. -/
theorem edgeName_inj {p c p' c' : ℤ} : edgeName p c = edgeName p' c' ↔ p = p' ∧ c = c' := by
  refine ⟨fun h => ?_, fun ⟨hp, hc⟩ => by rw [hp, hc]⟩
  -- the number of the parent ends at the first underscore
  have hfirst : ∀ q d : ℤ, (edgeName q d).toList.tail.takeWhile (· ≠ '_') = (toString q).toList := by
    intro q d
    have hsplit : (edgeName q d).toList.tail =
        (toString q).toList ++ '_' :: ("to_t" ++ toString d ++ ".dat").toList := by
      simp [edgeName, String.toList_append]
    rw [hsplit, List.takeWhile_append_of_pos, List.takeWhile_cons_of_neg (by simp), List.append_nil]
    intro a ha
    rw [decide_eq_true_eq]
    rintro rfl
    exact underscore_notMem_toString q ha
  have hp : p = p' := by
    rw [← toString_inj, ← String.toList_inj, ← hfirst p c, ← hfirst p' c', h]
  subst hp
  unfold edgeName at h
  rw [String.append_left_inj, String.append_right_inj, toString_inj] at h
  exact ⟨rfl, h⟩

/-! ## Adding an edge -/

section

variable {useFiles : Bool} {arcs : List Arc} {t : Task ℚ}

theorem mem_parents_strung {x : ℤ} :
    x ∈ (t.strung useFiles arcs).parents ↔ ∃ e ∈ arcs, e.child = t.id ∧ e.parent = x := by
  simp [Task.strung, and_assoc]

theorem mem_children_strung {x : ℤ} :
    x ∈ (t.strung useFiles arcs).children ↔ ∃ e ∈ arcs, e.parent = t.id ∧ e.child = x := by
  simp [Task.strung, and_assoc]

/-- An edge is added by a call if its ends are known and differ, and its time is not negative. -/
theorem Workflow.withEdge_ok {w : Workflow ℚ} {parent child : ℤ} {cost : Option ℚ} (hp : parent ∈ w.ids)
    (hc : child ∈ w.ids) (hne : parent ≠ child) (hcost : ∀ c, cost = some c → 0 ≤ c) :
    ∃ w', w.withEdge parent child cost = .ok w' ∧
      w'.tasks = w.tasks.map (Task.join parent child cost) := by
  have hknown : (!(w.contains parent && w.contains child)) = false := by
    simp [contains_iff.2 hp, contains_iff.2 hc]
  unfold withEdge addEdge
  rw [if_neg (by rw [hknown]; exact Bool.false_ne_true), if_neg hne]
  cases cost with
  | none => exact ⟨_, rfl, tasks_link hne⟩
  | some c =>
    simp only [if_neg (not_lt.2 (hcost c rfl))]
    exact ⟨_, rfl, tasks_setTransfer hne c⟩

variable {w : Workflow ℚ} {bare : List (Task ℚ)} {e : Arc} (hne : e.parent ≠ e.child)
  (hnew : e.ends ∉ arcs.map Arc.ends)

include hne hnew

omit hne in
/-- Arcs from the parent of a new edge lead elsewhere, and arcs to its child come from elsewhere. -/
theorem ends_ne_of_new : (∀ a ∈ arcs, a.parent = e.parent → ¬ a.child = e.child) ∧
    ∀ a ∈ arcs, a.child = e.child → ¬ a.parent = e.parent :=
  ⟨fun a ha hp hc => hnew (List.mem_map.2 ⟨a, ha, Prod.ext hp hc⟩),
    fun a ha hc hp => hnew (List.mem_map.2 ⟨a, ha, Prod.ext hp hc⟩)⟩

/-- A task with one more arc at it, which brings a file. -/
theorem Task.join_strung_file : (((t.strung true arcs).edit e.parent fun t =>
      { t with files := t.files ++ [e.file .output] }).edit e.child fun t =>
        { t with files := t.files ++ [e.file .input] }).join e.parent e.child none =
      t.strung true (arcs ++ [e]) := by
  obtain ⟨hchild, hparent⟩ := ends_ne_of_new hnew
  unfold Task.edit Task.join
  rcases eq_or_ne t.id e.parent with hp | hp
  · simpa [Task.strung, Arc.files, hp, hne, hne.symm] using hchild
  · rcases eq_or_ne t.id e.child with hc | hc
    · simpa [Task.strung, Arc.files, hc, hne, hne.symm] using hparent
    · simp [Task.strung, Arc.files, hp, hc, Ne.symm hp, Ne.symm hc]

/-- A task with one more arc at it, which brings a transfer time. -/
theorem Task.join_strung_time : (t.strung false arcs).join e.parent e.child (some e.load) =
    t.strung false (arcs ++ [e]) := by
  obtain ⟨hchild, hparent⟩ := ends_ne_of_new hnew
  have henter : Table.enter e.parent e.load ((arcs.filter (·.child = e.child)).map fun a =>
      (a.parent, a.load)) = ((arcs.filter (·.child = e.child)).map fun a => (a.parent, a.load)) ++
        [(e.parent, e.load)] :=
    Table.enter_eq_append (by simpa using hparent)
  unfold Task.join
  rcases eq_or_ne t.id e.parent with hp | hp
  · simpa [Task.strung, hp, hne, hne.symm] using hchild
  · rcases eq_or_ne t.id e.child with hc | hc
    · simpa [Task.strung, hc, hne, hne.symm, Table.set, henter] using hparent
    · simp [Task.strung, hp, hc, Ne.symm hp, Ne.symm hc]

/-- An edge with its file is one more arc. -/
theorem Workflow.Strung.withFile (h : w.Strung true bare arcs) (hp : e.parent ∈ w.ids)
    (hc : e.child ∈ w.ids) :
    ∃ w', (addFile (addFile w e.parent (e.file .output)) e.child (e.file .input)).withEdge e.parent
      e.child none = .ok w' ∧ w'.Strung true bare (arcs ++ [e]) := by
  have hids : (addFile (addFile w e.parent (e.file .output)) e.child (e.file .input)).ids = w.ids := by
    simp [addFile]
  obtain ⟨w', hw', htasks⟩ := withEdge_ok (hids ▸ hp) (hids ▸ hc) hne
    fun _ (hcost : none = some _) => by cases hcost
  refine ⟨w', hw', htasks.trans ?_⟩
  unfold addFile
  rw [tasks_modify, tasks_modify, h, List.map_map, List.map_map, List.map_map]
  exact List.map_congr_left fun t _ => Task.join_strung_file hne hnew

/-- An edge with its transfer time is one more arc. -/
theorem Workflow.Strung.withTime (h : w.Strung false bare arcs) (hp : e.parent ∈ w.ids)
    (hc : e.child ∈ w.ids) (hload : 0 ≤ e.load) :
    ∃ w', w.withEdge e.parent e.child (some e.load) = .ok w' ∧ w'.Strung false bare (arcs ++ [e]) := by
  obtain ⟨w', hw', htasks⟩ := withEdge_ok hp hc hne fun c hc => Option.some.inj hc ▸ hload
  refine ⟨w', hw', htasks.trans ?_⟩
  rw [h, List.map_map]
  exact List.map_congr_left fun t _ => Task.join_strung_time hne hnew

end

/-! ## What an arc costs -/

/-- The price of an edge: the time to move a file of that size over a bandwidth, or the time itself. -/
def price (useFiles : Bool) (bandwidth load : ℚ) : ℚ :=
  if useFiles then load / 1000000 * 8 / bandwidth else load

section

variable {useFiles : Bool} {arcs : List Arc} {t u : Task ℚ}

/-- The files of one role at a task are those of the arcs that have the task at that end. -/
theorem filter_files {role : FileRole} {x : ℤ} {p : Arc → Prop} [DecidablePred p]
    (hone : ∀ e : Arc, (e.files x).filter (·.role = role) = if p e then [e.file role] else [])
    (arcs : List Arc) : (arcs.flatMap (·.files x)).filter (·.role = role) =
      (arcs.filter (p ·)).map (·.file role) := by
  induction arcs with
  | nil => rfl
  | cons a arcs ih =>
    rw [List.flatMap_cons, List.filter_append, hone, ih, List.filter_cons]
    by_cases ha : p a <;> simp [ha]

theorem outputs_strung (arcs : List Arc) (t : Task ℚ) :
    (t.strung true arcs).outputs = (arcs.filter (·.parent = t.id)).map (·.file .output) := by
  refine filter_files (fun e => ?_) arcs
  by_cases hp : e.parent = t.id <;> by_cases hc : e.child = t.id <;>
    simp [Arc.files, Arc.file, edgeFile, hp, hc]

theorem inputs_strung (arcs : List Arc) (t : Task ℚ) :
    (t.strung true arcs).inputs = (arcs.filter (·.child = t.id)).map (·.file .input) := by
  refine filter_files (fun e => ?_) arcs
  by_cases hp : e.parent = t.id <;> by_cases hc : e.child = t.id <;>
    simp [Arc.files, Arc.file, edgeFile, hp, hc]

/-- A file tells the ends of its arc. -/
theorem file_name_eq {a : Arc} {role : FileRole} {p c : ℤ} :
    (a.file role).name = edgeName p c ↔ a.ends = (p, c) := by
  rw [Arc.ends, Prod.mk.injEq]
  exact edgeName_inj

variable (hn : (arcs.map Arc.ends).Nodup)

include hn

/-- What tells apart the arcs at one task is the same for no two of them. -/
theorem nodup_map_filter {κ : Type} {f : Arc → κ} {g : Arc → ℤ}
    (hfg : ∀ a b, f a = f b → g a = g b → a.ends = b.ends) (x : ℤ) :
    ((arcs.filter (g · = x)).map f).Nodup := by
  refine List.Nodup.map_on (fun a ha b hb h => ?_) ((List.Nodup.of_map _ hn).filter _)
  simp only [List.mem_filter, decide_eq_true_eq] at ha hb
  exact List.inj_on_of_nodup_map hn ha.1 hb.1 (hfg a b h (ha.2.trans hb.2.symm))

theorem nodup_parents_strung : (t.strung useFiles arcs).parents.Nodup :=
  nodup_map_filter hn (fun _ _ hp hc => Prod.ext hp hc) t.id

theorem nodup_children_strung : (t.strung useFiles arcs).children.Nodup :=
  nodup_map_filter hn (fun _ _ hc hp => Prod.ext hp hc) t.id

/-- The inputs of a task have distinct names. -/
theorem nodup_inputs : ((u.strung true arcs).inputs.map DataFile.name).Nodup := by
  rw [inputs_strung, List.map_map]
  exact nodup_map_filter hn (fun _ _ hname _ => file_name_eq.1 hname) u.id

/-- The input that matches an output of an arc is that of the same arc, if the arc leads to the task. -/
theorem find?_input {a : Arc} (ha : a ∈ arcs) :
    (u.strung true arcs).inputs.find? (·.name = (a.file .output).name) =
      (Option.guard (fun a : Arc => a.child = u.id) a).map (·.file .input) := by
  refine Option.ext fun input => ?_
  rw [find?_key_eq_some (nodup_inputs hn), inputs_strung, List.mem_map, Option.map_eq_some_iff]
  simp only [Option.guard_eq_some_iff, List.mem_filter]
  constructor
  · rintro ⟨⟨b, ⟨hb, hc⟩, rfl⟩, hname⟩
    obtain rfl := List.inj_on_of_nodup_map hn hb ha (file_name_eq.1 hname)
    exact ⟨b, ⟨rfl, hc⟩, rfl⟩
  · rintro ⟨b, ⟨rfl, hc⟩, rfl⟩
    exact ⟨⟨a, ⟨ha, hc⟩, rfl⟩, file_name_eq.2 rfl⟩

variable {e : Arc} (he : e ∈ arcs)

include he

/-- No other arc has the ends of an arc. -/
theorem filter_ends : (arcs.filter (·.parent = e.parent)).filter (·.child = e.child) = [e] := by
  rw [List.filter_filter]
  obtain ⟨before, after, rfl⟩ := List.append_of_mem he
  rw [List.map_append, List.map_cons, List.nodup_middle, List.nodup_cons, ← List.map_append] at hn
  have hother : ∀ a ∈ before ++ after,
      ¬ (decide (a.child = e.child) && decide (a.parent = e.parent)) = true := by
    intro a ha h
    obtain ⟨hc, hp⟩ := Bool.and_eq_true_iff.1 h
    exact hn.1 (List.mem_map.2 ⟨a, ha, Prod.ext (of_decide_eq_true hp) (of_decide_eq_true hc)⟩)
  rw [List.forall_mem_append] at hother
  rw [List.filter_append, List.filter_cons_of_pos (by simp), List.filter_eq_nil_iff.2 hother.1,
    List.filter_eq_nil_iff.2 hother.2, List.nil_append]

/-- Only its own file passes along an arc. -/
theorem sharedBytes_strung (ht : t.id = e.parent) (hu : u.id = e.child) :
    sharedBytes (t.strung true arcs) (u.strung true arcs) = e.load := by
  have hfind : ∀ a ∈ arcs.filter (·.parent = e.parent),
      ((fun file => (u.strung true arcs).inputs.find? (·.name = file.name)) ∘ (·.file .output)) a =
        (Option.guard (fun a : Arc => a.child = e.child) a).map (·.file .input) := fun a ha =>
    hu ▸ find?_input hn (List.mem_of_mem_filter ha)
  rw [sharedBytes_eq, outputs_strung, ht, List.filterMap_map, List.filterMap_congr hfind,
    ← List.map_filterMap, List.filterMap_eq_filter, filter_ends hn he]
  exact List.sum_singleton

/-- Of the files of some arcs only that of an arc itself bears its name. -/
theorem mem_map_file_iff {p : Arc → Prop} [DecidablePred p] (hp : p e) {role : FileRole}
    {file : DataFile ℚ} : file ∈ (arcs.filter (p ·)).map (·.file role) ∧
      file.name = edgeName e.parent e.child ↔ file = e.file role := by
  rw [List.mem_map]
  constructor
  · rintro ⟨⟨a, ha, rfl⟩, hname⟩
    rw [List.inj_on_of_nodup_map hn (List.mem_of_mem_filter ha) he (file_name_eq.1 hname)]
  · rintro rfl
    exact ⟨⟨e, List.mem_filter.2 ⟨he, decide_eq_true hp⟩, rfl⟩, rfl⟩

/-- The parent of an arc writes its file, and no other of that name. -/
theorem mem_outputs_iff (ht : t.id = e.parent) {file : DataFile ℚ} :
    file ∈ (t.strung true arcs).outputs ∧ file.name = edgeName e.parent e.child ↔
      file = e.file .output := by
  rw [outputs_strung]
  exact mem_map_file_iff hn he ht.symm

/-- The child of an arc reads its file, and no other of that name. -/
theorem mem_inputs_iff (hu : u.id = e.child) {file : DataFile ℚ} :
    file ∈ (u.strung true arcs).inputs ∧ file.name = edgeName e.parent e.child ↔
      file = e.file .input := by
  rw [inputs_strung]
  exact mem_map_file_iff hn he hu.symm

/-- An arc without a file is entered with its load in the table of its child. -/
theorem get?_transfers_strung (hu : u.id = e.child) :
    (u.strung false arcs).transfers.get? e.parent = some e.load := by
  have hkeys : (((arcs.filter (·.child = u.id)).map fun a => (a.parent, a.load)).map Prod.fst).Nodup := by
    rw [List.map_map]
    exact nodup_map_filter hn (fun _ _ hp hc => Prod.ext hp hc) u.id
  refine (Table.find_eq_some hkeys).2 (List.mem_map.2 ⟨e, List.mem_filter.2 ⟨he, ?_⟩, rfl⟩)
  exact decide_eq_true hu.symm

/-- Moving data along an arc takes the time of its own load. -/
theorem transferTime_strung (ht : t.id = e.parent) (hu : u.id = e.child) {bandwidth : ℚ}
    (hb : 0 < bandwidth) (hload : 0 ≤ e.load) :
    transferTime (t.strung useFiles arcs) (u.strung useFiles arcs) bandwidth =
      .ok (price useFiles bandwidth e.load) := by
  have hprice : ¬ price useFiles bandwidth e.load < 0 := by
    rw [not_lt]
    unfold price
    split_ifs
    · positivity
    · exact hload
  cases useFiles with
  | true =>
    have hnone : (u.strung true arcs).transfers.entries.isEmpty = true := rfl
    unfold transferTime
    rw [if_pos hnone, fileTransferTime_eq hb, sharedBytes_strung hn he ht hu]
    exact if_neg hprice
  | false =>
    have hget : (u.strung false arcs).transfers.get? (t.strung false arcs).id = some e.load :=
      ht ▸ get?_transfers_strung hn he hu
    have hsome : ¬ (u.strung false arcs).transfers.entries.isEmpty = true := by
      intro hempty
      rw [Table.get?, List.isEmpty_iff.1 hempty] at hget
      cases hget
    unfold transferTime
    rw [if_neg hsome, hget]
    exact if_neg hprice

end

/-! ## The workflow of the arcs -/

/-- Arcs between known tasks, no two with the same ends, and none with a negative load. -/
structure Arc.Among (ids : List ℤ) (arcs : List Arc) : Prop where
  nodup : (arcs.map Arc.ends).Nodup
  known : ∀ e ∈ arcs, e.parent ∈ ids ∧ e.child ∈ ids
  load : ∀ e ∈ arcs, 0 ≤ e.load

namespace Workflow

variable {w : Workflow ℚ} {useFiles : Bool} {bare : List (Task ℚ)} {arcs : List Arc}
  (h : w.Strung useFiles bare arcs)

include h

theorem Strung.ids : w.ids = bare.map Task.id := by
  rw [Workflow.ids, h, List.map_map]
  rfl

theorem Strung.exists_bare {t : Task ℚ} (ht : t ∈ w.tasks) :
    ∃ b ∈ bare, t = b.strung useFiles arcs := by
  rw [h] at ht
  obtain ⟨b, hb, rfl⟩ := List.mem_map.1 ht
  exact ⟨b, hb, rfl⟩

theorem Strung.exists_task {x : ℤ} (hx : x ∈ w.ids) :
    ∃ b ∈ bare, b.id = x ∧ w.find? x = some (b.strung useFiles arcs) := by
  obtain ⟨t, ht⟩ := mem_ids.1 hx
  obtain ⟨htm, rfl⟩ := find?_eq_some.1 ht
  obtain ⟨b, hb, rfl⟩ := h.exists_bare htm
  exact ⟨b, hb, rfl, ht⟩

theorem Strung.withDepths (depth : ℤ → ℤ) :
    (w.withDepths depth).Strung useFiles (bare.map fun t => { t with depth := depth t.id }) arcs := by
  show w.tasks.map _ = _
  rw [h, List.map_map, List.map_map]
  rfl

variable (ha : Arc.Among w.ids arcs)

include ha

/-- Every arc is listed at both of its ends. -/
theorem Strung.mirrored : w.Mirrored := by
  refine ⟨fun t ht => ?_, fun t ht => ?_⟩
  all_goals obtain ⟨b, hb, rfl⟩ := h.exists_bare ht
  · intro c hc
    obtain ⟨e, he, hp, rfl⟩ := mem_children_strung.1 hc
    obtain ⟨u, -, hu, hfind⟩ := h.exists_task (ha.known e he).2
    exact ⟨_, hfind, mem_parents_strung.2 ⟨e, he, hu.symm, hp⟩⟩
  · intro p hp
    obtain ⟨e, he, hc, rfl⟩ := mem_parents_strung.1 hp
    obtain ⟨u, -, hu, hfind⟩ := h.exists_task (ha.known e he).1
    exact ⟨_, hfind, mem_children_strung.2 ⟨e, he, hu.symm, hc⟩⟩

/-- Ends that can be ranked leave nothing to complain about. -/
theorem Strung.checked (hlen : ∀ t ∈ bare, 0 ≤ t.length) (hel : ∀ t ∈ bare, 1 ≤ t.elements)
    {rank : ℤ → ℕ} (hrank : ∀ e ∈ arcs, rank e.parent < rank e.child) : w.Checked := by
  refine ⟨h.mirrored ha, fun t ht => ?_, fun t ht => ?_, fun t ht => ?_, rank, fun t ht => ?_⟩
  all_goals obtain ⟨b, hb, rfl⟩ := h.exists_bare ht
  · exact hlen b hb
  · exact hel b hb
  · intro x hx
    obtain ⟨⟨p, y⟩, hy, rfl⟩ := List.mem_map.1 hx
    cases useFiles with
    | true => cases hy
    | false =>
      obtain ⟨e, he, heq⟩ := List.mem_map.1 hy
      rw [← (Prod.mk.inj heq).2]
      exact ha.load e (List.mem_of_mem_filter he)
  · intro c hc
    obtain ⟨e, he, hp, rfl⟩ := mem_children_strung.1 hc
    exact hp ▸ hrank e he

omit ha in
/-- A child is reached by an arc. -/
theorem Strung.exists_arc {t : Task ℚ} (ht : t ∈ w.tasks) {x : ℤ} (hx : x ∈ t.children) :
    ∃ e ∈ arcs, e.parent = t.id ∧ e.child = x := by
  obtain ⟨b, -, rfl⟩ := h.exists_bare ht
  exact mem_children_strung.1 hx

/-- The tasks at the ends of an arc. -/
theorem Strung.exists_ends {e : Arc} (he : e ∈ arcs) : ∃ t u : Task ℚ,
    t.id = e.parent ∧ u.id = e.child ∧ w.find? e.parent = some (t.strung useFiles arcs) ∧
      w.find? e.child = some (u.strung useFiles arcs) := by
  obtain ⟨t, -, ht, hfind⟩ := h.exists_task (ha.known e he).1
  obtain ⟨u, -, hu, hfind'⟩ := h.exists_task (ha.known e he).2
  exact ⟨t, u, ht, hu, hfind, hfind'⟩

/-- On VMs with a speed and over a positive bandwidth all arcs are priced by their own loads. -/
theorem Strung.exists_costs (hlen : ∀ t ∈ bare, 0 ≤ t.length) {vms : List (Vm ℚ)}
    (hv : ∀ v ∈ vms, 0 < v.mips) {bandwidth : ℚ} (hmean : meanBandwidth vms = .ok bandwidth)
    (hb : 0 < bandwidth) : ∃ c, Costs.ofWorkflow w vms = .ok c ∧
      ∀ e ∈ arcs, c.moving e.parent e.child = .ok (price useFiles bandwidth e.load) := by
  have hmove : ∀ e ∈ arcs, ∃ t u, w.find? e.parent = some t ∧ w.find? e.child = some u ∧
      e.child ∈ t.children ∧ transferTime t u bandwidth = .ok (price useFiles bandwidth e.load) := by
    intro e he
    obtain ⟨t, u, ht, hu, hfind, hfind'⟩ := h.exists_ends ha he
    exact ⟨_, _, hfind, hfind', mem_children_strung.2 ⟨e, he, ht.symm, rfl⟩,
      transferTime_strung ha.nodup he ht hu hb (ha.load e he)⟩
  have hlength : ∀ t ∈ w.tasks, 0 ≤ t.length := fun t ht => by
    obtain ⟨b, hb, rfl⟩ := h.exists_bare ht
    exact hlen b hb
  obtain ⟨c, hc, rfl⟩ := FlowSched.exists_costs hmean hv hlength fun t ht x hx => by
    obtain ⟨e, he, hp, rfl⟩ := h.exists_arc ht hx
    obtain ⟨t', u, hfind, hfind', -, htime⟩ := hmove e he
    rw [hp, find?_self ht] at hfind
    obtain rfl := Option.some.inj hfind
    exact ⟨u, _, hfind', htime⟩
  refine ⟨c, hc, fun e he => ?_⟩
  obtain ⟨t, u, hfind, hfind', hchild, htime⟩ := hmove e he
  exact (moving_iff hc).2 ⟨t, u, hfind, hchild, hfind', htime⟩

end Workflow

end FlowSched

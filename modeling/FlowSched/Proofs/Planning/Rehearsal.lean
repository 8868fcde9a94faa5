import Mathlib.Data.Nat.Factorial.Basic
import FlowSched.Proofs.Planning.Estimate
import FlowSched.Proofs.Planning.Later

/-!
# Rehearsing a group

A trial reads the instants and the planned times of parents. A rehearsal takes no instant and writes the
planned times of one task of a group, none of which is a parent of another. So after any rehearsals a
trial finds what it found before (`Alike.trial`), an arrangement is scored with the trial of its last task
alone, and committing it leads where it would have led without the rehearsals (`arrange_takes`).

The scores of the factorially many arrangements thus come down to one trial for each task. The comparison
keeps the first arrangement of least score. Of the arrangements that end in a task `x`, the first one is
the group with `x` moved to its end, and the ones listed before it end in tasks that stand behind `x`
(`exists_prefix_arrangements`). So `x` is the last of the tasks whose trial ends first
(`arrange_moves_last`).
-/

namespace FlowSched

open Quantity Step

/-- A task without its planned times, if it is one of a group. -/
def Task.blur (group : List ℤ) (t : Task ℚ) : Task ℚ := if t.id ∈ group then t.undated else t

@[simp] theorem Task.id_blur (group : List ℤ) (t : Task ℚ) : (t.blur group).id = t.id := by
  unfold Task.blur
  split <;> rfl

/-- A task that is estimated for good. -/
def Task.estimate (span : Span ℚ) (t : Task ℚ) : Task ℚ :=
  { t with plannedStart := span.start, plannedFinish := span.finish, isEstimated := true }

/-- An estimate overwrites the planned times of its task. -/
theorem Task.blur_edit_estimate (t : Task ℚ) (x : ℤ) (xs : List ℤ) (span : Span ℚ) :
    ((t.blur (x :: xs)).edit x (Task.estimate span)).blur xs =
      (t.edit x (Task.estimate span)).blur xs := by
  by_cases hx : t.id = x
  · simp [Task.blur, Task.edit, Task.estimate, Task.undated, hx]
  · by_cases hm : t.id ∈ xs
    · simp [Task.blur, Task.edit, Task.undated, hx, hm]
    · simp [Task.blur, Task.edit, hx, hm]

namespace Sketch

/-- When the last task of an arrangement would end if it were estimated next. -/
def rehearsal (o : Outlook ℚ) (s : Sketch ℚ) (arrangement : List ℤ) : Option ℚ :=
  arrangement.getLast?.bind fun x => (s.trial o x).toOption.map Span.finish

/-- Different tasks, none of them a parent of another. -/
structure Unrelated (s : Sketch ℚ) (group : List ℤ) : Prop where
  nodup : group.Nodup
  parents : ∀ x ∈ group, ∀ t, s.workflow.find? x = some t → ∀ y ∈ t.parents, y ∉ group

/-- Sketches that differ in notes and in planned times of a group only. -/
structure Alike (group : List ℤ) (s s' : Sketch ℚ) : Prop where
  tasks : s'.workflow.tasks.map (Task.blur group) = s.workflow.tasks.map (Task.blur group)
  vms : s'.vms = s.vms
  session : s'.session = s.session
  instants : s'.instants = s.instants

variable {o : Outlook ℚ} {s s' : Sketch ℚ} {x : ℤ} {xs group : List ℤ} {span : Span ℚ}

/-! ## What a trial needs -/

/-- A trial succeeds if the task, its parents and its average time are known. -/
theorem exists_trial_iff (hpos : 0 < o.fallback) :
    (∃ span, s.trial o x = .ok span) ↔ ∃ t, s.workflow.find? x = some t ∧
      (∀ y ∈ t.parents, ∃ u, s.workflow.find? y = some u) ∧ ∃ a, o.costs.average x = .ok a := by
  constructor
  · rintro ⟨span, hspan⟩
    obtain ⟨t, ht, hspan⟩ := bind_eq_ok.1 hspan
    obtain ⟨ps, hps, hspan⟩ := bind_eq_ok.1 hspan
    obtain ⟨a, ha, -⟩ := bind_eq_ok.1 hspan
    obtain ⟨t', ht', hps⟩ := bind_eq_ok.1 hps
    obtain rfl := Except.ok.inj (ht.symm.trans ht')
    refine ⟨t, Workflow.get_eq_ok.1 ht, fun y hy => ?_, a, ha⟩
    obtain ⟨u, -, hu⟩ := mem_mapM_of_mem hps y hy
    exact ⟨u, Workflow.get_eq_ok.1 hu⟩
  · rintro ⟨t, ht, hparents, a, ha⟩
    obtain ⟨ps, hps, -⟩ := Workflow.getAll_eq_ok hparents
    generalize hstart : (latest? (ps.map Task.plannedFinish)).getD o.floor = start
    obtain ⟨k, -, hadv, -⟩ := Span.advance_eq s.collides (evasion_pos hpos t)
      (moves start (latest s.instants) (evasion o t)) ⟨start, start + a⟩
    refine ⟨Span.shift ⟨start, start + a⟩ (k * evasion o t), ?_⟩
    unfold trial parents
    simp only [task, Workflow.get_eq_ok.2 ht, ok_bind, hps, ha, hstart, hadv]

/-- A trial succeeds after any planning if it did before. -/
theorem exists_trial_of_kin (hpos : 0 < o.fallback) (hk : s.workflow.Kin s'.workflow)
    (h : ∃ span, s.trial o x = .ok span) : ∃ span, s'.trial o x = .ok span := by
  rw [exists_trial_iff hpos] at h ⊢
  obtain ⟨t, ht, hparents, ha⟩ := h
  obtain ⟨t', ht', htk⟩ := Workflow.exists_of_kin hk ht
  refine ⟨t', ht', fun y hy => ?_, ha⟩
  obtain ⟨u, hu⟩ := hparents y (htk.parents ▸ hy)
  obtain ⟨u', hu', -⟩ := Workflow.exists_of_kin hk hu
  exact ⟨u', hu'⟩

/-! ## Sketches that differ in planned times -/

theorem Alike.refl (s : Sketch ℚ) (group : List ℤ) : s.Alike group s := ⟨rfl, rfl, rfl, rfl⟩

theorem Alike.note (h : s.Alike group s') (n : Note ℚ) : s.Alike group (s'.note n) :=
  ⟨h.tasks, h.vms, h.session, h.instants⟩

theorem Alike.of_subset (h : s.Alike xs s') (hsub : xs ⊆ group) : s.Alike group s' where
  tasks := by
    have hblur : Task.blur group = Task.blur group ∘ Task.blur xs := by
      funext t
      unfold Function.comp
      by_cases hx : t.id ∈ xs
      · have hg : t.id ∈ group := hsub hx
        simp only [Task.blur, if_pos hx]
        rw [if_pos hg, if_pos (show t.undated.id ∈ group from hg)]
        rfl
      · simp only [Task.blur, if_neg hx]
    rw [hblur, ← List.map_map, ← List.map_map, h.tasks]
  vms := h.vms
  session := h.session
  instants := h.instants

/-- Where no planned time is left out, only the notes differ. -/
theorem Alike.eq (h : s.Alike [] s') : s' = { s with notes := s'.notes } := by
  have hblur : Task.blur [] = id := by
    funext t
    simp [Task.blur]
  have htasks := h.tasks
  rw [hblur, List.map_id, List.map_id] at htasks
  have hworkflow := Workflow.eq_of_tasks htasks
  obtain ⟨⟨w, v, n, ns⟩, is⟩ := s
  obtain ⟨⟨w', v', n', ns'⟩, is'⟩ := s'
  obtain rfl : w' = w := hworkflow
  obtain rfl : v' = v := h.vms
  obtain rfl : n' = n := h.session
  obtain rfl : is' = is := h.instants
  rfl

section

variable (h : s.Alike group s')

include h

theorem Alike.find? (x : ℤ) :
    (s'.workflow.find? x).map (Task.blur group) = (s.workflow.find? x).map (Task.blur group) := by
  have hmap : ∀ w : Workflow ℚ, (w.find? x).map (Task.blur group) =
      (w.tasks.map (Task.blur group)).find? (·.id = x) := by
    intro w
    rw [List.find?_map]
    unfold Workflow.find? Function.comp
    simp only [Task.id_blur]
  rw [hmap, hmap, h.tasks]

/-- Tasks outside the group are the same. -/
theorem Alike.find?_of_not_mem (hx : x ∉ group) : s'.workflow.find? x = s.workflow.find? x := by
  have hmap : ∀ w : Workflow ℚ, (w.find? x).map (Task.blur group) = w.find? x := by
    intro w
    cases ht : w.find? x with
    | none => rfl
    | some t =>
      have hid : t.id ∉ group := (Workflow.find?_eq_some.1 ht).2 ▸ hx
      rw [Option.map_some, Task.blur, if_neg hid]
  rw [← hmap, ← hmap s.workflow, h.find?]

/-- A task stays the same but for its planned times. -/
theorem Alike.exists_task {t : Task ℚ} (ht : s.workflow.find? x = some t) :
    ∃ t', s'.workflow.find? x = some t' ∧ t'.undated = t.undated := by
  have hfind := h.find? x
  rw [ht, Option.map_some, Option.map_eq_some_iff] at hfind
  obtain ⟨t', ht', hblur⟩ := hfind
  have hundated : ∀ t : Task ℚ, (t.blur group).undated = t.undated := by
    intro t
    unfold Task.blur
    split <;> rfl
  exact ⟨t', ht', by rw [← hundated t', hblur, hundated]⟩

/-- A trial of a task with parents outside the group finds the same. -/
theorem Alike.trial (hparents : ∀ t, s.workflow.find? x = some t → ∀ y ∈ t.parents, y ∉ group)
    (hspan : s.trial o x = .ok span) : s'.trial o x = .ok span := by
  obtain ⟨t, ht, hspan⟩ := bind_eq_ok.1 hspan
  obtain ⟨ps, hps, hspan⟩ := bind_eq_ok.1 hspan
  obtain ⟨a, ha, hspan⟩ := bind_eq_ok.1 hspan
  obtain ⟨t₁, ht₁, hps⟩ := bind_eq_ok.1 hps
  obtain rfl := Except.ok.inj (ht.symm.trans ht₁)
  obtain ⟨t', ht', hsame⟩ := h.exists_task (Workflow.get_eq_ok.1 ht)
  have hparents' : t'.parents = t.parents := Task.field_eq hsame Task.parents fun _ => rfl
  have hstep : evasion o t' = evasion o t := Task.field_eq hsame (evasion o) fun _ => rfl
  have hps' : s'.workflow.getAll t'.parents = .ok ps := by
    rw [hparents']
    obtain ⟨ps', hps', hall⟩ := mapM_rel (R := Eq) (g := s'.workflow.get) hps fun y hy u hu => by
      refine ⟨u, ?_, rfl⟩
      rw [Workflow.get_eq_ok, h.find?_of_not_mem (hparents t (Workflow.get_eq_ok.1 ht) y hy)]
      exact Workflow.get_eq_ok.1 hu
    rw [List.forall₂_eq_eq_eq] at hall
    exact hall ▸ hps'
  have hcollides : s'.collides = s.collides := by
    unfold collides
    rw [h.instants]
  unfold Sketch.trial parents
  simp only [task, Workflow.get_eq_ok.2 ht', ok_bind, hps', ha, hstep, hcollides, h.instants]
  exact hspan

/-- A rehearsal of a task of the group. -/
theorem Alike.write (hx : x ∈ group) (span : Span ℚ) : s.Alike group (s'.write x span) where
  tasks := by
    rw [← h.tasks]
    show (s'.workflow.tasks.map (Task.edit x _)).map (Task.blur group) = _
    rw [List.map_map]
    refine List.map_congr_left fun t _ => ?_
    unfold Function.comp Task.edit
    split
    · next hid =>
      subst hid
      simp only [Task.blur, if_pos hx]
      rfl
    · rfl
  vms := h.vms
  session := h.session
  instants := h.instants

end

theorem tasks_confirm (s : Sketch ℚ) (x : ℤ) (span : Span ℚ) :
    (s.confirm x span).workflow.tasks = s.workflow.tasks.map (Task.edit x (Task.estimate span)) := by
  show (s.workflow.tasks.map (Task.edit x _)).map (Task.edit x _) = _
  rw [List.map_map]
  refine List.map_congr_left fun t _ => ?_
  by_cases hx : t.id = x
  · simp [Task.edit, Task.estimate, hx]
  · simp [Task.edit, hx]

/-- A task that is estimated for good in both is the same from then on. -/
theorem Alike.confirm (h : s.Alike (x :: xs) s') (span : Span ℚ) :
    (s.confirm x span).Alike xs (s'.confirm x span) where
  tasks := by
    have hblur : (Task.blur xs ∘ Task.edit x (Task.estimate span)) ∘ Task.blur (x :: xs) =
        Task.blur xs ∘ Task.edit x (Task.estimate span) :=
      funext fun t => t.blur_edit_estimate x xs span
    rw [tasks_confirm, tasks_confirm, List.map_map, List.map_map, ← hblur, ← List.map_map, h.tasks,
      List.map_map]
  vms := h.vms
  session := h.session
  instants := by
    show s'.instants ++ _ = s.instants ++ _
    rw [h.instants]

/-! ## Commits -/

theorem commit_eq (hspan : s.trial o x = .ok span) : commit o x s = .ok () (s.confirm x span) := by
  unfold commit atomic
  simp only [hspan, ok_bind]

theorem each_cons {f : ℤ → Step (Fault ℚ) (Sketch ℚ) Unit} (hx : f x s = .ok () s') :
    each f (x :: xs) s = each f xs s' := by
  show EStateM.bind (f x) (fun _ => each f xs) s = _
  unfold EStateM.bind
  rw [hx]

theorem Unrelated.of_perm (hg : s.Unrelated group) (hp : xs.Perm group) : s.Unrelated xs where
  nodup := hp.nodup_iff.2 hg.nodup
  parents x hx t ht y hy hys := hg.parents x (hp.subset hx) t ht y hy (hp.subset hys)

/-- After one of the group is estimated the others are still unrelated. -/
theorem Unrelated.confirm (hg : s.Unrelated (x :: xs)) (span : Span ℚ) :
    (s.confirm x span).Unrelated xs where
  nodup := (List.nodup_cons.1 hg.nodup).2
  parents y hy t ht z hz hzs := by
    have hyx : y ≠ x := fun e => (List.nodup_cons.1 hg.nodup).1 (e ▸ hy)
    rw [find?_confirm_of_ne span hyx] at ht
    exact hg.parents y (List.mem_cons_of_mem x hy) t ht z hz (List.mem_cons_of_mem x hzs)

/-- A group is committed alike in sketches that differ in its planned times, and no difference is
left. -/
theorem Alike.commitAll (hpos : 0 < o.fallback) (h : s.Alike xs s') (hg : s.Unrelated xs)
    (htrial : ∀ x ∈ xs, ∃ span, s.trial o x = .ok span) :
    ∃ r r', each (commit o) xs s = .ok () r ∧ each (commit o) xs s' = .ok () r' ∧ r.Alike [] r' := by
  induction xs generalizing s s' with
  | nil => exact ⟨s, s', rfl, rfl, h⟩
  | cons x xs ih =>
    obtain ⟨span, hspan⟩ := htrial x List.mem_cons_self
    have hspan' : s'.trial o x = .ok span := h.trial (hg.parents x List.mem_cons_self) hspan
    have hrest : ∀ y ∈ xs, ∃ span', (s.confirm x span).trial o y = .ok span' := fun y hy =>
      exists_trial_of_kin hpos (kept_confirm s x span).kin.workflow
        (htrial y (List.mem_cons_of_mem x hy))
    rw [each_cons (commit_eq hspan), each_cons (commit_eq hspan')]
    exact ih (h.confirm span) (hg.confirm span) hrest

/-! ## Rehearsals -/

section

variable (hg : s.Unrelated group) {spans : ℤ → Span ℚ} (htrial : ∀ x ∈ group, s.trial o x = .ok (spans x))
  {E : Fault ℚ → Sketch ℚ → Prop}

include htrial

theorem rehearsal_eq {arrangement : List ℤ} (hx : arrangement.getLast? = some x) (hxg : x ∈ group) :
    s.rehearsal o arrangement = some (spans x).finish := by
  rw [rehearsal, hx, Option.bind_some, htrial x hxg]
  rfl

include hg

/-- A task of the group is rehearsed for the span that its trial found at first. -/
theorem Alike.rehearse_leads (h : s.Alike group s') (hx : x ∈ group) :
    Leads (rehearse o x) s' (fun _ s'' => s.Alike group s'' ∧
      (s''.workflow.find? x).map Task.plannedFinish = some (spans x).finish) E := by
  have hspan := htrial x hx
  obtain ⟨t, ht, -⟩ := bind_eq_ok.1 hspan
  obtain ⟨t', ht', -⟩ := h.exists_task (Workflow.get_eq_ok.1 ht)
  have hspan' : s'.trial o x = .ok (spans x) := h.trial (hg.parents x hx) hspan
  refine leads_atomic_ok (t := s'.write x (spans x)) (by rw [hspan', ok_bind]) ⟨h.write hx _, ?_⟩
  have hself : (s'.write x (spans x)).workflow.find? x = _ := Workflow.find?_modify_self ht'
  rw [hself]
  rfl

/-- An arrangement is scored with its rehearsal. -/
theorem Alike.score_leads (h : s.Alike group s') {arrangement : List ℤ} (hne : arrangement ≠ [])
    (hsub : arrangement ⊆ group) :
    Leads (score o arrangement) s'
      (fun finish s'' => finish = s.rehearsal o arrangement ∧ s.Alike group s'') E := by
  have hloop := Leads.each_done (f := rehearse o) (E := E) (l := arrangement)
    (I := fun done s'' => s.Alike group s'' ∧ ∀ x, done.getLast? = some x →
      (s''.workflow.find? x).map Task.plannedFinish = some (spans x).finish)
    (fun done x rest s'' hsplit hI => by
      have hx : x ∈ group := hsub (by simp [hsplit])
      refine (hI.1.rehearse_leads hg htrial hx).mono (fun _ _ h => ⟨h.1, fun y hy => ?_⟩) fun _ _ h => h
      rw [List.getLast?_concat, Option.some.injEq] at hy
      exact hy ▸ h.2) ⟨h, by simp⟩
  refine hloop.bind fun _ s'' hs'' => ?_
  obtain ⟨hl, hlast⟩ := hs''
  rw [leads_bind, leads_get, leads_pure]
  have hend := List.getLast?_eq_some_getLast hne
  have hfinish := hlast _ hend
  rw [rehearsal_eq htrial hend (hsub (List.getLast_mem hne)), hend, Option.bind_some]
  exact ⟨hfinish, hl⟩

/-- The search compares the rehearsals, from the first arrangement to the last. -/
theorem Alike.search_leads (h : s.Alike group s') {all : List (List ℤ)}
    (hall : ∀ a ∈ all, a ≠ [] ∧ a ⊆ group) (best : Option (List ℤ × ℚ)) :
    Leads (search o best all) s' (fun found s'' =>
      found = all.foldl (fun best a => (s.rehearsal o a).elim best (sooner best a)) best ∧
        s.Alike group s'') E := by
  induction all generalizing s' best with
  | nil => exact leads_pure.2 ⟨rfl, h⟩
  | cons a all ih =>
    obtain ⟨hne, hsub⟩ := hall a List.mem_cons_self
    refine (h.score_leads hg htrial hne hsub).bind fun finish s'' hs'' => ?_
    obtain ⟨rfl, hl⟩ := hs''
    have hall' : ∀ a ∈ all, a ≠ [] ∧ a ⊆ group := fun b hb => hall b (List.mem_cons_of_mem a hb)
    rw [List.foldl_cons]
    cases s.rehearsal o a with
    | none => exact ih hl hall' best
    | some finish => exact ih hl hall' (sooner best a finish)

end

/-! ## The arrangement that is committed -/

section

variable {β : Type}

/-- The arrangements that begin with the first element are listed first. -/
theorem arrangements_cons (n : ℕ) (b : β) (bs : List β) :
    arrangements (n + 1) (b :: bs) = (arrangements n bs).map (b :: ·) ++
      (picks bs).flatMap fun p => (arrangements n (b :: p.2)).map (p.1 :: ·) := by
  simp only [arrangements, picks, List.flatMap_cons, List.flatMap_map]

theorem length_arrangements {n : ℕ} {bs : List β} (hn : bs.length = n) :
    (arrangements n bs).length = n.factorial := by
  induction n generalizing bs with
  | zero => rfl
  | succ n ih =>
    have hpicks : ∀ bs : List β, (picks bs).length = bs.length := by
      intro bs
      induction bs with
      | nil => rfl
      | cons b bs ih => simp [picks, ih]
    have hrow : ∀ p ∈ picks bs, ((arrangements n p.2).map (p.1 :: ·)).length = n.factorial := by
      rintro ⟨b, rest⟩ hp
      have hlen := (picks_perm hp).length_eq
      rw [List.length_cons, hn] at hlen
      rw [List.length_map, ih (Nat.succ.inj hlen)]
    have hsum : (arrangements (n + 1) bs).length =
        ((picks bs).map fun p => ((arrangements n p.2).map (p.1 :: ·)).length).sum :=
      List.length_flatMap
    rw [hsum, List.map_congr_left hrow, List.map_const', List.sum_replicate_nat, hpicks, hn,
      Nat.factorial_succ]

/-- Of the arrangements that end in an element, the first one lists the others in order, and those
before it end in elements that stand behind. -/
theorem exists_prefix_arrangements {n : ℕ} (before after : List β) (x : β)
    (hn : (before ++ x :: after).length = n) :
    ∃ pre, pre ++ [before ++ after ++ [x]] <+: arrangements n (before ++ x :: after) ∧
      ∀ a ∈ pre, ∃ y ∈ after, a.getLast? = some y := by
  have hcons : ∀ (b y : β) (a : List β), a.getLast? = some y → (b :: a).getLast? = some y := by
    intro b y a ha
    rw [List.getLast?_cons, ha]
    rfl
  induction n generalizing before after with
  | zero => simp at hn
  | succ n ih =>
    cases before with
    | cons b before =>
      obtain ⟨pre, hpre, hlast⟩ := ih before after (by simpa using hn)
      refine ⟨pre.map (b :: ·), ?_, fun a ha => ?_⟩
      · have hmap := hpre.map (b :: ·)
        rw [List.map_append, List.map_singleton] at hmap
        simp only [List.cons_append, arrangements_cons] at hmap ⊢
        exact hmap.trans (List.prefix_append _ _)
      · obtain ⟨c, hc, rfl⟩ := List.mem_map.1 ha
        obtain ⟨y, hy, hcy⟩ := hlast c hc
        exact ⟨y, hy, hcons b y c hcy⟩
    | nil =>
      cases after with
      | nil =>
        obtain rfl : n = 0 := by simpa using hn
        exact ⟨[], List.prefix_refl _, by simp⟩
      | cons y after =>
        have hlen : (y :: after).length = n := by simpa using hn
        obtain ⟨pre, hpre, hlast⟩ := ih [] after hlen
        -- first come those that begin with `x` and end in what stands behind it, then those with `y`
        refine ⟨(arrangements n (y :: after)).map (x :: ·) ++ pre.map (y :: ·), ?_, fun a ha => ?_⟩
        · have hmap := hpre.map (y :: ·)
          rw [List.map_append, List.map_singleton] at hmap
          simp only [List.nil_append, List.cons_append, arrangements_cons n x, picks,
            List.flatMap_cons] at hmap ⊢
          rw [List.append_assoc, List.prefix_append_right_inj]
          exact hmap.trans (List.prefix_append _ _)
        · rcases List.mem_append.1 ha with ha | ha
          · obtain ⟨c, hc, rfl⟩ := List.mem_map.1 ha
            have hp := arrangements_perm hlen hc
            have hne : c ≠ [] := fun he => by simp [he] at hp
            have hend := List.getLast?_eq_some_getLast hne
            exact ⟨_, hp.subset (List.getLast_mem hne), hcons x _ c hend⟩
          · obtain ⟨c, hc, rfl⟩ := List.mem_map.1 ha
            obtain ⟨z, hz, hcz⟩ := hlast c hc
            exact ⟨z, List.mem_cons_of_mem y hz, hcons y z c hcz⟩

theorem le_of_mem_split {f : β → ℚ} {before after : List β} {x : β} (hbefore : ∀ y ∈ before, f x ≤ f y)
    (hafter : ∀ y ∈ after, f x < f y) : ∀ y ∈ before ++ x :: after, f x ≤ f y := by
  intro y hy
  rcases List.mem_append.1 hy with hy | hy
  · exact hbefore y hy
  · rcases List.mem_cons.1 hy with rfl | hy
    · exact le_refl _
    · exact (hafter y hy).le

/-- A list that is not empty has a last one among its least elements. -/
theorem exists_last_least (f : β → ℚ) {bs : List β} (hne : bs ≠ []) :
    ∃ before x after, bs = before ++ x :: after ∧ (∀ y ∈ before, f x ≤ f y) ∧ ∀ y ∈ after, f x < f y := by
  induction bs with
  | nil => exact absurd rfl hne
  | cons b bs ih =>
    rcases eq_or_ne bs [] with rfl | hbs
    · exact ⟨[], b, [], rfl, by simp, by simp⟩
    · obtain ⟨before, x, after, rfl, hbefore, hafter⟩ := ih hbs
      by_cases hb : f x ≤ f b
      · exact ⟨b :: before, x, after, rfl, List.forall_mem_cons.2 ⟨hb, hbefore⟩, hafter⟩
      · have hlt : f b < f x := not_le.1 hb
        exact ⟨[], b, before ++ x :: after, rfl, by simp, fun y hy =>
          hlt.trans_le (le_of_mem_split hbefore hafter y hy)⟩

end

/-- The comparison keeps the first arrangement of least value. -/
theorem foldl_sooner {value : List ℤ → Option ℚ} {pre post : List (List ℤ)} {chosen : List ℤ} {least : ℚ}
    (hpre : ∀ a ∈ pre, ∃ f, value a = some f ∧ least < f) (hchosen : value chosen = some least)
    (hpost : ∀ a ∈ post, ∃ f, value a = some f ∧ least ≤ f) :
    (pre ++ chosen :: post).foldl (fun best a => (value a).elim best (sooner best a)) none =
      some (chosen, least) := by
  have hlater : ∀ best : Option (List ℤ × ℚ), (∀ b, best = some b → least < b.2) → ∀ b,
      pre.foldl (fun best a => (value a).elim best (sooner best a)) best = some b → least < b.2 := by
    induction pre with
    | nil => exact fun best hbest => hbest
    | cons a pre ih =>
      obtain ⟨f, hf, hlt⟩ := hpre a List.mem_cons_self
      intro best hbest
      rw [List.foldl_cons, hf]
      refine ih (fun b hb => hpre b (List.mem_cons_of_mem a hb)) _ fun b hb => ?_
      obtain ⟨c, hc, -, -, hor⟩ := sooner_eq_some best a f
      obtain rfl := Option.some.inj (hc.symm.trans hb)
      rcases hor with rfl | hor
      · exact hlt
      · exact hbest c hor
  have hkept : post.foldl (fun best a => (value a).elim best (sooner best a)) (some (chosen, least)) =
      some (chosen, least) := by
    induction post with
    | nil => rfl
    | cons a post ih =>
      obtain ⟨f, hf, hle⟩ := hpost a List.mem_cons_self
      rw [List.foldl_cons, hf]
      show post.foldl _ (if f < least then _ else _) = _
      rw [if_neg (not_lt.2 hle)]
      exact ih fun b hb => hpost b (List.mem_cons_of_mem a hb)
  rw [List.foldl_append, List.foldl_cons, hchosen]
  have hbest := hlater none (by simp)
  generalize pre.foldl (fun best a => (value a).elim best (sooner best a)) none = best at hbest
  have hnew : sooner best chosen least = some (chosen, least) := by
    cases best with
    | none => rfl
    | some b => exact if_pos (hbest b rfl)
  rw [Option.elim_some, hnew]
  exact hkept

section

variable (hg : s.Unrelated group) {spans : ℤ → Span ℚ} (htrial : ∀ x ∈ group, s.trial o x = .ok (spans x))

include htrial

/-- The comparison finds the group with one task moved to its end: the last of those whose trial ends
first. -/
theorem exists_chosen (hne : group ≠ []) :
    ∃ before x after, group = before ++ x :: after ∧ (before ++ after ++ [x]).Perm group ∧
      (∀ y ∈ before, (spans x).finish ≤ (spans y).finish) ∧
      (∀ y ∈ after, (spans x).finish < (spans y).finish) ∧
      (arrangements group.length group).foldl
        (fun best a => (s.rehearsal o a).elim best (sooner best a)) none =
          some (before ++ after ++ [x], (spans x).finish) := by
  obtain ⟨before, x, after, rfl, hbefore, hafter⟩ := exists_last_least (fun y => (spans y).finish) hne
  obtain ⟨pre, ⟨post, hsplit⟩, hpre⟩ := exists_prefix_arrangements before after x rfl
  have hx : x ∈ before ++ x :: after := List.mem_append_right _ List.mem_cons_self
  have hall := le_of_mem_split (f := fun y => (spans y).finish) hbefore hafter
  have hmoved : (before ++ after ++ [x]).Perm (before ++ x :: after) := by
    rw [List.append_assoc]
    exact (List.perm_append_singleton x after).append_left before
  refine ⟨before, x, after, rfl, hmoved, hbefore, hafter, ?_⟩
  rw [← hsplit, List.append_assoc, List.singleton_append]
  refine foldl_sooner (fun a ha => ?_) (rehearsal_eq htrial (List.getLast?_concat) hx) fun a ha => ?_
  · obtain ⟨y, hy, hlast⟩ := hpre a ha
    have hyg : y ∈ before ++ x :: after := List.mem_append_right _ (List.mem_cons_of_mem x hy)
    exact ⟨_, rehearsal_eq htrial hlast hyg, hafter y hy⟩
  · have hmem : a ∈ arrangements (before ++ x :: after).length (before ++ x :: after) :=
      hsplit ▸ List.mem_append_right _ ha
    have hp := arrangements_perm rfl hmem
    have hane : a ≠ [] := fun he => hne (by rw [he] at hp; exact hp.nil_eq.symm)
    have hyg := hp.subset (List.getLast_mem hane)
    exact ⟨_, rehearsal_eq htrial (List.getLast?_eq_some_getLast hane) hyg, hall _ hyg⟩

variable (hpos : 0 < o.fallback) (hwidth : group.length ≤ o.maxWidth)

include hg hpos hwidth

/-- A group is left as committing the arrangement that the comparison finds leaves it, but for notes. -/
theorem arrange_takes (hne : group ≠ []) {chosen : List ℤ} {least : ℚ}
    (hfold : (arrangements group.length group).foldl
      (fun best a => (s.rehearsal o a).elim best (sooner best a)) none = some (chosen, least))
    (hp : chosen.Perm group) :
    ∃ (r : Sketch ℚ) (notes : Array (Note ℚ)), each (commit o) chosen s = .ok () r ∧
      arrange o group s =
        .ok () { r with notes := notes.push (.arranged group.length.factorial chosen) } := by
  have hg' : s.Unrelated chosen := hg.of_perm hp
  have htrial' : ∀ x ∈ chosen, ∃ span, s.trial o x = .ok span := fun x hx =>
    ⟨spans x, htrial x (hp.subset hx)⟩
  obtain ⟨r, -, hr, -, -⟩ := (Alike.refl s chosen).commitAll hpos hg' htrial'
  have hleads : Leads (arrange o group) s (fun _ s' => ∃ notes : Array (Note ℚ),
      s' = { r with notes := notes.push (.arranged group.length.factorial chosen) })
      fun _ _ => False := by
    unfold arrange
    refine Leads.unless (P := s.Alike group) (fun hlt => absurd hwidth hlt.not_ge)
      (fun _ => .refl s group) fun s₁ h₁ => ?_
    refine Leads.unless (P := s.Alike group) (fun _ => leads_modify.2 (h₁.note _)) (fun _ => h₁)
      fun s₂ h₂ => ?_
    refine (h₂.search_leads hg htrial (fun a ha => ?_) none).bind fun found s₃ h₃ => ?_
    · have ha := arrangements_perm rfl ha
      exact ⟨fun he => hne (by rw [he] at ha; exact ha.nil_eq.symm), ha.subset⟩
    obtain ⟨rfl, h₃⟩ := h₃
    rw [hfold]
    obtain ⟨r', s₄, hr', hs₄, h₄⟩ := (h₃.of_subset hp.symm.subset).commitAll hpos hg' htrial'
    rw [hr] at hr'
    injection hr' with _ hr'
    subst hr'
    refine (leads_of_ok (Q := fun _ s' => s' = s₄) hs₄ rfl).bind fun _ s' hs' => leads_modify.2 ?_
    subst hs'
    refine ⟨s'.notes, ?_⟩
    rw [length_arrangements rfl, h₄.eq]
    rfl
  obtain ⟨_, _, harrange, notes, rfl⟩ := hleads.exists_ok
  exact ⟨r, notes, hr, harrange⟩

/-- Of a group of different tasks, none a parent of another, all arrangements are tried, and the one
that is committed is the group in its order with one task moved to the end: the last one among those
that would end first if each were estimated next. -/
theorem arrange_moves_last (hne : group ≠ []) :
    ∃ (before : List ℤ) (x : ℤ) (after : List ℤ) (r : Sketch ℚ) (notes : Array (Note ℚ)),
      group = before ++ x :: after ∧
      (∀ y ∈ before, (spans x).finish ≤ (spans y).finish) ∧
      (∀ y ∈ after, (spans x).finish < (spans y).finish) ∧
      each (commit o) (before ++ after ++ [x]) s = .ok () r ∧
      arrange o group s = .ok ()
        { r with notes := notes.push (.arranged group.length.factorial (before ++ after ++ [x])) } := by
  obtain ⟨before, x, after, hsplit, hp, hbefore, hafter, hfold⟩ := exists_chosen htrial hne
  obtain ⟨r, notes, hr, harrange⟩ := arrange_takes hg htrial hpos hwidth hne hfold hp
  exact ⟨before, x, after, r, notes, hsplit, hbefore, hafter, hr, harrange⟩

end

/-- Tasks 1, 2 and 3 await task 4 on a single VM, and the instant 2 is taken. -/
def trio : Sketch ℚ where
  workflow :=
    { tasks := [{ id := 1, length := 1, children := [4] }, { id := 2, length := 1, children := [4] },
        { id := 3, length := 2, children := [4] }, { id := 4, length := 1, parents := [1, 2, 3] }]
      nodup := by decide }
  vms := [{ id := 0, mips := 1 }]
  instants := [2]

/-- What its estimation reads. -/
def trioOutlook : Outlook ℚ where
  costs := (Costs.ofWorkflow trio.workflow trio.vms).toOption.getD ⟨0, {}, {}⟩
  floor := 0
  maxWidth := 8
  warnWidth := 6
  fallback := 1 / 2
  critical := []

/-- What its trials find: the third task avoids the instant that is taken. -/
def trioSpan (x : ℤ) : Span ℚ := if x = 3 then ⟨1 / 2, 5 / 2⟩ else ⟨0, 1⟩

/-- Tasks 1 and 2 would both end first, and the second of them is moved to the end. -/
theorem arrange_moves_last_trio :
    0 < trioOutlook.fallback ∧ trio.Unrelated [1, 2, 3] ∧
    (∀ x ∈ [1, 2, 3], trio.trial trioOutlook x = .ok (trioSpan x)) ∧
    (([1, 2, 3] : List ℤ).length : ℤ) ≤ trioOutlook.maxWidth ∧
    ∃ (r : Sketch ℚ) (notes : Array (Note ℚ)), each (commit trioOutlook) [1, 3, 2] trio = .ok () r ∧
      arrange trioOutlook [1, 2, 3] trio =
        .ok () { r with notes := notes.push (.arranged 6 [1, 3, 2]) } := by
  have hpos : 0 < trioOutlook.fallback := by decide +kernel
  have hg : trio.Unrelated [1, 2, 3] := by
    refine ⟨by decide, fun x hx t ht => ?_⟩
    obtain ⟨hm, rfl⟩ := Workflow.find?_eq_some.1 ht
    have hall : ∀ t ∈ trio.workflow.tasks, t.id ∈ [1, 2, 3] → ∀ y ∈ t.parents, y ∉ [1, 2, 3] := by decide
    exact hall t hm hx
  have htrial : ∀ x ∈ [1, 2, 3], trio.trial trioOutlook x = .ok (trioSpan x) := by
    have hends : ∀ x ∈ [1, 2, 3], (trio.trial trioOutlook x).toOption.map
        (fun s => (s.start, s.finish)) = some ((trioSpan x).start, (trioSpan x).finish) := by
      decide +kernel
    intro x hx
    obtain ⟨span, hspan, hpair⟩ := Option.map_eq_some_iff.1 (hends x hx)
    obtain ⟨hstart, hfinish⟩ := Prod.mk.inj hpair
    rw [eq_ok_of_toOption hspan]
    cases span
    exact congrArg Except.ok (congrArg₂ Span.mk hstart hfinish)
  have hwidth : (([1, 2, 3] : List ℤ).length : ℤ) ≤ trioOutlook.maxWidth := by decide
  obtain ⟨before, x, after, r, notes, hsplit, hbefore, hafter, hr, harrange⟩ :=
    arrange_moves_last hg htrial hpos hwidth (by decide)
  obtain ⟨rfl, rfl, rfl⟩ : before = [1] ∧ x = 2 ∧ after = [3] := by
    rcases before with _ | ⟨a, _ | ⟨b, _ | ⟨c, before⟩⟩⟩
    · obtain ⟨rfl, rfl⟩ : 1 = x ∧ [2, 3] = after := by simpa using hsplit
      exact absurd (hafter 2 (by decide)) (by decide +kernel)
    · simpa [eq_comm] using hsplit
    · obtain ⟨rfl, rfl, rfl, rfl⟩ : 1 = a ∧ 2 = b ∧ 3 = x ∧ [] = after := by simpa using hsplit
      exact absurd (hbefore 1 (by decide)) (by decide +kernel)
    · simp at hsplit
  exact ⟨hpos, hg, htrial, hwidth, r, notes, hr, harrange⟩

end Sketch

end FlowSched

import FlowSched.Random.Mersenne
import FlowSched.Proofs.Arcs
import FlowSched.Proofs.Draw

/-!
# Random layered workflows

Whatever is drawn, the layers are a cut of the ids (`yields_drawLayers`), and connecting one task to the
layer before adds at least one arc and no second one between the same ends (`yields_connect`). A drawn
workflow is therefore strung from arcs between neighbouring layers. That it passes its check, that its
depths number its layers, and that each edge is priced by what it carries is read off the arcs
(`draw_layered`).
-/

namespace FlowSched

open Quantity Draw

/-! ## Layers -/

/-- An id stands in the layer of a number. -/
def InLayer (layers : List (List ℤ)) (k : ℕ) (x : ℤ) : Prop :=
  ∃ layer, layers[k]? = some layer ∧ x ∈ layer

/-- An id stands in the layer behind that of another. -/
def NextLayer (layers : List (List ℤ)) (p c : ℤ) : Prop :=
  ∃ k, InLayer layers k p ∧ InLayer layers (k + 1) c

/-- The number of the layer of an id. -/
def layerNumber (layers : List (List ℤ)) (x : ℤ) : ℕ := layers.findIdx fun layer => x ∈ layer

/-- The tasks to connect, each with the layer before its own. -/
def turns (pairs : List (List ℤ × List ℤ)) : List (List ℤ × ℤ) :=
  pairs.flatMap fun e => e.2.map (e.1, ·)

section

variable {layers : List (List ℤ)} {x : ℤ} {k l : ℕ}

theorem exists_inLayer : (∃ k, InLayer layers k x) ↔ x ∈ layers.flatten := by
  rw [List.mem_flatten]
  constructor
  · rintro ⟨k, layer, hk, hx⟩
    exact ⟨layer, List.mem_of_getElem? hk, hx⟩
  · rintro ⟨layer, hm, hx⟩
    obtain ⟨k, hk⟩ := List.mem_iff_getElem?.1 hm
    exact ⟨k, layer, hk, hx⟩

theorem inLayer_unique (hn : layers.flatten.Nodup) (hk : InLayer layers k x) (hl : InLayer layers l x) :
    k = l := by
  obtain ⟨layer, hk, hx⟩ := hk
  obtain ⟨layer', hl, hx'⟩ := hl
  have hdisjoint := (List.nodup_flatten.1 hn).2
  obtain ⟨hkl, rfl⟩ := List.getElem?_eq_some_iff.1 hk
  obtain ⟨hll, rfl⟩ := List.getElem?_eq_some_iff.1 hl
  rw [List.pairwise_iff_getElem] at hdisjoint
  rcases lt_trichotomy k l with h | h | h
  · exact absurd hx' (hdisjoint k l hkl hll h hx)
  · exact h
  · exact absurd hx (hdisjoint l k hll hkl h hx')

theorem layerNumber_eq (hn : layers.flatten.Nodup) (hx : InLayer layers k x) :
    layerNumber layers x = k := by
  obtain ⟨layer, hk, hmem⟩ := id hx
  have hlt : layerNumber layers x < layers.length :=
    List.findIdx_lt_length_of_exists ⟨layer, List.mem_of_getElem? hk, decide_eq_true hmem⟩
  refine inLayer_unique hn ⟨_, List.getElem?_eq_getElem hlt, ?_⟩ hx
  exact of_decide_eq_true (List.findIdx_getElem (w := hlt))

/-- The layer of a child has the greater number. -/
theorem NextLayer.number_lt (hn : layers.flatten.Nodup) {p c : ℤ} (h : NextLayer layers p c) :
    layerNumber layers p < layerNumber layers c := by
  obtain ⟨k, hp, hc⟩ := h
  rw [layerNumber_eq hn hp, layerNumber_eq hn hc]
  exact Nat.lt_succ_self k

theorem NextLayer.ne (hn : layers.flatten.Nodup) {p c : ℤ} (h : NextLayer layers p c) : p ≠ c := by
  rintro rfl
  exact lt_irrefl _ (h.number_lt hn)

/-- Neighbouring layers are paired. -/
theorem mem_pairs {previous layer : List ℤ} : (previous, layer) ∈ layers.zip layers.tail ↔
    ∃ k, layers[k]? = some previous ∧ layers[k + 1]? = some layer := by
  rw [List.mem_iff_getElem?]
  simp only [List.getElem?_zip_eq_some, List.getElem?_tail]

/-- Every task behind the first layer has its turn, in the order of the ids. -/
theorem map_snd_turns (layers : List (List ℤ)) :
    (turns (layers.zip layers.tail)).map Prod.snd = layers.tail.flatten := by
  have hpairs : (layers.zip layers.tail).map Prod.snd = layers.tail :=
    List.map_snd_zip (by simp)
  have hsnd : ∀ pairs, (turns pairs).map Prod.snd = (pairs.map Prod.snd).flatten := fun pairs => by
    simp [turns, List.flatMap_def, Function.comp_def]
  rw [hsnd, hpairs]

/-- A task stands behind the layer of its turn. -/
theorem mem_turns {turn : List ℤ × ℤ} : turn ∈ turns (layers.zip layers.tail) ↔
    ∃ k, layers[k]? = some turn.1 ∧ InLayer layers (k + 1) turn.2 := by
  unfold turns
  rw [List.mem_flatMap]
  constructor
  · rintro ⟨⟨previous, layer⟩, hpair, hm⟩
    obtain ⟨c, hc, rfl⟩ := List.mem_map.1 hm
    obtain ⟨k, hk, hk'⟩ := mem_pairs.1 hpair
    exact ⟨k, hk, layer, hk', hc⟩
  · rintro ⟨k, hk, layer, hk', hc⟩
    exact ⟨(turn.1, layer), mem_pairs.2 ⟨k, hk, hk'⟩, List.mem_map.2 ⟨turn.2, hc, rfl⟩⟩

/-- Connecting layer after layer is connecting task after task. -/
theorem foldlM_turns {m : Type → Type} [Monad m] [LawfulMonad m] {β : Type} (f : List ℤ → β → ℤ → m β)
    (pairs : List (List ℤ × List ℤ)) (b : β) : pairs.foldlM (fun b e => e.2.foldlM (f e.1) b) b =
      (turns pairs).foldlM (fun b turn => f turn.1 b turn.2) b := by
  induction pairs generalizing b with
  | nil => rfl
  | cons e pairs ih =>
    have hcons : turns (e :: pairs) = e.2.map (e.1, ·) ++ turns pairs := List.flatMap_cons
    rw [List.foldlM_cons, hcons, List.foldlM_append, List.foldlM_map]
    congr 1
    funext b'
    exact ih b'

end

/-! ## Drawing arcs -/

namespace LayerSpec

/-- The ranges from which a workflow can be drawn. -/
structure Sane (spec : LayerSpec ℚ) : Prop where
  tasks : 1 ≤ spec.tasks
  maxWidth : 1 ≤ spec.maxWidth
  lengths : 0 ≤ spec.lengths.1 ∧ spec.lengths.1 ≤ spec.lengths.2
  sizes : 0 ≤ spec.sizes.1 ∧ spec.sizes.1 ≤ spec.sizes.2

/-- What an arc may carry. -/
def Bears (spec : LayerSpec ℚ) (load : ℚ) : Prop :=
  if spec.useFiles then spec.sizes.1 ≤ load ∧ load ≤ spec.sizes.2 else 0 ≤ load

/-- What an edge carries: the one file that its parent writes and its child reads under the name of the
edge, or an entry for its parent in the table of its child. -/
def Carries (spec : LayerSpec ℚ) (t u : Task ℚ) (load : ℚ) : Prop :=
  if spec.useFiles then
    (spec.sizes.1 ≤ load ∧ load ≤ spec.sizes.2) ∧
      (∀ file, file ∈ t.outputs ∧ file.name = edgeName t.id u.id ↔
        file = edgeFile t.id u.id load .output) ∧
      ∀ file, file ∈ u.inputs ∧ file.name = edgeName t.id u.id ↔ file = edgeFile t.id u.id load .input
  else u.transfers.get? t.id = some load

variable {γ : Type} [Source γ] {spec : LayerSpec ℚ}

theorem roundRat_nonneg (places : ℕ) {x : ℚ} (h : 0 ≤ x) : 0 ≤ roundRat places x := by
  unfold roundRat
  rw [if_neg (not_lt.2 h)]
  exact div_nonneg (Nat.cast_nonneg _) (Nat.cast_nonneg _)

/-- The layers cut the ids, and each is as wide as it may be. -/
theorem yields_drawLayers (hw : 1 ≤ spec.maxWidth) {fuel left : ℕ} (hfuel : left ≤ fuel) (next : ℤ) :
    Yields (spec.drawLayers (γ := γ) fuel next left) fun layers =>
      layers.flatten = (List.range left).map (fun i : ℕ => next + (i : ℤ)) ∧
        ∀ layer ∈ layers, 1 ≤ layer.length ∧ (layer.length : ℤ) ≤ spec.maxWidth := by
  induction fuel generalizing next left with
  | zero =>
    obtain rfl := Nat.le_zero.1 hfuel
    exact yields_pure (by simp)
  | succ fuel ih =>
    unfold drawLayers
    split_ifs with hleft
    · exact yields_pure (by simp [hleft])
    · refine (yields_between hw).bind fun drawn hdrawn => ?_
      have hwidth : 1 ≤ min drawn.toNat left ∧ min drawn.toNat left ≤ left := by omega
      dsimp only
      generalize hmin : min drawn.toNat left = width at hwidth ⊢
      refine (ih (by omega) _).bind fun rest hrest => yields_pure ⟨?_, ?_⟩
      · obtain ⟨more, rfl⟩ := Nat.exists_eq_add_of_le hwidth.2
        rw [List.flatten_cons, hrest.1, Nat.add_sub_cancel_left, List.range_add, List.map_append,
          List.map_map]
        simp only [Function.comp_def, Nat.cast_add, add_assoc]
      · refine List.forall_mem_cons.2 ⟨?_, hrest.2⟩
        rw [List.length_map, List.length_range]
        omega

/-- Some other tasks of a layer, none of them twice. -/
theorem yields_drawOthers (first : ℤ) (xs : List ℤ) :
    Yields (spec.drawOthers (γ := γ) first xs) fun others => others.Sublist xs ∧ first ∉ others := by
  induction xs with
  | nil => exact yields_pure ⟨.slnil, List.not_mem_nil⟩
  | cons p xs ih =>
    unfold drawOthers
    split_ifs with hp
    · exact ih.mono fun others h => ⟨h.1.cons p, h.2⟩
    · refine yields_fraction.bind fun x _ => ih.bind fun others h => yields_pure ?_
      split_ifs
      · exact ⟨h.1.cons_cons p, List.not_mem_cons_of_ne_of_not_mem (Ne.symm hp) h.2⟩
      · exact ⟨h.1.cons p, h.2⟩

/-- At least one parent, and no task of the layer twice. -/
theorem yields_drawParents {previous : List ℤ} (hne : previous ≠ []) (hn : previous.Nodup) :
    Yields (spec.drawParents (γ := γ) previous) fun parents =>
      parents ≠ [] ∧ parents.Nodup ∧ ∀ p ∈ parents, p ∈ previous := by
  refine (yields_choice hne).bind fun first hfirst => ?_
  refine (yields_drawOthers first previous).bind fun others h => yields_pure ?_
  refine ⟨List.cons_ne_nil _ _, List.nodup_cons.2 ⟨h.2, hn.sublist h.1⟩, ?_⟩
  exact List.forall_mem_cons.2 ⟨hfirst, fun p hp => h.1.subset hp⟩

variable (hs : spec.Sane) {w : Workflow ℚ} {bare : List (Task ℚ)} {arcs : List Arc}

include hs

/-- Drawing an edge adds an arc. -/
theorem yields_drawEdge (h : w.Strung spec.useFiles bare arcs) {parent child : ℤ} (hp : parent ∈ w.ids)
    (hc : child ∈ w.ids) (hne : parent ≠ child) (hnew : (parent, child) ∉ arcs.map Arc.ends) :
    Yields (spec.drawEdge (γ := γ) child w parent) fun w' =>
      ∃ load, spec.Bears load ∧ w'.Strung spec.useFiles bare (arcs ++ [⟨parent, child, load⟩]) := by
  unfold drawEdge Bears
  cases hfiles : spec.useFiles with
  | true =>
    rw [hfiles] at h
    refine (yields_uniform hs.sizes.2).bind fun size hsize => ?_
    obtain ⟨w', hw', hstrung⟩ := h.withFile (e := ⟨parent, child, size⟩) hne hnew hp hc
    exact yields_ofExcept hw' ⟨size, hsize, hstrung⟩
  | false =>
    rw [hfiles] at h
    refine (yields_uniform (by norm_num)).bind fun cost hcost => ?_
    have hload : 0 ≤ roundTo 2 cost := roundRat_nonneg 2 (le_trans (by norm_num) hcost.1)
    obtain ⟨w', hw', hstrung⟩ := h.withTime (e := ⟨parent, child, roundTo 2 cost⟩) hne hnew hp hc hload
    exact yields_ofExcept hw' ⟨_, hload, hstrung⟩

/-- Connecting a task to the layer before adds arcs from some of its tasks, at least one. -/
theorem yields_connect (h : w.Strung spec.useFiles bare arcs) {previous : List ℤ}
    (hprev : previous ≠ []) (hn : previous.Nodup) {child : ℤ}
    (hknown : ∀ p ∈ previous, p ∈ w.ids ∧ p ≠ child) (hc : child ∈ w.ids)
    (hnew : ∀ e ∈ arcs, e.child ≠ child) :
    Yields (spec.connect (γ := γ) previous w child) fun w' => ∃ star : List Arc,
      w'.Strung spec.useFiles bare (arcs ++ star) ∧ star ≠ [] ∧ (star.map Arc.parent).Nodup ∧
        ∀ e ∈ star, e.parent ∈ previous ∧ e.child = child ∧ spec.Bears e.load := by
  refine (yields_drawParents hprev hn).bind fun parents hparents => ?_
  obtain ⟨hne, hnodup, hmem⟩ := hparents
  have hloop := yields_foldlM (f := spec.drawEdge (γ := γ) child) (l := parents) (b := w)
    (I := fun done w' => ∃ star : List Arc, w'.Strung spec.useFiles bare (arcs ++ star) ∧
      star.map Arc.parent = done ∧ ∀ e ∈ star, e.child = child ∧ spec.Bears e.load) ?_
    ⟨[], by rwa [List.append_nil], rfl, by simp⟩
  · refine hloop.mono fun w' hw' => ?_
    obtain ⟨star, hstrung, hstar, hall⟩ := hw'
    refine ⟨star, hstrung, ?_, hstar ▸ hnodup, fun e he => ⟨?_, hall e he⟩⟩
    · rintro rfl
      exact hne hstar.symm
    · exact hmem _ (hstar ▸ List.mem_map_of_mem he)
  · rintro done p rest hsplit w' ⟨star, hstrung, rfl, hall⟩
    have hids : w'.ids = w.ids := hstrung.ids.trans h.ids.symm
    have hp : p ∈ parents := by simp [hsplit]
    have hfresh : (p, child) ∉ (arcs ++ star).map Arc.ends := by
      rw [List.mem_map]
      rintro ⟨e, he, heq⟩
      obtain ⟨rfl, rfl⟩ := Prod.mk.inj heq
      rcases List.mem_append.1 he with he | he
      · exact hnew e he rfl
      · rw [hsplit] at hnodup
        exact List.disjoint_of_nodup_append hnodup (List.mem_map_of_mem he) List.mem_cons_self
    obtain ⟨hpk, hpne⟩ := hknown p (hmem p hp)
    refine (yields_drawEdge hs hstrung (hids ▸ hpk) (hids ▸ hc) hpne hfresh).mono fun w'' hw'' => ?_
    obtain ⟨load, hload, hstrung'⟩ := hw''
    refine ⟨star ++ [⟨p, child, load⟩], by rwa [← List.append_assoc], by simp, ?_⟩
    exact List.forall_mem_append.2 ⟨hall, by simpa using hload⟩

end LayerSpec

/-! ## Growing layers -/

/-- The arcs that were drawn in some turns. -/
structure Grown (spec : LayerSpec ℚ) (done : List (List ℤ × ℤ)) (arcs : List Arc) : Prop where
  nodup : (arcs.map Arc.ends).Nodup
  turn : ∀ e ∈ arcs, ∃ turn ∈ done, e.parent ∈ turn.1 ∧ e.child = turn.2
  fed : ∀ turn ∈ done, ∃ e ∈ arcs, e.child = turn.2
  load : ∀ e ∈ arcs, spec.Bears e.load

section

variable {spec : LayerSpec ℚ} {done : List (List ℤ × ℤ)} {arcs : List Arc} (h : Grown spec done arcs)
  {previous : List ℤ} {child : ℤ} (hnew : ∀ turn ∈ done, turn.2 ≠ child)

include h hnew

theorem Grown.child_ne : ∀ e ∈ arcs, e.child ≠ child := by
  intro e he hc
  obtain ⟨turn, ht, -, hturn⟩ := h.turn e he
  exact hnew turn ht (hturn.symm.trans hc)

/-- The arcs of one more turn. -/
theorem Grown.append {star : List Arc} (hne : star ≠ []) (hn : (star.map Arc.parent).Nodup)
    (hstar : ∀ e ∈ star, e.parent ∈ previous ∧ e.child = child ∧ spec.Bears e.load) :
    Grown spec (done ++ [(previous, child)]) (arcs ++ star) := by
  refine ⟨?_, ?_, ?_, ?_⟩
  · rw [List.map_append, List.nodup_append']
    refine ⟨h.nodup, ?_, ?_⟩
    · refine List.Nodup.of_map Prod.fst ?_
      rwa [List.map_map]
    · intro ends hends hends'
      obtain ⟨e, he, rfl⟩ := List.mem_map.1 hends
      obtain ⟨a, ha, heq⟩ := List.mem_map.1 hends'
      exact h.child_ne hnew e he ((Prod.mk.inj heq).2.symm.trans (hstar a ha).2.1)
  · refine List.forall_mem_append.2 ⟨fun e he => ?_, fun e he => ?_⟩
    · obtain ⟨turn, ht, hturn⟩ := h.turn e he
      exact ⟨turn, List.mem_append_left _ ht, hturn⟩
    · exact ⟨_, List.mem_append_right _ (List.mem_singleton_self _), (hstar e he).1, (hstar e he).2.1⟩
  · refine List.forall_mem_append.2 ⟨fun turn ht => ?_, List.forall_mem_singleton.2 ?_⟩
    · obtain ⟨e, he, hc⟩ := h.fed turn ht
      exact ⟨e, List.mem_append_left _ he, hc⟩
    · obtain ⟨e, he⟩ := List.exists_mem_of_ne_nil _ hne
      exact ⟨e, List.mem_append_right _ he, (hstar e he).2.1⟩
  · exact List.forall_mem_append.2 ⟨h.load, fun e he => (hstar e he).2.2⟩

end

section

variable {γ : Type} [Source γ] {spec : LayerSpec ℚ} (hs : spec.Sane) {layers : List (List ℤ)}
  (hn : layers.flatten.Nodup) (hne : ∀ layer ∈ layers, layer ≠ []) {w : Workflow ℚ}
  {bare : List (Task ℚ)} (hids : w.ids = layers.flatten) (hbare : w.Strung spec.useFiles bare [])

include hs hn hne hids hbare

/-- Every task behind the first layer is connected. -/
theorem yields_turns : Yields ((turns (layers.zip layers.tail)).foldlM
    (fun w turn => spec.connect (γ := γ) turn.1 w turn.2) w) fun w' => ∃ arcs,
      w'.Strung spec.useFiles bare arcs ∧ Grown spec (turns (layers.zip layers.tail)) arcs := by
  have hnodup : ((turns (layers.zip layers.tail)).map Prod.snd).Nodup := by
    rw [map_snd_turns]
    exact hn.sublist (List.tail_sublist layers).flatten
  refine yields_foldlM (I := fun done (w' : Workflow ℚ) => ∃ arcs, w'.Strung spec.useFiles bare arcs ∧
    Grown spec done arcs) ?_ ⟨[], hbare, by constructor <;> simp⟩
  rintro done ⟨previous, child⟩ rest hsplit w' ⟨arcs, hstrung, hgrown⟩
  obtain ⟨k, hk, hchild⟩ := mem_turns.1 (by simp [hsplit] :
    (previous, child) ∈ turns (layers.zip layers.tail))
  have hlayer : previous ∈ layers := List.mem_of_getElem? hk
  have hids' : w'.ids = layers.flatten := (hstrung.ids.trans hbare.ids.symm).trans hids
  have hknown : ∀ p ∈ previous, p ∈ w'.ids ∧ p ≠ child := fun p hp => by
    rw [hids']
    exact ⟨List.mem_flatten.2 ⟨previous, hlayer, hp⟩, NextLayer.ne hn ⟨k, ⟨previous, hk, hp⟩, hchild⟩⟩
  have hnew : ∀ turn ∈ done, turn.2 ≠ child := by
    rw [hsplit, List.map_append, List.map_cons] at hnodup
    rintro turn ht rfl
    exact List.disjoint_of_nodup_append hnodup (List.mem_map_of_mem ht) List.mem_cons_self
  have hconnect := LayerSpec.yields_connect (γ := γ) hs hstrung (hne previous hlayer)
    ((List.nodup_flatten.1 hn).1 _ hlayer) hknown (hids' ▸ exists_inLayer.1 ⟨_, hchild⟩)
    (hgrown.child_ne hnew)
  refine hconnect.mono fun w'' hw'' => ?_
  obtain ⟨star, hstrung', hstar, hsn, hall⟩ := hw''
  exact ⟨arcs ++ star, hstrung', hgrown.append hnew hstar hsn hall⟩

end

/-! ## Layered workflows -/

section

variable {spec : LayerSpec ℚ} {layers : List (List ℤ)} {arcs : List Arc}
  (hg : Grown spec (turns (layers.zip layers.tail)) arcs)

include hg

theorem Grown.nextLayer {e : Arc} (he : e ∈ arcs) : NextLayer layers e.parent e.child := by
  obtain ⟨turn, ht, hp, hc⟩ := hg.turn e he
  obtain ⟨k, hk, hchild⟩ := mem_turns.1 ht
  exact ⟨k, ⟨turn.1, hk, hp⟩, hc ▸ hchild⟩

/-- An arc leads to every task behind the first layer. -/
theorem Grown.exists_arc {k : ℕ} {x : ℤ} (hx : InLayer layers (k + 1) x) : ∃ e ∈ arcs, e.child = x := by
  obtain ⟨layer, hk, hx⟩ := hx
  obtain ⟨hlt, -⟩ := List.getElem?_eq_some_iff.1 hk
  have hprevious : layers[k]? = some layers[k] := List.getElem?_eq_getElem (by omega)
  exact hg.fed (layers[k], x) (mem_turns.2 ⟨k, hprevious, layer, hk, hx⟩)

/-- The arcs are among the ids of the layers. -/
theorem Grown.among (hs : spec.Sane) : Arc.Among layers.flatten arcs := by
  refine ⟨hg.nodup, fun e he => ?_, fun e he => ?_⟩
  · obtain ⟨k, hp, hc⟩ := hg.nextLayer he
    exact ⟨exists_inLayer.1 ⟨k, hp⟩, exists_inLayer.1 ⟨k + 1, hc⟩⟩
  · have hload := hg.load e he
    unfold LayerSpec.Bears at hload
    split_ifs at hload
    · exact hs.sizes.1.trans hload.1
    · exact hload

end

namespace Workflow

/-- A workflow that stands in layers. Edges lead from each layer to the next, every task behind the first
layer has a parent, and depths number the layers. -/
structure Layered (layers : List (List ℤ)) (w : Workflow ℚ) : Prop where
  ids : w.ids = layers.flatten
  parents : ∀ t ∈ w.tasks, ∀ p ∈ t.parents, NextLayer layers p t.id
  children : ∀ t ∈ w.tasks, ∀ c ∈ t.children, NextLayer layers t.id c
  mirror : ∀ t ∈ w.tasks, ∀ u ∈ w.tasks, u.id ∈ t.children ↔ t.id ∈ u.parents
  fed : ∀ t ∈ w.tasks, ∀ k, InLayer layers (k + 1) t.id → t.parents ≠ []
  once : ∀ t ∈ w.tasks, t.parents.Nodup ∧ t.children.Nodup
  depth : ∀ t ∈ w.tasks, ∀ k, InLayer layers k t.id → t.depth = k + 1

variable {spec : LayerSpec ℚ} {useFiles : Bool} {layers : List (List ℤ)} (hn : layers.flatten.Nodup)
  {w : Workflow ℚ} {bare : List (Task ℚ)} {arcs : List Arc} (h : w.Strung useFiles bare arcs)
  (hids : w.ids = layers.flatten) (hg : FlowSched.Grown spec (turns (layers.zip layers.tail)) arcs)

include h hg in
theorem Strung.nextLayer_of_parent {t : Task ℚ} (ht : t ∈ w.tasks) {p : ℤ} (hp : p ∈ t.parents) :
    NextLayer layers p t.id := by
  obtain ⟨b, -, rfl⟩ := h.exists_bare ht
  obtain ⟨e, he, hc, rfl⟩ := mem_parents_strung.1 hp
  exact hc ▸ hg.nextLayer he

include h hg in
theorem Strung.parents_ne_nil {t : Task ℚ} (ht : t ∈ w.tasks) {k : ℕ}
    (hk : InLayer layers (k + 1) t.id) : t.parents ≠ [] := by
  obtain ⟨b, -, rfl⟩ := h.exists_bare ht
  obtain ⟨e, he, hc⟩ := hg.exists_arc hk
  exact List.ne_nil_of_mem (mem_parents_strung.2 ⟨e, he, hc, rfl⟩)

include hn h hids hg

/-- Depths number the layers. -/
theorem Strung.depth_of_layer {depth : ℤ → ℤ}
    (hdepth : ∀ t ∈ w.tasks, depth t.id = depthFrom depth t.parents) {k : ℕ} {x : ℤ}
    (hx : InLayer layers k x) : depth x = k + 1 := by
  induction k generalizing x with
  | zero =>
    obtain ⟨t, ht⟩ := mem_ids.1 (hids ▸ exists_inLayer.1 ⟨_, hx⟩ : x ∈ w.ids)
    obtain ⟨htm, rfl⟩ := find?_eq_some.1 ht
    have hroot : t.parents = [] := by
      rw [List.eq_nil_iff_forall_not_mem]
      intro p hp
      obtain ⟨l, -, hl⟩ := h.nextLayer_of_parent hg htm hp
      exact absurd (inLayer_unique hn hx hl) (Nat.succ_ne_zero l).symm
    rw [hdepth t htm, depthFrom, if_pos hroot]
    rfl
  | succ k ih =>
    obtain ⟨t, ht⟩ := mem_ids.1 (hids ▸ exists_inLayer.1 ⟨_, hx⟩ : x ∈ w.ids)
    obtain ⟨htm, rfl⟩ := find?_eq_some.1 ht
    have hparents : ∀ p ∈ t.parents, depth p = k + 1 := fun p hp => by
      obtain ⟨l, hl, hl'⟩ := h.nextLayer_of_parent hg htm hp
      obtain rfl := Nat.succ.inj (inLayer_unique hn hx hl')
      exact ih hl
    rw [hdepth t htm, depthFrom_eq (h.parents_ne_nil hg htm hx) hparents]
    push_cast
    rfl

omit hn in
/-- A workflow strung from arcs between neighbouring layers stands in these layers. -/
theorem Strung.layered (hdepth : ∀ t ∈ w.tasks, ∀ k, InLayer layers k t.id → t.depth = k + 1) :
    w.Layered layers where
  ids := hids
  parents t ht p hp := h.nextLayer_of_parent hg ht hp
  children t ht c hc := by
    obtain ⟨e, he, hp, rfl⟩ := h.exists_arc ht hc
    exact hp ▸ hg.nextLayer he
  mirror t ht u hu := by
    obtain ⟨b, -, rfl⟩ := h.exists_bare ht
    obtain ⟨b', -, rfl⟩ := h.exists_bare hu
    rw [mem_children_strung, mem_parents_strung]
    exact exists_congr fun e => and_congr_right fun _ => and_comm
  fed t ht k hk := h.parents_ne_nil hg ht hk
  once t ht := by
    obtain ⟨b, -, rfl⟩ := h.exists_bare ht
    exact ⟨nodup_parents_strung hg.nodup, nodup_children_strung hg.nodup⟩
  depth := hdepth

/-- Such a workflow passes its check, and its depths number the layers. -/
theorem Strung.finished_layered (hs : spec.Sane) (hbare : ∀ t ∈ bare, 0 ≤ t.length ∧ 1 ≤ t.elements) :
    ∃ depth, w.finished = .ok (w.withDepths depth) ∧ (w.withDepths depth).Layered layers := by
  have hchecked : w.Checked := h.checked (hids ▸ hg.among hs) (fun t ht => (hbare t ht).1)
    (fun t ht => (hbare t ht).2) fun e he => (hg.nextLayer he).number_lt hn
  obtain ⟨depth, hfinished, hdepth⟩ := finished_ok hchecked
  have hids' : (w.withDepths depth).ids = layers.flatten := ids_withDepths.trans hids
  refine ⟨depth, hfinished, (h.withDepths depth).layered hids' hg fun t' ht' k hk => ?_⟩
  obtain ⟨t, ht, rfl⟩ := List.mem_map.1 ht'
  exact h.depth_of_layer hn hids hg hdepth hk

end Workflow

/-! ## The draw as a whole -/

namespace LayerSpec

variable {γ : Type} [Source γ] {spec : LayerSpec ℚ} (hs : spec.Sane)

include hs

/-- A task is drawn with its id, a length and without edges. -/
theorem yields_drawTask (id : ℤ) : Yields (spec.drawTask (γ := γ) id) fun t =>
    t.id = id ∧ 0 ≤ t.length ∧ 1 ≤ t.elements ∧ t.strung spec.useFiles [] = t := by
  refine (yields_between hs.lengths.2).bind fun length hlength => yields_pure ⟨rfl, ?_, le_refl _, ?_⟩
  · exact Int.cast_nonneg (hs.lengths.1.trans hlength.1)
  · cases hfiles : spec.useFiles <;> rfl

/-- A draw succeeds, and what it yields is strung from arcs between neighbouring layers. -/
theorem yields_draw : Yields (spec.draw (γ := γ)) fun drawn => ∃ layers bare arcs,
    drawn.2 = .generated spec.tasks layers.length ∧
    layers.flatten = (List.range spec.tasks.toNat).map (fun i : ℕ => (i : ℤ) + 1) ∧
    (∀ layer ∈ layers, 1 ≤ layer.length ∧ (layer.length : ℤ) ≤ spec.maxWidth) ∧
    (∀ t ∈ bare, 0 ≤ t.length) ∧ drawn.1.Strung spec.useFiles bare arcs ∧
    Grown spec (turns (layers.zip layers.tail)) arcs ∧ drawn.1.Layered layers := by
  unfold draw
  rw [if_neg (not_lt.2 hs.tasks)]
  dsimp only
  refine (yields_drawLayers hs.maxWidth (le_refl _) 1).bind fun layers hlayers => ?_
  have hflatten : layers.flatten = (List.range spec.tasks.toNat).map (fun i : ℕ => (i : ℤ) + 1) :=
    hlayers.1.trans (List.map_congr_left fun i _ => add_comm _ _)
  have hn : layers.flatten.Nodup := by
    rw [hflatten]
    exact List.nodup_range.map fun i j hij => by simpa using hij
  have hne : ∀ layer ∈ layers, layer ≠ [] := by
    rintro _ hlayer rfl
    exact absurd (hlayers.2 [] hlayer).1 (by simp)
  refine (yields_mapM fun id _ => yields_drawTask hs id).bind fun tasks htasks => ?_
  have hids : tasks.map Task.id = layers.flatten := by
    rw [hflatten, map_eq_map (f := id) (htasks.imp fun _ _ ht => ht.1), List.map_id]
  have hbare : ∀ t ∈ tasks, 0 ≤ t.length ∧ 1 ≤ t.elements ∧ t.strung spec.useFiles [] = t := by
    intro t ht
    obtain ⟨_, -, hid, hbare⟩ := exists_of_forall₂_right htasks t ht
    exact hbare
  obtain ⟨w, hw, rfl⟩ := Workflow.ofTasks_ok (hids ▸ hn)
  have hstrung : w.Strung spec.useFiles w.tasks [] :=
    ((List.map_congr_left fun t ht => (hbare t ht).2.2).trans (List.map_id _)).symm
  have hturns := yields_turns (γ := γ) hs hn hne hids hstrung
  rw [← foldlM_turns] at hturns
  refine yields_ofExcept_bind hw (hturns.bind fun w' hw' => ?_)
  obtain ⟨arcs, hstrung', hgrown⟩ := hw'
  have hids' : w'.ids = layers.flatten := (hstrung'.ids.trans hstrung.ids.symm).trans hids
  obtain ⟨depth, hfinished, hlayered⟩ := hstrung'.finished_layered hn hids' hgrown hs fun t ht =>
    (hbare t ht).imp_right And.left
  refine yields_ofExcept_bind hfinished (yields_pure ?_)
  refine ⟨layers, _, arcs, rfl, hflatten, hlayers.2, ?_, hstrung'.withDepths depth, hgrown, hlayered⟩
  exact List.forall_mem_map.2 fun t ht => (hbare t ht).1

omit [Source γ] hs in
/-- The ends of an arc of a workflow carry its load. -/
theorem carries_of_arc {arcs : List Arc} (hn : (arcs.map Arc.ends).Nodup) {e : Arc} (he : e ∈ arcs)
    (hload : spec.Bears e.load) {t u : Task ℚ} (ht : t.id = e.parent) (hu : u.id = e.child) :
    spec.Carries (t.strung spec.useFiles arcs) (u.strung spec.useFiles arcs) e.load := by
  have hparent : (t.strung spec.useFiles arcs).id = e.parent := ht
  have hchild : (u.strung spec.useFiles arcs).id = e.child := hu
  unfold Carries
  rw [hparent, hchild]
  unfold Bears at hload
  split_ifs at hload ⊢ with hfiles
  · rw [hfiles]
    exact ⟨hload, fun file => mem_outputs_iff hn he ht, fun file => mem_inputs_iff hn he hu⟩
  · rw [Bool.not_eq_true] at hfiles
    rw [hfiles]
    exact get?_transfers_strung hn he hu

/-- From sane ranges, and whatever the source yields, a workflow is drawn whose ids are cut into layers
of the widths asked for. It stands in these layers, and on VMs with a speed and over a positive mean
bandwidth each edge is priced by what its own ends carry. -/
theorem draw_layered (g : γ) : ∃ w layers g',
    spec.draw g = .ok (w, .generated spec.tasks layers.length) g' ∧
    w.ids = (List.range spec.tasks.toNat).map (fun i : ℕ => (i : ℤ) + 1) ∧
    (∀ layer ∈ layers, 1 ≤ layer.length ∧ (layer.length : ℤ) ≤ spec.maxWidth) ∧ w.Layered layers ∧
    ∀ vms bandwidth, (∀ v ∈ vms, 0 < v.mips) → meanBandwidth vms = .ok bandwidth → 0 < bandwidth →
      ∃ c, Costs.ofWorkflow w vms = .ok c ∧ ∀ t ∈ w.tasks, ∀ x ∈ t.children, ∃ u load,
        w.find? x = some u ∧ spec.Carries t u load ∧
          c.moving t.id x = .ok (price spec.useFiles bandwidth load) := by
  obtain ⟨⟨w, note⟩, g', hdraw, layers, bare, arcs, rfl, hflatten, hwidth, hbare, hstrung, hgrown,
    hlayered⟩ := (yields_draw hs).exists_ok g
  have hamong : Arc.Among w.ids arcs := hlayered.ids ▸ hgrown.among hs
  refine ⟨w, layers, g', hdraw, hlayered.ids.trans hflatten, hwidth, hlayered, ?_⟩
  intro vms bandwidth hv hmean hb
  obtain ⟨c, hc, hprice⟩ := hstrung.exists_costs hamong hbare hv hmean hb
  refine ⟨c, hc, fun t ht x hx => ?_⟩
  obtain ⟨e, he, hp, rfl⟩ := hstrung.exists_arc ht hx
  obtain ⟨b, u, hbp, hu, hfind, hfind'⟩ := hstrung.exists_ends hamong he
  rw [hp, Workflow.find?_self ht] at hfind
  obtain rfl := Option.some.inj hfind
  exact ⟨_, e.load, hfind', carries_of_arc hgrown.nodup he (hgrown.load e he) hbp hu, hp ▸ hprice e he⟩

omit hs

/-- Five tasks in layers of at most two, with files. -/
def fiveTasks : LayerSpec ℚ := { tasks := 5, maxWidth := 2 }

theorem sane_fiveTasks : fiveTasks.Sane := by
  constructor <;> norm_num [fiveTasks]

/-- A slow and a fast VM with a mean bandwidth of 1000. -/
def slowAndFast : List (Vm ℚ) :=
  [{ id := 0, mips := 100, bandwidth := 500 }, { id := 1, mips := 200, bandwidth := 1500 }]

theorem draw_layered_fiveTasks : fiveTasks.Sane ∧ ∃ w layers g',
    fiveTasks.draw (Mersenne.ofSeed 7) = .ok (w, .generated 5 layers.length) g' ∧
    w.ids = [1, 2, 3, 4, 5] ∧ w.Layered layers ∧ ∃ c, Costs.ofWorkflow w slowAndFast = .ok c ∧
      ∀ t ∈ w.tasks, ∀ x ∈ t.children, ∃ u load, w.find? x = some u ∧ fiveTasks.Carries t u load ∧
        c.moving t.id x = .ok (price true 1000 load) := by
  obtain ⟨w, layers, g', hdraw, hids, -, hlayered, hcosts⟩ :=
    draw_layered sane_fiveTasks (Mersenne.ofSeed 7)
  have hv : ∀ v ∈ slowAndFast, 0 < v.mips := by
    simp [slowAndFast]
  have hmean : meanBandwidth slowAndFast = .ok 1000 := by
    simp only [meanBandwidth, slowAndFast, mean, pairwiseSum_eq]
    norm_num
  exact ⟨sane_fiveTasks, w, layers, g', hdraw, hids, hlayered,
    hcosts slowAndFast 1000 hv hmean (by norm_num)⟩

end LayerSpec

end FlowSched

import Mathlib.Data.Int.Notation
import Mathlib.Data.List.Nodup
import FlowSched.Table

/-!
# What is found in a table

A table built from pairs holds under each of their keys the last value that was entered under it, and
nothing else.
-/

namespace FlowSched

/-- Of elements with distinct keys, the first one that bears a key is the only one. -/
theorem find?_key_eq_some {β κ : Type} [DecidableEq κ] {f : β → κ} {l : List β} (hn : (l.map f).Nodup)
    {a : β} {k : κ} : l.find? (f · = k) = some a ↔ a ∈ l ∧ f a = k := by
  constructor
  · intro h
    exact ⟨List.mem_of_find?_eq_some h, by simpa using List.find?_some h⟩
  · rintro ⟨ha, rfl⟩
    cases hf : l.find? (f · = f a) with
    | none =>
      rw [List.find?_eq_none] at hf
      exact absurd (hf a ha) (by simp)
    | some b =>
      have hb : f b = f a := by simpa using List.find?_some hf
      rw [List.inj_on_of_nodup_map hn (List.mem_of_find?_eq_some hf) ha hb]

/-- Of elements with distinct keys, the last one that bears a key is the only one. -/
theorem findRev?_eq_some {β : Type} {f : β → ℤ} {l : List β} (hn : (l.map f).Nodup) {a : β} {k : ℤ} :
    l.findRev? (f · = k) = some a ↔ a ∈ l ∧ f a = k := by
  rw [List.findRev?_eq_find?_reverse, find?_key_eq_some, List.mem_reverse]
  rwa [List.map_reverse, List.nodup_reverse]

namespace Table

variable {β : Type}

theorem mem_of_find {k : ℤ} {v : β} {entries : List (ℤ × β)} (h : find k entries = some v) :
    (k, v) ∈ entries := by
  induction entries with
  | nil => cases h
  | cons e rest ih =>
    obtain ⟨k', v'⟩ := e
    unfold find at h
    split_ifs at h with hk
    · rw [← hk, Option.some.inj h]
      exact List.mem_cons_self
    · exact List.mem_cons_of_mem _ (ih h)

theorem find_of_mem {k : ℤ} {entries : List (ℤ × β)} (h : k ∈ entries.map Prod.fst) :
    ∃ v, find k entries = some v := by
  induction entries with
  | nil => cases h
  | cons e rest ih =>
    obtain ⟨k', v'⟩ := e
    unfold find
    by_cases hk : k' = k
    · exact ⟨v', by rw [if_pos hk]⟩
    · rw [if_neg hk]
      refine ih ?_
      rcases List.mem_cons.1 h with e | h
      · exact absurd e.symm hk
      · exact h

/-- Where keys are distinct, the entries are what is found. -/
theorem find_eq_some {entries : List (ℤ × β)} (hn : (entries.map Prod.fst).Nodup) {k : ℤ} {v : β} :
    find k entries = some v ↔ (k, v) ∈ entries := by
  refine ⟨mem_of_find, fun hm => ?_⟩
  obtain ⟨u, hu⟩ := find_of_mem (List.mem_map_of_mem (f := Prod.fst) hm)
  have heq : (k, u) = (k, v) := List.inj_on_of_nodup_map hn (mem_of_find hu) hm rfl
  rw [hu, (Prod.mk.inj heq).2]

/-- A key that was entered holds a value that was entered under it. -/
theorem get?_foldl_set {pairs : List (ℤ × β)} {k : ℤ} {v : β} {t : Table β}
    (h : (pairs.foldl (fun t (key, value) => t.set key value) t).get? k = some v) :
    (k, v) ∈ pairs ∨ t.get? k = some v := by
  induction pairs generalizing t with
  | nil => exact Or.inr h
  | cons p pairs ih =>
    obtain ⟨k', v'⟩ := p
    rcases ih h with hm | ht
    · exact Or.inl (List.mem_cons_of_mem _ hm)
    · rw [get?_set] at ht
      split_ifs at ht with hk
      · rw [← hk, ← Option.some.inj ht]
        exact Or.inl List.mem_cons_self
      · exact Or.inr ht

theorem isSome_foldl_set {pairs : List (ℤ × β)} {k : ℤ} {t : Table β}
    (h : k ∈ pairs.map Prod.fst ∨ (t.get? k).isSome) :
    ((pairs.foldl (fun t (key, value) => t.set key value) t).get? k).isSome := by
  induction pairs generalizing t with
  | nil => exact h.resolve_left (by simp)
  | cons p pairs ih =>
    obtain ⟨k', v'⟩ := p
    refine ih ?_
    rw [get?_set]
    by_cases hk : k' = k
    · exact Or.inr (by simp [hk])
    · rw [if_neg hk]
      refine h.imp_left fun h => ?_
      rcases List.mem_cons.1 h with e | h
      · exact absurd e.symm hk
      · exact h

/-- A new key is entered at the end. -/
theorem enter_eq_append {key : ℤ} {value : β} {entries : List (ℤ × β)} (h : key ∉ entries.map Prod.fst) :
    enter key value entries = entries ++ [(key, value)] := by
  induction entries with
  | nil => rfl
  | cons e rest ih =>
    obtain ⟨k, v⟩ := e
    rw [List.map_cons, List.mem_cons, not_or] at h
    unfold enter
    rw [if_neg (Ne.symm h.1), ih h.2, List.cons_append]

theorem mem_of_mem_enter {key : ℤ} {value : β} {entries : List (ℤ × β)} {e : ℤ × β}
    (h : e ∈ enter key value entries) : e = (key, value) ∨ e ∈ entries := by
  induction entries with
  | nil => exact Or.inl (List.mem_singleton.1 h)
  | cons d rest ih =>
    obtain ⟨k, v⟩ := d
    unfold enter at h
    split_ifs at h with hk
    · rcases List.mem_cons.1 h with rfl | h
      · exact Or.inl (by rw [hk])
      · exact Or.inr (List.mem_cons_of_mem _ h)
    · rcases List.mem_cons.1 h with rfl | h
      · exact Or.inr List.mem_cons_self
      · exact (ih h).imp_right (List.mem_cons_of_mem _)

/-- Entering a key again replaces its value where it stands. -/
theorem values_set {t : Table β} {k : ℤ} {old : β} (h : t.get? k = some old) (new : β) :
    ∃ before after, t.values = before ++ old :: after ∧
      (t.set k new).values = before ++ new :: after := by
  obtain ⟨entries⟩ := t
  change find k entries = some old at h
  show ∃ before after, entries.map Prod.snd = before ++ old :: after ∧
    (enter k new entries).map Prod.snd = before ++ new :: after
  induction entries with
  | nil => cases h
  | cons e rest ih =>
    obtain ⟨k', v⟩ := e
    unfold find at h
    unfold enter
    split_ifs at h ⊢ with hk
    · exact ⟨[], rest.map Prod.snd, by rw [Option.some.inj h.symm]; rfl, rfl⟩
    · obtain ⟨before, after, hold, hnew⟩ := ih h
      exact ⟨v :: before, after, by simp [hold], by simp [hnew]⟩

theorem mem_values_set {t : Table β} {k : ℤ} {v x : β} (h : x ∈ (t.set k v).values) :
    x = v ∨ x ∈ t.values := by
  obtain ⟨e, he, rfl⟩ := List.mem_map.1 h
  exact (mem_of_mem_enter he).imp (fun he => by rw [he]) fun he => List.mem_map_of_mem he

theorem mem_of_mem_foldl_set {pairs : List (ℤ × β)} {t : Table β} {e : ℤ × β}
    (h : e ∈ (pairs.foldl (fun t (key, value) => t.set key value) t).entries) :
    e ∈ pairs ∨ e ∈ t.entries := by
  induction pairs generalizing t with
  | nil => exact Or.inr h
  | cons p pairs ih =>
    rcases ih h with hm | ht
    · exact Or.inl (List.mem_cons_of_mem _ hm)
    · refine (mem_of_mem_enter ht).imp_left fun he => ?_
      rw [he]
      exact List.mem_cons_self

theorem mem_values_ofList {pairs : List (ℤ × β)} {v : β} (h : v ∈ (ofList pairs).values) :
    ∃ k, (k, v) ∈ pairs := by
  obtain ⟨⟨k, u⟩, he, rfl⟩ := List.mem_map.1 h
  exact ⟨k, (mem_of_mem_foldl_set he).resolve_right (by simp)⟩

theorem mem_of_get?_ofList {pairs : List (ℤ × β)} {k : ℤ} {v : β}
    (h : (ofList pairs).get? k = some v) : (k, v) ∈ pairs :=
  (get?_foldl_set h).resolve_right (by simp)

theorem get?_ofList_of_mem {pairs : List (ℤ × β)} {k : ℤ} (h : k ∈ pairs.map Prod.fst) :
    ∃ v, (ofList pairs).get? k = some v ∧ (k, v) ∈ pairs := by
  obtain ⟨v, hv⟩ := Option.isSome_iff_exists.1 (isSome_foldl_set (t := {}) (Or.inl h))
  exact ⟨v, hv, mem_of_get?_ofList hv⟩

/-- Where no key has two values, a table built from pairs holds just those pairs. -/
theorem get?_ofList_eq_some {pairs : List (ℤ × β)}
    (hf : ∀ k u v, (k, u) ∈ pairs → (k, v) ∈ pairs → u = v) {k : ℤ} {v : β} :
    (ofList pairs).get? k = some v ↔ (k, v) ∈ pairs := by
  refine ⟨mem_of_get?_ofList, fun hm => ?_⟩
  obtain ⟨u, hu, hmu⟩ := get?_ofList_of_mem (List.mem_map_of_mem (f := Prod.fst) hm)
  rw [hu, hf k u v hmu hm]

/-- A table built from pairs holds the last value that was entered under a key. -/
theorem get?_ofList (pairs : List (ℤ × β)) (k : ℤ) :
    (ofList pairs).get? k = (pairs.findRev? fun e => e.1 = k).map Prod.snd := by
  have hfold : ∀ t : Table β, (pairs.foldl (fun t (key, value) => t.set key value) t).get? k =
      ((pairs.findRev? fun e => e.1 = k).map Prod.snd).or (t.get? k) := by
    rw [List.findRev?_eq_find?_reverse]
    induction pairs with
    | nil => exact fun _ => rfl
    | cons e pairs ih =>
      intro t
      rw [List.foldl_cons, ih, get?_set, List.reverse_cons, List.find?_append]
      cases pairs.reverse.find? fun e => decide (e.1 = k) with
      | some _ => rfl
      | none => by_cases hk : e.1 = k <;> simp [hk]
  rw [ofList, hfold, get?_empty, Option.or_none]

/-- A table with one entry for each element of a list of distinct keys. -/
theorem get?_ofList_map {γ : Type} {f : γ → ℤ × β} {xs : List γ} (hn : (xs.map fun x => (f x).1).Nodup)
    {x : γ} (hx : x ∈ xs) : (ofList (xs.map f)).get? (f x).1 = some (f x).2 := by
  have hkey : (f x).1 ∈ (xs.map f).map Prod.fst := by
    rw [List.map_map]
    exact List.mem_map_of_mem hx
  obtain ⟨v, hv, hm⟩ := get?_ofList_of_mem hkey
  obtain ⟨y, hy, he⟩ := List.mem_map.1 hm
  have hyx : y = x := List.inj_on_of_nodup_map hn hy hx (by rw [he])
  rw [hv, ← hyx, he]

theorem mem_values {t : Table β} {k : ℤ} {v : β} (h : t.get? k = some v) : v ∈ t.values :=
  List.mem_map_of_mem (f := Prod.snd) (mem_of_find h)

end Table

end FlowSched

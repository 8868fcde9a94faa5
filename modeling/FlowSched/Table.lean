/-!
# Tables

A table maps whole numbers to values and remembers the order in which keys were first entered.
A key that is entered again keeps its place and takes the new value.
-/

namespace FlowSched

/-- Values under whole-number keys, in order of first entry. -/
structure Table (β : Type) where
  entries : List (Int × β) := []

namespace Table

variable {β γ : Type}

/-- The value under a key in a list of entries. -/
def find (key : Int) : List (Int × β) → Option β
  | [] => none
  | (k, v) :: rest => if k = key then some v else find key rest

/-- The value under a key. -/
def get? (t : Table β) (key : Int) : Option β := find key t.entries

/-- Enters a value in a list of entries. -/
def enter (key : Int) (value : β) : List (Int × β) → List (Int × β)
  | [] => [(key, value)]
  | (k, v) :: rest => if k = key then (k, value) :: rest else (k, v) :: enter key value rest

/-- Enters a value under a key. -/
def set (t : Table β) (key : Int) (value : β) : Table β := ⟨enter key value t.entries⟩

/-- The keys in order of first entry. -/
def keys (t : Table β) : List Int := t.entries.map Prod.fst

/-- The values in order of first entry of their keys. -/
def values (t : Table β) : List β := t.entries.map Prod.snd

/-- Enters pairs one after the other. -/
def ofList (pairs : List (Int × β)) : Table β :=
  pairs.foldl (fun t (key, value) => t.set key value) {}

/-- The table with every value replaced by its image. -/
def map (f : β → γ) (t : Table β) : Table γ := ⟨t.entries.map fun (key, value) => (key, f value)⟩

/-- Keys and values in ascending order of the keys. -/
def sorted (t : Table β) : List (Int × β) :=
  t.entries.mergeSort fun a b => decide (a.1 ≤ b.1)

@[simp] theorem get?_empty (key : Int) : (({} : Table β).get? key) = none := rfl

theorem find_enter (key k : Int) (value : β) (entries : List (Int × β)) :
    find k (enter key value entries) = if key = k then some value else find k entries := by
  induction entries with
  | nil => rfl
  | cons e rest ih =>
    obtain ⟨k', v⟩ := e
    unfold enter
    by_cases h : k' = key
    · subst h
      by_cases hk : k' = k <;> simp [find, hk]
    · by_cases hk : k' = k
      · subst hk
        simp [find, h, Ne.symm h]
      · simp [find, h, hk, ih]

/-- A value that was entered is found under its key, and the others stay. -/
theorem get?_set (t : Table β) (key k : Int) (value : β) :
    (t.set key value).get? k = if key = k then some value else t.get? k :=
  find_enter key k value t.entries

end Table

end FlowSched

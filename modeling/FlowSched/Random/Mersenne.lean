import FlowSched.Random.Source
import FlowSched.Number.Rounding

/-!
# The Mersenne twister

The generator MT19937: 624 words of 32 bits, seeded by an array of words. Numbers below a bound
are drawn by rejection from as many bits as the bound has.
-/

namespace FlowSched

/-- The state of the generator: its words and the next word to be read. -/
structure Mersenne where
  words : Array UInt32
  index : Nat

namespace Mersenne

/-- The number of words. -/
def size : Nat := 624

/-- The word at a place, counted around the array. -/
def word (words : Array UInt32) (i : Nat) : UInt32 := words.getD (i % size) 0

/-! ## Seeding -/

/-- The words that a single word seeds. -/
def ofWord (seed : UInt32) : Array UInt32 :=
  (List.range (size - 1)).foldl (fun words i =>
    let last := words.getD i 0
    words.push ((last ^^^ (last >>> 30)) * (1812433253 : UInt32) + (UInt32.ofNat i + 1))) #[seed]

/-- Places from a first one on around the array; place `0` is never written, as it takes over the
last word whenever the end is passed. -/
def rounds (count first : Nat) : List Nat :=
  (List.range count).map fun k => (first - 1 + k) % (size - 1) + 1

/-- Writes a word; the last place is copied to the first. -/
def put (words : Array UInt32) (i : Nat) (x : UInt32) : Array UInt32 :=
  let words := words.setIfInBounds i x
  if i = size - 1 then words.setIfInBounds 0 x else words

/-- Mixes a key into the words. -/
def mixKey (key : Array UInt32) (words : Array UInt32) : Array UInt32 :=
  let count := max size key.size
  ((rounds count 1).zipIdx).foldl (fun words (i, k) =>
    let last := word words (i - 1)
    let j := k % key.size
    put words i (((word words i) ^^^ ((last ^^^ (last >>> 30)) * 1664525)) + key.getD j 0
      + UInt32.ofNat j)) words

/-- Mixes the words among themselves, from a place on. -/
def mixPlaces (first : Nat) (words : Array UInt32) : Array UInt32 :=
  (rounds (size - 1) first).foldl (fun words i =>
    let last := word words (i - 1)
    put words i (((word words i) ^^^ ((last ^^^ (last >>> 30)) * 1566083941))
      - UInt32.ofNat i)) words

/-- The generator seeded by a key. -/
def ofKey (key : Array UInt32) : Mersenne :=
  let first := max size key.size % (size - 1) + 1
  let words := mixPlaces first (mixKey key (ofWord 19650218))
  { words := words.setIfInBounds 0 0x80000000, index := size }

/-- The 32-bit words of a number, the least significant first; zero has one word. -/
def keyOf (n : Nat) : Array UInt32 :=
  let count := max 1 ((Nat.log2 n + 32) / 32)
  ((List.range count).map fun k => UInt32.ofNat (n >>> (32 * k))).toArray

/-- The generator of a seed, whose sign does not count. -/
def ofSeed (seed : Int) : Mersenne := ofKey (keyOf seed.natAbs)

/-! ## Drawing -/

/-- The next word of a round, from its neighbour and a word farther on. -/
def twist (current next far : UInt32) : UInt32 :=
  let mixed := (current &&& 0x80000000) ||| (next &&& 0x7fffffff)
  far ^^^ (mixed >>> 1) ^^^ (if mixed &&& 1 = 0 then 0 else 0x9908b0df)

/-- A new round of words. -/
def refill (words : Array UInt32) : Array UInt32 :=
  (List.range size).foldl (fun words i =>
    words.setIfInBounds i (twist (word words i) (word words (i + 1)) (word words (i + 397)))) words

/-- Spreads the bits of a word. -/
def temper (y : UInt32) : UInt32 :=
  let y := y ^^^ (y >>> 11)
  let y := y ^^^ ((y <<< 7) &&& 0x9d2c5680)
  let y := y ^^^ ((y <<< 15) &&& 0xefc60000)
  y ^^^ (y >>> 18)

/-- The next 32 bits. -/
def next (g : Mersenne) : UInt32 × Mersenne :=
  let g := if size ≤ g.index then { words := refill g.words, index := 0 } else g
  (temper (word g.words g.index), { g with index := g.index + 1 })

/-- As many random bits, in words from the least significant on. The last word is cut to the bits
that are left. -/
def bits : Nat → Nat → Mersenne → Nat × Mersenne
  | 0, _, g => (0, g)
  | fuel + 1, k, g =>
    if k = 0 then (0, g)
    else
      let (w, g) := g.next
      if k ≤ 32 then (w.toNat >>> (32 - k), g)
      else
        let (high, g) := bits fuel (k - 32) g
        (w.toNat + high <<< 32, g)

/-- The number of bits of a number. -/
def bitLength (n : Nat) : Nat := if n = 0 then 0 else Nat.log2 n + 1

/-- Draws until a number lies below the bound. More than half of the draws do, so the last resort
is never met in practice. -/
def reject (n : Nat) : Nat → Mersenne → Nat × Mersenne
  | 0, g => (0, g)
  | fuel + 1, g =>
    let k := bitLength n
    let (x, g) := bits k k g
    if x < n then (x, g) else reject n fuel g

theorem reject_lt (n fuel : Nat) (g : Mersenne) (h : 0 < n) : (reject n fuel g).1 < n := by
  induction fuel generalizing g with
  | zero => exact h
  | succ fuel ih =>
    unfold reject
    dsimp only
    split
    · assumption
    · exact ih _

/-- A 53-bit number from two words: 27 bits of the first and 26 of the second. -/
def steps (g : Mersenne) : Nat × Mersenne :=
  let (a, g) := g.next
  let (b, g) := g.next
  ((a.toNat >>> 5) * twoTo 26 + (b.toNat >>> 6), g)

theorem steps_lt (g : Mersenne) : g.steps.1 < resolution := by
  unfold steps
  have ha := g.next.1.toNat_lt
  have hb := g.next.2.next.1.toNat_lt
  simp only [Nat.shiftRight_eq_div_pow, resolution, show twoTo 26 = 67108864 from rfl]
  omega

/-- How often a number is drawn before the last resort. -/
def patience : Nat := 100000

instance : Source Mersenne where
  below n := reject n patience
  steps := steps
  below_lt n g h := reject_lt n patience g h
  steps_lt := steps_lt

end Mersenne

end FlowSched

import FlowSched.Number.Quantity

/-!
# Pairwise sums and means

Long sums are split in halves and short ones run in eight lanes, which keeps rounding errors
small. Over exact numbers the sum is the plain one.
-/

namespace FlowSched

open Quantity

variable {α : Type} [Quantity α]

/-- Adds full rows of eight to eight lanes, joins the lanes in pairs and adds what is left. -/
def sumLanes (r0 r1 r2 r3 r4 r5 r6 r7 : α) : List α → α
  | x0 :: x1 :: x2 :: x3 :: x4 :: x5 :: x6 :: x7 :: rest =>
    sumLanes (r0 + x0) (r1 + x1) (r2 + x2) (r3 + x3) (r4 + x4) (r5 + x5) (r6 + x6) (r7 + x7) rest
  | rest => rest.foldl (· + ·) (((r0 + r1) + (r2 + r3)) + ((r4 + r5) + (r6 + r7)))

/-- The sum of at most 128 numbers: from left to right below eight, else in eight lanes. -/
def sumBlock : List α → α
  | x0 :: x1 :: x2 :: x3 :: x4 :: x5 :: x6 :: x7 :: rest => sumLanes x0 x1 x2 x3 x4 x5 x6 x7 rest
  | xs => xs.foldl (· + ·) 0

/-- The sum of numbers that are halved until a block is left; the first half is a multiple of
eight. Each level halves the length, so the length bounds the depth. -/
def sumHalves : Nat → List α → α
  | 0, xs => sumBlock xs
  | fuel + 1, xs =>
    if xs.length ≤ 128 then sumBlock xs
    else
      let half := xs.length / 2
      let m := half - half % 8
      sumHalves fuel (xs.take m) + sumHalves fuel (xs.drop m)

/-- The pairwise sum. -/
def pairwiseSum (xs : List α) : α := 0 + sumHalves xs.length xs

/-- The mean of a list. -/
def mean (xs : List α) : α := pairwiseSum xs / ((xs.length : Nat) : α)

end FlowSched

import QueryLogic.Number.Double
/-!
The shortest decimal that reads back as a given binary number. A grid of decimals is the set of
multiples of one power of ten. Going from coarse grids to fine ones, the first grid that has a point
close enough to be rounded to the number gives the fewest digits; of the two points of that grid
around the number the closer one is taken. All comparisons are between natural numbers: both sides
are multiplied by the powers of two and ten that would otherwise divide them.
-/
namespace QueryLogic

/-- The number `digits * 10 ^ exponent`. -/
structure Scientific where
  digits : Nat
  exponent : Int
  deriving DecidableEq, Repr

inductive Tie
  | up
  | even
  deriving DecidableEq, Repr

def Tie.choose (t : Tie) (d : Nat) : Nat :=
  match t with
  | up => d + 1
  | even => if d % 2 = 0 then d else d + 1

namespace Magnitude

/-- The size of `quarters` quarters of the last binary place, on a scale shared with `step`. -/
def scaled (x : Magnitude) (k : Int) (quarters : Nat) : Nat :=
  quarters * Nat.pow 2 (x.exponent - 2).toNat * Nat.pow 10 (-k).toNat

/-- The distance between two points of the grid of multiples of `10 ^ k`, on the same scale. -/
def step (x : Magnitude) (k : Int) : Nat :=
  Nat.pow 2 (2 - x.exponent).toNat * Nat.pow 10 k.toNat

/-- The number itself is four quarters for each unit of its significand. -/
def middle (x : Magnitude) (k : Int) : Nat := x.scaled k (4 * x.significand)

/-- The least number that may still be rounded to this one: half of the distance to the next number
below. -/
def lower (x : Magnitude) (k : Int) : Nat :=
  x.scaled k (4 * x.significand - if x.narrowBelow then 1 else 2)

/-- The greatest number that may still be rounded to this one. -/
def upper (x : Magnitude) (k : Int) : Nat := x.scaled k (4 * x.significand + 2)

/-- Whether `d * 10 ^ k` reads as this number: it lies between the two ends, and on an end only if
the significand is even, because a half is rounded to the even neighbour. -/
def readsBack (x : Magnitude) (k : Int) (d : Nat) : Bool :=
  let p := d * x.step k
  if x.significand % 2 = 0 then decide (x.lower k ≤ p ∧ p ≤ x.upper k)
  else decide (x.lower k < p ∧ p < x.upper k)

/-- The last grid point that does not exceed the number. -/
def below (x : Magnitude) (k : Int) : Nat := x.middle k / x.step k

/-- The grid point that reads back and is closest to the number, if there is one. -/
def onGrid? (x : Magnitude) (t : Tie) (k : Int) : Option Nat :=
  let d := x.below k
  match x.readsBack k d, x.readsBack k (d + 1) with
  | true, true =>
    match compare (2 * x.middle k) ((2 * d + 1) * x.step k) with
    | .lt => some d
    | .eq => some (t.choose d)
    | .gt => some (d + 1)
  | true, false => some d
  | false, true => some (d + 1)
  | false, false => none

/-- A power of ten above the number: `0.30103` exceeds the decimal logarithm of two. -/
def coarsest (x : Magnitude) : Int :=
  (x.significand.log2 + 1 + x.exponent) * 30103 / 100000 + 1

/-- A grid that holds the number itself: a number with `n` binary places has `n` decimal places. -/
def finest (x : Magnitude) : Int := min x.exponent 0

/-- Tries the grids from `k` on, the last of them being the one that holds the number. -/
def search (x : Magnitude) (t : Tie) : Nat → Int → Scientific
  | 0, k => ⟨x.below k, k⟩
  | n + 1, k =>
    match x.onGrid? t k with
    | some d => ⟨d, k⟩
    | none => search x t n (k - 1)

/-- The decimal with the fewest digits that reads back, and of those the closest. -/
def shortest (x : Magnitude) (t : Tie) : Scientific :=
  x.search t (x.coarsest - x.finest).toNat x.coarsest

end Magnitude

end QueryLogic

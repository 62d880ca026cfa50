import QueryLogic.Number.Digits
/-!
Decimals with a fixed number of places. A decimal remembers how many places it was written with, so
1.5 and 1.50 are two decimals of one value: equality of conditions goes by the value, the text by
the places. Zero has no sign but keeps its places.
-/
namespace QueryLogic

/-- The number `coefficient / 10 ^ places`, written with that many places. -/
structure Decimal where
  coefficient : Int
  places : Nat
  deriving DecidableEq, Repr

namespace Decimal

def value (d : Decimal) : Rat := mkRat d.coefficient (Nat.pow 10 d.places)

/-- Two decimals agree when they stand for one number, whatever their places. -/
def agrees (a b : Decimal) : Bool :=
  a.coefficient * Nat.pow 10 b.places == b.coefficient * Nat.pow 10 a.places

theorem agrees_iff {a b : Decimal} : a.agrees b = true ↔ a.value = b.value := by
  have left : Nat.pow 10 a.places ≠ 0 := Nat.pos_iff_ne_zero.1 (Nat.pow_pos (by decide))
  have right : Nat.pow 10 b.places ≠ 0 := Nat.pos_iff_ne_zero.1 (Nat.pow_pos (by decide))
  rw [agrees, value, value, Rat.mkRat_eq_iff left right, beq_iff_eq]

/-- The digits of the coefficient, with zeros before them so that one stands before the point. -/
def digits (d : Decimal) : List Char :=
  let ds := Digits.ofNat d.coefficient.natAbs
  List.replicate (d.places + 1 - ds.length) '0' ++ ds

theorem places_lt_length_digits (d : Decimal) : d.places < d.digits.length := by
  simp only [digits, List.length_append, List.length_replicate]
  omega

def whole (d : Decimal) : List Char := d.digits.take (d.digits.length - d.places)

/-- The digits after the point, one for each place. -/
def fraction (d : Decimal) : List Char := d.digits.drop (d.digits.length - d.places)

theorem length_fraction (d : Decimal) : d.fraction.length = d.places := by
  have := d.places_lt_length_digits
  simp only [fraction, List.length_drop]
  omega

theorem whole_append_fraction (d : Decimal) : d.whole ++ d.fraction = d.digits :=
  List.take_append_drop _ _

/-- A minus sign for a negative number, the whole part, and a point with the fraction unless there
are no places. -/
def toChars (d : Decimal) : List Char :=
  (if d.coefficient < 0 then ['-'] else []) ++ d.whole ++
    if d.places = 0 then [] else '.' :: d.fraction

def text (d : Decimal) : String := String.ofList d.toChars

/-- Reads digits with at most one point among them; the places are the digits after the point. -/
def ofUnsigned? (cs : List Char) : Option Decimal :=
  let places := (cs.dropWhile (· ≠ '.')).drop 1
  (Digits.toNat? (cs.takeWhile (· ≠ '.') ++ places)).map fun n => ⟨n, places.length⟩

def ofChars? : List Char → Option Decimal
  | '-' :: cs => (ofUnsigned? cs).map fun d => ⟨-d.coefficient, d.places⟩
  | cs => ofUnsigned? cs

theorem isDigit_of_mem_digits {d : Decimal} {c : Char} (h : c ∈ d.digits) : c.isDigit = true := by
  rcases List.mem_append.1 h with h | h
  · rw [List.eq_of_mem_replicate h]
    decide
  · exact Digits.isDigit_of_mem_ofNat h

theorem isDigit_of_mem_whole {d : Decimal} {c : Char} (h : c ∈ d.whole) : c.isDigit = true :=
  isDigit_of_mem_digits (List.mem_of_mem_take h)

theorem whole_ne_nil (d : Decimal) : d.whole ≠ [] := by
  have := d.places_lt_length_digits
  intro h
  have length := congrArg List.length h
  simp only [whole, List.length_take, List.length_nil] at length
  omega

/-- What follows the sign reads as the size of the decimal. -/
theorem ofUnsigned?_whole (d : Decimal) :
    ofUnsigned? (d.whole ++ if d.places = 0 then [] else '.' :: d.fraction) =
      some ⟨d.coefficient.natAbs, d.places⟩ := by
  have inside : ∀ c ∈ d.whole, decide (c ≠ '.') = true := by
    intro c h
    have := isDigit_of_mem_whole h
    refine decide_eq_true fun point => ?_
    subst point
    exact absurd this (by decide)
  have size : Digits.toNat? (d.whole ++ d.fraction) = some d.coefficient.natAbs := by
    rw [whole_append_fraction]
    exact Digits.toNat?_zeros_append _ _
  by_cases none : d.places = 0
  · have empty : d.fraction = [] := List.eq_nil_of_length_eq_zero (d.length_fraction.trans none)
    rw [empty, List.append_nil] at size
    rw [if_pos none, ofUnsigned?, List.takeWhile_append_of_pos inside,
      List.dropWhile_append_of_pos inside]
    simp [size, none]
  · rw [if_neg none, ofUnsigned?, List.takeWhile_append_of_pos inside,
      List.dropWhile_append_of_pos inside]
    simp [size, length_fraction]

/-- Reading what was written gives the decimal back, places included. -/
theorem ofChars?_toChars (d : Decimal) : ofChars? d.toChars = some d := by
  by_cases sign : d.coefficient < 0
  · have size : -(d.coefficient.natAbs : Int) = d.coefficient := by omega
    rw [toChars, if_pos sign, List.append_assoc, List.singleton_append, ofChars?,
      ofUnsigned?_whole]
    change some (mk (-(d.coefficient.natAbs : Int)) d.places) = some d
    rw [size]
  · have size : (d.coefficient.natAbs : Int) = d.coefficient := by omega
    rw [toChars, if_neg sign, List.nil_append, ofChars?.eq_2, ofUnsigned?_whole]
    · rw [size]
    · intro cs h
      obtain ⟨c, rest, whole⟩ := List.exists_cons_of_ne_nil d.whole_ne_nil
      have digit : c.isDigit = true := isDigit_of_mem_whole (whole ▸ List.mem_cons_self)
      rw [whole, List.cons_append] at h
      rw [List.head_eq_of_cons_eq h] at digit
      exact absurd digit (by decide)

end Decimal

end QueryLogic

/-!
Binary floating-point numbers of 64 bits: one sign bit, eleven exponent bits and 52 fraction bits. A
double is kept as its bits, so that every not-a-number and both zeros stay what they were given as;
`agrees` is the equality that conditions use, under which all not-a-numbers are one value and the
two zeros are one value. `reading` takes the bits apart.
-/
namespace QueryLogic

/-- The bits of a 64-bit floating-point number. -/
structure Double where
  bits : UInt64
  deriving DecidableEq, Repr

/-- The positive number `significand * 2 ^ exponent`, with what decides how far off a number may be
and still be rounded to it: the next number below is half as far away as the next above when
`narrowBelow` holds. -/
structure Magnitude where
  significand : Nat
  exponent : Int
  narrowBelow : Bool
  deriving DecidableEq, Repr

namespace Double

inductive Reading
  | notANumber
  | infinite (negative : Bool)
  | zero (negative : Bool)
  | finite (negative : Bool) (size : Magnitude)
  deriving DecidableEq, Repr

def negative (x : Double) : Bool := decide (Nat.pow 2 63 ≤ x.bits.toNat)

def exponentField (x : Double) : Nat := x.bits.toNat / Nat.pow 2 52 % Nat.pow 2 11

def fractionField (x : Double) : Nat := x.bits.toNat % Nat.pow 2 52

/-- A full exponent with a fraction stands for no number. -/
def isNaN (x : Double) : Bool := x.exponentField == 2047 && x.fractionField != 0

/-- Both zeros have nothing but a sign. -/
def isZero (x : Double) : Bool := x.exponentField == 0 && x.fractionField == 0

/-- The size of a finite number. Numbers with an empty exponent field are multiples of the smallest
positive one; all others have a leading one before the fraction, and at a bare power of two the
numbers below lie twice as close as those above. -/
def size (x : Double) : Magnitude :=
  if x.exponentField = 0 then ⟨x.fractionField, -1074, false⟩
  else ⟨Nat.pow 2 52 + x.fractionField, x.exponentField - 1075,
    x.fractionField == 0 && decide (1 < x.exponentField)⟩

def reading (x : Double) : Reading :=
  if x.isNaN then .notANumber
  else if x.exponentField = 2047 then .infinite x.negative
  else if x.isZero then .zero x.negative
  else .finite x.negative x.size

/-- Equality of doubles in conditions: all not-a-numbers are equal, and so are the two zeros. -/
def agrees (a b : Double) : Bool :=
  a.bits == b.bits || (a.isNaN && b.isNaN) || (a.isZero && b.isZero)

/-- The bits that stand for all equal doubles: one quiet not-a-number and the positive zero. -/
def canonicalBits (x : Double) : UInt64 :=
  if x.isNaN then 0x7ff8000000000000 else if x.isZero then 0 else x.bits

theorem isZero_eq_false_of_isNaN {x : Double} (h : x.isNaN = true) : x.isZero = false := by
  simp only [isNaN, isZero, Bool.and_eq_true, bne_iff_ne, beq_iff_eq] at *
  simp [h.2]

theorem isNaN_of_bits {x : Double} (h : x.bits = 0x7ff8000000000000) : x.isNaN = true := by
  simp [isNaN, exponentField, fractionField, h]

theorem isZero_of_bits {x : Double} (h : x.bits = 0) : x.isZero = true := by
  simp [isZero, exponentField, fractionField, h]

theorem eq_of_bits_eq {a b : Double} (h : a.bits = b.bits) : a = b := by
  cases a
  cases b
  exact congrArg mk h

theorem isNaN_iff {x : Double} : x.isNaN = true ↔ x.canonicalBits = 0x7ff8000000000000 := by
  constructor
  · intro h
    rw [canonicalBits, if_pos h]
  · intro h
    by_cases number : x.isNaN = true
    · exact number
    · by_cases zero : x.isZero = true
      · rw [canonicalBits, if_neg number, if_pos zero] at h
        exact absurd h (by decide)
      · rw [canonicalBits, if_neg number, if_neg zero] at h
        exact isNaN_of_bits h

theorem isZero_iff {x : Double} : x.isZero = true ↔ x.canonicalBits = 0 := by
  constructor
  · intro h
    have number : ¬x.isNaN = true := fun n => by simp [isZero_eq_false_of_isNaN n] at h
    rw [canonicalBits, if_neg number, if_pos h]
  · intro h
    by_cases number : x.isNaN = true
    · rw [canonicalBits, if_pos number] at h
      exact absurd h (by decide)
    · by_cases zero : x.isZero = true
      · exact zero
      · rw [canonicalBits, if_neg number, if_neg zero] at h
        exact isZero_of_bits h

/-- Doubles agree exactly when they have the same canonical bits. -/
theorem agrees_iff {a b : Double} : a.agrees b = true ↔ a.canonicalBits = b.canonicalBits := by
  simp only [agrees, Bool.or_eq_true, beq_iff_eq, Bool.and_eq_true]
  constructor
  · rintro ((same | ⟨na, nb⟩) | ⟨za, zb⟩)
    · rw [eq_of_bits_eq same]
    · rw [isNaN_iff.1 na, isNaN_iff.1 nb]
    · rw [isZero_iff.1 za, isZero_iff.1 zb]
  · intro h
    by_cases na : a.isNaN = true
    · exact Or.inl (Or.inr ⟨na, isNaN_iff.2 (h ▸ isNaN_iff.1 na)⟩)
    · by_cases za : a.isZero = true
      · exact Or.inr ⟨za, isZero_iff.2 (h ▸ isZero_iff.1 za)⟩
      · have nb : ¬b.isNaN = true := fun n => na (isNaN_iff.2 (h ▸ isNaN_iff.1 n))
        have zb : ¬b.isZero = true := fun z => za (isZero_iff.2 (h ▸ isZero_iff.1 z))
        rw [canonicalBits, canonicalBits, if_neg na, if_neg za, if_neg nb, if_neg zb] at h
        exact Or.inl (Or.inl h)

end Double

end QueryLogic

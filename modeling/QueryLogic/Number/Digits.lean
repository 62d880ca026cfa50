/-!
Whole numbers in decimal digits. A number is written without leading zeros and read with any
number of them; reading what was written gives the number back.
-/
namespace QueryLogic.Digits

/-- The digits of a number, without leading zeros; zero is one digit. -/
def ofNat (n : Nat) : List Char := Nat.toDigits 10 n

/-- Reads a nonempty run of digits. -/
def toNat? (cs : List Char) : Option Nat :=
  if cs.isEmpty then none
  else if cs.all Char.isDigit then some (Nat.ofDigitChars 10 cs 0) else none

theorem ofNat_ne_nil (n : Nat) : ofNat n ≠ [] := Nat.toDigits_ne_nil

theorem isDigit_of_mem_ofNat {n : Nat} {c : Char} (h : c ∈ ofNat n) : c.isDigit = true :=
  Nat.isDigit_of_mem_toDigits (by decide) (by decide) h

theorem exists_ofNat_eq_cons (n : Nat) : ∃ d ds, ofNat n = d :: ds ∧ d.isDigit = true := by
  obtain ⟨d, ds, digits⟩ := List.exists_cons_of_ne_nil (ofNat_ne_nil n)
  exact ⟨d, ds, digits, isDigit_of_mem_ofNat (digits ▸ List.mem_cons_self)⟩

theorem toNat?_zeros_append (k n : Nat) :
    toNat? (List.replicate k '0' ++ ofNat n) = some n := by
  have digits : (List.replicate k '0' ++ ofNat n).all Char.isDigit = true := by
    refine List.all_eq_true.2 fun c h => ?_
    rcases List.mem_append.1 h with h | h
    · rw [List.eq_of_mem_replicate h]
      decide
    · exact isDigit_of_mem_ofNat h
  have nonempty : (List.replicate k '0' ++ ofNat n).isEmpty = false := by simp [ofNat_ne_nil]
  rw [toNat?, nonempty, digits]
  simp [ofNat, Nat.ofDigitChars_append, Nat.ofDigitChars_toDigits]

theorem toNat?_ofNat (n : Nat) : toNat? (ofNat n) = some n := toNat?_zeros_append 0 n

theorem ofNat_inj {m n : Nat} : ofNat m = ofNat n ↔ m = n :=
  ⟨fun h => Option.some.inj (toNat?_ofNat m ▸ toNat?_ofNat n ▸ congrArg toNat? h), congrArg ofNat⟩

/-- A minus sign, then the digits of the size; zero has no sign. -/
def ofInt : Int → List Char
  | .ofNat n => ofNat n
  | .negSucc n => '-' :: ofNat (n + 1)

/-- Reads digits with an optional minus sign before them. A negative zero is zero. -/
def toInt? : List Char → Option Int
  | '-' :: cs => (toNat? cs).map fun n => -Int.ofNat n
  | cs => (toNat? cs).map Int.ofNat

theorem minus_not_mem_ofNat (n : Nat) : '-' ∉ ofNat n := fun h =>
  absurd (isDigit_of_mem_ofNat h) (by decide)

theorem toInt?_ofInt (i : Int) : toInt? (ofInt i) = some i := by
  cases i with
  | negSucc n => simp [ofInt, toInt?, toNat?_ofNat, Int.negSucc_eq]
  | ofNat n =>
    rw [ofInt, toInt?.eq_2, toNat?_ofNat]
    · rfl
    · exact fun cs h => minus_not_mem_ofNat n (h ▸ List.mem_cons_self)

theorem ofInt_inj {i j : Int} : ofInt i = ofInt j ↔ i = j :=
  ⟨fun h => Option.some.inj (toInt?_ofInt i ▸ toInt?_ofInt j ▸ congrArg toInt? h), congrArg ofInt⟩

end QueryLogic.Digits

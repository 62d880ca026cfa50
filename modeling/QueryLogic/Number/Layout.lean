import QueryLogic.Number.Digits
import QueryLogic.Number.Shortest
/-!
How a shortest decimal is written out. A layout says which numbers are written with a point in their
place, how the others show their exponent, and which way a tie between two shortest decimals goes.
A number in its place always has a digit on both sides of the point, so it never looks like a whole
number.
-/
namespace QueryLogic

/-- The decisions of a number format. -/
structure Layout where
  /-- Smallest power of ten of the leading digit that is written with the point in its place. -/
  leastPlace : Int
  /-- Greatest power of ten of the leading digit that is written with the point in its place. -/
  greatestPlace : Int
  /-- Sign of an exponent that is not negative. -/
  plus : List Char
  /-- Which of two equally close decimals is written. -/
  tie : Tie

namespace Layout

/-- The digits with a point in their place, the first digit having the power `e`. -/
def positional (ds : List Char) (e : Int) : List Char :=
  if e < 0 then '0' :: '.' :: (List.replicate (-e - 1).toNat '0' ++ ds)
  else
    let n := e.toNat + 1
    let whole := ds.take n ++ List.replicate (n - ds.length) '0'
    let rest := ds.drop n
    whole ++ '.' :: if rest.isEmpty then ['0'] else rest

/-- The digits with a point after the first, if more follow, and the power of the first digit. -/
def scientific (plus : List Char) (ds : List Char) (e : Int) : List Char :=
  let rest := ds.drop 1
  ds.take 1 ++ (if rest.isEmpty then [] else '.' :: rest) ++
    'e' :: ((if e < 0 then [] else plus) ++ Digits.ofInt e)

def ofScientific (l : Layout) (s : Scientific) : List Char :=
  let ds := Digits.ofNat s.digits
  let e := s.exponent + ds.length - 1
  if l.leastPlace ≤ e ∧ e ≤ l.greatestPlace then positional ds e else scientific l.plus ds e

/-- Writes a double that stands for a number. Not-a-numbers and infinities have no digits. -/
def toChars? (l : Layout) (x : Double) : Option (List Char) :=
  let sign (negative : Bool) (cs : List Char) : List Char := if negative then '-' :: cs else cs
  match x.reading with
  | .notANumber => none
  | .infinite _ => none
  | .zero negative => some (sign negative ['0', '.', '0'])
  | .finite negative size => some (sign negative (l.ofScientific (size.shortest l.tie)))

/-- A text that begins with a digit, like a number, and then has a point or an exponent, unlike a
whole number. -/
def Fractional (cs : List Char) : Prop :=
  (∃ d rest, cs = d :: rest ∧ d.isDigit = true) ∧ ('.' ∈ cs ∨ 'e' ∈ cs)

theorem Fractional.append {d : Char} {front rest : List Char} (digit : d.isDigit = true)
    (mark : '.' ∈ rest ∨ 'e' ∈ rest) : Fractional (d :: front ++ rest) := by
  refine ⟨⟨d, front ++ rest, rfl, digit⟩, ?_⟩
  exact mark.imp (List.mem_append_right _) (List.mem_append_right _)

theorem fractional_positional {d : Char} (digit : d.isDigit = true) (ds : List Char) (e : Int) :
    Fractional (positional (d :: ds) e) := by
  rw [positional]
  split
  · exact @Fractional.append '0' [] _ rfl (.inl List.mem_cons_self)
  · exact .append digit (.inl List.mem_cons_self)

theorem fractional_scientific {d : Char} (digit : d.isDigit = true) (plus ds : List Char)
    (e : Int) : Fractional (scientific plus (d :: ds) e) :=
  .append digit (.inr List.mem_cons_self)

theorem fractional_ofScientific (l : Layout) (s : Scientific) : Fractional (l.ofScientific s) := by
  obtain ⟨d, ds, digits, digit⟩ := Digits.exists_ofNat_eq_cons s.digits
  rw [ofScientific, digits]
  split
  · exact fractional_positional digit ds _
  · exact fractional_scientific digit l.plus ds _

/-- Whatever the layout, a double that has digits is written like no whole number. -/
theorem fractional_of_toChars? {l : Layout} {x : Double} {cs : List Char}
    (h : l.toChars? x = some cs) : ∃ ds, Fractional ds ∧ (cs = ds ∨ cs = '-' :: ds) := by
  have signed : ∀ {negative : Bool} {ds : List Char}, Fractional ds →
      some (if negative then '-' :: ds else ds) = some cs →
      ∃ ds, Fractional ds ∧ (cs = ds ∨ cs = '-' :: ds) := by
    intro negative ds fractional written
    refine ⟨ds, fractional, ?_⟩
    cases negative with
    | true => exact .inr (Option.some.inj written).symm
    | false => exact .inl (Option.some.inj written).symm
  rw [toChars?] at h
  cases reading : x.reading with
  | notANumber => rw [reading] at h; cases h
  | infinite => rw [reading] at h; cases h
  | zero negative =>
    rw [reading] at h
    exact signed (@Fractional.append '0' [] _ rfl (.inl List.mem_cons_self)) h
  | finite negative size =>
    rw [reading] at h
    exact signed (fractional_ofScientific l _) h

end Layout

end QueryLogic

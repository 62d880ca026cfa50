import QueryLogic.Number.Digits
/-!
Positions in a query text. A location says where a node was written; it is carried along for
diagnostics only and never decides whether two expressions are equal. Locations are read and
sorted line first.
-/
namespace QueryLogic

/-- A line and a column of the query text, both counted from one. -/
structure Location where
  line : Nat
  column : Nat
  deriving DecidableEq, Repr

namespace Location

def text (l : Location) : String :=
  String.ofList (Digits.ofNat l.line ++ ':' :: Digits.ofNat l.column)

/-- Locations are ordered by line, and within a line by column. -/
instance : Ord Location where
  compare := compareLex (compareOn line) (compareOn column)

/-- The order of two locations is that of their lines unless these agree. -/
theorem compare_eq (a b : Location) :
    compare a b = (compare a.line b.line).then (compare a.column b.column) := rfl

theorem compare_eq_eq_iff {a b : Location} : compare a b = .eq ↔ a = b := by
  rw [compare_eq, Ordering.then_eq_eq, Nat.compare_eq_eq, Nat.compare_eq_eq]
  cases a; cases b; simp

/-- Sorting puts earlier positions first and keeps every occurrence. -/
def ascending (ls : List Location) : List Location :=
  ls.mergeSort fun a b => (compare a b).isLE

theorem ascending_perm (ls : List Location) : (ascending ls).Perm ls :=
  List.mergeSort_perm ls _

end Location

end QueryLogic

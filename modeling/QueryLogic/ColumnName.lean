/-!
Names of columns. A name may carry a qualifier, such as the table it belongs to, and is written with
a point between the two. Reading a written name splits it at the first point only, so the part after
it may hold further points.
-/
namespace QueryLogic

structure ColumnName where
  qualifier : Option String
  base : String
  deriving DecidableEq, Repr

namespace ColumnName

/-- The qualifier and a point, if there is one, then the name itself. -/
def text (n : ColumnName) : String :=
  match n.qualifier with
  | some q => q ++ "." ++ n.base
  | none => n.base

/-- Reads a written name: what stands before the first point is the qualifier. -/
def ofText (s : String) : ColumnName :=
  match s.toList.dropWhile (· ≠ '.') with
  | [] => ⟨none, s⟩
  | _ :: rest => ⟨some (String.ofList (s.toList.takeWhile (· ≠ '.'))), String.ofList rest⟩

end ColumnName

end QueryLogic

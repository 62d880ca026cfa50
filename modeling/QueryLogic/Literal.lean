import QueryLogic.Number.Decimal
import QueryLogic.Number.Double
/-!
Constants of a condition. A literal keeps the spelling that its text needs (the places of a decimal,
the bits of a double); its value forgets the spelling. Two literals agree when they have the same
value, so literals of different kinds never agree: the integer 1 and the decimal 1 are told apart.
-/
namespace QueryLogic

inductive Literal
  | null
  | bool (b : Bool)
  | int (i : Int)
  | decimal (d : Decimal)
  | double (x : Double)
  | text (s : String)
  deriving DecidableEq, Repr

/-- What is left of a literal when its spelling is forgotten. -/
inductive LiteralValue
  | null
  | bool (b : Bool)
  | int (i : Int)
  | decimal (r : Rat)
  | double (canonicalBits : UInt64)
  | text (s : String)
  deriving DecidableEq, Repr

namespace Literal

def value : Literal → LiteralValue
  | null => .null
  | bool b => .bool b
  | int i => .int i
  | decimal d => .decimal d.value
  | double x => .double x.canonicalBits
  | text s => .text s

/-- Equality of literals in conditions: one kind and one value, whatever the spelling. -/
def agrees : Literal → Literal → Bool
  | null, null => true
  | bool a, bool b => a == b
  | int a, int b => a == b
  | decimal a, decimal b => a.agrees b
  | double a, double b => a.agrees b
  | text a, text b => a == b
  | _, _ => false

theorem agrees_iff {a b : Literal} : a.agrees b = true ↔ a.value = b.value := by
  cases a <;> cases b <;> simp [agrees, value, Decimal.agrees_iff, Double.agrees_iff]

end Literal

end QueryLogic

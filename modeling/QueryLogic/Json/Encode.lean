import QueryLogic.Expr.Basic
import QueryLogic.Json.Value
import QueryLogic.Number.Layout
import QueryLogic.Number.Words
/-!
Conditions and their parts as JSON values. Nothing of an expression is lost: a whole number is given
by its sign and its words, a decimal by its text, and every node has its location or `null`. Doubles
are numbers, except those that JSON cannot write, which are `null`.
-/
namespace QueryLogic

namespace Json

/-- Doubles from `0.00001` to below ten to the sixteenth have their point in its place, the others
an exponent with its sign; of two shortest decimals equally close the one with an even last digit
is written. -/
def numberLayout : Layout := ⟨-5, 15, ['+'], .even⟩

def natural (n : Nat) : Json := number (String.ofList (Digits.ofNat n))

def tagged (tag : String) (j : Json) : Json := object [(tag, j)]

/-- A double in digits, or `null` if it has none. -/
def double (x : Double) : Json :=
  match numberLayout.toChars? x with
  | some cs => number (String.ofList cs)
  | none => null

end Json

def Location.toJson (loc : Location) : Json :=
  .object [("line", .natural loc.line), ("column", .natural loc.column)]

def Connective.toJson : Connective → Json
  | and => .string "And"
  | or => .string "Or"

def ColumnName.toJson (n : ColumnName) : Json :=
  .object [("qualifier", .ofOption .string n.qualifier), ("name", .string n.base)]

/-- The sign and the words of the size; zero counts as positive. -/
def Json.integer (i : Int) : Json :=
  .array [.string (if i < 0 then "Negative" else "Positive"),
    .array ((Words.ofNat i.natAbs).map .natural)]

/-- A literal under the name of its kind; there is only one null. -/
def Literal.toJson : Literal → Json
  | null => .string "Null"
  | bool b => .tagged "Boolean" (.bool b)
  | int i => .tagged "Integer" (.integer i)
  | decimal d => .tagged "Decimal" (.string d.text)
  | double x => .tagged "Double" (.double x)
  | text s => .tagged "String" (.string s)

def Expr.toJson : Expr → Json
  | literal loc v => .tagged "Literal" (.object
      [("value", v.toJson), ("location", .ofOption Location.toJson loc)])
  | column loc n => .tagged "Column" (.object
      [("name", n.toJson), ("location", .ofOption Location.toJson loc)])
  | not loc x => .tagged "Not" (.object
      [("operand", x.toJson), ("location", .ofOption Location.toJson loc)])
  | binary loc c l r => .tagged "LogicalBinary" (.object
      [("operator", c.toJson), ("left", l.toJson), ("right", r.toJson),
        ("location", .ofOption Location.toJson loc)])

end QueryLogic

import QueryLogic.Expr.Basic
import QueryLogic.Number.Layout
import QueryLogic.Text.Style
/-!
The text of a condition. Every literal is written so that its kind shows: doubles always have a
point or an exponent, and the ones that are no number are written as a conversion from text; strings
stand in single quotes, a quote inside being doubled.
-/
namespace QueryLogic

/-- Doubles from `0.0001` to below ten to the sixteenth have their point in its place, the others an
exponent without a plus sign; of two shortest decimals equally close the greater is written. -/
def textLayout : Layout := ⟨-4, 15, [], .up⟩

def quoteMark : Char := '\x27'

/-- A string in single quotes, each quote inside written twice. -/
def quoted (s : String) : String :=
  let inner := s.toList.flatMap fun c => if c = quoteMark then [quoteMark, quoteMark] else [c]
  String.ofList (quoteMark :: (inner ++ [quoteMark]))

/-- The name of a double that has no digits. -/
def Double.name (x : Double) : String :=
  if x.isNaN then "NaN" else if x.negative then "-Infinity" else "Infinity"

namespace Style

/-- A double in digits, or as a conversion from its name. -/
def double (s : Style) (x : Double) : String :=
  match textLayout.toChars? x with
  | some cs => String.ofList cs
  | none =>
    s.keyword "CAST" ++ "(" ++ quoted x.name ++ " " ++ s.keyword "AS" ++ " " ++
      s.keyword "DOUBLE" ++ ")"

def literal (s : Style) : Literal → String
  | .null => s.keyword "NULL"
  | .bool true => s.keyword "TRUE"
  | .bool false => s.keyword "FALSE"
  | .int i => String.ofList (Digits.ofInt i)
  | .decimal d => d.text
  | .double x => s.double x
  | .text t => quoted t

def print (s : Style) (p : Position) : Expr → String
  | .literal _ v => s.literal v
  | .column _ n => n.text
  | .not _ x => s.keyword "NOT" ++ " " ++ s.print .negated x
  | .binary _ c l r =>
    let joined := s.join c (s.print (.operand c .left) l) (s.print (.operand c .right) r)
    if s.wraps c p then "(" ++ joined ++ ")" else joined

end Style

def Expr.text (e : Expr) : String := Style.usual.print .top e

end QueryLogic

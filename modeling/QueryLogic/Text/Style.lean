import QueryLogic.Connective
/-!
How a condition is written: the case of keywords, and when parentheses are put. Whether a connective
needs parentheses is decided from where it stands alone: on top never, under a negation always, and
as an operand when it would otherwise be read differently. A weaker connective inside a stronger one
would lose its operands to it, and a connective on the right of its own kind would be read as part
of the chain to its left.
-/
namespace QueryLogic

/-- Keywords are written in one of two cases. -/
inductive KeywordCase
  | upper
  | lower
  deriving DecidableEq, Repr

/-- Parentheses stand where reading needs them, or around every connective inside another. -/
inductive ParenRule
  | minimal
  | always
  deriving DecidableEq, Repr

structure Style where
  keywords : KeywordCase
  parens : ParenRule
  deriving DecidableEq, Repr

inductive Side
  | left
  | right
  deriving DecidableEq, Repr

inductive Position
  | top
  | operand (parent : Connective) (side : Side)
  | negated
  deriving DecidableEq, Repr

namespace Style

/-- The usual way: keywords in upper case and no parentheses that reading does not need. -/
def usual : Style := ⟨.upper, .minimal⟩

/-- A keyword, given in upper case, in the case of the style. -/
def keyword (s : Style) (word : String) : String :=
  match s.keywords with
  | .upper => word
  | .lower => String.ofList (word.toList.map Char.toLower)

/-- Two written operands with their connective between them. -/
def join (s : Style) (c : Connective) (left right : String) : String :=
  left ++ " " ++ s.keyword c.word ++ " " ++ right

/-- Whether a connective is put in parentheses. -/
def wraps (s : Style) (c : Connective) : Position → Bool
  | .top => false
  | .negated => true
  | .operand parent side =>
    s.parens == .always || decide (c.strength < parent.strength) || (c == parent && side == .right)

end Style

end QueryLogic

import QueryLogic.Text.Print
import QueryLogic.Walk
/-!
Records of a walk. The recorder notes every call that a walk makes of its handlers, in order, and
goes on below a call unless the kind of the call is one at which it was told to stop. The leaf
recorder hears of literals and connectives only and leaves everything else to the default way.
-/
namespace QueryLogic

/-- A call of one handler during a walk. -/
inductive Call
  | expr
  | literal (v : Literal)
  | column (n : ColumnName)
  | not
  | binary (c : Connective)
  | connective (c : Connective)
  deriving DecidableEq, Repr

namespace Call

/-- The word for the kind of a call; the two connective nodes are two kinds. -/
def kind : Call → String
  | expr => "expr"
  | literal _ => "literal"
  | column _ => "column"
  | not => "not"
  | binary .and => "and"
  | binary .or => "or"
  | connective _ => "operator"

def text : Call → String
  | expr => "expr"
  | literal v => "literal " ++ Style.usual.literal v
  | column n => "column " ++ n.text
  | not => "not"
  | binary .and => "logical and"
  | binary .or => "logical or"
  | connective c => "operator " ++ c.word

/-- A call in words, without the word for its kind. -/
def leafText : Call → String
  | literal v => Style.usual.literal v
  | column n => n.text
  | connective c => c.word
  | c => c.text

end Call

/-- Notes a call and goes on below it unless its kind is among those to stop at. -/
def noting (stop : List String) (call : Call) (descend : Array Call → Array Call)
    (seen : Array Call) : Array Call :=
  if stop.contains call.kind then seen.push call else descend (seen.push call)

/-- A walker that notes every call. Nothing lies below a leaf or a connective. -/
def recorder (stop : List String) : Walker (Array Call) where
  enter _ := noting stop .expr
  literal _ v := noting stop (.literal v) id
  column _ n := noting stop (.column n) id
  negation _ _ := noting stop .not
  binary _ c _ _ := noting stop (.binary c)
  connective c := noting stop (.connective c) id

/-- The calls of a walk that stops at some kinds of call. -/
def Expr.calls (stop : List String) (e : Expr) : List Call :=
  ((recorder stop).walk e #[]).toList

/-- A walker that notes literals and connectives and nothing else. -/
def leafRecorder : Walker (Array Call) where
  literal _ v seen := seen.push (.literal v)
  connective c seen := seen.push (.connective c)

/-- The literals and connectives on the way of a walk over the whole expression. -/
def Expr.literalCalls (e : Expr) : List Call := (leafRecorder.walk e #[]).toList

end QueryLogic

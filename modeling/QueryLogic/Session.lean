import QueryLogic.Draft
import QueryLogic.Expr.Chain
import QueryLogic.Expr.Negation
import QueryLogic.Expr.Repeats
import QueryLogic.Json.Options
import QueryLogic.Text.Print
import QueryLogic.Walk
/-!
Sessions: a pool of expressions that grows step by step. A step refers to members of the pool by
number, counted modulo the size of the pool, so that every number names a member as long as there is
one. A step that makes expressions adds all of them or, when one is too big, none; a step that fails
changes nothing, and the session goes on with the next one.
-/
namespace QueryLogic

/-- The expressions made so far, oldest first. -/
abbrev Pool := Array Expr

/-- The member that a number refers to; an empty pool has none. -/
def Pool.ref? (pool : Pool) (i : Nat) : Option Expr := pool[i % pool.size]?

/-- One step of a session. Numbers refer to the pool. -/
inductive Step
  | add (e : Expr)
  | not (i : Nat)
  | binary (loc : Option Location) (c : Connective) (i j : Nat)
  | relocate (i : Nat) (loc : Location)
  | negate (i : Nat)
  | pushDown (i : Nat)
  | withoutRepeats (i : Nat)
  | operands (i : Nat) (c : Connective)
  | chain (c : Connective) (is : List Nat)
  | left (i : Nat)
  | right (i : Nat)
  | operand (i : Nat)
  | draft (pieces : List (Piece Nat))
  | equal (i j : Nat)
  | print (i : Nat) (options : Option Json)
  | columns (i : Nat)
  | location (i : Nat)
  deriving Repr

/-- Why a step fails. -/
inductive Failure
  | emptyPool
  | tooBig
  | invalidOptions
  deriving DecidableEq, Repr

/-- What a step finds out. -/
inductive Finding
  | nothing
  | flag (b : Bool)
  | text (s : String)
  | columns (ns : List ColumnName)
  | location (loc : Option Location)
  | stages (nodes : List (Except Draft.Missing Expr))

/-- The answer to a step that does not fail. -/
inductive Answer
  | added (es : List Expr)
  | found (f : Finding)

namespace Session

/-- The greatest number of nodes of an expression in the pool. -/
def sizeLimit : Nat := 300

def ref (pool : Pool) (i : Nat) : Except Failure Expr :=
  match pool.ref? i with
  | some e => .ok e
  | none => .error .emptyPool

def add (es : List Expr) : Except Failure Answer :=
  if es.any fun e => decide (sizeLimit < e.size) then .error .tooBig else .ok (.added es)

def addOption : Option Expr → Except Failure Answer
  | some e => add [e]
  | none => .ok (.found .nothing)

/-- The answer to a step, given the pool before it. -/
def answer (pool : Pool) : Step → Except Failure Answer
  | .add e => add [e]
  | .not i => do add [.not none (← ref pool i)]
  | .binary loc c i j => do add [.binary loc c (← ref pool i) (← ref pool j)]
  | .relocate i loc => do add [(← ref pool i).withLocation (some loc)]
  | .negate i => do add [(← ref pool i).negate]
  | .pushDown i => do add [(← ref pool i).pushDown]
  | .withoutRepeats i => do add [(← ref pool i).withoutRepeats]
  | .operands i c => do add ((← ref pool i).operands c)
  | .chain c is => do addOption (Expr.chain? c (← is.mapM (ref pool)))
  | .left i => do addOption ((← ref pool i).binary?.map (·.2.1))
  | .right i => do addOption ((← ref pool i).binary?.map (·.2.2))
  | .operand i => do addOption (← ref pool i).negated?
  | .draft pieces => do
    let some given := pieces.mapM (Piece.resolve? pool.ref?) | .error .emptyPool
    return .found (.stages ((Draft.blank.stages given).map Draft.finish))
  | .equal i j => do return .found (.flag ((← ref pool i) == (← ref pool j)))
  | .print i options => do
    let e ← ref pool i
    let some style := Style.ofOptional? options | .error .invalidOptions
    return .found (.text (style.print .top e))
  | .columns i => do return .found (.columns (← ref pool i).columns)
  | .location i => do return .found (.location (← ref pool i).location)

def grow (pool : Pool) : Except Failure Answer → Pool
  | .ok (.added es) => pool ++ es
  | _ => pool

/-- The answers to some steps, each with the pool that the steps before it have left. -/
def run (pool : Pool) : List Step → List (Except Failure Answer)
  | [] => []
  | s :: ss =>
    let a := answer pool s
    a :: run (grow pool a) ss

end Session

end QueryLogic

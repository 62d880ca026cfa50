import QueryLogic.Expr.Equality
/-!
What a condition feeds to a hasher. A set that finds its members by their hash needs equal conditions
to feed the same parts, so no location is fed and no spelling. Numbers are the delicate case, since one
number has several spellings. What a number feeds is therefore a parameter, of which no more is asked
than that numbers which agree feed the same; `Expr.Alike.feed_eq` says that then all equal conditions
do. The hash of a condition is that of its parts under the canonical feed of numbers.
-/
namespace QueryLogic

inductive HashPart
  | tag (n : Nat)
  | number (i : Int)
  | word (s : String)
  deriving DecidableEq, Repr, Hashable

/-- What a number feeds to a hasher. Numbers that agree feed the same parts. -/
structure NumberFeed where
  int : Int → List HashPart
  decimal : Decimal → List HashPart
  double : Double → List HashPart
  decimal_congr : ∀ {a b : Decimal}, a.agrees b = true → decimal a = decimal b
  double_congr : ∀ {a b : Double}, a.agrees b = true → double a = double b

/-- A decimal feeds its reduced fraction, a double the bits that stand for all equal ones. -/
def NumberFeed.canonical : NumberFeed where
  int i := [.number i]
  decimal d := [.number d.value.num, .number d.value.den]
  double x := [.number x.canonicalBits.toNat]
  decimal_congr h := by rw [Decimal.agrees_iff.1 h]
  double_congr h := by rw [Double.agrees_iff.1 h]

/-- The kind of the literal, then what its value feeds. -/
def Literal.feed (N : NumberFeed) : Literal → List HashPart
  | null => [.tag 0]
  | bool b => [.tag 1, .tag b.toNat]
  | int i => .tag 2 :: N.int i
  | decimal d => .tag 3 :: N.decimal d
  | double x => .tag 4 :: N.double x
  | text s => [.tag 5, .word s]

theorem Literal.feed_eq_of_value_eq (N : NumberFeed) {v w : Literal} (h : v.value = w.value) :
    v.feed N = w.feed N := by
  have agree : v.agrees w = true := agrees_iff.2 h
  cases v <;> cases w <;> simp only [agrees, reduceCtorEq, beq_iff_eq] at agree
  case null.null => rfl
  case bool.bool => rw [agree]
  case int.int => rw [agree]
  case decimal.decimal => rw [feed, feed, N.decimal_congr agree]
  case double.double => rw [feed, feed, N.double_congr agree]
  case text.text => rw [agree]

def ColumnName.hashParts (n : ColumnName) : List HashPart :=
  match n.qualifier with
  | none => [.tag 0, .word n.base]
  | some q => [.tag 1, .word q, .word n.base]

/-- Which of the two connectives it is. How tightly it binds plays no part. -/
def Connective.hashPart : Connective → HashPart
  | and => .tag 0
  | or => .tag 1

theorem Connective.hashPart_inj {c d : Connective} : c.hashPart = d.hashPart ↔ c = d := by
  cases c <;> cases d <;> decide

namespace Expr

variable {a b : Expr}

/-- What an expression feeds to a hasher, followed by `rest`. -/
def feed (N : NumberFeed) : Expr → List HashPart → List HashPart
  | literal _ v, rest => .tag 0 :: (v.feed N ++ rest)
  | column _ n, rest => .tag 1 :: (n.hashParts ++ rest)
  | not _ x, rest => .tag 2 :: x.feed N rest
  | binary _ c l r, rest => .tag 3 :: c.hashPart :: l.feed N (r.feed N rest)

theorem Alike.feed_eq (h : Alike a b) (N : NumberFeed) (rest : List HashPart) :
    a.feed N rest = b.feed N rest := by
  induction h generalizing rest with
  | literal _ _ h => rw [feed, feed, Literal.feed_eq_of_value_eq N h]
  | column _ _ n => rfl
  | not _ _ _ ih => rw [feed, feed, ih]
  | binary _ _ c _ _ left right => rw [feed, feed, left, right]

theorem feed_eq_of_beq (h : (a == b) = true) (N : NumberFeed) (rest : List HashPart) :
    a.feed N rest = b.feed N rest :=
  (alike_of_shape_eq (beq_iff_shape.1 h)).feed_eq N rest

/-- The parts that enter the hash of an expression, followed by `rest`: what is fed when numbers are
fed in their canonical form. -/
def hashParts (e : Expr) (rest : List HashPart) : List HashPart := e.feed .canonical rest

instance : Hashable Expr := ⟨fun e => hash (e.hashParts [])⟩

instance : LawfulHashable Expr where
  hash_eq _ _ h := congrArg (fun ps : List HashPart => hash ps) (feed_eq_of_beq h .canonical [])

end Expr

end QueryLogic

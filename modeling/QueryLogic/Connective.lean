/-!
The two connectives of a condition. Each has a dual, which takes its place under a negation, and a
strength, which says how tightly it binds its operands when a condition is written without
parentheses.
-/
namespace QueryLogic

inductive Connective
  | and
  | or
  deriving DecidableEq, Repr

namespace Connective

def all : List Connective := [and, or]

theorem mem_all (c : Connective) : c ∈ all := by cases c <;> decide

/-- The connective that replaces this one when a negation moves past it. -/
def dual : Connective → Connective
  | and => or
  | or => and

@[simp] theorem dual_dual (c : Connective) : c.dual.dual = c := by cases c <;> rfl

theorem dual_ne (c : Connective) : c.dual ≠ c := by cases c <;> decide

theorem dual_inj {c d : Connective} : c.dual = d.dual ↔ c = d := by cases c <;> cases d <;> decide

/-- Of two connectives the one of greater strength binds its operands more tightly. -/
def strength : Connective → Nat
  | or => 1
  | and => 2

/-- The connectives have different strengths, so an unparenthesized mixture has one reading. -/
theorem strength_inj {c d : Connective} : c.strength = d.strength ↔ c = d := by
  cases c <;> cases d <;> decide

def word : Connective → String
  | and => "AND"
  | or => "OR"

end Connective

end QueryLogic

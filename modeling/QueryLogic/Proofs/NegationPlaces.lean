import Mathlib.Algebra.Ring.Parity
import QueryLogic.Expr.Negation
import QueryLogic.Proofs.Routes
/-!
What becomes of each node when negations move to the leaves. The pass carries a flag down; here the
negations above a node are counted along its route instead, and the node that takes its place is looked
up in the result along the same sides of the connectives, all negations skipped. What stands there is
known from the node and its number alone, and no two results agree in this at every place.

What is proved:
  1. `Expr.hasPosition_pushNot`: connectives and leaves stay at their positions.
  2. `Expr.settledBelow_iff`: the result is the one expression in which every node is settled, with the
     number of negations above the root as a parameter.
  3. `Expr.nodeByNode_iff_eq_pushDown_and_eq_negate`: both together, for either pass.
-/
namespace QueryLogic

namespace Route

/-- The number of negations on a route, the node at its end aside. -/
def negations (r : Route) : Nat := r.count .operand

/-- The steps of a route at connectives. -/
def sides (r : Route) : Route := r.filter (· ≠ .operand)

theorem negations_nil_add (n : Nat) : negations [] + n = n := Nat.zero_add n

theorem negations_operand_add (r : Route) (n : Nat) :
    negations (.operand :: r) + n = r.negations + (n + 1) := by
  rw [negations, List.count_cons_self, ← negations]
  omega

end Route

namespace Expr

/-- Whether a node is reached with these steps at connectives, whatever negations are on the way. -/
def HasPosition (e : Expr) (p : Route) : Prop := ∃ r : Route, r.sides = p ∧ (e.node? r).isSome

/-- What takes the place of a node, `odd` saying whether the number of negations above it is odd. A
connective has operands of which this says nothing, and a negation has no place. -/
def Settled (odd : Bool) : Expr → Option Expr → Prop
  | binary loc c _ _, y => ∃ l r, y = some (binary loc (if odd then c.dual else c) l r)
  | literal loc (.bool b), y => y = some (literal loc (.bool (if odd then !b else b)))
  | not _ _, _ => True
  | x, y => y = some (if odd then not none x else x)

/-- Whether `f` has in the place of each node of `e` what belongs there, given the number of negations
above `e`. -/
def SettledBelow (above : Nat) (e f : Expr) : Prop :=
  ∀ r x, e.node? r = some x →
    x.Settled (decide (Odd (r.negations + above))) (f.node? r.sides)

variable {above : Nat} {e f : Expr} {loc : Option Location}

/-! ## Positions -/

theorem hasPosition_not (loc : Option Location) (x : Expr) (p : Route) :
    (not loc x).HasPosition p ↔ x.HasPosition p := by
  constructor
  · rintro ⟨r, rfl, inside⟩
    cases r with
    | nil => exact ⟨[], rfl, rfl⟩
    | cons m r =>
      cases m with
      | operand => exact ⟨r, rfl, inside⟩
      | _ => cases inside
  · rintro ⟨r, rfl, inside⟩
    exact ⟨.operand :: r, rfl, inside⟩

theorem hasPosition_leaf {x : Expr} (leaf : ∀ m, x.operand? m = none) (p : Route) :
    x.HasPosition p ↔ p = [] := by
  constructor
  · rintro ⟨r, rfl, inside⟩
    obtain ⟨y, found⟩ := Option.isSome_iff_exists.1 inside
    obtain ⟨rfl, _⟩ := (node?_eq_some_iff_of_leaf leaf).1 found
    rfl
  · rintro rfl
    exact ⟨[], rfl, rfl⟩

theorem hasPosition_binary (loc : Option Location) (c : Connective) (l r : Expr) (p : Route) :
    (binary loc c l r).HasPosition p ↔ p = [] ∨
      (∃ q, p = .left :: q ∧ l.HasPosition q) ∨ ∃ q, p = .right :: q ∧ r.HasPosition q := by
  constructor
  · rintro ⟨s, rfl, inside⟩
    cases s with
    | nil => exact .inl rfl
    | cons m s =>
      cases m with
      | operand => cases inside
      | left => exact .inr (.inl ⟨_, rfl, s, rfl, inside⟩)
      | right => exact .inr (.inr ⟨_, rfl, s, rfl, inside⟩)
  · rintro (rfl | ⟨q, rfl, s, rfl, inside⟩ | ⟨q, rfl, s, rfl, inside⟩)
    · exact ⟨[], rfl, rfl⟩
    · exact ⟨.left :: s, rfl, inside⟩
    · exact ⟨.right :: s, rfl, inside⟩

theorem hasPosition_negatedLiteral (loc : Option Location) (v : Literal) (p : Route) :
    (negatedLiteral loc v).HasPosition p ↔ (literal loc v).HasPosition p := by
  cases v with
  | bool b =>
    -- a boolean stays a leaf; the negation of any other literal has no position of its own
    show (literal loc (.bool !b)).HasPosition p ↔ _
    rw [hasPosition_leaf fun _ => rfl, hasPosition_leaf fun _ => rfl]
  | _ => exact hasPosition_not none _ p

theorem hasPosition_pushNot (negated : Bool) (e : Expr) (p : Route) :
    (e.pushNot negated).value.HasPosition p ↔ e.HasPosition p := by
  induction e generalizing negated p with
  | literal loc v =>
    cases negated with
    | true => exact hasPosition_negatedLiteral loc v p
    | false => exact Iff.rfl
  | column loc n =>
    cases negated with
    | true => exact hasPosition_not none _ p
    | false => exact Iff.rfl
  | not loc x ih =>
    rw [hasPosition_not]
    exact ih (!negated) p
  | binary loc c l r ihl ihr =>
    show (binary loc _ _ _).HasPosition p ↔ _
    simp only [hasPosition_binary, ihl, ihr]

/-! ## Nodes -/

theorem settledBelow_leaf {x : Expr} (leaf : ∀ m, x.operand? m = none) :
    SettledBelow above x f ↔ x.Settled (decide (Odd above)) (some f) := by
  constructor
  · intro h
    have root := h [] x rfl
    rwa [Route.negations_nil_add] at root
  · intro h r y found
    obtain ⟨rfl, rfl⟩ := (node?_eq_some_iff_of_leaf leaf).1 found
    rwa [Route.negations_nil_add]

theorem settledBelow_not {x : Expr} :
    SettledBelow above (not loc x) f ↔ SettledBelow (above + 1) x f := by
  constructor
  · intro h r y found
    have step := h (.operand :: r) y found
    rwa [Route.negations_operand_add] at step
  · intro h r y found
    cases r with
    | nil =>
      obtain rfl := Option.some.inj found
      exact trivial
    | cons m r =>
      cases m with
      | operand =>
        rw [Route.negations_operand_add]
        exact h r y found
      | _ => cases found

theorem settledBelow_binary {c : Connective} {l r : Expr} :
    SettledBelow above (binary loc c l r) f ↔
      ∃ l' r', f = binary loc (if decide (Odd above) then c.dual else c) l' r' ∧
        SettledBelow above l l' ∧ SettledBelow above r r' := by
  constructor
  · intro h
    obtain ⟨l', r', root⟩ := h [] _ rfl
    rw [Route.negations_nil_add] at root
    obtain rfl := Option.some.inj root
    exact ⟨l', r', rfl, fun s y found => h (.left :: s) y found,
      fun s y found => h (.right :: s) y found⟩
  · rintro ⟨l', r', rfl, left, right⟩ s y found
    cases s with
    | nil =>
      obtain rfl := Option.some.inj found
      rw [Route.negations_nil_add]
      exact ⟨l', r', rfl⟩
    | cons m s =>
      cases m with
      | operand => cases found
      | left => exact left s y found
      | right => exact right s y found

/-- One negation more turns the flag over. -/
theorem decide_odd_succ (n : Nat) : decide (Odd (n + 1)) = !decide (Odd n) := by
  simp only [Nat.odd_add_one, decide_not]

/-- A node is settled everywhere in the result of the pass and in nothing else. -/
theorem settledBelow_iff :
    SettledBelow above e f ↔ f = (e.pushNot (decide (Odd above))).value := by
  induction e generalizing above f with
  | literal loc v =>
    rw [settledBelow_leaf fun m => rfl]
    cases v <;> by_cases h : Odd above <;>
      simp [Settled, pushNot, negatedLiteral, Literal.inverse?, h]
  | column loc n =>
    rw [settledBelow_leaf fun m => rfl]
    by_cases h : Odd above <;> simp [Settled, pushNot, h]
  | not loc x ih =>
    rw [settledBelow_not, ih, decide_odd_succ]
    rfl
  | binary loc c l r ihl ihr =>
    -- both operands are settled under the number of their node
    rw [settledBelow_binary]
    simp only [ihl, ihr, exists_eq_right_right, exists_eq_right]
    rfl

/-- The expression `f` has the tree of connectives and leaves of `e`, each node as the number of
negations above it asks, `above` of them being above `e` itself. -/
structure NodeByNode (above : Nat) (e f : Expr) : Prop where
  positions : ∀ p, f.HasPosition p ↔ e.HasPosition p
  settled : SettledBelow above e f

theorem nodeByNode_iff_eq_pushDown_and_eq_negate (e f : Expr) :
    (NodeByNode 0 e f ↔ f = e.pushDown) ∧ (NodeByNode 1 e f ↔ f = e.negate) := by
  have pass : ∀ above, NodeByNode above e f ↔ f = (e.pushNot (decide (Odd above))).value := by
    intro above
    constructor
    · intro h
      exact settledBelow_iff.1 h.settled
    · intro h
      refine ⟨?_, settledBelow_iff.2 h⟩
      rw [h]
      exact hasPosition_pushNot _ e
  exact ⟨pass 0, pass 1⟩

end Expr

end QueryLogic

import Mathlib.Logic.Basic
import QueryLogic.Expr.Equality
import QueryLogic.Proofs.Text.Word
/-!
Grammars of written conditions. A grammar gives every connective a power and says on which side
chains of equal power nest; a negation binds more tightly than any connective, and parentheses
group. `Phrase` says which tokens are a phrase of which tree, at a level: no connective of less
power than the level stands open in the phrase. The usual grammar is the one of query languages,
with conjunctions more powerful than disjunctions and chains nested to the left.

What is proved:
  1. `Phrase.mono`: a phrase at a level is one at every lower level.
  2. `wraps_of_lt_required`: wherever a connective is too weak for its place under the usual
     grammar, every style puts it in parentheses.
  3. `phrase_tokens`: the tokens in which a condition is written are a phrase of the condition, at
     every position and in every style.
-/
namespace QueryLogic

/-- How strongly connectives bind, and to which side chains of equal power nest. -/
structure Grammar where
  power : Connective → Nat
  leaning : Side

namespace Grammar

variable (g : Grammar)

/-- The grammar of query languages: disjunctions bind loosest, and chains nest to the left. -/
def usual : Grammar where
  power
    | .or => 1
    | .and => 2
  leaning := .left

/-- The level of an operand of a connective: on the side to which chains nest it may have a
connective of the same power open, on the other side it may not. -/
def level (c : Connective) (side : Side) : Nat :=
  if side = g.leaning then g.power c else g.power c + 1

/-- The level of what a negation applies to, above every connective. -/
def tight : Nat := max (g.power .and) (g.power .or) + 1

theorem power_lt_tight (c : Connective) : g.power c < g.tight := by
  cases c <;> simp only [tight] <;> omega

theorem power_le_level (c : Connective) (side : Side) : g.power c ≤ g.level c side := by
  unfold level; split <;> omega

theorem level_le_succ_power (c : Connective) (side : Side) :
    g.level c side ≤ g.power c + 1 := by
  unfold level; split <;> omega

theorem level_le_tight (c : Connective) (side : Side) : g.level c side ≤ g.tight := by
  have := g.level_le_succ_power c side
  have := g.power_lt_tight c
  omega

/-- Of two connectives in a row, either the first takes the operand between them, because its power
reaches the left level of the second, or the second does, because its power reaches the right level
of the first. -/
theorem power_lt_level_left_iff (c d : Connective) :
    g.power d < g.level c .left ↔ g.level d .right ≤ g.power c := by
  unfold level
  cases g.leaning with
  | left =>
    rw [if_pos rfl, if_neg (by decide)]
    omega
  | right =>
    rw [if_neg (by decide), if_pos rfl]
    omega

end Grammar

/-- The tokens of a phrase and the tree it is read as, at a level. -/
inductive Phrase (g : Grammar) : Nat → List Token → Expr → Prop
  | literal (k : Nat) (v : Literal) : Phrase g k [.literal v] (.literal none v)
  | column (k : Nat) (n : ColumnName) : Phrase g k [.column n] (.column none n)
  | group (k : Nat) {ts : List Token} {e : Expr} :
    Phrase g 0 ts e → Phrase g k (.opening :: (ts ++ [.closing])) e
  | not (k : Nat) {ts : List Token} {x : Expr} :
    Phrase g g.tight ts x → Phrase g k (.not :: ts) (.not none x)
  | binary {k : Nat} {c : Connective} {ts us : List Token} {l r : Expr} :
    k ≤ g.power c → Phrase g (g.level c .left) ts l → Phrase g (g.level c .right) us r →
    Phrase g k (ts ++ .connective c :: us) (.binary none c l r)

theorem Phrase.mono {g : Grammar} {j k : Nat} {ts : List Token} {e : Expr} (h : Phrase g k ts e)
    (le : j ≤ k) : Phrase g j ts e := by
  cases h with
  | literal _ v => exact .literal j v
  | column _ n => exact .column j n
  | group _ h => exact .group j h
  | not _ h => exact .not j h
  | binary hc hl hr => exact .binary (Nat.le_trans le hc) hl hr

/-! ## The tokens of a printed condition -/

/-- The condition without its locations, which no text shows. -/
def Expr.unlocated : Expr → Expr
  | .literal _ v => .literal none v
  | .column _ n => .column none n
  | .not _ x => .not none x.unlocated
  | .binary _ c l r => .binary none c l.unlocated r.unlocated

theorem Expr.shape_unlocated (e : Expr) : e.unlocated.shape = e.shape := by
  induction e with
  | literal loc v => rfl
  | column loc n => rfl
  | not loc x ih => exact congrArg Shape.not ih
  | binary loc c l r ihl ihr => exact congrArg₂ (Shape.binary c) ihl ihr

/-- The tokens in which a style writes a condition at a position. -/
def Style.tokens (s : Style) (p : Position) : Expr → List Token
  | .literal _ v => [.literal v]
  | .column _ n => [.column n]
  | .not _ x => .not :: s.tokens .negated x
  | .binary _ c l r =>
    let row := s.tokens (.operand c .left) l ++ .connective c :: s.tokens (.operand c .right) r
    if s.wraps c p then .opening :: (row ++ [.closing]) else row

/-- The level at which a phrase is asked for at a position. -/
def Grammar.required (g : Grammar) : Position → Nat
  | .top => 0
  | .operand c side => g.level c side
  | .negated => g.tight

/-- A connective that is too weak for its place is put in parentheses by every style. -/
theorem wraps_of_lt_required (s : Style) {c : Connective} {p : Position}
    (h : Grammar.usual.power c < Grammar.usual.required p) : s.wraps c p = true := by
  cases p with
  | top => exact absurd h (Nat.not_lt_zero _)
  | negated => rfl
  | operand parent side =>
    revert h
    cases c <;> cases parent <;> cases side <;>
      simp [Style.wraps, Grammar.usual, Grammar.required, Grammar.level, Connective.strength]

theorem phrase_tokens (s : Style) (p : Position) (e : Expr) :
    Phrase .usual (Grammar.usual.required p) (s.tokens p e) e.unlocated := by
  induction e generalizing p with
  | literal loc v => exact .literal _ v
  | column loc n => exact .column _ n
  | not loc x ih => exact .not _ (ih .negated)
  | binary loc c l r ihl ihr =>
    have row : ∀ k ≤ Grammar.usual.power c, Phrase .usual k
        (s.tokens (.operand c .left) l ++ .connective c :: s.tokens (.operand c .right) r)
        (.binary none c l.unlocated r.unlocated) :=
      fun k hk => .binary hk (ihl (.operand c .left)) (ihr (.operand c .right))
    rw [Style.tokens]
    by_cases h : s.wraps c p = true
    · simp only [h, if_true]
      exact .group _ (row 0 (Nat.zero_le _))
    · simp only [h]
      -- no parentheses, so the connective is strong enough for its place
      exact row _ (Nat.le_of_not_lt fun weak => h (wraps_of_lt_required s weak))

end QueryLogic

import QueryLogic.Expr.Basic
/-!
Routes into a condition. A route goes from the root down to a node and says at each step which operand
it takes, so it names the place of the node: two nodes that look the same have different routes. What
holds at the end of every route holds at every place of a condition.

What is proved:
  1. `Expr.mem_routes_iff`: the routes that are listed are those that end at a node.
  2. `Expr.pairwise_routes`: they are listed in the order in which a walk comes by the nodes, each once.
-/
namespace QueryLogic

/-- A step from a node to one of its operands. -/
inductive Move
  | operand
  | left
  | right
  deriving DecidableEq, Repr

abbrev Route := List Move

/-- The node at the end of `r` is gone by before the one at the end of `s`: it is on the way there, or
to the left of that way. -/
def Route.Before (r s : Route) : Prop := List.Lex (fun m n => m = .left ∧ n = .right) r s

theorem Route.not_before_self (r : Route) : ¬ r.Before r := by
  apply List.lex_irrefl
  rintro m ⟨left, right⟩
  exact absurd (left.symm.trans right) (by decide)

namespace Expr

/-- The operand to which a step leads. -/
def operand? : Expr → Move → Option Expr
  | not _ x, .operand => some x
  | binary _ _ l _, .left => some l
  | binary _ _ _ r, .right => some r
  | _, _ => none

/-- The node at the end of a route, if the route does not leave the expression. -/
def node? (e : Expr) : Route → Option Expr
  | [] => some e
  | m :: r => (e.operand? m).bind fun x => x.node? r

/-- The routes to all nodes: to the root first, and then into the operands from left to right. -/
def routes : Expr → List Route
  | literal _ _ => [[]]
  | column _ _ => [[]]
  | not _ x => [] :: x.routes.map (.operand :: ·)
  | binary _ _ l r => [] :: (l.routes.map (.left :: ·) ++ r.routes.map (.right :: ·))

/-- The only route into a leaf stays at it. -/
theorem node?_eq_some_iff_of_leaf {x y : Expr} (leaf : ∀ m, x.operand? m = none) {r : Route} :
    x.node? r = some y ↔ r = [] ∧ x = y := by
  cases r with
  | nil => simp [node?]
  | cons m r => simp [node?, leaf]

theorem nil_mem_routes (e : Expr) : [] ∈ e.routes := by
  cases e <;> exact List.mem_cons_self

theorem cons_mem_routes_iff {e : Expr} {m : Move} {r : Route} :
    m :: r ∈ e.routes ↔ ∃ x, e.operand? m = some x ∧ r ∈ x.routes := by
  cases e <;> cases m <;> simp [routes, operand?]

/-- No node is left out, and no route leaves the expression. -/
theorem mem_routes_iff {e : Expr} {r : Route} : r ∈ e.routes ↔ ∃ x, e.node? r = some x := by
  induction r generalizing e with
  | nil => exact ⟨fun _ => ⟨e, rfl⟩, fun _ => nil_mem_routes e⟩
  | cons m r ih =>
    simp only [cons_mem_routes_iff, ih, node?, Option.bind_eq_some_iff]
    constructor
    · rintro ⟨x, step, y, found⟩
      exact ⟨y, x, step, found⟩
    · rintro ⟨y, x, step, found⟩
      exact ⟨x, step, y, found⟩

/-- Every node is listed before those below it, and those below it from left to right. -/
theorem pairwise_routes (e : Expr) : e.routes.Pairwise Route.Before := by
  have step : ∀ (m : Move) {rs : List Route}, rs.Pairwise Route.Before →
      (rs.map (m :: ·)).Pairwise Route.Before :=
    fun m _ h => h.map (m :: ·) fun _ _ before => .cons before
  have root : ∀ {m : Move} {rs : List Route}, ∀ s ∈ rs.map (m :: ·), Route.Before [] s := by
    intro m rs s hs
    obtain ⟨r, -, rfl⟩ := List.mem_map.1 hs
    exact .nil
  induction e with
  | literal loc v => exact List.pairwise_singleton _ _
  | column loc n => exact List.pairwise_singleton _ _
  | not loc x ih => exact List.pairwise_cons.2 ⟨root, step .operand ih⟩
  | binary loc c l r ihl ihr =>
    refine List.pairwise_cons.2 ⟨List.forall_mem_append.2 ⟨root, root⟩, ?_⟩
    refine List.pairwise_append.2 ⟨step .left ihl, step .right ihr, ?_⟩
    intro s hs t ht
    obtain ⟨s', -, rfl⟩ := List.mem_map.1 hs
    obtain ⟨t', -, rfl⟩ := List.mem_map.1 ht
    exact .rel ⟨rfl, rfl⟩

end Expr

end QueryLogic

import Mathlib.Data.List.Basic
import QueryLogic.Calls
import QueryLogic.Proofs.Routes
/-!
Walks that stop at some kinds of call. Every call of a walk has its place: the route to the node that it
is about, and its rank among the calls for this node, which come one below the other. A call lies below
the earlier ones for its node, and below those for the nodes on the way to it, save that nothing lies
below the call for a connective. A walk that stops at some kinds of call makes just those calls that lie
below no call of these kinds.

What is proved:
  1. `Appends.noting`: a call is noted, and then what lies below it unless the walk stops there.
  2. `Expr.mem_placedCalls_iff` and `Expr.pairwise_placedCalls`: the calls with their places, each once,
     the calls for a node before those below it and the left operand before the right one.
  3. `Expr.reached_under_iff` and `Expr.reached_root_iff`: what has to be gone through to make a call.
  4. `Expr.walk_recorder`: a walk that stops makes the calls that can be reached, in their order.
  5. `Expr.calls_eq_map_filter_and_sublist`: stopping at more kinds leaves calls out and changes nothing
     else, and stopping where nothing lies below changes nothing at all.
-/
namespace QueryLogic

/-! ## Notes of one call -/

namespace Appends

variable {below : List Call} {descend : Array Call → Array Call}

theorem noting (stop : List String) (call : Call) (h : Appends descend below) :
    Appends (noting stop call descend) (call :: if call.kind ∈ stop then [] else below) := by
  intro seen
  by_cases stopped : call.kind ∈ stop
  · simp [QueryLogic.noting, stopped]
  · simp [QueryLogic.noting, stopped, h _]

/-- With nothing below a call it does not matter whether the walk stops there. -/
theorem noting_id (stop : List String) (call : Call) :
    Appends (QueryLogic.noting stop call id) [call] := by
  have noted := nothing.noting stop call
  rwa [ite_self] at noted

end Appends

/-! ## Places of calls -/

/-- The place of a call among those for one node: each is made while the earlier ones are under way. -/
def Call.rank : Call → Nat
  | expr => 0
  | connective _ => 2
  | _ => 1

@[simp] theorem Call.rank_expr : rank .expr = 0 := rfl

@[simp] theorem Call.rank_not : rank .not = 1 := rfl

@[simp] theorem Call.rank_binary (c : Connective) : rank (.binary c) = 1 := rfl

@[simp] theorem Call.rank_connective (c : Connective) : rank (.connective c) = 2 := rfl

/-- A call together with the node that it is about. -/
structure PlacedCall where
  route : Route
  call : Call
  deriving DecidableEq, Repr

namespace PlacedCall

/-- The call as it is seen from one node further up. -/
def under (m : Move) (p : PlacedCall) : PlacedCall := ⟨m :: p.route, p.call⟩

/-- The call `p` is made while `q` is under way. -/
def Below (p q : PlacedCall) : Prop :=
  p.route = q.route ∧ q.call.rank < p.call.rank ∨
    -- the call for a connective, of rank 2, is over before the operands are gone into
    q.call.rank < 2 ∧ q.route <+: p.route ∧ q.route ≠ p.route

instance (p q : PlacedCall) : Decidable (p.Below q) :=
  inferInstanceAs (Decidable (_ ∨ _))

/-- The call `p` is made before `q`. -/
def Before (p q : PlacedCall) : Prop :=
  p.route.Before q.route ∨ p.route = q.route ∧ p.call.rank < q.call.rank

variable {m n : Move} {p q : PlacedCall} {c : Call}

theorem under_below_root_iff : (p.under m).Below ⟨[], c⟩ ↔ c.rank < 2 := by
  simp [Below, under]

theorem under_below_under_iff : (p.under m).Below (q.under n) ↔ m = n ∧ p.Below q := by
  simp only [Below, under, List.cons.injEq, List.cons_prefix_cons, ne_eq]
  constructor
  · rintro (⟨⟨rfl, same⟩, later⟩ | ⟨passes, ⟨rfl, onto⟩, other⟩)
    · exact ⟨rfl, .inl ⟨same, later⟩⟩
    · exact ⟨rfl, .inr ⟨passes, onto, fun same => other ⟨rfl, same⟩⟩⟩
  · rintro ⟨rfl, ⟨same, later⟩ | ⟨passes, onto, other⟩⟩
    · exact .inl ⟨⟨rfl, same⟩, later⟩
    · exact .inr ⟨passes, ⟨rfl, onto⟩, fun same => other same.2⟩

theorem root_below_iff : (PlacedCall.mk [] c).Below q ↔ q.route = [] ∧ q.call.rank < c.rank := by
  simp only [Below, List.prefix_nil]
  constructor
  · rintro (⟨same, later⟩ | ⟨-, onto, other⟩)
    · exact ⟨same.symm, later⟩
    · exact absurd onto other
  · rintro ⟨same, later⟩
    exact .inl ⟨same.symm, later⟩

end PlacedCall

namespace Expr

/-- The calls for a node, one below the other. -/
def callsAt : Expr → List Call
  | literal _ v => [.expr, .literal v]
  | column _ n => [.expr, .column n]
  | not _ _ => [.expr, .not]
  | binary _ c _ _ => [.expr, .binary c, .connective c]

/-- The calls for all nodes, in the order in which a walk comes by them. -/
def placedCalls (e : Expr) : List PlacedCall :=
  e.routes.flatMap fun r => ((e.node? r).toList.flatMap callsAt).map (PlacedCall.mk r)

/-- The call lies below none at which the walk is to stop. -/
def Reached (stop : List String) (e : Expr) (p : PlacedCall) : Prop :=
  ∀ q ∈ e.placedCalls, p.Below q → q.call.kind ∉ stop

instance (stop : List String) (e : Expr) : DecidablePred (e.Reached stop) :=
  fun p => inferInstanceAs (Decidable (∀ q ∈ e.placedCalls, p.Below q → q.call.kind ∉ stop))

/-- The walk goes on from a node into its operands. -/
def Passes (stop : List String) (e : Expr) : Prop :=
  ∀ c ∈ e.callsAt, c.rank < 2 → c.kind ∉ stop

instance (stop : List String) : DecidablePred (Passes stop) :=
  fun e => inferInstanceAs (Decidable (∀ c ∈ e.callsAt, c.rank < 2 → c.kind ∉ stop))

/-- The calls that are left when the walk stops at some kinds of call. -/
def reachedCalls (stop : List String) (e : Expr) : List Call :=
  (e.placedCalls.filter (e.Reached stop)).map PlacedCall.call

variable {stop : List String} {e x : Expr} {m : Move} {p : PlacedCall}

theorem mem_placedCalls_iff :
    p ∈ e.placedCalls ↔ ∃ x, e.node? p.route = some x ∧ p.call ∈ x.callsAt := by
  simp only [placedCalls, List.mem_flatMap, List.mem_map, Option.mem_toList]
  constructor
  · rintro ⟨r, -, c, ⟨x, found, hc⟩, rfl⟩
    exact ⟨x, found, hc⟩
  · rintro ⟨x, found, hc⟩
    exact ⟨p.route, mem_routes_iff.2 ⟨x, found⟩, p.call, ⟨x, found, hc⟩, rfl⟩

theorem pairwise_rank_callsAt (e : Expr) :
    e.callsAt.Pairwise fun c d => c.rank < d.rank := by
  cases e <;> simp [callsAt, Call.rank]

/-- Each call is made once, in the order of the nodes and, for one node, of the ranks. -/
theorem pairwise_placedCalls (e : Expr) : e.placedCalls.Pairwise PlacedCall.Before := by
  apply List.pairwise_flatMap.2
  refine ⟨fun r _ => ?_, e.pairwise_routes.imp ?_⟩
  · cases e.node? r with
    | none => exact .nil
    | some x =>
      rw [Option.toList_some, List.flatMap_singleton]
      exact (pairwise_rank_callsAt x).map _ fun c d later => .inr ⟨rfl, later⟩
  · intro r s before p hp q hq
    obtain ⟨c, -, rfl⟩ := List.mem_map.1 hp
    obtain ⟨d, -, rfl⟩ := List.mem_map.1 hq
    exact .inl before

/-! ### The calls for a node and those below it -/

theorem flatMap_routes_under (step : e.operand? m = some x) :
    ((x.routes.map (m :: ·)).flatMap fun r =>
      ((e.node? r).toList.flatMap callsAt).map (PlacedCall.mk r)) =
      x.placedCalls.map (PlacedCall.under m) := by
  rw [List.flatMap_map, placedCalls, List.map_flatMap]
  apply congrArg (List.flatMap · x.routes)
  funext r
  rw [node?, step, List.map_map]
  rfl

theorem placedCalls_not (loc : Option Location) (x : Expr) :
    (not loc x).placedCalls =
      [.expr, .not].map (PlacedCall.mk []) ++ x.placedCalls.map (PlacedCall.under .operand) := by
  rw [placedCalls, routes, List.flatMap_cons, flatMap_routes_under rfl]
  rfl

theorem placedCalls_binary (loc : Option Location) (c : Connective) (l r : Expr) :
    (binary loc c l r).placedCalls = [.expr, .binary c, .connective c].map (PlacedCall.mk []) ++
      (l.placedCalls.map (PlacedCall.under .left) ++
        r.placedCalls.map (PlacedCall.under .right)) := by
  rw [placedCalls, routes, List.flatMap_cons, List.flatMap_append, flatMap_routes_under rfl,
    flatMap_routes_under rfl]
  rfl

/-- A call for a node lies below the earlier calls for the node. -/
theorem reached_root_iff {c : Call} :
    e.Reached stop ⟨[], c⟩ ↔ ∀ d ∈ e.callsAt, d.rank < c.rank → d.kind ∉ stop := by
  simp only [Reached, mem_placedCalls_iff, PlacedCall.root_below_iff]
  constructor
  · intro clear d hd earlier
    exact clear ⟨[], d⟩ ⟨e, rfl, hd⟩ ⟨rfl, earlier⟩
  · rintro clear ⟨_, d⟩ ⟨_, found, hd⟩ ⟨rfl, earlier⟩
    cases found
    exact clear d hd earlier

/-- A call further down is made when the walk goes on from the root and then comes to it. -/
theorem reached_under_iff (step : e.operand? m = some x) :
    e.Reached stop (p.under m) ↔ e.Passes stop ∧ x.Reached stop p := by
  simp only [Reached, Passes, mem_placedCalls_iff]
  constructor
  · intro clear
    refine ⟨fun c hc passed => ?_, fun q hq below => ?_⟩
    · exact clear ⟨[], c⟩ ⟨e, rfl, hc⟩ (PlacedCall.under_below_root_iff.2 passed)
    · obtain ⟨y, found, hcall⟩ := hq
      have further : e.node? (m :: q.route) = some y := by
        rw [node?, step]
        exact found
      exact clear (q.under m) ⟨y, further, hcall⟩ (PlacedCall.under_below_under_iff.2 ⟨rfl, below⟩)
  · rintro ⟨root, clear⟩ ⟨r, c⟩ ⟨y, found, hcall⟩ below
    cases r with
    | nil =>
      cases found
      exact root c hcall (PlacedCall.under_below_root_iff.1 below)
    | cons n r =>
      obtain ⟨rfl, inside⟩ := PlacedCall.under_below_under_iff.1
        (show (p.under m).Below ((PlacedCall.mk r c).under n) from below)
      rw [node?, step] at found
      exact clear ⟨r, c⟩ ⟨y, found, hcall⟩ inside

/-- Of the calls below a node all are left that are left of its operand, or none. -/
theorem map_call_filter_under (step : e.operand? m = some x) :
    ((x.placedCalls.map (PlacedCall.under m)).filter (e.Reached stop)).map PlacedCall.call =
      if e.Passes stop then x.reachedCalls stop else [] := by
  rw [List.filter_map, List.map_map]
  split
  · next passes =>
    rw [reachedCalls]
    apply congrArg (List.map PlacedCall.call)
    apply List.filter_congr
    intro p _
    exact decide_eq_decide.2 ((reached_under_iff step).trans (and_iff_right passes))
  · next stops =>
    rw [List.map_eq_nil_iff, List.filter_eq_nil_iff]
    intro p _ reached
    exact stops ((reached_under_iff step).1 (of_decide_eq_true reached)).1

/-- Of the calls for a node those are left that come before the first one at which to stop. -/
theorem map_call_filter_root (calls : List Call) :
    ((calls.map (PlacedCall.mk [])).filter (e.Reached stop)).map PlacedCall.call =
      calls.filter fun c => ∀ d ∈ e.callsAt, d.rank < c.rank → d.kind ∉ stop := by
  rw [List.filter_map, List.map_map]
  refine (List.map_id _).trans (List.filter_congr ?_)
  intro c _
  exact decide_eq_decide.2 reached_root_iff

theorem reachedCalls_leaf {own : Call} (alone : e.placedCalls = e.callsAt.map (PlacedCall.mk []))
    (calls : e.callsAt = [.expr, own]) (leaf : own.rank = 1) :
    e.reachedCalls stop = .expr :: if Call.kind .expr ∈ stop then [] else [own] := by
  rw [reachedCalls, alone, map_call_filter_root, calls]
  by_cases entered : Call.kind .expr ∈ stop <;> simp [leaf, entered]

theorem reachedCalls_not (loc : Option Location) (x : Expr) :
    (not loc x).reachedCalls stop = .expr :: if Call.kind .expr ∈ stop then [] else
      .not :: if Call.kind .not ∈ stop then [] else x.reachedCalls stop := by
  rw [reachedCalls, placedCalls_not, List.filter_append, List.map_append, map_call_filter_root,
    map_call_filter_under rfl]
  by_cases entered : Call.kind .expr ∈ stop <;> by_cases handled : Call.kind .not ∈ stop <;>
    simp [Passes, callsAt, entered, handled]

theorem reachedCalls_binary (loc : Option Location) (c : Connective) (l r : Expr) :
    (binary loc c l r).reachedCalls stop = .expr :: if Call.kind .expr ∈ stop then [] else
      .binary c :: if (Call.binary c).kind ∈ stop then [] else
        .connective c :: (l.reachedCalls stop ++ r.reachedCalls stop) := by
  rw [reachedCalls, placedCalls_binary, List.filter_append, List.filter_append, List.map_append,
    List.map_append, map_call_filter_root, map_call_filter_under rfl, map_call_filter_under rfl]
  by_cases entered : Call.kind .expr ∈ stop <;>
    by_cases handled : (Call.binary c).kind ∈ stop <;>
    simp [Passes, callsAt, entered, handled]

/-! ## The walk -/

/-- The walk records the calls that can be reached, whatever was recorded before. -/
theorem walk_recorder (stop : List String) (e : Expr) :
    Appends ((recorder stop).walk e) (e.reachedCalls stop) := by
  induction e with
  | literal loc v =>
    rw [reachedCalls_leaf rfl rfl rfl]
    exact (Appends.noting_id stop (.literal v)).noting stop .expr
  | column loc n =>
    rw [reachedCalls_leaf rfl rfl rfl]
    exact (Appends.noting_id stop (.column n)).noting stop .expr
  | not loc x ih =>
    rw [reachedCalls_not]
    exact (ih.noting stop .not).noting stop .expr
  | binary loc c l r ihl ihr =>
    have operands := ((Appends.noting_id stop (.connective c)).comp ihl).comp ihr
    rw [List.append_assoc] at operands
    rw [reachedCalls_binary]
    exact (operands.noting stop (.binary c)).noting stop .expr

theorem calls_eq_reachedCalls (stop : List String) (e : Expr) :
    e.calls stop = e.reachedCalls stop :=
  (walk_recorder stop e).toList

/-- A walk that never stops makes all calls. -/
theorem calls_eq_map_placedCalls (e : Expr) :
    e.calls [] = e.placedCalls.map PlacedCall.call := by
  rw [calls_eq_reachedCalls, reachedCalls, List.filter_eq_self.2]
  intro p _
  exact decide_eq_true fun q _ _ => List.not_mem_nil

/-! ## Stopping at more kinds -/

theorem Reached.of_subset {stop' : List String} (h : stop ⊆ stop') (reached : e.Reached stop' p) :
    e.Reached stop p :=
  fun q hq below stopped => reached q hq below (h stopped)

/-- Only these four kinds of call have calls below them. -/
theorem reachedCalls_eq_of_mem_iff {stop' : List String}
    (same : ∀ k ∈ ["expr", "not", "and", "or"], k ∈ stop ↔ k ∈ stop') (e : Expr) :
    e.reachedCalls stop = e.reachedCalls stop' := by
  have entered : Call.kind .expr ∈ stop ↔ Call.kind .expr ∈ stop' := same "expr" (by decide)
  have negated : Call.kind .not ∈ stop ↔ Call.kind .not ∈ stop' := same "not" (by decide)
  have joined (c : Connective) :
      (Call.binary c).kind ∈ stop ↔ (Call.binary c).kind ∈ stop' := by
    cases c with
    | and => exact same "and" (by decide)
    | or => exact same "or" (by decide)
  induction e with
  | literal loc v =>
    rw [reachedCalls_leaf rfl rfl rfl, reachedCalls_leaf rfl rfl rfl]
    simp only [entered]
  | column loc n =>
    rw [reachedCalls_leaf rfl rfl rfl, reachedCalls_leaf rfl rfl rfl]
    simp only [entered]
  | not loc x ih =>
    rw [reachedCalls_not, reachedCalls_not, ih]
    simp only [entered, negated]
  | binary loc c l r ihl ihr =>
    rw [reachedCalls_binary, reachedCalls_binary, ihl, ihr]
    simp only [entered, joined]

/-- The calls of a whole walk are the placed calls, and a walk that stops leaves out those below the
calls at which it stops. -/
theorem calls_eq_map_filter_and_sublist (e : Expr) :
    (∀ p, p ∈ e.placedCalls ↔ ∃ x, e.node? p.route = some x ∧ p.call ∈ x.callsAt) ∧
    e.placedCalls.Pairwise PlacedCall.Before ∧
    e.calls [] = e.placedCalls.map PlacedCall.call ∧
    (∀ stop, e.calls stop = (e.placedCalls.filter (e.Reached stop)).map PlacedCall.call) ∧
    ∀ stop stop', stop ⊆ stop' →
      (e.calls stop').Sublist (e.calls stop) ∧
      ((∀ k ∈ stop', k ∈ stop ∨ k ∉ ["expr", "not", "and", "or"]) →
        e.calls stop' = e.calls stop) := by
  refine ⟨fun p => mem_placedCalls_iff, e.pairwise_placedCalls, e.calls_eq_map_placedCalls, ?_, ?_⟩
  · intro stop
    exact calls_eq_reachedCalls stop e
  · intro stop stop' h
    rw [calls_eq_reachedCalls, calls_eq_reachedCalls]
    constructor
    · apply List.Sublist.map
      apply List.monotone_filter_right
      intro p reached
      exact decide_eq_true ((of_decide_eq_true reached).of_subset h)
    · intro idle
      apply reachedCalls_eq_of_mem_iff
      intro k hk
      exact ⟨fun more => (idle k more).resolve_right fun idle => idle hk, fun held => h held⟩

end Expr

/-- A walk that stops at conjunctions leaves out their connective and both operands; stopping at
connectives and columns as well, below which nothing lies, leaves out nothing more. -/
theorem calls_eq_map_filter_and_sublist_and :
    let a := Expr.column (some ⟨1, 5⟩) ⟨none, "a"⟩
    let b := Expr.column none ⟨some "t", "b"⟩
    let e := Expr.binary none .or
      (.not none (.binary none .and a (.literal none (.bool true)))) b
    e.calls ["and"] =
        [.expr, .binary .or, .connective .or, .expr, .not, .expr, .binary .and, .expr,
          .column ⟨some "t", "b"⟩] ∧
      e.calls ["operator", "and", "column", "while"] = e.calls ["and"] ∧
      (e.calls ["not", "and"]).Sublist (e.calls ["and"]) := by
  intro a b e
  obtain ⟨-, -, -, left, more⟩ := Expr.calls_eq_map_filter_and_sublist e
  refine ⟨?_, ?_, ?_⟩
  · rw [left]
    decide
  · exact (more ["and"] ["operator", "and", "column", "while"] (by decide)).2 (by decide)
  · exact (more ["and"] ["not", "and"] (by decide)).1

end QueryLogic

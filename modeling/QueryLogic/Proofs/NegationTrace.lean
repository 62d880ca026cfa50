import Mathlib.Data.List.Forall2
import Mathlib.Logic.Basic
import QueryLogic.Proofs.ChainNormal
import QueryLogic.Proofs.NegationPlaces
/-!
What is reported while negations move to the leaves. The pass reports each negation that it takes away,
with its flag, and each connective that gives way to its dual. Here the reports are compared with the
condition and the result: the negations above a node are counted along its route, the nodes that call
for a report are listed in the order in which a walk comes by them, and every report in turn must tell
what became of the next node of this list. A connective is looked up in the result at the position it
had before, all negations skipped.

What is proved:
  1. `Expr.reported_not` and `Expr.reported_binary`: which nodes of a condition call for a report, from
     those of its operands.
  2. `Expr.forall₂_tells_events_pushNot`: the reports tell of these nodes, one after the other, with the
     number of negations above the root as a parameter.
  3. `Expr.filterMap_absorbed?_events_pushNot`: under the other flag all negations are reported with
     the other flag.
  4. `Expr.traced_events_pushNot_and_opposed`: the reports of both passes, side by side.
-/
namespace QueryLogic

/-- The flag with which a negation was taken away, if the event is about a negation. -/
def Event.absorbed? : Event → Option Bool
  | absorbedNot negated => some negated
  | _ => none

namespace Expr

/-- Whether the node at the end of a route calls for a report: every negation does, and a connective
when the number of negations above it is odd, `above` of them being above the whole expression. -/
def CallsForReport (above : Nat) (e : Expr) (r : Route) : Prop :=
  (e.node? r).map kind = some .not ∨
    (e.node? r).map kind = some .connective ∧ Odd (r.negations + above)

instance (above : Nat) (e : Expr) : DecidablePred (e.CallsForReport above) := fun r =>
  inferInstanceAs (Decidable ((e.node? r).map kind = some .not ∨
    (e.node? r).map kind = some .connective ∧ Odd (r.negations + above)))

/-- The routes to the nodes that call for a report. -/
def reported (above : Nat) (e : Expr) : List Route :=
  e.routes.filter fun r => e.CallsForReport above r

/-- What an event says about the node at the end of a route, `f` being the result: a negation is
reported with the parity of the number of negations above it, a connective together with the one at the
same position of the result. -/
def Tells (above : Nat) (e f : Expr) (r : Route) : Event → Prop
  | .absorbedNot negated =>
    (e.node? r).map kind = some .not ∧ negated = decide (Odd (r.negations + above))
  | .flipped old new =>
    (e.node? r).bind connective? = some old ∧ (f.node? r.sides).bind connective? = some new
  | .removedRepeats _ _ _ => False

/-- The events are the reports of the nodes at the end of the routes `rs`, in order, and these are all
the nodes that call for one, each listed before those below it and those further to the right. -/
structure Traced (above : Nat) (e f : Expr) (rs : List Route) (events : List Event) : Prop where
  before : rs.Pairwise Route.Before
  mem_iff : ∀ r, r ∈ rs ↔ e.CallsForReport above r
  tells : List.Forall₂ (e.Tells above f) rs events

variable {above : Nat} {e f : Expr}

/-! ## The nodes that call for a report -/

theorem mem_reported_iff {r : Route} : r ∈ e.reported above ↔ e.CallsForReport above r := by
  rw [reported, List.mem_filter, decide_eq_true_iff]
  constructor
  · exact fun h => h.2
  · intro h
    refine ⟨mem_routes_iff.2 ?_, h⟩
    rcases h with negation | ⟨connective, -⟩
    · obtain ⟨x, found, -⟩ := Option.map_eq_some_iff.1 negation
      exact ⟨x, found⟩
    · obtain ⟨x, found, -⟩ := Option.map_eq_some_iff.1 connective
      exact ⟨x, found⟩

theorem pairwise_reported (above : Nat) (e : Expr) : (e.reported above).Pairwise Route.Before :=
  (pairwise_routes e).filter _

/-- Below a negation the nodes have one negation more above them. -/
theorem callsForReport_operand {loc : Option Location} {x : Expr} {r : Route} :
    (not loc x).CallsForReport above (.operand :: r) ↔ x.CallsForReport (above + 1) r := by
  rw [CallsForReport, Route.negations_operand_add]
  exact Iff.rfl

theorem reported_not (loc : Option Location) (x : Expr) :
    (not loc x).reported above = [] :: (x.reported (above + 1)).map (.operand :: ·) := by
  have root : decide ((not loc x).CallsForReport above []) = true := decide_eq_true (Or.inl rfl)
  rw [reported, routes, List.filter_cons, if_pos root, List.filter_map, reported]
  simp only [Function.comp_def, callsForReport_operand]

theorem reported_binary (loc : Option Location) (c : Connective) (l r : Expr) :
    (binary loc c l r).reported above = (if Odd above then [[]] else []) ++
      ((l.reported above).map (.left :: ·) ++ (r.reported above).map (.right :: ·)) := by
  have root : (binary loc c l r).CallsForReport above [] ↔ Odd above := by
    rw [CallsForReport, Route.negations_nil_add]
    simp [node?, kind]
  have sides : (binary loc c l r).reported above =
      [[]].filter (fun s => (binary loc c l r).CallsForReport above s) ++
        ((l.reported above).map (.left :: ·) ++ (r.reported above).map (.right :: ·)) := by
    rw [reported, routes, ← List.singleton_append, List.filter_append, List.filter_append,
      List.filter_map, List.filter_map]
    rfl
  rw [sides]
  by_cases h : Odd above <;> simp [root, h]

/-! ## The reports of a pass -/

theorem tells_operand {loc : Option Location} {x : Expr} {r : Route} {ev : Event}
    (h : x.Tells (above + 1) f r ev) : (not loc x).Tells above f (.operand :: r) ev := by
  cases ev with
  | absorbedNot negated => exact ⟨h.1, by rw [Route.negations_operand_add]; exact h.2⟩
  | flipped old new => exact h
  | removedRepeats c before after => exact h

/-- The reports tell of the nodes that call for one, in their order. -/
theorem forall₂_tells_events_pushNot (above : Nat) (e : Expr) :
    List.Forall₂ (e.Tells above (e.pushNot (decide (Odd above))).value) (e.reported above)
      (e.pushNot (decide (Odd above))).events := by
  induction e generalizing above with
  | literal loc v => exact .nil
  | column loc n => exact .nil
  | not loc x ih =>
    have below := ih (above + 1)
    rw [decide_odd_succ] at below
    rw [reported_not]
    refine .cons ⟨rfl, ?_⟩ (List.forall₂_map_left_iff.2 (below.imp fun r ev => tells_operand))
    rw [Route.negations_nil_add]
  | binary loc c l r ihl ihr =>
    rw [reported_binary]
    simp only [pushNot, Logged.events_bind, Logged.events_reportIf, Logged.events_pure,
      Logged.value_bind, Logged.value_pure, List.append_nil, decide_eq_true_eq]
    refine List.rel_append ?_ (List.rel_append ?_ ?_)
    · -- the node itself comes before both operands
      by_cases h : Odd above
      · simp only [if_pos h]
        exact .cons ⟨rfl, rfl⟩ .nil
      · simp only [if_neg h]
        exact .nil
    · refine List.forall₂_map_left_iff.2 ((ihl above).imp fun s ev told => ?_)
      cases ev <;> exact told
    · refine List.forall₂_map_left_iff.2 ((ihr above).imp fun s ev told => ?_)
      cases ev <;> exact told

theorem traced_events_pushNot (above : Nat) (e : Expr) :
    Traced above e (e.pushNot (decide (Odd above))).value (e.reported above)
      (e.pushNot (decide (Odd above))).events :=
  ⟨pairwise_reported above e, fun _ => mem_reported_iff, forall₂_tells_events_pushNot above e⟩

/-- The negations are met in the same order under both flags, each with the opposite flag. -/
theorem filterMap_absorbed?_events_pushNot (negated : Bool) (e : Expr) :
    (e.pushNot !negated).events.filterMap Event.absorbed? =
      ((e.pushNot negated).events.filterMap Event.absorbed?).map Bool.not := by
  induction e generalizing negated with
  | literal loc v => rfl
  | column loc n => rfl
  | not loc x ih => exact congrArg (List.cons !negated) (ih !negated)
  | binary loc c l r ihl ihr =>
    have silent : ∀ (p : Prop) [Decidable p] (old new : Connective),
        (if p then [Event.flipped old new] else []).filterMap Event.absorbed? = [] := by
      intro p _ old new
      split <;> rfl
    simp only [pushNot, Logged.events_bind, Logged.events_reportIf, Logged.events_pure,
      List.append_nil, List.filterMap_append, List.map_append, silent, List.nil_append, ihl, ihr]

/-- Of the numbers of negations above a connective in the two passes, just one is odd. -/
theorem xor_callsForReport {r : Route} (h : (e.node? r).map kind = some .connective) :
    Xor (e.CallsForReport 0 r) (e.CallsForReport 1 r) := by
  have odd : ∀ above, e.CallsForReport above r ↔ Odd (r.negations + above) := by
    intro above
    simp [CallsForReport, h]
  rw [odd, odd, Nat.odd_add_one, add_zero, xor_not_right]

theorem traced_events_pushNot_and_opposed (e : Expr) :
    Traced 0 e e.pushDown (e.reported 0) (e.pushNot false).events ∧
      Traced 1 e e.negate (e.reported 1) (e.pushNot true).events ∧
      (∀ r, (e.node? r).map kind = some .connective → Xor (r ∈ e.reported 0) (r ∈ e.reported 1)) ∧
      (e.pushNot true).events.filterMap Event.absorbed? =
        ((e.pushNot false).events.filterMap Event.absorbed?).map Bool.not := by
  refine ⟨traced_events_pushNot 0 e, traced_events_pushNot 1 e, fun r connective => ?_,
    filterMap_absorbed?_events_pushNot false e⟩
  rw [mem_reported_iff, mem_reported_iff]
  exact xor_callsForReport connective

end Expr

/-- A disjunction under two negations: only the negation of the whole flips it. -/
theorem traced_events_pushNot_and_opposed_nested :
    let a := Expr.column (some ⟨1, 5⟩) ⟨none, "a"⟩
    let b := Expr.column none ⟨none, "b"⟩
    let e := Expr.not (some ⟨1, 1⟩)
      (.binary (some ⟨1, 7⟩) .and a (.not none (.binary (some ⟨1, 19⟩) .or b a)))
    let inner : Route := [.operand, .right, .operand]
    e.Traced 0 e.pushDown [[], [.operand], [.operand, .right]]
        [.absorbedNot false, .flipped .and .or, .absorbedNot true] ∧
      (e.node? inner).map Expr.kind = some .connective ∧
      Xor (inner ∈ e.reported 0) (inner ∈ e.reported 1) ∧ inner ∈ e.reported 1 := by
  intro a b e inner
  obtain ⟨traced, -, once, -⟩ := Expr.traced_events_pushNot_and_opposed e
  have nodes : e.reported 0 = [[], [.operand], [.operand, .right]] := by decide
  exact ⟨nodes ▸ traced, rfl, once inner rfl, by decide⟩

end QueryLogic

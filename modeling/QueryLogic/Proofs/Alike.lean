import QueryLogic.Proofs.KeptOperands
import QueryLogic.Proofs.NegationLaws
import QueryLogic.Proofs.Text.RoundTrip
import QueryLogic.Walk
/-!
Equal conditions cannot be told apart. Two conditions that are equal may have their nodes at other
places and their numbers spelled in another way. What a pass does must not depend on either: its
results on the two are equal again, it takes the same steps on the way, and where numbers have one
spelling only, the two are written in the same way.

What is proved:
  1. `Expr.Alike.events_pushNot` and `Expr.Alike.events_dropRepeats_and_gather`: the passes report
     the same steps. When repeats are dropped, the counts in a report are taken from lists of
     operands, which have the same shapes by `Expr.map_shape_gather`.
  2. `Expr.Alike.walk_columnCollector` and `Expr.Alike.print_eq`: a walk comes by the same columns,
     and without decimals and doubles the texts are the same.
  3. `Expr.indistinguishable_of_beq`: all of this together.
-/
namespace QueryLogic

/-- A literal that is neither a decimal nor a double is known from its value. -/
theorem Literal.eq_of_value_eq {v w : Literal} (readable : v.readable = true)
    (h : v.value = w.value) : v = w := by
  cases v <;> cases w <;> simp_all [value, Literal.readable]

namespace Expr

/-- Whether every literal is readable, whatever the columns are called. -/
def readableLiterals : Expr → Bool
  | literal _ v => v.readable
  | column _ _ => true
  | not _ x => x.readableLiterals
  | binary _ _ l r => l.readableLiterals && r.readableLiterals

variable {a b : Expr}

/-! ## Operands -/

theorem forall₂_operands (h : a.shape = b.shape) (c : Connective) :
    List.Forall₂ (fun x y => (x == y) = true) (a.operands c) (b.operands c) := by
  apply forall₂_beq_of_map_shape_eq
  rw [map_shape_operands, map_shape_operands, h]

/-! ## Reports -/

theorem Alike.events_pushNot (h : Alike a b) (negated : Bool) :
    (a.pushNot negated).events = (b.pushNot negated).events := by
  induction h generalizing negated with
  | literal _ _ _ => rfl
  | column _ _ n => rfl
  | not _ _ _ ih => simp only [pushNot, Logged.events_bind, ih]
  | binary _ _ c _ _ left right =>
    simp only [pushNot, Logged.events_bind, Logged.events_pure, left, right]

variable [Hashable Expr] [LawfulHashable Expr]

/-- The shapes of what an expression contributes to a chain around it. -/
theorem map_shape_gather (c : Connective) (e : Expr) :
    (gather c e).value.map shape = (e.shape.operands c).flatMap fun s => s.reduced.operands c := by
  rw [value_gather, List.map_flatMap, ← map_shape_operands, List.flatMap_map]
  simp only [map_shape_operands, shape_withoutRepeats]

/-- What is reported of a chain are numbers of operands, and these depend on shapes alone. -/
theorem events_close_eq {node node' : Expr} (c : Connective) {es fs : List Expr}
    (h : es.map shape = fs.map shape) :
    (close node c es).events = (close node' c fs).events := by
  have all : es.length = fs.length := by
    rw [← List.length_map shape, h, List.length_map]
  have kept : (distinct es).length = (distinct fs).length := by
    rw [distinct_eq_eraseDups, distinct_eq_eraseDups, ← List.length_map shape,
      map_shape_eraseDups, h, ← map_shape_eraseDups, List.length_map]
  simp only [close, Logged.events_bind, Logged.events_reportIf, Logged.events_pure, all, kept]

theorem Alike.events_dropRepeats_and_gather (h : Alike a b) :
    (dropRepeats a).events = (dropRepeats b).events ∧
      ∀ c, (gather c a).events = (gather c b).events := by
  induction h with
  | literal _ _ _ => exact ⟨rfl, fun _ => rfl⟩
  | column _ _ n => exact ⟨rfl, fun _ => rfl⟩
  | not _ _ _ ih =>
    constructor
    · simp only [dropRepeats, Logged.events_bind, ih.1, Logged.events_pure]
    · intro c
      simp only [gather, Logged.events_bind, ih.1, Logged.events_pure]
  | @binary loc loc' d l l' r r' left right ihl ihr =>
    have contributions : ((gather d l).value ++ (gather d r).value).map shape =
        ((gather d l').value ++ (gather d r').value).map shape := by
      simp only [List.map_append, map_shape_gather, left.shape_eq, right.shape_eq]
    have whole : (dropRepeats (.binary loc d l r)).events =
        (dropRepeats (.binary loc' d l' r')).events := by
      rw [events_dropRepeats_binary, events_dropRepeats_binary, ihl.2, ihr.2,
        events_close_eq d contributions]
    refine ⟨whole, fun c => ?_⟩
    rw [events_gather_binary, events_gather_binary, ihl.2, ihr.2, whole]

/-! ## Columns and texts -/

omit [Hashable Expr] [LawfulHashable Expr] in
theorem Alike.walk_columnCollector (h : Alike a b) (seen : Array ColumnName) :
    columnCollector.walk a seen = columnCollector.walk b seen := by
  induction h generalizing seen with
  | literal _ _ _ => rfl
  | column _ _ n => rfl
  | not _ _ _ ih => exact ih seen
  | @binary _ _ _ l l' r r' _ _ left right =>
    show columnCollector.walk r (columnCollector.walk l seen) =
      columnCollector.walk r' (columnCollector.walk l' seen)
    rw [left, right]

omit [Hashable Expr] [LawfulHashable Expr] in
theorem Alike.print_eq (h : Alike a b) (readable : a.readableLiterals = true) (s : Style)
    (p : Position) : s.print p a = s.print p b := by
  induction h generalizing p with
  | literal _ _ h => rw [Style.print, Style.print, Literal.eq_of_value_eq readable h]
  | column _ _ n => rfl
  | not _ _ _ ih => rw [Style.print, Style.print, ih readable]
  | binary _ _ c _ _ left right =>
    simp only [readableLiterals, Bool.and_eq_true] at readable
    simp only [Style.print, left readable.1, right readable.2]

/-! ## Equal conditions -/

/-- What is done with `a` and with `b` has equal results and takes the same steps. -/
structure Indistinguishable (a b : Expr) : Prop where
  negate : (a.negate == b.negate) = true
  pushDown : (a.pushDown == b.pushDown) = true
  withoutRepeats : (a.withoutRepeats == b.withoutRepeats) = true
  operands : ∀ c, List.Forall₂ (fun x y => (x == y) = true) (a.operands c) (b.operands c)
  columns : a.columns = b.columns
  /-- The steps of `negate` with `true`, those of `pushDown` with `false`. -/
  events_pushNot : ∀ negated, (a.pushNot negated).events = (b.pushNot negated).events
  events_dropRepeats : (dropRepeats a).events = (dropRepeats b).events
  print : a.readableLiterals = true → ∀ (s : Style) (p : Position), s.print p a = s.print p b

theorem indistinguishable_of_beq (h : (a == b) = true) : a.Indistinguishable b := by
  have same : a.shape = b.shape := beq_iff_shape.1 h
  have alike : Alike a b := alike_of_shape_eq same
  refine ⟨?_, ?_, ?_, forall₂_operands same, ?_, alike.events_pushNot,
    alike.events_dropRepeats_and_gather.1, alike.print_eq⟩
  · rw [beq_iff_shape, shape_negate, shape_negate, same]
  · rw [beq_iff_shape, shape_pushDown, shape_pushDown, same]
  · rw [beq_iff_shape, shape_withoutRepeats, shape_withoutRepeats, same]
  · rw [columns, columns, alike.walk_columnCollector]

end Expr

/-- Two spellings of one condition, in which an operand is repeated, and two readable conditions that
were written at different places. -/
theorem indistinguishable_of_beq_spellings :
    let number (loc : Option Location) (d : Decimal) := Expr.not loc (.literal none (.decimal d))
    let bits (x : UInt64) := Expr.literal none (.double ⟨x⟩)
    let a := Expr.binary (some ⟨1, 9⟩) .or (number none ⟨15, 1⟩)
      (.binary none .or (number (some ⟨1, 12⟩) ⟨150, 2⟩)
        (.binary none .and (bits 0x7ff8000000000000) (bits 0)))
    let b := Expr.binary none .or (number (some ⟨7, 1⟩) ⟨1500, 3⟩)
      (.binary (some ⟨7, 3⟩) .or (number none ⟨15, 1⟩)
        (.binary none .and (bits 0xfff0000000000001) (bits 0x8000000000000000)))
    let x := Expr.not (some ⟨1, 1⟩) (.literal none (.text "it's"))
    let y := Expr.not none (.literal (some ⟨2, 5⟩) (.text "it's"))
    (a == b) = true ∧ a ≠ b ∧ a.Indistinguishable b ∧ (x == y) = true ∧
      x.readableLiterals = true ∧ ∀ (s : Style) (p : Position), s.print p x = s.print p y := by
  intro number bits a b x y
  have equal : (a == b) = true := by decide
  have written : (x == y) = true := by decide
  exact ⟨equal, by decide, Expr.indistinguishable_of_beq equal, written, rfl,
    (Expr.indistinguishable_of_beq written).print rfl⟩

end QueryLogic

import QueryLogic.Proofs.Locations
import QueryLogic.Proofs.Routes
import QueryLogic.Proofs.Text.Grammar
/-!
Equality of conditions and what they feed to a hasher. A set that finds its members by their hash works
only if equality is an equivalence and equal members feed the same parts to the hasher, whatever numbers
feed. The canonical feed does more than that: it tells unequal conditions apart.

What is proved:
  1. `Expr.Alike.head_node?_eq` and `Expr.shape_eq_of_head_node?`: two conditions have one shape
     exactly when every route comes to nodes of the same head in both.
  2. `Expr.hashParts_inj`: the parts that enter the hash of a condition tell it from every condition
     that is not equal to it, and show where they end.
  3. `Expr.lawfulPair_and_hashParts_eq_iff`: equality and hashing go together.
-/
namespace QueryLogic

namespace Literal

/-- The kind says how many parts belong to a literal, and literals of other values have others. -/
theorem feed_canonical_append_inj {v w : Literal} {s t : List HashPart}
    (h : v.feed .canonical ++ s = w.feed .canonical ++ t) : v.value = w.value ∧ s = t := by
  cases v <;> cases w <;> simp [feed, NumberFeed.canonical] at h
  case null.null => exact ⟨rfl, h⟩
  case bool.bool a b =>
    have bit : a = b := by
      cases a <;> cases b <;> simp_all
    exact ⟨congrArg LiteralValue.bool bit, h.2⟩
  case int.int => exact ⟨congrArg LiteralValue.int h.1, h.2⟩
  case decimal.decimal d d' =>
    obtain ⟨numerator, denominator, rest⟩ := h
    have value : d.value = d'.value := Rat.ext numerator (by omega)
    exact ⟨congrArg LiteralValue.decimal value, rest⟩
  case double.double x y =>
    obtain ⟨number, rest⟩ := h
    have bits : x.canonicalBits = y.canonicalBits := UInt64.toNat_inj.1 (by omega)
    exact ⟨congrArg LiteralValue.double bits, rest⟩
  case text.text => exact ⟨congrArg LiteralValue.text h.1, h.2⟩

end Literal

theorem ColumnName.hashParts_append_inj {m n : ColumnName} {s t : List HashPart}
    (h : m.hashParts ++ s = n.hashParts ++ t) : m = n ∧ s = t := by
  obtain ⟨_ | p, a⟩ := m <;> obtain ⟨_ | q, b⟩ := n <;> simp [hashParts] at h
  case none.none =>
    obtain ⟨rfl, rest⟩ := h
    exact ⟨rfl, rest⟩
  case some.some =>
    obtain ⟨rfl, rfl, rest⟩ := h
    exact ⟨rfl, rest⟩

namespace Expr

variable {a b : Expr}

/-! ## Heads along routes -/

theorem Alike.head_node?_eq (h : Alike a b) (r : Route) :
    (a.node? r).map head = (b.node? r).map head := by
  induction h generalizing r with
  | literal _ _ h =>
    cases r with
    | nil => exact congrArg (some ∘ Head.literal) h
    | cons m r => cases m <;> rfl
  | column _ _ n =>
    cases r with
    | nil => rfl
    | cons m r => cases m <;> rfl
  | not _ _ _ ih =>
    cases r with
    | nil => rfl
    | cons m r =>
      cases m with
      | operand => exact ih r
      | _ => rfl
  | binary _ _ c _ _ left right =>
    cases r with
    | nil => rfl
    | cons m r =>
      cases m with
      | operand => rfl
      | left => exact left r
      | right => exact right r

theorem shape_eq_of_head_node? (h : ∀ r, (a.node? r).map head = (b.node? r).map head) :
    a.shape = b.shape := by
  have root : a.head = b.head := Option.some.inj (h [])
  -- equal heads have the same operands, and a route into an operand is one into the node
  induction a generalizing b with
  | literal loc v =>
    cases b <;> simp only [head, Head.literal.injEq, reduceCtorEq] at root
    exact congrArg Shape.literal root
  | column loc n =>
    cases b <;> simp only [head, Head.column.injEq, reduceCtorEq] at root
    exact congrArg Shape.column root
  | not loc x ih =>
    cases b <;> simp only [head, reduceCtorEq] at root
    have below := fun r => h (.operand :: r)
    exact congrArg Shape.not (ih below (Option.some.inj (below [])))
  | binary loc c l r ihl ihr =>
    cases b <;> simp only [head, Head.connective.injEq, reduceCtorEq] at root
    subst root
    have left := fun r => h (.left :: r)
    have right := fun r => h (.right :: r)
    exact congrArg₂ (Shape.binary c) (ihl left (Option.some.inj (left [])))
      (ihr right (Option.some.inj (right [])))

/-! ## What is fed to a hasher -/

theorem hashParts_inj {s t : List HashPart} (h : a.hashParts s = b.hashParts t) :
    a.shape = b.shape ∧ s = t := by
  induction a generalizing b s t with
  | literal loc v =>
    cases b <;> simp [hashParts, feed] at h
    obtain ⟨value, rest⟩ := Literal.feed_canonical_append_inj h
    exact ⟨congrArg Shape.literal value, rest⟩
  | column loc n =>
    cases b <;> simp [hashParts, feed] at h
    obtain ⟨name, rest⟩ := ColumnName.hashParts_append_inj h
    exact ⟨congrArg Shape.column name, rest⟩
  | not loc x ih =>
    cases b <;> simp [hashParts, feed] at h
    obtain ⟨operand, rest⟩ := ih h
    exact ⟨congrArg Shape.not operand, rest⟩
  | binary loc c l r ihl ihr =>
    cases b <;> simp [hashParts, feed, Connective.hashPart_inj] at h
    obtain ⟨rfl, operands⟩ := h
    -- the left operand shows where the right one begins
    obtain ⟨left, behind⟩ := ihl operands
    obtain ⟨right, rest⟩ := ihr behind
    exact ⟨congrArg₂ (Shape.binary c) left right, rest⟩

/-! ## Equality and hashing together -/

/-- An equality of conditions, and what a condition feeds to a hasher before some other parts, go
together. -/
structure LawfulPair (eq : Expr → Expr → Bool)
    (feed : Expr → List HashPart → List HashPart) : Prop where
  equivalence : Equivalence fun a b => eq a b = true
  /-- No location plays a part, at whatever depth. -/
  unlocated : ∀ a b, eq a b = eq a.unlocated b.unlocated
  /-- Every route comes to nodes of one kind, with the same connective or with one value. -/
  heads : ∀ a b, eq a b = true ↔ ∀ r, (a.node? r).map head = (b.node? r).map head
  feed_eq : ∀ a b rest, eq a b = true → feed a rest = feed b rest

/-- Equality goes together with hashing, whatever numbers feed, and what is hashed tells unequal
conditions apart. -/
theorem lawfulPair_and_hashParts_eq_iff :
    (∀ N, LawfulPair (· == ·) (feed N)) ∧
      (∀ (e : Expr) rest, e.feed .canonical rest = e.hashParts rest) ∧
      ∀ (a b : Expr) s t, a.hashParts s = b.hashParts t ↔ (a == b) = true ∧ s = t := by
  refine ⟨fun N => ⟨?_, ?_, ?_, ?_⟩, fun _ _ => rfl, ?_⟩
  · exact ⟨fun _ => BEq.rfl, BEq.symm, BEq.trans⟩
  · intro a b
    rw [beq_eq_beq_shape, beq_eq_beq_shape, shape_unlocated, shape_unlocated]
  · intro a b
    rw [beq_iff_shape]
    exact ⟨fun h => (alike_of_shape_eq h).head_node?_eq, shape_eq_of_head_node?⟩
  · intro a b rest h
    exact feed_eq_of_beq h N rest
  · intro a b s t
    constructor
    · intro h
      obtain ⟨same, rest⟩ := hashParts_inj h
      exact ⟨beq_iff_shape.2 same, rest⟩
    · rintro ⟨same, rfl⟩
      exact feed_eq_of_beq same .canonical s

end Expr

end QueryLogic

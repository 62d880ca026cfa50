import Mathlib.Data.List.Forall2
import QueryLogic.Proofs.NormalShape
/-!
Which operands of a chain are kept. The operands are inserted into a hash set one after the other,
and those that the set accepts are kept. The hash may have any seed and may collide as it likes; all
that is asked of it is that equal conditions have equal hashes. What is kept are then the first
occurrences, as comparing the operands in pairs finds them, and the whole pass comes out the same
under every such hash.

The treated chain reads back as the list of what was kept, but for one location: where a single
operand remains, and this is a connective, it has taken the location of the chain.

What is proved:
  1. `Expr.dropRepeats_and_gather_eq`: the pass does not depend on the hash.
  2. `Expr.map_shape_operands_withoutRepeats`: the operands of a treated condition are, location
     aside, the first occurrences among all contributions to its chain.
  3. `Expr.firstPlaces_and_forall₂_operands_withoutRepeats`: both together with the places that a
     hash set accepts.
-/
namespace QueryLogic.Expr

/-- Expressions of the same shapes are equal in pairs. -/
theorem forall₂_beq_of_map_shape_eq {xs ys : List Expr} (h : xs.map shape = ys.map shape) :
    List.Forall₂ (fun x y => (x == y) = true) xs ys := by
  rw [← List.forall₂_eq_eq_eq, List.forall₂_map_left_iff, List.forall₂_map_right_iff] at h
  exact h.imp fun _ _ => beq_iff_shape.2

/-! ## Any hash -/

theorem close_eq (h₁ h₂ : Hashable Expr) [@LawfulHashable Expr _ h₁] [@LawfulHashable Expr _ h₂]
    (node : Expr) (c : Connective) (es : List Expr) :
    @close h₁ node c es = @close h₂ node c es := by
  have kept : @distinct Expr _ h₁ es = @distinct Expr _ h₂ es := by
    rw [@distinct_eq_eraseDups Expr _ h₁, @distinct_eq_eraseDups Expr _ h₂]
  unfold close
  rw [kept]

/-- Under two hashes the pass yields the same and reports the same. -/
theorem dropRepeats_and_gather_eq (h₁ h₂ : Hashable Expr) [@LawfulHashable Expr _ h₁]
    [@LawfulHashable Expr _ h₂] (e : Expr) :
    @dropRepeats h₁ e = @dropRepeats h₂ e ∧ ∀ c, @gather h₁ c e = @gather h₂ c e := by
  induction e with
  | literal loc v => exact ⟨rfl, fun _ => rfl⟩
  | column loc n => exact ⟨rfl, fun _ => rfl⟩
  | not loc x ih =>
    refine ⟨?_, fun c => ?_⟩
    · simp only [dropRepeats, ih.1]
    · simp only [gather, ih.1]
  | binary loc d l r ihl ihr =>
    refine ⟨?_, fun c => ?_⟩
    · simp only [dropRepeats, ihl.2, ihr.2, close_eq h₁ h₂]
    · simp only [gather, ihl.2, ihr.2, close_eq h₁ h₂]

/-! ## The operands of a treated condition -/

variable [Hashable Expr] [LawfulHashable Expr]

theorem map_shape_operands_withoutRepeats (c : Connective) (e : Expr) :
    (e.withoutRepeats.operands c).map shape =
      ((e.operands c).flatMap fun x => x.withoutRepeats.operands c).eraseDups.map shape := by
  obtain ⟨value, contributions⟩ := shape_withoutRepeats_and_gather e
  calc (e.withoutRepeats.operands c).map shape
      = e.shape.reduced.operands c := by rw [map_shape_operands, value]
    _ = ((gather c e).value.map shape).eraseDups := (contributions c).symm
    _ = ((e.operands c).flatMap fun x => x.withoutRepeats.operands c).eraseDups.map shape := by
      rw [value_gather, map_shape_eraseDups]

theorem firstPlaces_and_forall₂_operands_withoutRepeats :
    (∀ xs : List Expr, FirstPlaces xs (distinctIdxs xs) ∧
      distinct xs = (distinctIdxs xs).filterMap (xs[·]?) ∧ distinct xs = xs.eraseDups) ∧
    (∀ (c : Connective) (e : Expr),
      List.Forall₂ (fun x y => (x == y) = true) (e.withoutRepeats.operands c)
        ((e.operands c).flatMap fun x => x.withoutRepeats.operands c).eraseDups) ∧
    ∀ (other : Hashable Expr) [@LawfulHashable Expr _ other] (e : Expr),
      @dropRepeats other e = dropRepeats e := by
  refine ⟨fun xs => ?_, fun c e => ?_, fun other _ e => ?_⟩
  · exact ⟨firstPlaces_distinctIdxs xs, distinct_eq_filterMap_distinctIdxs xs,
      distinct_eq_eraseDups xs⟩
  · exact forall₂_beq_of_map_shape_eq (map_shape_operands_withoutRepeats c e)
  · exact (dropRepeats_and_gather_eq other _ e).1

end QueryLogic.Expr

namespace QueryLogic

/-- A hash that tells nothing apart: two spellings of one number, and a conjunction that collapses to
a disjunction and hands its location on. -/
theorem firstPlaces_and_forall₂_operands_withoutRepeats_collide :
    let collide : Hashable Expr := ⟨fun _ => 0⟩
    let short := Expr.literal none (.decimal ⟨15, 1⟩)
    let long := Expr.literal (some ⟨1, 7⟩) (.decimal ⟨150, 2⟩)
    let either (x : Expr) := Expr.binary (some ⟨1, 3⟩) .or (.column none ⟨none, "a"⟩) x
    let e := Expr.binary (some ⟨1, 9⟩) .and (either short) (either long)
    let treated := @Expr.withoutRepeats collide e
    @LawfulHashable Expr _ collide ∧ 1 ∉ @distinctIdxs Expr _ collide [short, long] ∧
      List.Forall₂ (fun x y => (x == y) = true) (treated.operands .and) [either short] ∧
      treated.operands .and ≠ [either short] := by
  intro collide short long either e treated
  have lawful : @LawfulHashable Expr _ collide := ⟨fun _ _ _ => rfl⟩
  obtain ⟨places, kept, -⟩ := @Expr.firstPlaces_and_forall₂_operands_withoutRepeats collide lawful
  have first : ((e.operands .and).flatMap fun x =>
      (@Expr.withoutRepeats collide x).operands .and).eraseDups = [either short] := by
    decide +kernel
  refine ⟨lawful, fun accepted => ?_, first ▸ kept .and e, by decide +kernel⟩
  obtain ⟨_, different⟩ := ((places [short, long]).1.mem_iff 1).1 accepted
  have equal : (short == long) = true := by decide
  exact absurd (equal.symm.trans (different 0 Nat.zero_lt_one)) (by decide)

end QueryLogic

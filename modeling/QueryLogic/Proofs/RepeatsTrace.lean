import Mathlib.Algebra.Ring.Nat
import QueryLogic.Proofs.KeptLeaves
import QueryLogic.Proofs.Laws
/-!
What is reported while repeats are dropped. A chain that lost operands is reported with their number
before and after, counted when its operands are treated and spliced. An operand may be dropped as a
whole after chains inside it were reported, and each lost operand has at least one leaf, so the reports
never claim more than the leaves that are gone. Where nothing is reported, nothing is gone: all that
happened to the condition is that its chains are nested in another way.

What is proved:
  1. `AccountsFor.append` and `AccountsFor.trans`: reports account for what is lost side by side and
     one after the other.
  2. `Expr.accountsFor_close`: the report of one chain accounts for its lost operands.
  3. `Expr.accountsFor_withoutRepeats_and_gather`: the reports of the pass account for the lost leaves.
  4. `Expr.eval_of_silent`: without a report the meaning is kept wherever joining is associative.
  5. `Expr.reports_dropRepeats`: the numbers in the reports, their sum, and when there is none.
-/
namespace QueryLogic

/-- The number of operands that a chain lost, as it is reported. -/
def Event.removed : Event → Nat
  | removedRepeats _ before after => before - after
  | _ => 0

/-- Some operands of a chain were lost and some are left. -/
def Event.Shortens (ev : Event) : Prop :=
  ∃ c before after, ev = removedRepeats c before after ∧ 1 ≤ after ∧ after < before

/-- The reports claim no more than what was lost of `all` when `kept` was left of it, and something
when anything was changed. -/
structure AccountsFor {α : Type} (events : List Event) (all kept : List α) : Prop where
  shortens : ∀ ev ∈ events, ev.Shortens
  sum_le : (events.map Event.removed).sum + kept.length ≤ all.length
  eq_of_silent : events = [] → kept = all

namespace AccountsFor

variable {α : Type} {evs evs' : List Event} {as as' bs bs' cs : List α}

theorem refl (as : List α) : AccountsFor [] as as where
  shortens := List.forall_mem_nil _
  sum_le := by simp
  eq_of_silent _ := rfl

theorem append (h : AccountsFor evs as bs) (h' : AccountsFor evs' as' bs') :
    AccountsFor (evs ++ evs') (as ++ as') (bs ++ bs') where
  shortens := List.forall_mem_append.2 ⟨h.shortens, h'.shortens⟩
  sum_le := by
    have := h.sum_le
    have := h'.sum_le
    simp only [List.map_append, List.sum_append, List.length_append]
    omega
  eq_of_silent silent := by
    obtain ⟨first, second⟩ := List.append_eq_nil_iff.1 silent
    rw [h.eq_of_silent first, h'.eq_of_silent second]

theorem trans (h : AccountsFor evs as bs) (h' : AccountsFor evs' bs cs) :
    AccountsFor (evs ++ evs') as cs where
  shortens := List.forall_mem_append.2 ⟨h.shortens, h'.shortens⟩
  sum_le := by
    have := h.sum_le
    have := h'.sum_le
    simp only [List.map_append, List.sum_append]
    omega
  eq_of_silent silent := by
    obtain ⟨first, second⟩ := List.append_eq_nil_iff.1 silent
    rw [h'.eq_of_silent second, h.eq_of_silent first]

/-- Every report claims something, so there is none when nothing is lost. -/
theorem silent_iff (h : AccountsFor evs as bs) : evs = [] ↔ bs.length = as.length := by
  constructor
  · intro silent
    rw [h.eq_of_silent silent]
  · intro same
    cases evs with
    | nil => rfl
    | cons ev evs =>
      obtain ⟨c, before, after, rfl, -, fewer⟩ := h.shortens ev List.mem_cons_self
      have claimed := h.sum_le
      simp only [List.map_cons, List.sum_cons, Event.removed] at claimed
      omega

end AccountsFor

namespace Expr

variable [Hashable Expr] [LawfulHashable Expr] {c : Connective} {es kept : List Expr}

/-! ## One chain -/

omit [Hashable Expr] [LawfulHashable Expr] in
theorem one_le_length_leaves (e : Expr) : 1 ≤ e.leaves.length := by
  induction e with
  | literal loc v => exact Nat.le_refl 1
  | column loc n => exact Nat.le_refl 1
  | not loc x ih => exact ih
  | binary loc c l r ihl _ =>
    rw [leaves, List.length_append]
    omega

omit [Hashable Expr] [LawfulHashable Expr] in
/-- Each operand that is left out takes a leaf with it. -/
theorem length_sub_add_length_flatMap_leaves_le (h : kept.Sublist es) :
    es.length - kept.length + (kept.flatMap leaves).length ≤ (es.flatMap leaves).length := by
  induction h with
  | slnil => exact Nat.le_refl 0
  | cons x h ih =>
    have fewer := h.length_le
    have own := one_le_length_leaves x
    simp only [List.length_cons, List.flatMap_cons, List.length_append]
    omega
  | cons_cons x h ih =>
    simp only [List.length_cons, List.flatMap_cons, List.length_append]
    omega

/-- A chain of which nothing is reported keeps all its operands. -/
theorem distinct_eq_self_of_silent {node : Expr} (h : (close node c es).events = []) :
    distinct es = es := by
  apply (distinct_sublist es).eq_of_length_le
  by_contra fewer
  simp [close, Nat.lt_of_not_le fewer] at h

theorem accountsFor_close (node : Expr) (c : Connective) (nonempty : es ≠ []) :
    AccountsFor (close node c es).events (es.flatMap leaves) (close node c es).value.leaves := by
  rw [leaves_close node c nonempty]
  by_cases fewer : (distinct es).length < es.length
  · have reported : (close node c es).events =
        [.removedRepeats c es.length (distinct es).length] := by
      simp [close, fewer]
    rw [reported]
    refine ⟨?_, ?_, fun silent => absurd silent (List.cons_ne_nil _ _)⟩
    · intro ev hev
      rw [List.mem_singleton.1 hev]
      exact ⟨c, _, _, rfl, List.length_pos_iff.2 (distinct_ne_nil nonempty), fewer⟩
    · exact length_sub_add_length_flatMap_leaves_le (distinct_sublist es)
  · have silent : (close node c es).events = [] := by
      simp [close, fewer]
    rw [silent, distinct_eq_self_of_silent silent]
    exact .refl _

/-! ## The whole pass -/

/-- The reports of the pass account for the leaves that an expression has lost, and those made so far
for the leaves that its contributions to a chain around it have lost. -/
theorem accountsFor_withoutRepeats_and_gather (e : Expr) :
    AccountsFor (dropRepeats e).events e.leaves e.withoutRepeats.leaves ∧
      ∀ c, AccountsFor (gather c e).events e.leaves ((gather c e).value.flatMap leaves) := by
  apply dropRepeats_induction
    (P := fun e treated => AccountsFor treated.events e.leaves treated.value.leaves)
    (G := fun _ e es => AccountsFor es.events e.leaves (es.value.flatMap leaves))
  case literal => exact fun _ _ => .refl _
  case column => exact fun _ _ => .refl _
  case not => exact fun _ _ _ value => value
  case joined =>
    intro loc c l r ls rs left right
    rw [List.flatMap_append]
    exact left.append right
  case closed =>
    intro loc c l r es nonempty sides
    exact sides.trans (accountsFor_close _ c nonempty)
  case apart =>
    intro c e treated value
    rw [Logged.value_map, flatMap_leaves_operands]
    exact value

/-- Where nothing is reported, the meaning does not depend on any law but associativity. -/
theorem eval_of_silent {T : Type} {I : Interpretation T} (assoc : ∀ c, Std.Associative (I.join c))
    (e : Expr) :
    ((dropRepeats e).events = [] → I.eval e.withoutRepeats = I.eval e) ∧
      ∀ c, (gather c e).events = [] → I.total c (gather c e).value = some (I.eval e) := by
  apply dropRepeats_induction
    (P := fun e treated => treated.events = [] → I.eval treated.value = I.eval e)
    (G := fun c e es => es.events = [] → I.total c es.value = some (I.eval e))
  case literal => exact fun _ _ _ => rfl
  case column => exact fun _ _ _ => rfl
  case not => exact fun loc x treated value silent => congrArg I.not (value silent)
  case joined =>
    intro loc c l r ls rs left right silent
    obtain ⟨first, second⟩ := List.append_eq_nil_iff.1 silent
    rw [I.total_append, left first, right second]
    rfl
  case closed =>
    intro loc c l r es _ sides silent
    obtain ⟨below, own⟩ := List.append_eq_nil_iff.1 silent
    apply I.eval_rebuild
    rw [distinct_eq_self_of_silent own, sides below]
  case apart =>
    intro c e treated value silent
    rw [← value silent]
    exact I.total_operands c treated.value

end Expr

/-- A chain may be nested either way; no other law. -/
inductive NestingLaw : Expr → Expr → Prop
  | assoc (c : Connective) (x y z : Expr) :
    NestingLaw (.binary none c (.binary none c x y) z) (.binary none c x (.binary none c y z))

theorem NestingLaw.leaves_eq {a b : Expr} : NestingLaw a b → a.leaves = b.leaves
  | .assoc _ x y z => List.append_assoc x.leaves y.leaves z.leaves

theorem Congruence.map_shape_leaves {a b : Expr} (h : Congruence NestingLaw a b) :
    a.leaves.map Expr.shape = b.leaves.map Expr.shape := by
  induction h with
  | law h => rw [h.leaves_eq]
  | equal h => exact (Expr.alike_of_shape_eq (Expr.beq_iff_shape.1 h)).map_shape_leaves
  | symm _ ih => exact ih.symm
  | trans _ _ first second => exact first.trans second
  | not loc _ ih => exact ih
  | binary loc c _ _ left right =>
    rw [Expr.leaves, Expr.leaves, List.map_append, List.map_append, left, right]

namespace Expr

variable [Hashable Expr] [LawfulHashable Expr]

/-- Where nothing is reported, the chains of the result are nested in another way and nothing else is
changed, locations aside. -/
theorem congruence_of_silent {e : Expr} (silent : (dropRepeats e).events = []) :
    Congruence NestingLaw e.withoutRepeats e := by
  -- the classes are an interpretation of their own, and both sides have the same meaning there
  have kept := (eval_of_silent (Congruence.associative_classes NestingLaw.assoc) e).1 silent
  rw [Congruence.eval_classes, Congruence.eval_classes] at kept
  exact Quotient.exact kept

theorem reports_dropRepeats (e : Expr) :
    (∀ ev ∈ (dropRepeats e).events,
      ∃ c before after, ev = .removedRepeats c before after ∧ 1 ≤ after ∧ after < before) ∧
    ((dropRepeats e).events.map Event.removed).sum + e.withoutRepeats.leaves.length ≤
      e.leaves.length ∧
    ((dropRepeats e).events = [] ↔ e.withoutRepeats.leaves = e.leaves) ∧
    ((dropRepeats e).events = [] ↔ Congruence NestingLaw e.withoutRepeats e) ∧
    (dropRepeats e.withoutRepeats).events = [] := by
  have accounts := (accountsFor_withoutRepeats_and_gather e).1
  refine ⟨accounts.shortens, accounts.sum_le, ?_, ?_, ?_⟩
  · exact ⟨accounts.eq_of_silent, fun same => accounts.silent_iff.2 (congrArg List.length same)⟩
  · refine ⟨congruence_of_silent, fun nested => accounts.silent_iff.2 ?_⟩
    have same := congrArg List.length nested.map_shape_leaves
    rwa [List.length_map, List.length_map] at same
  · have again := (accountsFor_withoutRepeats_and_gather e.withoutRepeats).1
    rw [again.silent_iff,
      withoutRepeats_eq_self (chainNormal_withoutRepeats e) (placedAtRoots_withoutRepeats e)]

end Expr

/-- What was reported of a chain stays in the record when the chain is dropped as a whole, so the
reports may claim less than the leaves that are gone. -/
theorem reports_dropRepeats_dropped :
    let collide : Hashable Expr := ⟨fun _ => 0⟩
    let either := Expr.binary none .or (.column none ⟨none, "a"⟩) (.column none ⟨some "t", "b"⟩)
    let neither (loc : Option Location) := Expr.not loc (.binary none .and either either)
    let e := Expr.binary none .or (neither none) (neither (some ⟨1, 9⟩))
    let treated := @Expr.withoutRepeats collide e
    @LawfulHashable Expr _ collide ∧
      (@Expr.dropRepeats collide e).events =
        [.removedRepeats .and 2 1, .removedRepeats .and 2 1, .removedRepeats .or 2 1] ∧
      3 + treated.leaves.length ≤ 8 ∧ treated.leaves.length = 2 ∧
      ¬Congruence NestingLaw treated e ∧ (@Expr.dropRepeats collide treated).events = [] := by
  intro collide either neither e treated
  have lawful : @LawfulHashable Expr _ collide := ⟨fun _ _ _ => rfl⟩
  obtain ⟨-, claimed, -, nested, again⟩ := @Expr.reports_dropRepeats collide lawful e
  have events : (@Expr.dropRepeats collide e).events =
      [.removedRepeats .and 2 1, .removedRepeats .and 2 1, .removedRepeats .or 2 1] := by
    decide +kernel
  rw [events] at claimed nested
  exact ⟨lawful, events, claimed, by decide +kernel, fun h => List.cons_ne_nil _ _ (nested.2 h), again⟩

end QueryLogic

import QueryLogic.Proofs.ChainNormal
/-!
Taking a chain apart that was put together. Joining operands from the left makes a tree of nodes of one
connective, and going down through the nodes of that connective comes by the operands again, in order
and node for node. An operand that is itself a chain of the connective is taken apart as well.

What is proved:
  1. `Expr.operands_chain`: the operands of a chain are those of the expressions it was made of.
  2. `Expr.flatMap_operands_eq_self_iff`: these are the expressions themselves exactly when none of
     them is a chain of the same connective.
  3. `Expr.map_operands_chain?`: which lists have a chain, and what its operands are.
-/
namespace QueryLogic.Expr

variable {c : Connective}

theorem operands_chain (c : Connective) (first : Expr) (others : List Expr) :
    (chain c first others).operands c = (first :: others).flatMap (operands c) :=
  chain_of_append (fun loc l r => operands_binary loc c l r) first others

theorem length_le_length_flatMap_operands (c : Connective) (xs : List Expr) :
    xs.length ≤ (xs.flatMap (operands c)).length := by
  induction xs with
  | nil => exact Nat.le_refl 0
  | cons x xs ih =>
    have own := List.length_pos_iff.2 (operands_ne_nil c x)
    rw [List.flatMap_cons, List.length_append, List.length_cons]
    omega

theorem flatMap_operands_eq_self_iff {xs : List Expr} :
    xs.flatMap (operands c) = xs ↔ ∀ x ∈ xs, x.connective? ≠ some c := by
  induction xs with
  | nil => simp
  | cons x xs ih =>
    rw [List.forall_mem_cons, List.flatMap_cons]
    by_cases root : x.connective? = some c
    · -- a chain has too many operands for all of them to be in the list
      have more := one_lt_length_operands root
      have others := length_le_length_flatMap_operands c xs
      constructor
      · intro same
        have count := congrArg List.length same
        rw [List.length_append, List.length_cons] at count
        omega
      · intro h
        exact absurd root h.1
    · rw [operands_eq_singleton root, List.singleton_append, List.cons.injEq, ih]
      exact ⟨fun h => ⟨root, h.2⟩, fun h => ⟨rfl, h.2⟩⟩

/-- Any operands but none have a chain. Its operands are theirs in order, and so the same list again
exactly when none of them is such a chain itself. -/
theorem map_operands_chain? (c : Connective) (xs : List Expr) :
    (chain? c xs = none ↔ xs = []) ∧
      (chain? c xs).map (operands c) = (if xs = [] then none else some (xs.flatMap (operands c))) ∧
      ((chain? c xs).map (operands c) = some xs ↔
        xs ≠ [] ∧ ∀ x ∈ xs, x.connective? ≠ some c) := by
  cases xs with
  | nil => simp [chain?]
  | cons first others =>
    have whole : (chain? c (first :: others)).map (operands c) =
        some ((first :: others).flatMap (operands c)) := congrArg some (operands_chain c first others)
    refine ⟨?_, ?_, ?_⟩
    · simp [chain?]
    · rw [whole, if_neg (List.cons_ne_nil first others)]
    · rw [whole, Option.some.injEq, flatMap_operands_eq_self_iff]
      exact ⟨fun h => ⟨List.cons_ne_nil first others, h⟩, fun h => h.2⟩

end QueryLogic.Expr

import QueryLogic.Proofs.ChainNormal
import QueryLogic.Proofs.Text.Parentheses
/-!
Chains without parentheses inside them. A chain that is put together from its operands is nested to
the left, and on its left the minimal rule leaves a connective of its own kind alone, so the operands
stand one after another with the connective between them. Only an operand that goes on with the
chain on its right would be put in parentheses, and dropping repeats leaves no such operand at any
depth.

What is proved:
  1. `Style.print_chain`: where a connective is left alone, the text of a chain is that of its first
     operand and then each further one behind the connective.
  2. `side_eq_left_of_chainNormal`: in chains in normal form a connective directly below its own kind
     is on the left.
  3. `Style.print_chain?_and_print_withoutRepeats`: the text of a chain of any operands, and the text
     around a connective below its own kind when repeats are dropped.
-/
namespace QueryLogic

/-! ## Operands in a row -/

namespace Style

variable {s : Style}

/-- What a chain writes for an operand behind the first. -/
def further (s : Style) (c : Connective) (x : Expr) : String :=
  " " ++ s.keyword c.word ++ " " ++ s.print (.operand c .right) x

theorem row_eq_append_further (s : Style) (c : Connective) (l r : Expr) :
    s.row c l r = s.print (.operand c .left) l ++ s.further c r := by
  simp only [row, join, further, String.append_assoc]

theorem print_binary_of_wraps_eq_false {p : Position} {c : Connective} (bare : s.wraps c p = false)
    (loc : Option Location) (l r : Expr) : s.print p (.binary loc c l r) = s.row c l r := by
  rw [print_binary, bare]
  rfl

/-- On the left of its own kind a connective is left alone. -/
theorem wraps_left_self (minimal : s.parens = .minimal) (c : Connective) :
    s.wraps c (.operand c .left) = false := by
  simp [wraps, minimal]

theorem print_chain (minimal : s.parens = .minimal) {c : Connective} {p : Position}
    (bare : s.wraps c p = false) (first second : Expr) (others : List Expr) :
    s.print p (Expr.chain c first (second :: others)) =
      s.print (.operand c .left) first ++
        String.join ((second :: others).map (s.further c)) := by
  induction others generalizing first second with
  | nil =>
    calc s.print p (.binary none c first second)
        = s.row c first second := print_binary_of_wraps_eq_false bare none first second
      _ = s.print (.operand c .left) first ++ String.join [s.further c second] := by
        rw [row_eq_append_further, String.join_cons, String.join_nil, String.append_empty]
  | cons third others ih =>
    -- the node of the first two operands is the first operand of the rest, and stands on the left
    have joined : s.print (.operand c .left) (.binary none c first second) =
        s.print (.operand c .left) first ++ s.further c second := by
      rw [print_binary_of_wraps_eq_false (wraps_left_self minimal c), row_eq_append_further]
    calc s.print p (Expr.chain c first (second :: third :: others))
        = s.print (.operand c .left) (.binary none c first second) ++
            String.join ((third :: others).map (s.further c)) :=
          ih (.binary none c first second) third
      _ = s.print (.operand c .left) first ++
            String.join ((second :: third :: others).map (s.further c)) := by
        rw [joined, String.append_assoc, List.map_cons (l := third :: others), String.join_cons]

end Style

/-! ## Connectives below their own kind -/

theorem chainNormal_of_above {a : Ancestor} {x : Expr} (h : (a.above x).ChainNormal) :
    x.ChainNormal := by
  cases a with
  | not loc => exact h
  | binary loc c side other =>
    cases side with
    | left => exact h.1
    | right => exact h.2.1

theorem chainNormal_of_fill {place : Place} {x : Expr} (h : (place.fill x).ChainNormal) :
    x.ChainNormal :=
  Place.of_fill chainNormal_of_above h

/-- A chain in normal form goes on at its left only. -/
theorem side_eq_left_of_chainNormal {place : Place} {loc : Option Location} {c : Connective}
    {l r : Expr} {side : Side} (normal : (place.fill (.binary loc c l r)).ChainNormal)
    (below : place.position = .operand c side) : side = .left := by
  cases place with
  | nil => cases below
  | cons a up =>
    have parent : (a.above (.binary loc c l r)).ChainNormal := chainNormal_of_fill normal
    cases a with
    | not _ => cases below
    | binary _ d side' other =>
      cases below
      cases side with
      | left => rfl
      | right => exact absurd rfl parent.2.2.1

/-! ## The text of a chain, and of a condition without repeats -/

/-- A chain of at least two operands is written as a row of them, and dropping repeats leaves no
connective in parentheses directly below one of its kind. -/
theorem Style.print_chain?_and_print_withoutRepeats [Hashable Expr] [LawfulHashable Expr]
    {s : Style} (minimal : s.parens = .minimal) :
    (∀ (c : Connective) (first second : Expr) (others : List Expr),
      (Expr.chain? c (first :: second :: others)).map (s.print .top) =
        some (s.print (.operand c .left) first ++
          String.join ((second :: others).map (s.further c)))) ∧
    ∀ (e : Expr) (place : Place) (loc : Option Location) (c : Connective) (l r : Expr)
      (side : Side), place.fill (.binary loc c l r) = e.withoutRepeats →
        place.position = .operand c side →
          side = .left ∧ s.wraps c place.position = false ∧
            s.print .top e.withoutRepeats = s.before place ++ s.row c l r ++ s.after place := by
  refine ⟨fun c first second others => ?_, ?_⟩
  · exact congrArg some (print_chain minimal rfl first second others)
  · intro e place loc c l r side node below
    have normal := Expr.chainNormal_withoutRepeats e
    rw [← node] at normal ⊢
    obtain rfl := side_eq_left_of_chainNormal normal below
    have bare : s.wraps c place.position = false := below ▸ wraps_left_self minimal c
    refine ⟨rfl, bare, ?_⟩
    rw [print_fill, print_binary_of_wraps_eq_false bare]

/-- A disjunction of two equal conjunctions, of which one remains and joins the conjunction around
it, under a negation; and a chain whose first and last operands are of its own kind. -/
theorem Style.print_chain?_and_print_withoutRepeats_collapsed :
    let collide : Hashable Expr := ⟨fun _ => 0⟩
    let s : Style := ⟨.lower, .minimal⟩
    let a := Expr.column none ⟨none, "a"⟩
    let b := Expr.column (some ⟨1, 8⟩) ⟨none, "b"⟩
    let either := Expr.binary none .or a (.column none ⟨some "t", "d"⟩)
    let both := Expr.binary none .and b either
    let treated := @Expr.withoutRepeats collide
      (.not none (.binary (some ⟨1, 5⟩) .and a (.binary none .or both both)))
    let place : Place := [.binary (some ⟨1, 5⟩) .and .left either, .not none]
    @LawfulHashable Expr _ collide ∧ s.parens = .minimal ∧
      (Expr.chain? .and [both, either, both]).map (s.print .top) =
        some "b and (a or t.d) and (a or t.d) and (b and (a or t.d))" ∧
      place.fill (.binary none .and a b) = treated ∧ place.position = .operand .and .left ∧
      s.print .top treated = "not (a and b and (a or t.d))" := by
  intro collide s a b either both treated place
  have lawful : @LawfulHashable Expr _ collide := ⟨fun _ _ _ => rfl⟩
  have node : place.fill (.binary none .and a b) = treated := by decide +kernel
  obtain ⟨rows, flat⟩ := @Style.print_chain?_and_print_withoutRepeats collide lawful s rfl
  obtain ⟨-, -, text⟩ := flat _ place none .and a b .left node rfl
  have whole : s.before place ++ s.row .and a b ++ s.after place =
      "not (a and b and (a or t.d))" := by decide
  exact ⟨lawful, rfl, (rows .and both either [both]).trans (by decide), node, rfl,
    text.trans whole⟩

end QueryLogic

import QueryLogic.Proofs.Text.Sentence
/-!
Texts that need no binding levels. With parentheses around every connective inside another one, a text
has one reading, whichever of the connectives binds more tightly and to whichever side chains nest. All
that such rules decide is which connective may stand open beside which other one, and in these texts no
two connectives stand open side by side.

What is proved:
  1. `Grammar.phrase_iff`: the phrases of a grammar are those of a rule of nesting.
  2. `Sentence.outermost_append`: where parentheses match, the connectives outside of them are those of
     the parts.
  3. `Style.phrase_tokens_of_always` and `Style.eq_unlocated_of_phrase`: under every rule of nesting the
     tokens of a condition are a phrase of the condition and of nothing else.
  4. `read?_print_of_always`: every grammar reads a readable condition back from its text.
-/
namespace QueryLogic

/-- Which connectives may stand open, without parentheses, as an operand of another one. -/
structure Nesting where
  allows (parent : Connective) (side : Side) (child : Connective) : Bool

/-- The tokens of a phrase and the tree it is read as, with the connective that stands open in it. -/
inductive Nesting.Phrase (n : Nesting) : Option Connective → List Token → Expr → Prop
  | literal (v : Literal) : Phrase n none [.literal v] (.literal none v)
  | column (m : ColumnName) : Phrase n none [.column m] (.column none m)
  | group {o : Option Connective} {ts : List Token} {e : Expr} :
    Phrase n o ts e → Phrase n none (.opening :: (ts ++ [.closing])) e
  | not {ts : List Token} {x : Expr} : Phrase n none ts x → Phrase n none (.not :: ts) (.not none x)
  | binary {o o' : Option Connective} {ts us : List Token} {l r : Expr} (c : Connective) :
    Phrase n o ts l → Phrase n o' us r → (∀ d ∈ o, n.allows c .left d = true) →
    (∀ d ∈ o', n.allows c .right d = true) →
    Phrase n (some c) (ts ++ .connective c :: us) (.binary none c l r)

/-! ## The rule of a grammar -/

/-- A connective may stand open where its power reaches the level that is asked for. -/
def Grammar.nesting (g : Grammar) : Nesting where
  allows c side d := decide (g.level c side ≤ g.power d)

theorem Grammar.phrase_iff {g : Grammar} {k : Nat} {ts : List Token} {e : Expr} :
    QueryLogic.Phrase g k ts e ↔ ∃ o, g.nesting.Phrase o ts e ∧ ∀ d ∈ o, k ≤ g.power d := by
  constructor
  · intro h
    induction h with
    | literal _ v => exact ⟨none, .literal v, nofun⟩
    | column _ m => exact ⟨none, .column m, nofun⟩
    | group _ _ ih =>
      obtain ⟨o, inside, _⟩ := ih
      exact ⟨none, .group inside, nofun⟩
    | not _ _ ih =>
      obtain ⟨o, operand, tight⟩ := ih
      cases o with
      | none => exact ⟨none, .not operand, nofun⟩
      | some d =>
        -- no connective is as powerful as what a negation asks for
        exact absurd (tight d rfl) (Nat.not_le_of_lt (g.power_lt_tight d))
    | @binary k c _ _ _ _ reached _ _ left right =>
      obtain ⟨o, left, openLeft⟩ := left
      obtain ⟨o', right, openRight⟩ := right
      refine ⟨some c, .binary c left right ?_ ?_, ?_⟩
      · exact fun d hd => decide_eq_true (openLeft d hd)
      · exact fun d hd => decide_eq_true (openRight d hd)
      · rintro _ ⟨⟩
        exact reached
  · rintro ⟨o, h, reached⟩
    induction h generalizing k with
    | literal v => exact .literal k v
    | column m => exact .column k m
    | group _ ih => exact .group k (ih fun _ _ => Nat.zero_le _)
    | not _ ih => exact .not k (ih nofun)
    | binary c _ _ openLeft openRight left right =>
      exact .binary (reached c rfl) (left fun d hd => of_decide_eq_true (openLeft d hd))
        (right fun d hd => of_decide_eq_true (openRight d hd))

/-! ## The connectives outside of parentheses -/

/-- The connectives outside of all parentheses, behind a number of parentheses that are open. -/
def outermost : Nat → List Token → List Connective
  | _, [] => []
  | d, .opening :: ts => outermost (d + 1) ts
  | d, .closing :: ts => outermost (d - 1) ts
  | 0, .connective c :: ts => c :: outermost 0 ts
  | d + 1, .connective _ :: ts => outermost (d + 1) ts
  | d, .literal _ :: ts => outermost d ts
  | d, .column _ :: ts => outermost d ts
  | d, .not :: ts => outermost d ts

namespace Sentence

variable {ts : List Token}

theorem outermost_succ_append (h : Sentence ts) (d : Nat) (rest : List Token) :
    outermost (d + 1) (ts ++ rest) = outermost (d + 1) rest := by
  induction h generalizing d rest with
  | literal v => rfl
  | column n => rfl
  | @group ts _ ih =>
    calc outermost (d + 1) (.opening :: (ts ++ [.closing]) ++ rest)
        = outermost (d + 2) (ts ++ .closing :: rest) := by simp [outermost]
      _ = outermost (d + 2) (.closing :: rest) := ih (d + 1) _
      _ = outermost (d + 1) rest := rfl
  | not _ ih => exact ih d rest
  | @binary c ts us _ _ left right =>
    calc outermost (d + 1) (ts ++ .connective c :: us ++ rest)
        = outermost (d + 1) (ts ++ .connective c :: (us ++ rest)) := by simp
      _ = outermost (d + 1) (us ++ rest) := left d _
      _ = outermost (d + 1) rest := right d rest

theorem outermost_group_append (h : Sentence ts) (rest : List Token) :
    outermost 0 (.opening :: (ts ++ [.closing]) ++ rest) = outermost 0 rest := by
  calc outermost 0 (.opening :: (ts ++ [.closing]) ++ rest)
      = outermost 1 (ts ++ .closing :: rest) := by simp [outermost]
    _ = outermost 1 (.closing :: rest) := h.outermost_succ_append 0 _
    _ = outermost 0 rest := rfl

theorem outermost_group (h : Sentence ts) :
    outermost 0 (.opening :: (ts ++ [.closing])) = [] := by
  have alone := h.outermost_group_append []
  rwa [List.append_nil] at alone

theorem outermost_append (h : Sentence ts) (rest : List Token) :
    outermost 0 (ts ++ rest) = outermost 0 ts ++ outermost 0 rest := by
  induction h generalizing rest with
  | literal v => rfl
  | column n => rfl
  | group inside _ => rw [inside.outermost_group_append, inside.outermost_group, List.nil_append]
  | not _ ih => exact ih rest
  | @binary c ts us _ _ left right =>
    calc outermost 0 (ts ++ .connective c :: us ++ rest)
        = outermost 0 (ts ++ .connective c :: (us ++ rest)) := by simp
      _ = outermost 0 ts ++ c :: outermost 0 (us ++ rest) := left _
      _ = outermost 0 ts ++ c :: outermost 0 us ++ outermost 0 rest := by simp [right rest]
      _ = outermost 0 (ts ++ .connective c :: us) ++ outermost 0 rest := by
        rw [left (.connective c :: us)]
        rfl

theorem outermost_row (h : Sentence ts) (c : Connective) (us : List Token) :
    outermost 0 (ts ++ .connective c :: us) = outermost 0 ts ++ c :: outermost 0 us :=
  h.outermost_append _

end Sentence

/-! ## One reading -/

/-- A sentence that goes on with a connective has a connective outside of all parentheses. -/
theorem Sentence.eq_nil_of_outermost_append {ts us vs ws : List Token} {c : Connective}
    (h : Sentence ts) (bare : outermost 0 (ts ++ us) = [])
    (goesOn : .connective c :: vs = us ++ ws) : us = [] := by
  cases us with
  | nil => rfl
  | cons t us =>
    obtain ⟨rfl, _⟩ := List.cons_eq_cons.1 goesOn
    rw [h.outermost_row] at bare
    simp at bare

/-- The only connective outside of all parentheses cuts the tokens in two. -/
theorem Sentence.append_connective_inj {ts us ts' us' : List Token} {c c' : Connective}
    (h : Sentence ts) (h' : Sentence ts') (bare : outermost 0 ts = [])
    (bare' : outermost 0 ts' = [])
    (same : ts ++ .connective c :: us = ts' ++ .connective c' :: us') :
    ts = ts' ∧ c = c' ∧ us = us' := by
  have front : ts = ts' := by
    rcases List.append_eq_append_iff.1 same with ⟨between, rfl, rest⟩ | ⟨between, rfl, rest⟩
    · rw [h.eq_nil_of_outermost_append bare' rest, List.append_nil]
    · rw [h'.eq_nil_of_outermost_append bare rest, List.append_nil]
  subst front
  simpa using same

namespace Nesting.Phrase

variable {n : Nesting} {o : Option Connective} {ts : List Token} {x : Expr}

/-- Where nothing stands open in the operands, no rule of nesting forbids a row of them. -/
theorem row {us : List Token} {l r : Expr} (c : Connective) (left : n.Phrase none ts l)
    (right : n.Phrase none us r) :
    n.Phrase (some c) (ts ++ .connective c :: us) (.binary none c l r) :=
  .binary c left right (by simp) (by simp)

theorem sentence (h : n.Phrase o ts x) : Sentence ts := by
  induction h with
  | literal v => exact .literal v
  | column m => exact .column m
  | group _ ih => exact .group ih
  | not _ ih => exact .not ih
  | binary c _ _ _ _ left right => exact .binary c left right

/-- A connective stands open in a phrase where one is outside of all parentheses. -/
theorem outermost_eq_nil_iff (h : n.Phrase o ts x) : outermost 0 ts = [] ↔ o = none := by
  induction h with
  | literal v => exact iff_of_true rfl rfl
  | column m => exact iff_of_true rfl rfl
  | group inside _ => exact iff_of_true inside.sentence.outermost_group rfl
  | not _ ih => exact ih
  | binary c left _ _ _ _ _ => simp [left.sentence.outermost_row]

theorem eq_literal {v : Literal} (h : n.Phrase o [.literal v] x) : x = .literal none v := by
  have closed : o = none := h.outermost_eq_nil_iff.1 rfl
  generalize whole : [Token.literal v] = us at h
  cases h with
  | binary => cases closed
  | _ => cases whole <;> rfl

theorem eq_column {m : ColumnName} (h : n.Phrase o [.column m] x) : x = .column none m := by
  have closed : o = none := h.outermost_eq_nil_iff.1 rfl
  generalize whole : [Token.column m] = us at h
  cases h with
  | binary => cases closed
  | _ => cases whole <;> rfl

/-- Parentheses around a sentence are read as what is in them. -/
theorem of_group (inside : Sentence ts) (h : n.Phrase o (.opening :: (ts ++ [.closing])) x) :
    ∃ o', n.Phrase o' ts x := by
  have closed : o = none := h.outermost_eq_nil_iff.1 inside.outermost_group
  generalize whole : Token.opening :: (ts ++ [.closing]) = us at h
  cases h with
  | literal v => cases whole
  | column m => cases whole
  | @group o' ts' _ h =>
    have same : ts = ts' := by simpa using whole
    exact ⟨o', same ▸ h⟩
  | not _ => cases whole
  | binary => cases closed

/-- A negation in front of what has no connective outside of parentheses. -/
theorem of_not (bare : outermost 0 ts = []) (h : n.Phrase o (.not :: ts) x) :
    ∃ y, x = .not none y ∧ n.Phrase none ts y := by
  have closed : o = none := h.outermost_eq_nil_iff.1 bare
  generalize whole : Token.not :: ts = us at h
  cases h with
  | literal v => cases whole
  | column m => cases whole
  | group _ => cases whole
  | @not ts' y h =>
    have same : ts = ts' := by simpa using whole
    exact ⟨y, rfl, same ▸ h⟩
  | binary => cases closed

/-- A row of two operands that have no connective outside of parentheses. -/
theorem of_row {c : Connective} {us : List Token} (left : Sentence ts) (bare : outermost 0 ts = [])
    (bare' : outermost 0 us = []) (h : n.Phrase o (ts ++ .connective c :: us) x) :
    ∃ l r, x = .binary none c l r ∧ (∃ o', n.Phrase o' ts l) ∧ ∃ o', n.Phrase o' us r := by
  have only : outermost 0 (ts ++ .connective c :: us) = [c] := by
    rw [left.outermost_row, bare, bare', List.nil_append]
  have isOpen : o ≠ none := by
    rw [Ne, ← h.outermost_eq_nil_iff, only]
    exact List.cons_ne_nil c []
  -- so the phrase is a row, and it has to be cut at the same connective
  generalize whole : ts ++ .connective c :: us = vs at h
  cases h with
  | @binary o₁ o₂ ts' us' l r c' first second _ _ =>
    rw [whole, first.sentence.outermost_row] at only
    obtain ⟨bareFirst, _⟩ | ⟨_, impossible⟩ := List.append_eq_singleton_iff.1 only
    · obtain ⟨rfl, rfl, rfl⟩ := left.append_connective_inj first.sentence bare bareFirst whole
      exact ⟨l, r, rfl, ⟨o₁, first⟩, o₂, second⟩
    · cases impossible
  | _ => exact absurd rfl isOpen

end Nesting.Phrase

/-! ## Parentheses around every connective inside another one -/

theorem Position.negated_ne_top : Position.negated ≠ .top := by simp

theorem Position.operand_ne_top (c : Connective) (side : Side) : operand c side ≠ .top := by simp

namespace Style

open Position (negated_ne_top operand_ne_top)

variable {s : Style} {n : Nesting}

theorem wraps_of_always (always : s.parens = .always) {p : Position} (inside : p ≠ .top)
    (c : Connective) : s.wraps c p = true := by
  cases p with
  | top => exact absurd rfl inside
  | negated => rfl
  | operand parent side => simp [wraps, always]

/-- Nothing stands open at the positions below the top, so every rule of nesting allows it there. -/
theorem phrase_tokens_of_always (always : s.parens = .always) (n : Nesting) (e : Expr)
    {p : Position} (inside : p ≠ .top) : n.Phrase none (s.tokens p e) e.unlocated := by
  induction e generalizing p with
  | literal loc v => exact .literal v
  | column loc m => exact .column m
  | not loc x ih => exact .not (ih negated_ne_top)
  | binary loc c l r ihl ihr =>
    rw [tokens, if_pos (wraps_of_always always inside c)]
    exact .group (.row c (ihl (operand_ne_top c .left)) (ihr (operand_ne_top c .right)))

theorem exists_phrase_tokens_of_always (always : s.parens = .always) (n : Nesting) (e : Expr) :
    ∃ o, n.Phrase o (s.tokens .top e) e.unlocated := by
  have operand : ∀ x {p : Position}, p ≠ .top → n.Phrase none (s.tokens p x) x.unlocated :=
    phrase_tokens_of_always always n
  cases e with
  | literal loc v => exact ⟨none, .literal v⟩
  | column loc m => exact ⟨none, .column m⟩
  | not loc x => exact ⟨none, .not (operand x negated_ne_top)⟩
  | binary loc c l r =>
    exact ⟨some c, .row c (operand l (operand_ne_top c .left)) (operand r (operand_ne_top c .right))⟩

theorem outermost_tokens_of_always (always : s.parens = .always) (e : Expr) {p : Position}
    (inside : p ≠ .top) : outermost 0 (s.tokens p e) = [] :=
  (phrase_tokens_of_always always ⟨fun _ _ _ => false⟩ e inside).outermost_eq_nil_iff.2 rfl

theorem eq_unlocated_of_phrase (always : s.parens = .always) {o : Option Connective} {p : Position}
    {e x : Expr} (h : n.Phrase o (s.tokens p e) x) : x = e.unlocated := by
  induction e generalizing o p x with
  | literal loc v => exact h.eq_literal
  | column loc m => exact h.eq_column
  | not loc y ih =>
    have bare : outermost 0 (s.tokens .negated y) = [] :=
      outermost_tokens_of_always always y negated_ne_top
    obtain ⟨z, rfl, operand⟩ := h.of_not bare
    rw [ih operand, Expr.unlocated]
  | binary loc c l r ihl ihr =>
    let ls := s.tokens (.operand c .left) l
    let rs := s.tokens (.operand c .right) r
    have bareLeft : outermost 0 ls = [] :=
      outermost_tokens_of_always always l (operand_ne_top c .left)
    have bareRight : outermost 0 rs = [] :=
      outermost_tokens_of_always always r (operand_ne_top c .right)
    -- the row stands bare at the top and in parentheses everywhere else
    have row : ∀ {o x}, n.Phrase o (ls ++ .connective c :: rs) x →
        x = .binary none c l.unlocated r.unlocated := by
      intro o x h
      obtain ⟨y, z, rfl, ⟨_, left⟩, _, right⟩ := h.of_row (s.sentence_tokens _ l) bareLeft bareRight
      rw [ihl left, ihr right]
    rw [tokens] at h
    split at h
    · obtain ⟨_, inside⟩ := h.of_group (.binary c (s.sentence_tokens _ l) (s.sentence_tokens _ r))
      exact row inside
    · exact row h

end Style

/-- A readable condition with parentheses around every connective inside another one is read back
by every grammar, whether conjunctions or disjunctions have more power or both have the same, and
whether chains nest to the left or to the right. No rule of nesting reads the text as anything else,
also where the two connectives nest to different sides. -/
theorem read?_print_of_always (A : Alphabet) {s : Style} (always : s.parens = .always) {e : Expr}
    (readable : e.readable A = true) :
    (∀ g : Grammar, read? A g (s.print .top e) = some e.unlocated) ∧ (e.unlocated == e) = true ∧
      ∃ ts, scan A (s.print .top e).toList = some ts ∧
        ∀ (n : Nesting) (x : Expr), (∃ o, n.Phrase o ts x) ↔ x = e.unlocated := by
  have scanned : scan A (s.print .top e).toList = some (s.tokens .top e) :=
    (scans_print s .top readable).whole
  refine ⟨fun g => ?_, Expr.beq_iff_shape.2 e.shape_unlocated, s.tokens .top e, scanned, ?_⟩
  · obtain ⟨o, phrase⟩ := Style.exists_phrase_tokens_of_always always g.nesting e
    exact read?_eq_some_iff.2
      ⟨s.tokens .top e, scanned, Grammar.phrase_iff.2 ⟨o, phrase, fun _ _ => Nat.zero_le _⟩⟩
  · intro n x
    constructor
    · rintro ⟨o, phrase⟩
      exact Style.eq_unlocated_of_phrase always phrase
    · rintro rfl
      exact Style.exists_phrase_tokens_of_always always n e

/-- Both connectives below a negation and on the top, with one of them in a string. -/
theorem read?_print_of_always_mixed :
    let s : Style := ⟨.lower, .always⟩
    let a := Expr.column (some ⟨5, 6⟩) ⟨some "t", "a"⟩
    let inner := Expr.binary none .or (.binary none .and a (.literal none (.text ") AND '")))
      (.literal none (.int (-7)))
    let e := Expr.binary (some ⟨0, 30⟩) .or (.not none inner) (.binary none .and a a)
    s.print .top e = "not ((t.a and ') AND ''') or -7) or (t.a and t.a)" ∧
      s.parens = .always ∧ e.readable latin = true ∧
      (∀ g : Grammar, read? latin g (s.print .top e) = some e.unlocated) ∧
      (e.unlocated == e) = true ∧ ∃ ts, scan latin (s.print .top e).toList = some ts ∧
        ∀ (n : Nesting) (x : Expr), (∃ o, n.Phrase o ts x) ↔ x = e.unlocated := by
  intro s a inner e
  have readable : e.readable latin = true := by decide
  exact ⟨by decide, rfl, readable, read?_print_of_always latin rfl readable⟩

/-- Fewer parentheses count on the usual powers: if disjunctions had more, these would be read as
another condition. -/
example :
    let column := fun name => Expr.column none ⟨none, name⟩
    let e := Expr.binary none .or (.binary none .and (column "a") (column "b")) (column "c")
    Grammar.parse? ⟨fun c => if c = .or then 1 else 0, .left⟩ (Style.usual.tokens .top e) =
      some (.binary none .and (column "a") (.binary none .or (column "b") (column "c"))) := by
  decide

end QueryLogic

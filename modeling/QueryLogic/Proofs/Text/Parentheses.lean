import QueryLogic.Proofs.Text.Sentence
/-!
Parentheses that reading needs. The minimal rule decides from the place of a connective alone whether
it is put in parentheses, and still none of them can go: what is left when one pair is taken out of
the text of a condition can be read, but as another condition. The reading need not be found for
this. Of all texts that are read as a condition, the minimal rule writes one with the fewest
parentheses, so a text with fewer of them is not read as that condition.

What is proved:
  1. `count_opening_tokens_le`: no phrase of a condition has fewer parentheses than the tokens in
     which the minimal rule writes it.
  2. `Style.print_fill`: the text of a condition around one of its nodes does not depend on the node.
  3. `surrounds_place`: whatever tokens stand at a place, those around it stay as they are.
  4. `exists_read?_without_parens`: without one pair of its parentheses, the text of a readable
     condition is read as a condition that is not equal to it.
-/
namespace QueryLogic

/-! ## The fewest parentheses -/

/-- The minimal rule leaves a connective alone that is strong enough for its place. -/
theorem wraps_eq_false_of_required_le {s : Style} (minimal : s.parens = .minimal) {c : Connective}
    {p : Position} (h : Grammar.usual.required p ≤ Grammar.usual.power c) :
    s.wraps c p = false := by
  cases p with
  | top => rfl
  | negated => exact absurd h (Nat.not_le_of_lt (Grammar.usual.power_lt_tight c))
  | operand parent side =>
    revert h
    cases c <;> cases parent <;> cases side <;>
      simp [Style.wraps, minimal, Grammar.usual, Grammar.required, Grammar.level,
        Connective.strength]

theorem count_opening_tokens_le_succ (s : Style) (p : Position) (e : Expr) :
    (s.tokens p e).count .opening ≤ (s.tokens .top e).count .opening + 1 := by
  cases e with
  | binary loc c l r =>
    have top : s.wraps c .top = false := rfl
    simp only [Style.tokens, top]
    by_cases h : s.wraps c p = true
    · simp [h]
    · simp [h]
  | _ => exact Nat.le_succ _

/-- In every phrase of a condition there are at least the parentheses of the minimal rule. -/
theorem count_opening_tokens_le {s : Style} (minimal : s.parens = .minimal) {k : Nat}
    {ts : List Token} {x : Expr} (h : Phrase .usual k ts x) :
    ∀ {p : Position} {e : Expr}, e.shape = x.shape → Grammar.usual.required p ≤ k →
      (s.tokens p e).count .opening ≤ ts.count .opening := by
  induction h with
  | literal _ v =>
    intro p e same _
    cases e <;> simp only [Expr.shape, reduceCtorEq] at same
    simp [Style.tokens]
  | column _ n =>
    intro p e same _
    cases e <;> simp only [Expr.shape, reduceCtorEq] at same
    simp [Style.tokens]
  | group _ _ ih =>
    intro p e same _
    have inside := ih (p := .top) same (Nat.le_refl 0)
    have pair := count_opening_tokens_le_succ s p e
    simp only [List.count_cons_self, List.count_append]
    omega
  | not _ _ ih =>
    intro p e same _
    cases e <;> simp only [Expr.shape, Shape.not.injEq, reduceCtorEq] at same
    have operand := ih (p := .negated) same (Nat.le_refl _)
    simpa [Style.tokens] using operand
  | @binary k c _ _ _ _ reached _ _ ihl ihr =>
    intro p e same fits
    cases e with
    | binary loc d l r =>
      simp only [Expr.shape, Shape.binary.injEq] at same
      obtain ⟨rfl, sameLeft, sameRight⟩ := same
      have left := ihl (p := .operand d .left) sameLeft (Nat.le_refl _)
      have right := ihr (p := .operand d .right) sameRight (Nat.le_refl _)
      have bare := wraps_eq_false_of_required_le minimal (Nat.le_trans fits reached)
      simp only [Style.tokens, bare, Bool.false_eq_true, if_false, List.count_append,
        List.count_cons]
      omega
    | _ => cases same

/-- Tokens with fewer parentheses are read as another condition, if they are read at all. -/
theorem beq_eq_false_of_count_opening_lt {s : Style} (minimal : s.parens = .minimal)
    {ts : List Token} {x e : Expr} (parsed : Grammar.usual.parse? ts = some x)
    (fewer : ts.count .opening < (s.tokens .top e).count .opening) : (x == e) = false := by
  apply Bool.eq_false_iff.2
  intro same
  have shape := (Expr.beq_iff_shape.1 same).symm
  have phrase := Grammar.phrase_of_parse? parsed
  have fewest := count_opening_tokens_le minimal phrase (p := .top) shape (Nat.le_refl 0)
  omega

/-! ## Places in a condition -/

/-- A node above a place: a negation, or a connective that has the place on one side. -/
inductive Ancestor
  | not (loc : Option Location)
  | binary (loc : Option Location) (c : Connective) (side : Side) (other : Expr)
  deriving DecidableEq, Repr

namespace Ancestor

/-- The node over an operand at the place. -/
def above (x : Expr) : Ancestor → Expr
  | not loc => .not loc x
  | binary loc c .left r => .binary loc c x r
  | binary loc c .right l => .binary loc c l x

def position : Ancestor → Position
  | not _ => .negated
  | binary _ c side _ => .operand c side

end Ancestor

/-- A place where a node may stand, given by the nodes above it from the inside outwards. -/
abbrev Place := List Ancestor

namespace Place

/-- The condition that has a node at the place. -/
def fill (x : Expr) : Place → Expr
  | [] => x
  | a :: up => fill (a.above x) up

def position : Place → Position
  | [] => .top
  | a :: _ => a.position

/-- What a node hands down to its operands, a whole condition hands down to each of its nodes. -/
theorem of_fill {P : Expr → Prop} (down : ∀ {a : Ancestor} {x}, P (a.above x) → P x)
    {place : Place} {x : Expr} (h : P (place.fill x)) : P x := by
  induction place generalizing x with
  | nil => exact h
  | cons a up ih => exact down (ih h)

end Place

namespace Style

variable (s : Style)

/-- What a node at a position writes before the operand at a place below it. -/
def beforeIn (p : Position) : Ancestor → String
  | .not _ => s.keyword "NOT" ++ " "
  | .binary _ c .left _ => if s.wraps c p then "(" else ""
  | .binary _ c .right l =>
    (if s.wraps c p then "(" else "") ++
      (s.print (.operand c .left) l ++ " " ++ s.keyword c.word ++ " ")

/-- What a node at a position writes behind the operand at a place below it. -/
def afterIn (p : Position) : Ancestor → String
  | .not _ => ""
  | .binary _ c .left r =>
    (" " ++ s.keyword c.word ++ " " ++ s.print (.operand c .right) r) ++
      (if s.wraps c p then ")" else "")
  | .binary _ c .right _ => if s.wraps c p then ")" else ""

/-- The text of a condition before a place. -/
def before : Place → String
  | [] => ""
  | a :: up => before up ++ s.beforeIn (Place.position up) a

/-- The text of a condition behind a place. -/
def after : Place → String
  | [] => ""
  | a :: up => s.afterIn (Place.position up) a ++ after up

/-- A connective node without parentheses around it. -/
def row (c : Connective) (l r : Expr) : String :=
  s.join c (s.print (.operand c .left) l) (s.print (.operand c .right) r)

theorem print_binary (p : Position) (loc : Option Location) (c : Connective) (l r : Expr) :
    s.print p (.binary loc c l r) =
      if s.wraps c p then "(" ++ s.row c l r ++ ")" else s.row c l r := rfl

theorem print_above (p : Position) (a : Ancestor) (x : Expr) :
    s.print p (a.above x) = s.beforeIn p a ++ s.print a.position x ++ s.afterIn p a := by
  cases a with
  | not loc => simp [Ancestor.above, Ancestor.position, print, beforeIn, afterIn]
  | binary loc c side other =>
    cases side <;> by_cases h : s.wraps c p = true <;>
      simp [Ancestor.above, Ancestor.position, print, join, beforeIn, afterIn, h,
        String.append_assoc]

theorem print_fill (place : Place) (x : Expr) :
    s.print .top (place.fill x) = s.before place ++ s.print place.position x ++ s.after place := by
  induction place generalizing x with
  | nil => simp [Place.fill, before, after, Place.position]
  | cons a up ih =>
    calc s.print .top (Place.fill x (a :: up))
        = s.before up ++ s.print (Place.position up) (a.above x) ++ s.after up := ih (a.above x)
      _ = _ := by rw [print_above]; simp [before, after, Place.position, String.append_assoc]

theorem print_fill_binary {place : Place} {loc : Option Location} {c : Connective} {l r : Expr}
    (wrapped : s.wraps c place.position = true) :
    s.print .top (place.fill (.binary loc c l r)) =
      s.before place ++ ("(" ++ s.row c l r ++ ")") ++ s.after place := by
  rw [print_fill, print_binary, if_pos wrapped]

end Style

/-! ## The tokens around a place -/

variable {A : Alphabet}

/-- Two pieces of text that make a text with any tokens between them, and a sentence of any
sentence. -/
def Surrounds (A : Alphabet) (u v : String) : Prop :=
  ∃ us vs, (∀ t ts, Scans A t.toList ts → Scans A (u ++ t ++ v).toList (us ++ ts ++ vs)) ∧
    ∀ ts, Sentence ts → Sentence (us ++ ts ++ vs)

namespace Surrounds

theorem empty : Surrounds A "" "" := by
  refine ⟨[], [], ?_, ?_⟩
  · intro t ts h
    simpa using h
  · intro ts h
    simpa using h

theorem comp {u v u' v' : String} (outer : Surrounds A u v) (inner : Surrounds A u' v') :
    Surrounds A (u ++ u') (v' ++ v) := by
  obtain ⟨us, vs, scans, sentence⟩ := outer
  obtain ⟨us', vs', scans', sentence'⟩ := inner
  refine ⟨us ++ us', vs' ++ vs, ?_, ?_⟩
  · intro t ts h
    simpa [String.append_assoc] using scans _ _ (scans' t ts h)
  · intro ts h
    simpa using sentence _ (sentence' ts h)

theorem parens : Surrounds A "(" ")" := by
  refine ⟨[.opening], [.closing], ?_, ?_⟩
  · intro t ts h
    simpa using h.parens
  · intro ts h
    exact .group h

theorem not (s : Style) : Surrounds A (s.keyword "NOT" ++ " ") "" := by
  refine ⟨[.not], [], ?_, ?_⟩
  · intro t ts h
    have word : Scans A (s.keyword "NOT").toList [.not] :=
      scans_keyword (p := ("NOT", .not)) s (by decide)
    simpa using word.spaced h
  · intro ts h
    simpa using h.not

theorem left (s : Style) (c : Connective) {r : Expr} (h : r.readable A = true) :
    Surrounds A "" (" " ++ s.keyword c.word ++ " " ++ s.print (.operand c .right) r) := by
  refine ⟨[], .connective c :: s.tokens (.operand c .right) r, ?_, ?_⟩
  · intro t ts ht
    have joined := scans_join s c ht (scans_print s (.operand c .right) h)
    simpa [Style.join, String.append_assoc] using joined
  · intro ts ht
    exact .binary c ht (s.sentence_tokens _ r)

theorem right (s : Style) (c : Connective) {l : Expr} (h : l.readable A = true) :
    Surrounds A (s.print (.operand c .left) l ++ " " ++ s.keyword c.word ++ " ") "" := by
  refine ⟨s.tokens (.operand c .left) l ++ [.connective c], [], ?_, ?_⟩
  · intro t ts ht
    have joined := scans_join s c (scans_print s (.operand c .left) h) ht
    simpa [Style.join, String.append_assoc] using joined
  · intro ts ht
    simpa using Sentence.binary c (s.sentence_tokens _ l) ht

theorem wraps (s : Style) (c : Connective) (p : Position) :
    Surrounds A (if s.wraps c p then "(" else "") (if s.wraps c p then ")" else "") := by
  by_cases h : s.wraps c p = true
  · simpa [h] using parens
  · simpa [h] using empty

theorem above (s : Style) (p : Position) {a : Ancestor} {x : Expr}
    (h : (a.above x).readable A = true) : Surrounds A (s.beforeIn p a) (s.afterIn p a) := by
  cases a with
  | not loc => exact not s
  | binary loc c side other =>
    cases side with
    | left =>
      simp only [Ancestor.above, Expr.readable, Bool.and_eq_true] at h
      simpa [Style.beforeIn, Style.afterIn] using (wraps s c p).comp (left s c h.2)
    | right =>
      simp only [Ancestor.above, Expr.readable, Bool.and_eq_true] at h
      simpa [Style.beforeIn, Style.afterIn] using (wraps s c p).comp (right s c h.1)

end Surrounds

theorem readable_of_above {a : Ancestor} {x : Expr} (h : (a.above x).readable A = true) :
    x.readable A = true := by
  cases a with
  | not loc => exact h
  | binary loc c side other =>
    cases side <;> simp only [Ancestor.above, Expr.readable, Bool.and_eq_true] at h
    · exact h.1
    · exact h.2

theorem readable_of_fill {place : Place} {x : Expr} (h : (place.fill x).readable A = true) :
    x.readable A = true :=
  Place.of_fill (P := fun y => y.readable A = true) readable_of_above h

theorem surrounds_place (s : Style) {place : Place} {x : Expr}
    (h : (place.fill x).readable A = true) : Surrounds A (s.before place) (s.after place) := by
  induction place generalizing x with
  | nil => exact .empty
  | cons a up ih =>
    have whole : (Place.fill (a.above x) up).readable A = true := h
    exact (ih whole).comp (.above s _ (readable_of_fill whole))

/-- The tokens of a text with a node in parentheses are those without the pair, and two more. -/
theorem exists_scans_without_parens (A : Alphabet) (s : Style) {place : Place}
    {loc : Option Location} {c : Connective} {l r : Expr}
    (readable : (place.fill (.binary loc c l r)).readable A = true)
    (wrapped : s.wraps c place.position = true) :
    ∃ us ts vs, Scans A (s.before place ++ s.row c l r ++ s.after place).toList (us ++ ts ++ vs) ∧
      Sentence (us ++ ts ++ vs) ∧
      s.tokens .top (place.fill (.binary loc c l r)) =
        us ++ (.opening :: (ts ++ [.closing])) ++ vs := by
  obtain ⟨us, vs, scans, sentence⟩ := surrounds_place s readable
  let ts := s.tokens (.operand c .left) l ++ .connective c :: s.tokens (.operand c .right) r
  have operands := readable_of_fill readable
  simp only [Expr.readable, Bool.and_eq_true] at operands
  have row : Scans A (s.row c l r).toList ts :=
    scans_join s c (scans_print s _ operands.1) (scans_print s _ operands.2)
  have group : Scans A ("(" ++ s.row c l r ++ ")").toList (.opening :: (ts ++ [.closing])) := by
    simpa using row.parens
  refine ⟨us, ts, vs, scans _ ts row, ?_, ?_⟩
  · exact sentence ts (.binary c (s.sentence_tokens _ l) (s.sentence_tokens _ r))
  · have printed := (scans_print s .top readable).whole
    rw [s.print_fill_binary wrapped, (scans _ _ group).whole] at printed
    exact (Option.some.inj printed).symm

/-- A pair of parentheses that the minimal rule writes cannot be left out. -/
theorem exists_read?_without_parens (A : Alphabet) {s : Style} (minimal : s.parens = .minimal)
    {e : Expr} (readable : e.readable A = true) {place : Place} {loc : Option Location}
    {c : Connective} {l r : Expr} (node : place.fill (.binary loc c l r) = e)
    (wrapped : s.wraps c place.position = true) :
    s.print .top e = s.before place ++ ("(" ++ s.row c l r ++ ")") ++ s.after place ∧
      ∃ x, read? A .usual (s.before place ++ s.row c l r ++ s.after place) = some x ∧
        (x == e) = false := by
  subst node
  obtain ⟨us, ts, vs, scans, sentence, tokens⟩ := exists_scans_without_parens A s readable wrapped
  obtain ⟨x, parsed⟩ := Grammar.usual.exists_parse?_of_sentence sentence
  refine ⟨s.print_fill_binary wrapped, x, ?_, ?_⟩
  · rw [read?, scans.whole]
    exact parsed
  · apply beq_eq_false_of_count_opening_lt minimal parsed
    rw [tokens]
    simp only [List.count_append, List.count_cons_self]
    omega

/-- A disjunction below two other connectives and a negation, with a parenthesis in a string. -/
theorem exists_read?_without_parens_nested :
    let s : Style := ⟨.upper, .minimal⟩
    let b := Expr.column (some ⟨1, 8⟩) ⟨none, "b"⟩
    let mark := Expr.literal none (.text "')")
    let place : Place := [.binary none .and .right (.column none ⟨some "t", "a"⟩),
      .not (some ⟨1, 1⟩), .binary none .or .left (.column none ⟨none, "c"⟩)]
    let e := place.fill (.binary (some ⟨1, 10⟩) .or b mark)
    s.print .top e = "NOT (t.a AND (b OR ''')')) OR c" ∧ e.readable latin = true ∧
      s.wraps .or place.position = true ∧
      ∃ x, read? latin .usual "NOT (t.a AND b OR ''')') OR c" = some x ∧ (x == e) = false := by
  intro s b mark place e
  have readable : e.readable latin = true := by decide
  have wrapped : s.wraps .or place.position = true := by decide
  have without : s.before place ++ s.row .or b mark ++ s.after place =
      "NOT (t.a AND b OR ''')') OR c" := by decide
  have node : place.fill (.binary (some ⟨1, 10⟩) .or b mark) = e := rfl
  obtain ⟨-, x, read, other⟩ := exists_read?_without_parens latin rfl readable node wrapped
  rw [without] at read
  exact ⟨by decide, readable, wrapped, x, read, other⟩

end QueryLogic

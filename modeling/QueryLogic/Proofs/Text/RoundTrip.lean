import QueryLogic.Proofs.Text.Reader
import QueryLogic.Proofs.Text.Scan
/-!
Reading back what was written. A condition is readable when its literals are nulls, booleans,
integers and strings and its columns are plain. The scanner finds the tokens of a readable condition
in its text, one subtree after the other, and the reader makes the tree of them again.

What is proved:
  1. `scans_print`: the text of a readable condition, at every position and in every style, scans to
     the tokens of the condition.
  2. `read?_eq_some_iff`: what is read from a text is the one tree whose phrase its tokens are.
  3. `read?_print`: a readable condition is read back from its text, without its locations.
-/
namespace QueryLogic

def read? (A : Alphabet) (g : Grammar) (text : String) : Option Expr :=
  (scan A text.toList).bind g.parse?

/-- Whether a literal is written in a form that is read back: decimals and doubles are not. -/
def Literal.readable : Literal → Bool
  | .decimal _ | .double _ => false
  | _ => true

def Expr.readable (A : Alphabet) : Expr → Bool
  | .literal _ v => v.readable
  | .column _ n => A.plain n
  | .not _ x => x.readable A
  | .binary _ _ l r => l.readable A && r.readable A

theorem read?_eq_some_iff {A : Alphabet} {g : Grammar} {text : String} {e : Expr} :
    read? A g text = some e ↔ ∃ ts, scan A text.toList = some ts ∧ Phrase g 0 ts e := by
  rw [read?, Option.bind_eq_some_iff]
  constructor
  · rintro ⟨ts, scanned, parsed⟩
    exact ⟨ts, scanned, Grammar.parse?_eq_some_iff.1 parsed⟩
  · rintro ⟨ts, scanned, phrase⟩
    exact ⟨ts, scanned, Grammar.parse?_eq_some_iff.2 phrase⟩

variable {A : Alphabet}

/-! ## The words of a style -/

theorem scans_keyword (s : Style) {p : String × Token} (h : p ∈ keywords) :
    Scans A (s.keyword p.1).toList [p.2] := by
  obtain ⟨nonempty, chars, -⟩ := keyword_spec s h
  apply Scans.word nonempty
  · exact List.all_eq_true.1 chars
  · exact ofWord?_keyword A s h

theorem scans_connective (s : Style) (c : Connective) :
    Scans A (s.keyword c.word).toList [.connective c] := by
  cases c with
  | and => exact scans_keyword (p := ("AND", .connective .and)) s (by decide)
  | or => exact scans_keyword (p := ("OR", .connective .or)) s (by decide)

theorem scans_literal (s : Style) {v : Literal} (h : v.readable = true) :
    Scans A (s.literal v).toList [.literal v] := by
  cases v with
  | null => exact scans_keyword (p := ("NULL", .literal .null)) s (by decide)
  | bool b =>
    cases b with
    | true => exact scans_keyword (p := ("TRUE", .literal (.bool true))) s (by decide)
    | false => exact scans_keyword (p := ("FALSE", .literal (.bool false))) s (by decide)
  | int i =>
    obtain ⟨c, mem, _⟩ := exists_digit_mem_ofInt i
    rw [Style.literal, String.toList_ofList]
    apply Scans.word
    · exact List.ne_nil_of_mem mem
    · intro d hd
      rcases mem_ofInt hd with rfl | digit
      · decide
      · exact inWord_of_isDigit digit
    · exact ofWord?_ofInt A i
  | text t => exact Scans.quoted A t
  | decimal d => cases h
  | double x => cases h

theorem scans_column {n : ColumnName} (h : A.plain n = true) :
    Scans A n.text.toList [.column n] := by
  obtain ⟨⟨c, cs, front, _⟩, _⟩ := front_of_plain h
  apply Scans.word
  · rw [front]
    exact List.cons_ne_nil c cs
  · intro d hd
    rcases mem_text_of_plain h hd with part | rfl
    · exact Alphabet.inWord_of_part part
    · decide
  · exact ofWord?_text h

/-! ## Whole conditions -/

theorem scans_join (s : Style) (c : Connective) {left right : String} {us vs : List Token}
    (hl : Scans A left.toList us) (hr : Scans A right.toList vs) :
    Scans A (s.join c left right).toList (us ++ .connective c :: vs) := by
  have text : (s.join c left right).toList =
      left.toList ++ ' ' :: ((s.keyword c.word).toList ++ ' ' :: right.toList) := by
    simp [Style.join]
  rw [text]
  exact hl.spaced ((scans_connective s c).spaced hr)

theorem scans_print (s : Style) (p : Position) {e : Expr} (h : e.readable A = true) :
    Scans A (s.print p e).toList (s.tokens p e) := by
  induction e generalizing p with
  | literal loc v => exact scans_literal s h
  | column loc n => exact scans_column h
  | not loc x ih =>
    have text : (s.print p (.not loc x)).toList =
        (s.keyword "NOT").toList ++ ' ' :: (s.print .negated x).toList := by
      simp [Style.print]
    have word : Scans A (s.keyword "NOT").toList [.not] :=
      scans_keyword (p := ("NOT", .not)) s (by decide)
    rw [text]
    exact word.spaced (ih .negated h)
  | binary loc c l r ihl ihr =>
    simp only [Expr.readable, Bool.and_eq_true] at h
    have row := scans_join s c (ihl (.operand c .left) h.1) (ihr (.operand c .right) h.2)
    rw [Style.print, Style.tokens]
    by_cases wraps : s.wraps c p = true
    · simp only [wraps, if_true]
      have text : ∀ t : String, ("(" ++ t ++ ")").toList = '(' :: (t.toList ++ [')']) := by
        intro t
        simp
      rw [text]
      exact row.parens
    · simp only [wraps]
      exact row

/-- A readable condition is read back from its text in every style, whatever the letters are. -/
theorem read?_print (A : Alphabet) (s : Style) {e : Expr} (h : e.readable A = true) :
    read? A .usual (s.print .top e) = some e.unlocated ∧ (e.unlocated == e) = true := by
  constructor
  · rw [read?_eq_some_iff]
    exact ⟨s.tokens .top e, (scans_print s .top h).whole, phrase_tokens s .top e⟩
  · exact Expr.beq_iff_shape.2 e.shape_unlocated

/-- A string with a keyword, a parenthesis and a quote in it, and a chain nested to the right. -/
theorem read?_print_quoted :
    let s : Style := ⟨.lower, .minimal⟩
    let inner := Expr.binary (some ⟨5, 9⟩) .or (.column none ⟨some "t", "a_1"⟩)
      (.literal none (.text "it's) OR ("))
    let e := Expr.binary none .and (.not (some ⟨0, 4⟩) inner)
      (.binary none .and (.literal none (.int (-5))) (.column none ⟨none, "nothing"⟩))
    s.print .top e = "not (t.a_1 or 'it''s) OR (') and (-5 and nothing)" ∧
      e.readable latin = true ∧ read? latin .usual (s.print .top e) = some e.unlocated ∧
      (e.unlocated == e) = true := by
  intro s inner e
  have readable : e.readable latin = true := by decide
  exact ⟨by decide, readable, read?_print latin s readable⟩

end QueryLogic

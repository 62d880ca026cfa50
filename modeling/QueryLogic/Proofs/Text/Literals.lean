import QueryLogic.Proofs.Text.Scan
/-!
Literals told apart by their texts. What is written of a literal shows its kind: a keyword, digits with
an optional sign, a text in single quotes, or none of these, which a double always is: its digits have
a point or an exponent among them, and without digits it is a conversion with parentheses. A decimal
without places looks like an integer, and one with places like a double, so decimals are left out.

What is proved:
  1. `Style.ofText?_literal`: a literal is read from its text, a double as none of the others.
  2. `Style.eq_or_double_of_literal_eq`: hence one text stands for one literal, or for doubles only.
  3. `Style.literal_ne_and_literal_inj`: no two kinds of literal share a text, the kinds besides doubles
     have one text for each literal, and the end of a string shows in what follows it.
-/
namespace QueryLogic

namespace Literal

inductive Kind
  | null
  | bool
  | int
  | decimal
  | double
  | text
  deriving DecidableEq, Repr

def kind : Literal → Kind
  | null => .null
  | bool _ => .bool
  | int _ => .int
  | decimal _ => .decimal
  | double _ => .double
  | text _ => .text

end Literal

/-! ## Reading a literal -/

def Token.literal? : Token → Option Literal
  | literal v => some v
  | _ => none

/-- The string of which a text is the quoted form. -/
def unquoted? : List Char → Option String
  | [] => none
  | c :: cs =>
    if c = quoteMark then
      match unquote cs with
      | some (s, []) => some (String.ofList s)
      | _ => none
    else none

/-- Reads a keyword, an integer or a quoted string. -/
def Literal.ofText? (cs : List Char) : Option Literal :=
  ((keyword? cs).bind Token.literal?).or
    (((integer? cs).map Literal.int).or ((unquoted? cs).map Literal.text))

section Texts

variable {cs : List Char}

theorem Literal.ofText?_eq_none (keyword : keyword? cs = none) (integer : integer? cs = none)
    (quote : cs.head? ≠ some quoteMark) : ofText? cs = none := by
  have string : unquoted? cs = none := by
    cases cs with
    | nil => rfl
    | cons c cs => exact if_neg fun same => quote (congrArg some same)
  rw [ofText?, keyword, integer, string]
  rfl

theorem Literal.ofText?_keyword (s : Style) (word : String) {v : Literal}
    (h : (word, Token.literal v) ∈ keywords) : ofText? (s.keyword word).toList = some v := by
  obtain ⟨-, -, known⟩ := keyword_spec s h
  rw [ofText?, known]
  rfl

theorem Literal.ofText?_ofInt (i : Int) : ofText? (Digits.ofInt i) = some (.int i) := by
  obtain ⟨c, mem, digit⟩ := exists_digit_mem_ofInt i
  rw [ofText?, keyword?_eq_none_of_isDigit mem digit, integer?_ofInt]
  rfl

theorem Literal.ofText?_quoted (s : String) : ofText? (quoted s).toList = some (.text s) := by
  have text : (quoted s).toList = quoteMark :: (doubled s.toList ++ [quoteMark]) := by
    rw [← toList_quoted_append s [], List.append_nil]
  have mem : quoteMark ∈ (quoted s).toList := text ▸ List.mem_cons_self
  have keyword : keyword? (quoted s).toList = none := keyword?_eq_none mem (by decide)
  have integer : integer? (quoted s).toList = none :=
    integer?_eq_none_of_mem mem (by decide) (by decide)
  have content : unquote (doubled s.toList ++ [quoteMark]) = some (s.toList, []) :=
    unquote_doubled s.toList [] nofun
  have string : unquoted? (quoted s).toList = some s := by
    rw [text, unquoted?, if_pos rfl, content]
    exact congrArg some String.ofList_toList
  rw [ofText?, keyword, integer, string]
  rfl

/-! ### Doubles -/

theorem Literal.ofText?_of_fractional {ds : List Char} (h : Layout.Fractional ds)
    (sign : cs = ds ∨ cs = '-' :: ds) : ofText? cs = none := by
  obtain ⟨⟨d, rest, front, digit⟩, mark⟩ := h
  have inside : ∀ c ∈ ds, c ∈ cs := by
    rcases sign with rfl | rfl
    · exact fun c hc => hc
    · exact fun c hc => List.mem_cons_of_mem '-' hc
  apply ofText?_eq_none
  · exact keyword?_eq_none_of_isDigit (inside d (front ▸ List.mem_cons_self)) digit
  · rcases mark with point | exponent
    · exact integer?_eq_none_of_mem (inside '.' point) (by decide) (by decide)
    · exact integer?_eq_none_of_mem (inside 'e' exponent) (by decide) (by decide)
  · rcases sign with rfl | rfl
    · have other : d ∉ [quoteMark] := not_mem_of_isDigit (by decide) digit
      rw [front, List.head?_cons]
      exact fun same => other (List.mem_singleton.2 (Option.some.inj same))
    · exact fun same => absurd (Option.some.inj same) (by decide)

theorem Literal.ofText?_double (s : Style) (x : Double) : ofText? (s.double x).toList = none := by
  rw [Style.double]
  cases written : textLayout.toChars? x with
  | some cs =>
    obtain ⟨ds, fractional, sign⟩ := Layout.fractional_of_toChars? written
    rw [String.toList_ofList]
    exact ofText?_of_fractional fractional sign
  | none =>
    have opening : '(' ∈ (s.keyword "CAST" ++ "(" ++ quoted x.name ++ " " ++ s.keyword "AS" ++ " " ++
        s.keyword "DOUBLE" ++ ")").toList := by simp
    have known : ∀ k : KeywordCase,
        ((⟨k, .minimal⟩ : Style).keyword "CAST").toList.head?.any (· ≠ quoteMark) = true := by
      intro k
      cases k <;> decide
    apply ofText?_eq_none
    · exact keyword?_eq_none opening (by decide)
    · exact integer?_eq_none_of_mem opening (by decide) (by decide)
    · obtain ⟨c, front, other⟩ := (Option.any_eq_true _ _).1 (known s.keywords)
      have first : (s.keyword "CAST").toList.head? = some c := front
      simp only [String.toList_append, List.append_assoc, List.head?_append, first, Option.some_or]
      exact fun same => of_decide_eq_true other (Option.some.inj same)

end Texts

/-! ## Texts of literals -/

namespace Style

/-- What is read from the text of a literal is the literal, unless it is a double. -/
theorem ofText?_literal (s : Style) {v : Literal} (h : v.kind ≠ .decimal) :
    Literal.ofText? (s.literal v).toList = if v.kind = .double then none else some v := by
  cases v with
  | null => exact Literal.ofText?_keyword s "NULL" (by decide)
  | bool b =>
    cases b with
    | true => exact Literal.ofText?_keyword s "TRUE" (by decide)
    | false => exact Literal.ofText?_keyword s "FALSE" (by decide)
  | int i =>
    rw [literal, String.toList_ofList]
    exact Literal.ofText?_ofInt i
  | decimal d => exact absurd rfl h
  | double x => exact Literal.ofText?_double s x
  | text t => exact Literal.ofText?_quoted t

theorem eq_or_double_of_literal_eq {s s' : Style} {v w : Literal} (hv : v.kind ≠ .decimal)
    (hw : w.kind ≠ .decimal) (same : s.literal v = s'.literal w) :
    v = w ∨ v.kind = .double ∧ w.kind = .double := by
  have read := s.ofText?_literal hv
  rw [same, s'.ofText?_literal hw] at read
  by_cases double : v.kind = .double
  · by_cases double' : w.kind = .double
    · exact .inr ⟨double, double'⟩
    · rw [if_pos double, if_neg double'] at read
      cases read
  · by_cases double' : w.kind = .double
    · rw [if_neg double, if_pos double'] at read
      cases read
    · rw [if_neg double, if_neg double', Option.some.injEq] at read
      exact .inl read.symm

/-- Whatever the case of the keywords, literals of two kinds differ in their texts, and so do two
literals of one kind other than that of doubles. Where the text of a string is followed by anything but
a quote, it shows where the string ends and what it holds. -/
theorem literal_ne_and_literal_inj (s s' : Style) :
    (∀ v w : Literal, v.kind ≠ .decimal → w.kind ≠ .decimal → v.kind ≠ w.kind →
        s.literal v ≠ s'.literal w) ∧
      (∀ v w : Literal, v.kind ∈ [.null, .bool, .int, .text] → v.kind = w.kind →
        s.literal v = s'.literal w → v = w) ∧
      ∀ a b u v : String, u.toList.head? ≠ some quoteMark → v.toList.head? ≠ some quoteMark →
        s.literal (.text a) ++ u = s'.literal (.text b) ++ v → a = b ∧ u = v := by
  refine ⟨fun v w hv hw different same => ?_, fun v w known kind same => ?_,
    fun a b u v hu hv same => ?_⟩
  · rcases eq_or_double_of_literal_eq hv hw same with rfl | ⟨double, double'⟩
    · exact different rfl
    · exact different (double.trans double'.symm)
  · have other : ∀ k ∈ [Literal.Kind.null, .bool, .int, .text], k ≠ .decimal ∧ k ≠ .double := by
      decide
    obtain ⟨noDecimal, noDouble⟩ := other v.kind known
    rcases eq_or_double_of_literal_eq noDecimal (kind ▸ noDecimal) same with equal | ⟨double, -⟩
    · exact equal
    · exact absurd double noDouble
  · have texts := congrArg String.toList same
    rw [String.toList_append, String.toList_append] at texts
    obtain ⟨content, rest⟩ := quoted_append_inj hu hv texts
    exact ⟨content, String.toList_inj.1 rest⟩

/-- A double that is a whole number, and a string that holds what looks like the end of a shorter one.
Only a quote right behind it makes the shorter string go on, and a decimal may look like an integer. -/
theorem literal_ne_and_literal_inj_whole :
    let s : Style := ⟨.lower, .minimal⟩
    s.literal (.double ⟨0x3ff0000000000000⟩) ≠ usual.literal (.int 1) ∧
      s.literal (.decimal ⟨1, 0⟩) = usual.literal (.int 1) ∧
      s.literal (.int (-1)) ≠ usual.literal (.int 1) ∧
      s.literal (.text "a") ++ " OR 'b'" ≠ usual.literal (.text "a' OR 'b") ++ "" ∧
      s.literal (.text "a") ++ "'b'" = usual.literal (.text "a'b") ++ "" := by
  intro s
  obtain ⟨kinds, injective, strings⟩ := literal_ne_and_literal_inj s usual
  refine ⟨kinds _ _ (by decide) (by decide) (by decide), by decide, fun same => ?_, fun same => ?_,
    by decide⟩
  · have equal : Literal.int (-1) = .int 1 := injective _ _ (by decide) rfl same
    exact absurd equal (by decide)
  · obtain ⟨equal, -⟩ := strings "a" "a' OR 'b" " OR 'b'" "" (by decide) (by decide) same
    exact absurd equal (by decide)

end Style

end QueryLogic

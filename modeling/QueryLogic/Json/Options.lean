import QueryLogic.Json.Value
import QueryLogic.Text.Style
/-!
Styles as JSON values. A style is written as an object with two fields. It is read from an object,
where a missing field takes its usual value and other fields are passed over, or from a list of at
most two values in the order of the fields. A choice is given by its name, or by an object whose
only field has that name and the value `null`.
-/
namespace QueryLogic

/-- The name by which a value makes a choice. -/
def Json.choice? : Json → Option String
  | string s => some s
  | object [(name, null)] => some name
  | _ => none

namespace KeywordCase

def name : KeywordCase → String
  | upper => "Upper"
  | lower => "Lower"

def ofName? : String → Option KeywordCase
  | "Upper" => some upper
  | "Lower" => some lower
  | _ => none

def ofJson? (j : Json) : Option KeywordCase := j.choice?.bind ofName?

end KeywordCase

namespace ParenRule

def name : ParenRule → String
  | minimal => "Minimal"
  | always => "Always"

def ofName? : String → Option ParenRule
  | "Minimal" => some minimal
  | "Always" => some always
  | _ => none

def ofJson? (j : Json) : Option ParenRule := j.choice?.bind ofName?

end ParenRule

namespace Style

def keywordsField : String := "keyword_case"

def parensField : String := "parenthesize"

def toJson (s : Style) : Json :=
  .object [(keywordsField, .string s.keywords.name), (parensField, .string s.parens.name)]

/-- Reads a value that may be missing. -/
def orUsual {α : Type} (usual : α) (read : Json → Option α) : Option Json → Option α
  | none => some usual
  | some j => read j

def ofParts? (keywords parens : Option Json) : Option Style := do
  let k ← orUsual usual.keywords KeywordCase.ofJson? keywords
  let p ← orUsual usual.parens ParenRule.ofJson? parens
  return ⟨k, p⟩

def ofJson? : Json → Option Style
  | .object fields => ofParts? (fields.lookup keywordsField) (fields.lookup parensField)
  | .array [] => ofParts? none none
  | .array [k] => ofParts? (some k) none
  | .array [k, p] => ofParts? (some k) (some p)
  | _ => none

/-- Reads a style that may be left out, or be given as `null`, for the usual one. -/
def ofOptional? : Option Json → Option Style
  | none => some usual
  | some .null => some usual
  | some j => ofJson? j

end Style

end QueryLogic

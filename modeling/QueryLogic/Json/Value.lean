/-!
JSON values and their compact text. The text of a value is put before the text that follows it, so
that a value is written in one pass however deep it is; `put_append` says that what follows has no
influence on it.
-/
namespace QueryLogic

/-- A JSON value. A number is kept as its text, and an object keeps the order of its fields. -/
inductive Json
  | null
  | bool (b : Bool)
  | number (text : String)
  | string (s : String)
  | array (items : List Json)
  | object (fields : List (String × Json))
  deriving Repr, Inhabited

namespace Json

def quote : Char := '\x22'

def backslash : Char := '\x5c'

def hexDigit (n : Nat) : Char := Nat.digitChar n

/-- A character inside a string. Quotes, backslashes and control characters are escaped, the common
control characters by a letter of their own and the others by their number. -/
def escaped (c : Char) : List Char :=
  if c = quote then [backslash, quote]
  else if c = backslash then [backslash, backslash]
  else if c = '\x08' then [backslash, 'b']
  else if c = '\x09' then [backslash, 't']
  else if c = '\x0a' then [backslash, 'n']
  else if c = '\x0c' then [backslash, 'f']
  else if c = '\x0d' then [backslash, 'r']
  else if c.toNat < 32 then
    [backslash, 'u', '0', '0', hexDigit (c.toNat / 16), hexDigit (c.toNat % 16)]
  else [c]

/-- A string in quotes, before `rest`. -/
def putString (s : String) (rest : List Char) : List Char :=
  quote :: (s.toList.flatMap escaped ++ quote :: rest)

mutual

/-- The text of a value, before `rest`. -/
def put : Json → List Char → List Char
  | null, rest => 'n' :: 'u' :: 'l' :: 'l' :: rest
  | bool true, rest => 't' :: 'r' :: 'u' :: 'e' :: rest
  | bool false, rest => 'f' :: 'a' :: 'l' :: 's' :: 'e' :: rest
  | number t, rest => t.toList ++ rest
  | string s, rest => putString s rest
  | array items, rest => '[' :: putItems items (']' :: rest)
  | object fields, rest => '\x7b' :: putFields fields ('\x7d' :: rest)

def putItems : List Json → List Char → List Char
  | [], rest => rest
  | [j], rest => put j rest
  | j :: k :: js, rest => put j (',' :: putItems (k :: js) rest)

def putFields : List (String × Json) → List Char → List Char
  | [], rest => rest
  | [(name, j)], rest => putString name (':' :: put j rest)
  | (name, j) :: f :: fs, rest =>
    putString name (':' :: put j (',' :: putFields (f :: fs) rest))

end

@[simp] theorem putString_append (s : String) (a b : List Char) :
    putString s (a ++ b) = putString s a ++ b := by simp [putString]

mutual

/-- What follows a value is left as it is. -/
theorem put_append (a b : List Char) : ∀ j : Json, put j (a ++ b) = put j a ++ b
  | null => rfl
  | bool true => rfl
  | bool false => rfl
  | number t => by simp [put]
  | string s => by simp [put]
  | array items => by rw [put, put, ← List.cons_append, putItems_append _ _ items]; rfl
  | object fields => by rw [put, put, ← List.cons_append, putFields_append _ _ fields]; rfl

theorem putItems_append (a b : List Char) :
    ∀ js : List Json, putItems js (a ++ b) = putItems js a ++ b
  | [] => rfl
  | [j] => put_append a b j
  | j :: k :: js => by
    rw [putItems, putItems, putItems_append a b (k :: js), ← List.cons_append, put_append _ _ j]

theorem putFields_append (a b : List Char) :
    ∀ fs : List (String × Json), putFields fs (a ++ b) = putFields fs a ++ b
  | [] => rfl
  | [(name, j)] => by
    rw [putFields, putFields, put_append a b j, ← List.cons_append, putString_append]
  | (name, j) :: f :: fs => by
    rw [putFields, putFields, putFields_append a b (f :: fs), ← List.cons_append,
      put_append _ _ j, ← List.cons_append, putString_append]

end

def text (j : Json) : String := String.ofList (put j [])

/-- A value that may be missing. -/
def ofOption {α : Type} (f : α → Json) : Option α → Json
  | none => null
  | some a => f a

end Json

end QueryLogic

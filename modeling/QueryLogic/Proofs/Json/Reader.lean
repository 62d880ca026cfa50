import QueryLogic.Proofs.Json.Scan
/-!
A reader of JSON texts. One token is taken after the other, with the arrays and objects that are
still open on a stack. An array that has no item yet, or an object without a field, may be closed at
once; behind a comma something has to follow.

What is proved:
  1. `run_tokens`: the tokens of a value are read as the value, whatever is open around it.
  2. `read?_of_spells`: the reader understands every text of the grammar, so no text stands for two
     values.
-/
namespace QueryLogic.Json

/-- What is open around a value: the items of an array before it, or the fields of an object before
it with the name of its own. -/
inductive Frame
  | array (items : List Json)
  | object (fields : List (String × Json)) (name : String)
  deriving Repr

/-- Where the reader stands, with what is open around it, innermost frames first. -/
inductive Reading
  | value (open' : List Frame)
  | name (fields : List (String × Json)) (open' : List Frame)
  | colon (fields : List (String × Json)) (name : String) (open' : List Frame)
  | holding (j : Json) (open' : List Frame)
  deriving Repr

def step : Reading → Token → Option Reading
  | .value fs, .scalar j => some (.holding j fs)
  | .value fs, .openArray => some (.value (.array [] :: fs))
  | .value fs, .openObject => some (.name [] fs)
  | .value (.array [] :: fs), .closeArray => some (.holding (.array []) fs)
  | .name gs fs, .scalar (.string s) => some (.colon gs s fs)
  | .name [] fs, .closeObject => some (.holding (.object []) fs)
  | .colon gs s fs, .colon => some (.value (.object gs s :: fs))
  | .holding j (.array js :: fs), .comma => some (.value (.array (js ++ [j]) :: fs))
  | .holding j (.array js :: fs), .closeArray => some (.holding (.array (js ++ [j])) fs)
  | .holding j (.object gs s :: fs), .comma => some (.name (gs ++ [(s, j)]) fs)
  | .holding j (.object gs s :: fs), .closeObject => some (.holding (.object (gs ++ [(s, j)])) fs)
  | _, _ => none

def run (r : Reading) (ts : List Token) : Option Reading := ts.foldlM step r

/-- The value that a text stands for. -/
def read? (text : String) : Option Json :=
  match (scan text.toList).bind (run (.value [])) with
  | some (.holding j []) => some j
  | _ => none

theorem run_append {r s : Reading} {ts : List Token} (h : run r ts = some s) (us : List Token) :
    run r (ts ++ us) = run s us := by
  rw [run, List.foldlM_append, ← run, h]
  rfl

theorem run_cons {r s : Reading} {t : Token} (h : step r t = some s) (ts : List Token) :
    run r (t :: ts) = run s ts := by
  rw [run, List.foldlM_cons, h]
  rfl

mutual

/-- Behind the tokens of a value the reader holds it, with the same frames open as before. -/
theorem run_tokens : ∀ (j : Json) (fs : List Frame),
    run (.value fs) (tokens j) = some (.holding j fs)
  | null, fs => rfl
  | bool b, fs => rfl
  | number t, fs => rfl
  | string s, fs => rfl
  | array js, fs => by
    rw [tokens, run_cons rfl]
    exact run_itemTokens js [] fs fun _ => rfl
  | object gs, fs => by
    rw [tokens, run_cons rfl]
    exact run_fieldTokens gs [] fs fun _ => rfl

theorem run_itemTokens : ∀ (js done : List Json) (fs : List Frame), (js = [] → done = []) →
    run (.value (.array done :: fs)) (itemTokens js ++ [.closeArray]) =
      some (.holding (.array (done ++ js)) fs)
  | [], done, fs, first => by
    obtain rfl := first rfl
    rfl
  | [j], done, fs, _ => by
    rw [itemTokens, run_append (run_tokens j _)]
    rfl
  | j :: k :: js, done, fs, _ => by
    rw [itemTokens, List.append_assoc, run_append (run_tokens j _), List.cons_append, run_cons rfl,
      run_itemTokens (k :: js) (done ++ [j]) fs (nomatch ·), List.append_assoc]
    rfl

theorem run_fieldTokens : ∀ (gs done : List (String × Json)) (fs : List Frame),
    (gs = [] → done = []) → run (.name done fs) (fieldTokens gs ++ [.closeObject]) =
      some (.holding (.object (done ++ gs)) fs)
  | [], done, fs, first => by
    obtain rfl := first rfl
    rfl
  | [(name, j)], done, fs, _ => by
    rw [fieldTokens, List.cons_append, run_cons rfl, List.cons_append, run_cons rfl,
      run_append (run_tokens j _)]
    rfl
  | (name, j) :: g :: gs, done, fs, _ => by
    rw [fieldTokens, List.cons_append, run_cons rfl, List.cons_append, run_cons rfl,
      List.append_assoc, run_append (run_tokens j _), List.cons_append, run_cons rfl,
      run_fieldTokens (g :: gs) (done ++ [(name, j)]) fs (nomatch ·), List.append_assoc]
    rfl

end

theorem read?_of_spells {j : Json} {text : String} (h : Spells (.value j) text.toList) :
    read? text = some j := by
  have scanned : scan text.toList = some (tokens j) := (Scans.of_spells h).whole
  rw [read?, scanned, Option.bind_some, run_tokens]

theorem read?_text {j : Json} (h : j.Written) : read? j.text = some j :=
  read?_of_spells h.spells_text

end QueryLogic.Json

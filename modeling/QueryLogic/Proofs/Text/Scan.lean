import QueryLogic.Proofs.Text.Word
/-!
From a text to its tokens. Blanks separate words; parentheses stand for themselves; a string reaches
from one single quote to the next one that is not doubled; every other run of characters is a word.

What is proved:
  1. `unquote_doubled`: reading a string undoes writing it, whatever its content and whatever
     follows, short of one more quote.
  2. `Scans.word`, `Scans.quoted`, `Scans.spaced`, `Scans.parens`: the parts of a text before a
     boundary are the tokens they stand for, one part after the other.
-/
namespace QueryLogic

/-! ## Strings -/

/-- A string with each of its quotes written twice. -/
def doubled (cs : List Char) : List Char :=
  cs.flatMap fun c => if c = quoteMark then [quoteMark, quoteMark] else [c]

/-- Reads a string behind its opening quote: its characters, and what follows the closing quote. -/
def unquote : List Char → Option (List Char × List Char)
  | [] => none
  | c :: cs =>
    if c = quoteMark then
      match cs with
      | [] => some ([], [])
      | d :: ds =>
        if d = quoteMark then (unquote ds).map fun p => (quoteMark :: p.1, p.2)
        else some ([], d :: ds)
    else (unquote cs).map fun p => (c :: p.1, p.2)

theorem length_lt_of_unquote {cs s rest : List Char} (h : unquote cs = some (s, rest)) :
    rest.length < cs.length := by
  fun_induction unquote cs generalizing s with
  | case1 => cases h
  | case2 =>
    cases h
    exact Nat.zero_lt_one
  | case3 ds ih =>
    obtain ⟨⟨t, after⟩, inner, same⟩ := Option.map_eq_some_iff.1 h
    obtain rfl : after = rest := (Prod.mk.inj same).2
    have shorter := ih inner
    simp only [List.length_cons]
    omega
  | case4 d ds =>
    cases h
    exact Nat.lt_succ_self _
  | case5 c cs _ ih =>
    obtain ⟨⟨t, after⟩, inner, same⟩ := Option.map_eq_some_iff.1 h
    obtain rfl : after = rest := (Prod.mk.inj same).2
    have shorter := ih inner
    simp only [List.length_cons]
    omega

theorem unquote_doubled (cs rest : List Char) (h : rest.head? ≠ some quoteMark) :
    unquote (doubled cs ++ quoteMark :: rest) = some (cs, rest) := by
  induction cs with
  | nil =>
    cases rest with
    | nil => rfl
    | cons d ds =>
      have other : d ≠ quoteMark := fun same => h (congrArg some same)
      simp [doubled, unquote, other]
  | cons c cs ih =>
    by_cases same : c = quoteMark
    · have front : doubled (c :: cs) = quoteMark :: quoteMark :: doubled cs := by
        simp [doubled, same]
      have pair : unquote (quoteMark :: quoteMark :: (doubled cs ++ quoteMark :: rest)) =
          (unquote (doubled cs ++ quoteMark :: rest)).map fun p => (quoteMark :: p.1, p.2) := rfl
      rw [front, List.cons_append, List.cons_append, pair, ih, same]
      rfl
    · have front : doubled (c :: cs) = c :: doubled cs := by simp [doubled, same]
      rw [front, List.cons_append, unquote.eq_def]
      simp [same, ih]

theorem toList_quoted_append (s : String) (rest : List Char) :
    (quoted s).toList ++ rest = quoteMark :: (doubled s.toList ++ quoteMark :: rest) := by
  simp [quoted, doubled]

/-- No string ends its own quotes: where one text can be cut behind a string, it cannot be cut behind
another one, unless the rest goes on with a quote. -/
theorem quoted_append_inj {a b : String} {u v : List Char} (hu : u.head? ≠ some quoteMark)
    (hv : v.head? ≠ some quoteMark) (same : (quoted a).toList ++ u = (quoted b).toList ++ v) :
    a = b ∧ u = v := by
  rw [toList_quoted_append, toList_quoted_append] at same
  have read := unquote_doubled a.toList u hu
  rw [List.cons.inj same |>.2, unquote_doubled b.toList v hv] at read
  obtain ⟨content, rest⟩ := Prod.mk.inj (Option.some.inj read)
  exact ⟨String.toList_inj.1 content.symm, rest.symm⟩

/-! ## The tokens of a text -/

/-- Splits a text into its tokens, unless a word or a string in it is malformed. -/
def scan (A : Alphabet) : List Char → Option (List Token)
  | [] => some []
  | c :: cs =>
    if c.isWhitespace then scan A cs
    else if c = '(' then (scan A cs).map (.opening :: ·)
    else if c = ')' then (scan A cs).map (.closing :: ·)
    else if c = quoteMark then
      match _ : unquote cs with
      | some (s, rest) => (scan A rest).map (.literal (.text (String.ofList s)) :: ·)
      | none => none
    else
      match A.ofWord? (c :: cs.takeWhile inWord) with
      | some t => (scan A (cs.dropWhile inWord)).map (t :: ·)
      | none => none
termination_by cs => cs.length
decreasing_by
  · exact Nat.lt_succ_self _
  · exact Nat.lt_succ_self _
  · exact Nat.lt_succ_self _
  · exact Nat.lt_succ_of_lt (length_lt_of_unquote ‹_›)
  · exact Nat.lt_succ_of_le (List.dropWhile_sublist inWord).length_le

section Scan

variable {A : Alphabet} {rest : List Char}

/-- Whether a text is empty or goes on with a blank or a closing parenthesis. -/
def Boundary (rest : List Char) : Prop := ∀ c ∈ rest.head?, c = ' ' ∨ c = ')'

theorem Boundary.nil : Boundary [] := fun _ h => nomatch h

theorem Boundary.space (cs : List Char) : Boundary (' ' :: cs) :=
  fun _ h => .inl (Option.some.inj h).symm

theorem Boundary.closing (cs : List Char) : Boundary (')' :: cs) :=
  fun _ h => .inr (Option.some.inj h).symm

theorem Boundary.head?_ne_quoteMark (h : Boundary rest) : rest.head? ≠ some quoteMark := by
  intro quote
  rcases h quoteMark quote with same | same
  · exact absurd same (by decide)
  · exact absurd same (by decide)

theorem Boundary.not_inWord (h : Boundary rest) : ∀ c ∈ rest.head?, inWord c = false := by
  intro c hc
  rcases h c hc with rfl | rfl <;> decide

theorem not_separator_of_inWord {c : Char} (h : inWord c = true) :
    c.isWhitespace = false ∧ c ≠ '(' ∧ c ≠ ')' ∧ c ≠ quoteMark := by
  simpa [inWord, separators, Char.isWhitespace, and_assoc] using h

theorem scan_nil : scan A [] = some [] := by rw [scan]

theorem scan_space (cs : List Char) : scan A (' ' :: cs) = scan A cs := by
  rw [scan, if_pos (by decide)]

theorem scan_opening (cs : List Char) :
    scan A ('(' :: cs) = (scan A cs).map (.opening :: ·) := by
  rw [scan, if_neg (by decide), if_pos rfl]

theorem scan_closing (cs : List Char) :
    scan A (')' :: cs) = (scan A cs).map (.closing :: ·) := by
  rw [scan, if_neg (by decide), if_neg (by decide), if_pos rfl]

/-! ### Parts of a text -/

/-- Whether a part of a text, wherever it stands before a boundary, is read as some tokens. -/
def Scans (A : Alphabet) (text : List Char) (ts : List Token) : Prop :=
  ∀ rest, Boundary rest → scan A (text ++ rest) = (scan A rest).map (ts ++ ·)

theorem Scans.whole {text : List Char} {ts : List Token} (h : Scans A text ts) :
    scan A text = some ts := by
  have only := h [] Boundary.nil
  rwa [scan_nil, Option.map_some, List.append_nil, List.append_nil] at only

theorem Scans.quoted (A : Alphabet) (s : String) :
    Scans A (quoted s).toList [.literal (.text s)] := by
  intro rest h
  have inside := unquote_doubled s.toList rest h.head?_ne_quoteMark
  rw [toList_quoted_append, scan, if_neg (by decide), if_neg (by decide), if_neg (by decide), if_pos rfl]
  split
  · next t after found =>
    rw [inside] at found
    cases found
    rw [String.ofList_toList]
    rfl
  · next missing =>
    rw [inside] at missing
    cases missing

theorem Scans.word {w : List Char} {t : Token} (nonempty : w ≠ [])
    (chars : ∀ c ∈ w, inWord c = true) (token : A.ofWord? w = some t) : Scans A w [t] := by
  intro rest h
  obtain ⟨c, cs, rfl⟩ := List.exists_cons_of_ne_nil nonempty
  obtain ⟨blank, opening, closing, quote⟩ := not_separator_of_inWord (chars c List.mem_cons_self)
  have inside : ∀ d ∈ cs, inWord d = true := fun d hd => chars d (List.mem_cons_of_mem c hd)
  -- the word reaches to the end of the part and no further
  have taken := takeWhile_append_of_ends inside h.not_inWord
  have left := dropWhile_append_of_ends inside h.not_inWord
  rw [List.cons_append, scan, if_neg (by simp [blank]), if_neg opening, if_neg closing,
    if_neg quote, taken, left, token]
  rfl

theorem Scans.spaced {u v : List Char} {us vs : List Token} (hu : Scans A u us)
    (hv : Scans A v vs) : Scans A (u ++ ' ' :: v) (us ++ vs) := by
  intro rest h
  calc scan A ((u ++ ' ' :: v) ++ rest)
      = scan A (u ++ ' ' :: (v ++ rest)) := by rw [List.append_assoc, List.cons_append]
    _ = (scan A (v ++ rest)).map (us ++ ·) := by rw [hu _ (Boundary.space _), scan_space]
    _ = (scan A rest).map ((us ++ vs) ++ ·) := by
      rw [hv rest h, Option.map_map]
      simp only [Function.comp_def, List.append_assoc]

theorem Scans.parens {u : List Char} {us : List Token} (hu : Scans A u us) :
    Scans A ('(' :: (u ++ [')'])) (.opening :: (us ++ [.closing])) := by
  intro rest _
  calc scan A ('(' :: (u ++ [')']) ++ rest)
      = (scan A (u ++ ')' :: rest)).map (.opening :: ·) := by
        rw [List.cons_append, scan_opening, List.append_assoc]
        rfl
    _ = (scan A rest).map (.opening :: (us ++ [.closing]) ++ ·) := by
      rw [hu _ (Boundary.closing rest), scan_closing, Option.map_map, Option.map_map]
      simp [Function.comp_def]

end Scan

end QueryLogic

import QueryLogic.Proofs.Text.RoundTrip
/-!
Tokens that can be read. The reader never turns back from an operand or a connective that stands where
one may stand, so whether tokens are read at all does not depend on the binding levels: operands and
connectives have to take turns and parentheses to match.

What is proved:
  1. `Phrase.sentence`: a phrase of any grammar is made of such tokens.
  2. `Grammar.run_sentence`: the reader gets behind them with the same parentheses open as before.
  3. `Grammar.exists_parse?_of_sentence`: under every grammar they are read as some condition.
-/
namespace QueryLogic

/-- Operands and connectives in turn, with matching parentheses. -/
inductive Sentence : List Token → Prop
  | literal (v : Literal) : Sentence [.literal v]
  | column (n : ColumnName) : Sentence [.column n]
  | group {ts : List Token} : Sentence ts → Sentence (.opening :: (ts ++ [.closing]))
  | not {ts : List Token} : Sentence ts → Sentence (.not :: ts)
  | binary (c : Connective) {ts us : List Token} :
    Sentence ts → Sentence us → Sentence (ts ++ .connective c :: us)

theorem Phrase.sentence {g : Grammar} {k : Nat} {ts : List Token} {e : Expr}
    (h : Phrase g k ts e) : Sentence ts := by
  induction h with
  | literal _ v => exact .literal v
  | column _ n => exact .column n
  | group _ _ ih => exact .group ih
  | not _ _ ih => exact .not ih
  | binary _ _ _ left right => exact .binary _ left right

theorem Style.sentence_tokens (s : Style) (p : Position) (e : Expr) : Sentence (s.tokens p e) :=
  (phrase_tokens s p e).sentence

namespace Grammar

variable {g : Grammar}

/-- What is open from the innermost parenthesis outwards. -/
def enclosing : List Frame → List Frame
  | [] => []
  | .group :: fs => .group :: fs
  | .not :: fs => enclosing fs
  | .binary _ _ :: fs => enclosing fs

/-- Closing never goes past a parenthesis. -/
theorem enclosing_close (n : Nat) (e : Expr) (fs : List Frame) :
    enclosing (g.close n e fs).2 = enclosing fs := by
  induction fs generalizing e with
  | nil => rfl
  | cons f fs ih =>
    cases f with
    | group => rfl
    | not => exact ih (.not none e)
    | binary c l =>
      rw [close]
      split
      · exact ih (.binary none c l e)
      · rfl

/-- Closing everything goes on to the innermost parenthesis. -/
theorem close_zero (e : Expr) (fs : List Frame) :
    ∃ x, g.close 0 e fs = (x, enclosing fs) := by
  induction fs generalizing e with
  | nil => exact ⟨e, rfl⟩
  | cons f fs ih =>
    cases f with
    | group => exact ⟨e, rfl⟩
    | not => exact ih (.not none e)
    | binary c l =>
      rw [close, if_pos (Nat.zero_le _)]
      exact ih (.binary none c l e)

/-- The reader gets behind a sentence with the same parentheses open as before it. -/
theorem run_sentence {ts : List Token} (h : Sentence ts) :
    ∀ fs, ∃ x gs, g.run (.expecting fs) ts = some (.holding x gs) ∧ enclosing gs = enclosing fs := by
  induction h with
  | literal v =>
    intro fs
    exact ⟨_, fs, rfl, rfl⟩
  | column n =>
    intro fs
    exact ⟨_, fs, rfl, rfl⟩
  | group _ ih =>
    intro fs
    obtain ⟨x, gs, inside, same⟩ := ih (.group :: fs)
    obtain ⟨y, opened⟩ := close_zero (g := g) x gs
    have closed : g.step (.holding x gs) .closing = some (.holding y fs) := by
      rw [step, opened, same]
      rfl
    refine ⟨y, fs, ?_, rfl⟩
    rw [run_cons rfl, run_append inside, run_cons closed]
    rfl
  | not _ ih =>
    intro fs
    exact ih (.not :: fs)
  | binary c _ _ left right =>
    intro fs
    obtain ⟨x, gs, first, same⟩ := left fs
    obtain ⟨y, hs, second, same'⟩ :=
      right (.binary c (g.close (g.level c .left) x gs).1 :: (g.close (g.level c .left) x gs).2)
    refine ⟨y, hs, ?_, ?_⟩
    · rw [run_append first, run_cons rfl, second]
    · rw [same', enclosing, enclosing_close, same]

theorem exists_parse?_of_sentence (g : Grammar) {ts : List Token} (h : Sentence ts) :
    ∃ e, g.parse? ts = some e := by
  obtain ⟨x, gs, whole, same⟩ := run_sentence (g := g) h []
  obtain ⟨y, closed⟩ := close_zero (g := g) x gs
  refine ⟨y, ?_⟩
  rw [parse?, whole]
  simp only [closed, same, enclosing]

end Grammar

end QueryLogic

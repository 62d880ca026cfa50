import QueryLogic.Session
import QueryLogic.Proofs.ChainByChain
import QueryLogic.Proofs.Drafts
/-!
Sessions step by step. A step looks up the members that its numbers refer to and nothing else of the
pool. What it makes is put behind the members that are there, so members stay where they are, and what
is in the pool at the end are the expressions in the answers. A step that fails makes nothing, so the
steps after it go on as if it had not been there.

What is proved:
  1. `Pool.exists_ref?_eq_some_iff`: every number refers to a member as soon as there is one.
  2. `Session.handles_answer`: what all steps have in common: what a step reads, when it asks for a
     member that does not exist, and how large the expressions can be that it makes.
  3. `Session.bounded_next` and `Session.bounded_after`: no member is above the limit after a step, and
     hence after a session, if none was before.
  4. `Session.answer_ne_tooBig`: which steps on such a pool never make anything that is too big.
  5. `Session.toList_after` and `Session.getElem?_run`: the pool after some steps, and each answer as
     that of its step in the pool that the steps before it have left.
  6. `Session.answer_after`: a step that names members by their places answers the same later on.
  7. `Session.after_succeeding_and_run_succeeding`: a session without the steps that fail.
-/
namespace QueryLogic

/-! ## Numbers -/

/-- The operand of a piece, whichever side it is given for. -/
def Piece.operand? {α : Type} (p : Piece α) : Option α := p.left?.or p.right?

/-- The numbers in a step that refer to the pool. -/
def Step.refs : Step → List Nat
  | add _ => []
  | not i => [i]
  | binary _ _ i j => [i, j]
  | relocate i _ => [i]
  | negate i => [i]
  | pushDown i => [i]
  | withoutRepeats i => [i]
  | operands i _ => [i]
  | chain _ is => is
  | left i => [i]
  | right i => [i]
  | operand i => [i]
  | draft pieces => pieces.filterMap Piece.operand?
  | equal i j => [i, j]
  | print i _ => [i]
  | columns i => [i]
  | location i => [i]

/-- Whether a step may make more nodes than any of the members has that it refers to. -/
def Step.grows : Step → Bool
  | add _ => true
  | not _ => true
  | binary _ _ _ _ => true
  | negate _ => true
  | pushDown _ => true
  | chain _ _ => true
  | _ => false

namespace Pool

variable {pool : Pool} {i : Nat}

theorem ref?_eq_none_iff : pool.ref? i = none ↔ pool = #[] := by
  rw [ref?, Array.getElem?_eq_none_iff, ← Array.size_eq_zero_iff]
  constructor
  · intro beyond
    apply Nat.eq_zero_of_not_pos
    intro members
    exact Nat.not_le_of_lt (Nat.mod_lt i members) beyond
  · intro empty
    rw [empty]
    exact Nat.zero_le _

theorem exists_ref?_eq_some_iff : (∃ e, pool.ref? i = some e) ↔ pool ≠ #[] := by
  rw [← Option.ne_none_iff_exists', ne_eq, ref?_eq_none_iff]

/-- Below the number of members a number is a place. -/
theorem ref?_of_lt (h : i < pool.size) : pool.ref? i = pool[i]? := by
  rw [ref?, Nat.mod_eq_of_lt h]

end Pool

namespace Session

variable {pool : Pool} {is : List Nat} {s : Step}

/-! ## What a step does -/

/-- The expressions that an answer adds to the pool. -/
def made : Except Failure Answer → List Expr
  | .ok (.added es) => es
  | _ => []

theorem toList_grow (pool : Pool) (a : Except Failure Answer) :
    (grow pool a).toList = pool.toList ++ made a := by
  cases a with
  | error f => simp [grow, made]
  | ok a => cases a <;> simp [grow, made]

/-- All the expressions are added or, when one is too big, none. -/
theorem add_cases (es : List Expr) :
    ((∀ e ∈ es, e.size ≤ sizeLimit) ∧ add es = .ok (.added es)) ∨
      (∃ e ∈ es, sizeLimit < e.size) ∧ add es = .error .tooBig := by
  by_cases large : ∃ e ∈ es, sizeLimit < e.size
  · refine .inr ⟨large, if_pos ?_⟩
    obtain ⟨e, he, more⟩ := large
    exact List.any_eq_true.2 ⟨e, he, decide_eq_true more⟩
  · refine .inl ⟨fun e he => Nat.le_of_not_lt fun more => large ⟨e, he, more⟩, if_neg ?_⟩
    intro found
    obtain ⟨e, he, more⟩ := List.any_eq_true.1 found
    exact large ⟨e, he, of_decide_eq_true more⟩

/-- What is common to all steps. Numbers `is` are looked up, `f` being the answer in each pool. -/
structure Handles (is : List Nat) (f : Pool → Except Failure Answer) : Prop where
  /-- Pools in which the numbers refer to the same members have the same answer. -/
  reads : ∀ {pool pool' : Pool}, (∀ i ∈ is, pool.ref? i = pool'.ref? i) → f pool = f pool'
  /-- A member is missing when there is none at all and one is referred to. -/
  empty : ∀ {pool : Pool}, f pool = .error .emptyPool ↔ pool = #[] ∧ is ≠ []
  /-- All that is made is within the limit. -/
  within : ∀ {pool : Pool}, ∀ e ∈ made (f pool), e.size ≤ sizeLimit

/-- A look-up fails in the empty pool only. -/
theorem ref_cases (pool : Pool) (i : Nat) :
    (pool = #[] ∧ ref pool i = .error .emptyPool) ∨ ∃ e ∈ pool, ref pool i = .ok e := by
  cases member : pool.ref? i with
  | none => exact .inl ⟨Pool.ref?_eq_none_iff.1 member, by rw [ref, member]⟩
  | some e => exact .inr ⟨e, Array.mem_of_getElem? member, by rw [ref, member]⟩

namespace Handles

theorem of_eq {f g : Pool → Except Failure Answer} (h : Handles is f)
    (same : ∀ pool, f pool = g pool) : Handles is g := funext same ▸ h

theorem found (x : Finding) : Handles [] fun _ => .ok (.found x) where
  reads _ := rfl
  empty := by simp
  within := by simp [made]

theorem invalidOptions : Handles [] fun _ => .error .invalidOptions where
  reads _ := rfl
  empty := by simp
  within := by simp [made]

theorem add (es : List Expr) : Handles [] fun _ => Session.add es where
  reads _ := rfl
  empty := by
    rcases add_cases es with ⟨-, added⟩ | ⟨-, failed⟩
    · simp [added]
    · simp [failed]
  within := by
    intro _
    rcases add_cases es with ⟨small, added⟩ | ⟨-, failed⟩
    · rw [added]
      exact small
    · rw [failed]
      exact List.forall_mem_nil _

theorem addOption : ∀ o : Option Expr, Handles [] fun _ => Session.addOption o
  | some e => add [e]
  | none => found .nothing

theorem print (e : Expr) (options : Option Json) : Handles [] fun _ => do
    let some style := Style.ofOptional? options | .error .invalidOptions
    return .found (.text (style.print .top e)) := by
  cases Style.ofOptional? options with
  | none => exact invalidOptions
  | some style => exact found _

/-- One number is looked up before the others. -/
theorem look (i : Nat) {f : Expr → Pool → Except Failure Answer} (h : ∀ e, Handles is (f e)) :
    Handles (i :: is) fun pool => ref pool i >>= fun e => f e pool where
  reads := by
    intro pool pool' same
    obtain ⟨own, others⟩ := List.forall_mem_cons.1 same
    have member : ref pool i = ref pool' i := by rw [ref, ref, own]
    rw [member]
    exact congrArg (ref pool' i >>= ·) (funext fun e => (h e).reads others)
  empty := by
    intro pool
    rcases ref_cases pool i with ⟨none, missing⟩ | ⟨e, mem, found⟩
    · rw [missing]
      exact ⟨fun _ => ⟨none, List.cons_ne_nil i is⟩, fun _ => rfl⟩
    · have members : pool ≠ #[] := Array.ne_empty_of_mem mem
      rw [found]
      show f e pool = .error .emptyPool ↔ _
      rw [(h e).empty]
      exact ⟨fun missing => absurd missing.1 members, fun missing => absurd missing.1 members⟩
  within := by
    intro pool
    rcases ref_cases pool i with ⟨-, missing⟩ | ⟨e, -, found⟩
    · rw [missing]
      exact List.forall_mem_nil _
    · rw [found]
      exact (h e).within

/-- Some numbers are looked up one after the other. -/
theorem lookAll (is : List Nat) {f : List Expr → Except Failure Answer}
    (h : ∀ es, Handles [] fun _ => f es) :
    Handles is fun pool => is.mapM (ref pool) >>= f := by
  induction is generalizing f with
  | nil => exact h []
  | cons i is ih =>
    simp only [List.mapM_cons, bind_assoc, pure_bind]
    exact look i fun e => ih fun es => h (e :: es)

/-- The operands of some pieces are looked up one after the other. -/
theorem lookPieces (ps : List (Piece Nat)) {f : List (Piece Expr) → Except Failure Answer}
    (h : ∀ given, Handles [] fun _ => f given) :
    Handles (ps.filterMap Piece.operand?) fun pool =>
      match ps.mapM (Piece.resolve? pool.ref?) with
      | some given => f given
      | none => .error .emptyPool := by
  induction ps generalizing f with
  | nil => exact h []
  | cons p ps ih =>
    have others := fun q : Piece Expr => ih fun given => h (q :: given)
    -- a piece with an operand is one more look-up, any other piece goes through as it is
    have operand : ∀ (x : Nat) (put : Expr → Piece Expr),
        Handles (x :: ps.filterMap Piece.operand?) fun pool =>
          match (do return (← (pool.ref? x).map put) :: (← ps.mapM (Piece.resolve? pool.ref?))) with
          | some given => f given
          | none => .error .emptyPool := by
      intro x put
      refine (look x fun e => others (put e)).of_eq fun pool => ?_
      rw [ref]
      cases pool.ref? x with
      | none => rfl
      | some e => cases ps.mapM (Piece.resolve? pool.ref?) <;> rfl
    have plain : ∀ q : Piece Expr,
        Handles (ps.filterMap Piece.operand?) fun pool =>
          match (do return q :: (← ps.mapM (Piece.resolve? pool.ref?))) with
          | some given => f given
          | none => .error .emptyPool := by
      intro q
      refine (others q).of_eq fun pool => ?_
      cases ps.mapM (Piece.resolve? pool.ref?) <;> rfl
    simp only [List.mapM_cons]
    cases p with
    | connective c => exact plain (.connective c)
    | left x => exact operand x .left
    | right x => exact operand x .right
    | location loc => exact plain (.location loc)
    | nothing => exact plain .nothing

end Handles

theorem handles_answer (s : Step) : Handles s.refs fun pool => answer pool s := by
  cases s with
  | add e => exact .add [e]
  | not i => exact .look i fun e => .add [.not none e]
  | binary loc c i j => exact .look i fun l => .look j fun r => .add [.binary loc c l r]
  | relocate i loc => exact .look i fun e => .add [e.withLocation (some loc)]
  | negate i => exact .look i fun e => .add [e.negate]
  | pushDown i => exact .look i fun e => .add [e.pushDown]
  | withoutRepeats i => exact .look i fun e => .add [e.withoutRepeats]
  | operands i c => exact .look i fun e => .add (e.operands c)
  | chain c is => exact .lookAll is fun es => .addOption (Expr.chain? c es)
  | left i => exact .look i fun e => .addOption (e.binary?.map (·.2.1))
  | right i => exact .look i fun e => .addOption (e.binary?.map (·.2.2))
  | operand i => exact .look i fun e => .addOption e.negated?
  | draft pieces =>
    refine (Handles.lookPieces pieces fun given =>
      .found (.stages ((Draft.blank.stages given).map Draft.finish))).of_eq fun pool => ?_
    rw [answer]
    cases pieces.mapM (Piece.resolve? pool.ref?) <;> rfl
  | equal i j => exact .look i fun a => .look j fun b => .found (.flag (a == b))
  | print i options => exact .look i fun e => .print e options
  | columns i => exact .look i fun e => .found (.columns e.columns)
  | location i => exact .look i fun e => .found (.location e.location)

/-! ## Steps -/

/-- The pool after a step. -/
def next (pool : Pool) (s : Step) : Pool := grow pool (answer pool s)

/-- No member is above the limit. -/
def Bounded (pool : Pool) : Prop := ∀ e ∈ pool, e.size ≤ sizeLimit

theorem toList_next (pool : Pool) (s : Step) :
    (next pool s).toList = pool.toList ++ made (answer pool s) := toList_grow pool _

theorem next_eq_self_of_error {f : Failure} (failed : answer pool s = .error f) :
    next pool s = pool := by
  rw [next, failed]
  rfl

theorem bounded_next (h : Bounded pool) (s : Step) : Bounded (next pool s) := by
  intro e he
  rw [← Array.mem_toList_iff, toList_next] at he
  rcases List.mem_append.1 he with old | new
  · exact h e (Array.mem_toList_iff.1 old)
  · exact (handles_answer s).within e new

/-- A step that fails for want of a member is a step on the empty pool. -/
theorem answer_eq_emptyPool_iff : answer pool s = .error .emptyPool ↔ pool = #[] ∧ s.refs ≠ [] :=
  (handles_answer s).empty

/-! ## Steps that are not too big -/

theorem add_ne_tooBig {es : List Expr} (small : ∀ e ∈ es, e.size ≤ sizeLimit) :
    add es ≠ .error .tooBig := by
  rcases add_cases es with ⟨-, added⟩ | ⟨⟨e, he, more⟩, -⟩
  · simp [added]
  · exact absurd more (Nat.not_lt_of_le (small e he))

theorem addOption_ne_tooBig {o : Option Expr} (small : ∀ e ∈ o, e.size ≤ sizeLimit) :
    addOption o ≠ .error .tooBig := by
  cases o with
  | none => simp [addOption]
  | some e => exact add_ne_tooBig (List.forall_mem_singleton.2 (small e rfl))

theorem look_ne_tooBig {i : Nat} {f : Expr → Except Failure Answer}
    (h : ∀ e ∈ pool, f e ≠ .error .tooBig) : (ref pool i >>= f) ≠ .error .tooBig := by
  rcases ref_cases pool i with ⟨-, missing⟩ | ⟨e, mem, found⟩
  · rw [missing]
    simp [bind, Except.bind]
  · rw [found]
    exact h e mem

/-- Taking members apart and dropping repeats makes nothing that is too big. -/
theorem answer_ne_tooBig (h : Bounded pool) (keeps : s.grows = false) :
    answer pool s ≠ .error .tooBig := by
  have one : ∀ {i : Nat} {f : Expr → Expr}, (∀ e, (f e).size ≤ e.size) →
      (ref pool i >>= fun e => add [f e]) ≠ .error .tooBig := by
    intro i f smaller
    apply look_ne_tooBig
    intro e he
    exact add_ne_tooBig (List.forall_mem_singleton.2 (Nat.le_trans (smaller e) (h e he)))
  have part : ∀ {i : Nat} {f : Expr → Option Expr} (m : Move), (∀ e, f e = e.operand? m) →
      (ref pool i >>= fun e => addOption (f e)) ≠ .error .tooBig := by
    intro i f m taken
    apply look_ne_tooBig
    intro e he
    apply addOption_ne_tooBig
    intro x hx
    rw [taken] at hx
    exact Nat.le_trans (Nat.le_of_lt (Expr.size_lt_of_operand? hx)) (h e he)
  cases s with
  | add | not | binary | negate | pushDown | chain => cases keeps
  | relocate i loc => exact one fun e => Nat.le_of_eq (Expr.size_withLocation _ e)
  | withoutRepeats i => exact one Expr.size_withoutRepeats_le
  | operands i c =>
    apply look_ne_tooBig
    intro e he
    exact add_ne_tooBig fun x hx => Nat.le_trans (Expr.size_le_of_mem_operands hx) (h e he)
  | left i => exact part .left fun e => by cases e <;> rfl
  | right i => exact part .right fun e => by cases e <;> rfl
  | operand i => exact part .operand fun e => by cases e <;> rfl
  | draft pieces =>
    rw [answer]
    cases pieces.mapM (Piece.resolve? pool.ref?) <;> simp [pure, Except.pure]
  | equal i j => exact look_ne_tooBig fun _ _ => look_ne_tooBig fun _ _ => by simp [pure, Except.pure]
  | print i options =>
    apply look_ne_tooBig
    intro e _
    cases Style.ofOptional? options <;> simp [pure, Except.pure]
  | columns i => exact look_ne_tooBig fun _ _ => by simp [pure, Except.pure]
  | location i => exact look_ne_tooBig fun _ _ => by simp [pure, Except.pure]

/-! ## Sessions -/

/-- The pool after some steps. -/
def after (pool : Pool) (ss : List Step) : Pool := ss.foldl next pool

theorem bounded_after (h : Bounded pool) (ss : List Step) : Bounded (after pool ss) := by
  induction ss generalizing pool with
  | nil => exact h
  | cons s ss ih => exact ih (bounded_next h s)

theorem bounded_after_empty (ss : List Step) : Bounded (after #[] ss) :=
  bounded_after (fun _ mem => absurd mem (Array.not_mem_empty _)) ss

/-- What is in the pool at the end is in the answers. -/
theorem toList_after (pool : Pool) (ss : List Step) :
    (after pool ss).toList = pool.toList ++ (run pool ss).flatMap made := by
  induction ss generalizing pool with
  | nil => exact (List.append_nil _).symm
  | cons s ss ih =>
    show (after (next pool s) ss).toList =
      pool.toList ++ (made (answer pool s) ++ (run (next pool s) ss).flatMap made)
    rw [ih, toList_next, List.append_assoc]

/-- There is no member yet for the first step, and a single one when a number is looked up again. -/
example :
    let a := Expr.column none ⟨none, "a"⟩
    (run #[] [.not 0, .add a, .not 5]).map made = [[], [a], [.not none a]] := rfl

theorem run_append (pool : Pool) (ss ts : List Step) :
    run pool (ss ++ ts) = run pool ss ++ run (after pool ss) ts := by
  induction ss generalizing pool with
  | nil => rfl
  | cons s ss ih => exact congrArg (answer pool s :: ·) (ih (next pool s))

theorem getElem?_run (pool : Pool) (ss : List Step) (i : Nat) :
    (run pool ss)[i]? = (ss[i]?).map (answer (after pool (ss.take i))) := by
  induction ss generalizing pool i with
  | nil => rfl
  | cons s ss ih =>
    cases i with
    | zero => rfl
    | succ i => exact ih (next pool s) i

/-- A member keeps its place. -/
theorem ref?_after {i : Nat} (h : i < pool.size) (ss : List Step) :
    (after pool ss).ref? i = pool.ref? i := by
  have whole := toList_after pool ss
  have longer : i < (after pool ss).size := by
    rw [← Array.length_toList, whole, List.length_append]
    exact Nat.lt_add_right _ h
  rw [Pool.ref?_of_lt h, Pool.ref?_of_lt longer, ← Array.getElem?_toList, whole,
    List.getElem?_append_left h, Array.getElem?_toList]

/-- A step that names its members by their places answers the same whatever is done before it. -/
theorem answer_after (h : ∀ i ∈ s.refs, i < pool.size) (ss : List Step) :
    answer (after pool ss) s = answer pool s :=
  (handles_answer s).reads fun i hi => ref?_after (h i hi) ss

/-- Once there is a member none is missing. -/
theorem emptyPool_not_mem_run (h : pool ≠ #[]) (ss : List Step) :
    .error .emptyPool ∉ run pool ss := by
  intro mem
  obtain ⟨i, answered⟩ := List.mem_iff_getElem?.1 mem
  rw [getElem?_run] at answered
  obtain ⟨s, -, failed⟩ := Option.map_eq_some_iff.1 answered
  obtain ⟨empty, -⟩ := answer_eq_emptyPool_iff.1 failed
  have whole := toList_after pool (ss.take i)
  rw [empty] at whole
  exact h (Array.toList_eq_nil_iff.1 (List.append_eq_nil_iff.1 whole.symm).1)

/-- The steps that do not fail. -/
def succeeding (pool : Pool) : List Step → List Step
  | [] => []
  | s :: ss =>
    match answer pool s with
    | .ok _ => s :: succeeding (next pool s) ss
    | .error _ => succeeding pool ss

/-- Without the steps that fail the pool becomes the same, and the other steps are answered as before. -/
theorem after_succeeding_and_run_succeeding (pool : Pool) (ss : List Step) :
    after pool (succeeding pool ss) = after pool ss ∧
      run pool (succeeding pool ss) = (run pool ss).filter Except.isOk := by
  induction ss generalizing pool with
  | nil => exact ⟨rfl, rfl⟩
  | cons s ss ih =>
    show _ = after (next pool s) ss ∧
      _ = (answer pool s :: run (next pool s) ss).filter Except.isOk
    cases outcome : answer pool s with
    | ok a =>
      obtain ⟨left, answers⟩ := ih (next pool s)
      rw [succeeding, outcome]
      refine ⟨left, ?_⟩
      show answer pool s :: run (next pool s) _ = .ok a :: (run (next pool s) ss).filter Except.isOk
      rw [outcome, answers]
    | error f =>
      rw [succeeding, outcome, next_eq_self_of_error outcome]
      exact ih pool

end Session

end QueryLogic

import QueryLogic.Connective
/-!
What a pass over an expression reports while it runs. Such a pass is a computation that yields a
value and the events on the way, in the order in which they happen; one computation after the other
yields the events of the first and then those of the second.
-/
namespace QueryLogic

/-- A step of a pass that is worth reporting. -/
inductive Event
  /-- A negation was taken away; `negated` says whether the place it stood at was itself negated. -/
  | absorbedNot (negated : Bool)
  /-- A connective under an odd number of negations gave way to its dual. -/
  | flipped (old new : Connective)
  /-- A chain of `before` operands was left with `after` of them. -/
  | removedRepeats (c : Connective) (before after : Nat)
  deriving DecidableEq, Repr

inductive Level
  | trace
  | debug
  deriving DecidableEq, Repr

inductive FieldValue
  | flag (b : Bool)
  | word (s : String)
  | count (n : Nat)
  deriving DecidableEq, Repr

namespace Level

def word : Level → String
  | trace => "TRACE"
  | debug => "DEBUG"

end Level

namespace Event

/-- Steps of one node are details; a chain that lost operands is of more interest. -/
def level : Event → Level
  | absorbedNot _ => .trace
  | flipped _ _ => .trace
  | removedRepeats _ _ _ => .debug

def message : Event → String
  | absorbedNot _ => "absorbing NOT"
  | flipped _ _ => "flipping connective under NOT"
  | removedRepeats _ _ _ => "removed duplicate operands"

def fields : Event → List (String × FieldValue)
  | absorbedNot negated => [("negated", .flag negated)]
  | flipped old new => [("from", .word old.word), ("to", .word new.word)]
  | removedRepeats c before after =>
    [("operator", .word c.word), ("before", .count before), ("after", .count after)]

end Event

/-- A value with the events on the way to it. -/
structure Logged (α : Type) where
  value : α
  events : List Event
  deriving DecidableEq, Repr

namespace Logged

instance : Monad Logged where
  pure a := ⟨a, []⟩
  map f x := ⟨f x.value, x.events⟩
  bind x f := ⟨(f x.value).value, x.events ++ (f x.value).events⟩

def report (e : Event) : Logged Unit := ⟨(), [e]⟩

def reportIf (p : Prop) [Decidable p] (e : Event) : Logged Unit := ⟨(), if p then [e] else []⟩

variable {α β : Type}

@[simp] theorem value_pure (a : α) : (pure a : Logged α).value = a := rfl

@[simp] theorem events_pure (a : α) : (pure a : Logged α).events = [] := rfl

@[simp] theorem value_map (f : α → β) (x : Logged α) : (f <$> x).value = f x.value := rfl

@[simp] theorem events_map (f : α → β) (x : Logged α) : (f <$> x).events = x.events := rfl

@[simp] theorem value_bind (x : Logged α) (f : α → Logged β) :
    (x >>= f).value = (f x.value).value := rfl

@[simp] theorem events_bind (x : Logged α) (f : α → Logged β) :
    (x >>= f).events = x.events ++ (f x.value).events := rfl

@[simp] theorem events_report (e : Event) : (report e).events = [e] := rfl

@[simp] theorem events_reportIf (p : Prop) [Decidable p] (e : Event) :
    (reportIf p e).events = if p then [e] else [] := rfl

instance : LawfulMonad Logged := LawfulMonad.mk'
  Logged
  (fun _ => rfl)
  (fun _ _ => rfl)
  (fun _ _ _ => by simp [bind, List.append_assoc])
  (fun _ _ => rfl)
  (fun _ _ => rfl)
  (fun _ _ => rfl)
  (fun _ _ => by simp [Functor.map, bind, pure])

/-- One computation for each element, one after the other. -/
theorem mapM_eq (f : α → Logged β) (as : List α) :
    as.mapM f = ⟨as.map fun a => (f a).value, as.flatMap fun a => (f a).events⟩ := by
  induction as with
  | nil => rfl
  | cons a as ih =>
    rw [List.mapM_cons, ih]
    exact congrArg (fun events => Logged.mk _ ((f a).events ++ events)) (List.append_nil _)

end Logged

end QueryLogic

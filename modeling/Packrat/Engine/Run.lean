import Packrat.Engine.Eval

/-!
# Running a grammar

* `Grammar.run` — match a rule against a beginning of the input.
* `Grammar.parse` — match a rule against the whole input.  If that fails, a second pass collects
  what would have matched at the furthest offset at which something failed.
* `RunError` — why there is no result; `Report` — the answer, with all that happened on the way.
-/

set_option autoImplicit false

namespace Packrat

/-- Why there is no result. -/
inductive RunError where
  | unknownRule (name : String)
  | mismatch (error : ParseError)
  deriving DecidableEq, Repr

/-- The wording of an error. -/
def RunError.message : RunError → String
  | .unknownRule name => s!"no rule named `{name}`"
  | .mismatch error => error.message

/-- An answer, or a fault, with all that happened on the way. -/
structure Report (σ α : Type) where
  answer : Except Fault α
  events : List Event
  calls : List CallRecord
  user : σ

/-- Run a computation from the state before the first pass. -/
def Run.report {σ α : Type} (r : Run σ α) (user : σ) : Report σ α :=
  match r (.init user) with
  | .ok a s => ⟨.ok a, s.events.toList, s.calls.toList, s.user⟩
  | .error f s => ⟨.error f, s.events.toList, s.calls.toList, s.user⟩

namespace Matcher

variable {σ : Type}

/-- The value of a rule that matches the whole input. -/
def wholeMatch (m : Matcher σ) (start : String) : Run σ (Option Value) := do
  match ← m.fromStart start with
  | .failed => return none
  | .matched stop v =>
    if m.input.isEnd stop then return some v
    else do
      let _ ← Run.failAt stop .endOfInput
      return none

/-- The error of the passes that are over. -/
def mismatch (m : Matcher σ) : Run σ ParseError := do
  match (← get).failures.error m.input.text with
  | .ok e => return e
  | .error f => throw f

/-- Match the whole input; if this fails, match it again to learn what would have matched. -/
def parse (m : Matcher σ) (start : String) : Run σ (Except ParseError Value) := do
  match ← m.wholeMatch start with
  | some v => return .ok v
  | none => do
    modify RunState.secondPass
    match ← m.wholeMatch start with
    | some v => do
      Run.tell .nondeterministic
      return .ok v
    | none => return .error (← m.mismatch)

end Matcher

namespace Grammar

variable {σ : Type}

/-- What input is matched with. -/
def matcher (g : Grammar) (handlers : Handlers σ) (input : List Char) : Matcher σ :=
  ⟨g.rules, handlers, .ofText input⟩

/-- The report about a rule that does not exist. -/
def unknownRule {α : Type} (start : String) (user : σ) : Report σ (Except RunError α) :=
  ⟨.ok (.error (.unknownRule start)), [], [], user⟩

/-- Match a rule against a beginning of the input. -/
def run (g : Grammar) (handlers : Handlers σ) (user : σ) (start : String) (input : List Char) :
    Report σ (Except RunError Outcome) :=
  if (g.rule? start).isNone then unknownRule start user
  else (Except.ok <$> (g.matcher handlers input).fromStart start).report user

/-- Match a rule against the whole input. -/
def parse (g : Grammar) (handlers : Handlers σ) (user : σ) (start : String) (input : List Char) :
    Report σ (Except RunError Value) :=
  if (g.rule? start).isNone then unknownRule start user
  else (Except.mapError RunError.mismatch <$> (g.matcher handlers input).parse start).report user

end Grammar

end Packrat

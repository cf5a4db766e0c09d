import Packrat.Actions.Basic
import Packrat.Engine.LabelStack
import Packrat.Engine.Memo
import Packrat.Failure
import Packrat.Grammar.CharClass

/-!
# The state of a run

* `Terminal` — what can fail by itself, and how it is named in an error.
* `RunState` — everything that changes while input is matched.
* `Run` — a computation on this state.  It ends with a result or with a fault; the state is there in
  both cases, so that what happened before a fault can be told.
-/

set_option autoImplicit false

namespace Packrat

/-- What can fail by itself. -/
inductive Terminal where
  | literal (text : String)
  | charClass (class_ : CharClass)
  | anyChar
  | endOfInput
  deriving DecidableEq, Repr

/-- How a terminal is named in an error. -/
def Terminal.display : Terminal → String
  | .literal text => quote text
  | .charClass k => k.display
  | .anyChar => "any character"
  | .endOfInput => "EOF"

/-- A call that was made, with the labels that it saw. -/
structure CallRecord where
  call : Call
  bindings : Bindings
  deriving Repr

/-- Everything that changes while input is matched. -/
structure RunState (σ : Type) where
  memo : Memo
  /-- The labels of all rules that are being tried. -/
  labels : LabelStack
  /-- The labels of the current rule are those above this height. -/
  frame : Nat
  /-- The current rule. -/
  rule : String
  failures : Failures
  /-- What was told so far. -/
  events : Array Event
  /-- The calls of actions and predicates so far. -/
  calls : Array CallRecord
  /-- The state of the handlers. -/
  user : σ

namespace RunState

variable {σ : Type}

/-- The state before the first pass. -/
def init (user : σ) : RunState σ := ⟨.empty, .empty, 0, "", .init 0, #[], #[], user⟩

/-- The state before the second pass: nothing is known about any rule, and what fails at the
furthest offset is collected. -/
def secondPass (s : RunState σ) : RunState σ :=
  { s with
    memo := .empty
    labels := .empty
    frame := 0
    rule := ""
    failures := s.failures.collect }

/-- The labels that the current rule has bound so far. -/
def visible (s : RunState σ) : Bindings := s.labels.above s.frame

end RunState

/-- A computation on the state of a run. -/
abbrev Run (σ : Type) := EStateM Fault (RunState σ)

namespace Run

variable {σ : Type} {α : Type}

/-- Tell something. -/
def tell (e : Event) : Run σ Unit := modify fun s => { s with events := s.events.push e }

/-- A terminal failed. -/
def failAt (offset : Nat) (t : Terminal) : Run σ Outcome := do
  modify fun s => { s with failures := s.failures.mark offset t.display }
  return .failed

/-- How many labels are bound. -/
def height : Run σ Nat := return (← get).labels.height

/-- Give back the labels above a height. -/
def cut (height : Nat) : Run σ Unit := modify fun s => { s with labels := s.labels.cut height }

/-- Bind a label. -/
def bindLabel (label : String) (v : Value) : Run σ Unit :=
  modify fun s => { s with labels := s.labels.push label v }

/-- Enter a lookahead. -/
def mute : Run σ Unit := modify fun s => { s with failures := s.failures.mute }

/-- Leave a lookahead. -/
def unmute : Run σ Unit := modify fun s => { s with failures := s.failures.unmute }

/-- Set what is known about a rule at an offset. -/
def remember (rule : String) (offset : Nat) (entry : MemoEntry) : Run σ Unit :=
  modify fun s => { s with memo := s.memo.insert rule offset entry }

/-- Make a rule the current one: its labels are those bound from now on.  The answer is the rule
that was the current one before, and its frame. -/
def enter (rule : String) : Run σ (String × Nat) :=
  modifyGet fun s => ((s.rule, s.frame), { s with rule := rule, frame := s.labels.height })

/-- Give back the labels of the current rule and return to the one before. -/
def leave (caller : String × Nat) : Run σ Unit :=
  modify fun s => { s with labels := s.labels.cut s.frame, rule := caller.1, frame := caller.2 }

/-- Ask a handler.  It is told the current rule, and it sees the labels of this rule, which have to
begin within the stack. -/
def ask (hint : Option String) (code : String)
    (handler : Call → Bindings → σ → Response σ α) : Run σ α := fun s =>
  if s.labels.height < s.frame then .error (.frameAboveStack s.frame) s
  else
    let call : Call := ⟨s.rule, hint, code⟩
    let response := handler call s.visible s.user
    let s := { s with
      calls := s.calls.push ⟨call, s.visible⟩
      events := s.events ++ response.events.toArray
      user := response.state }
    match response.answer with
    | .ok a => .ok a s
    | .error f => .error f s

end Run

end Packrat

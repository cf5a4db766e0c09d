import Packrat.Engine.State
import Packrat.Grammar.Basic
import Packrat.Text.Input

/-!
# Matching

A grammar without templates is matched against input.  How a rule fares at an offset is kept, so
that no rule is tried twice at the same offset in one pass.

* `Matcher` — the rules, the handlers and the input.
* `Matcher.eval` — how an expression fares at an offset, given how to try a rule.
* `Matcher.repeatFrom` — repetition.
* `Matcher.invoke` — how a rule fares at an offset.
-/

set_option autoImplicit false

namespace Packrat

/-- What input is matched with. -/
structure Matcher (σ : Type) where
  rules : List Rule
  handlers : Handlers σ
  input : Input

namespace Matcher

variable {σ : Type}

/-- The rule of a name; of several the first counts. -/
def rule? (m : Matcher σ) (name : String) : Option Rule := m.rules.find? (·.name.name == name)

/-- Match `body` as often as it does, at most `bound` times: where the repetition ends, and the
values.  A match that consumes no input is the last one. -/
def repeatFrom (body : Nat → Run σ Outcome) :
    (bound : Nat) → (offset : Nat) → Run σ (Nat × List Value)
  | 0, _ => throw .exhausted
  | bound + 1, offset => do
    let mark ← Run.height
    match ← body offset with
    | .failed => do
      Run.cut mark
      return (offset, [])
    | .matched next v =>
      if next = offset then return (offset, [v])
      else do
        let (stop, vs) ← repeatFrom body bound next
        return (stop, v :: vs)

/-- Match one character that passes a test. -/
def oneChar (m : Matcher σ) (t : Terminal) (test : Char → Bool) (offset : Nat) : Run σ Outcome :=
  match m.input.charAt? offset with
  | none => throw (.offBoundary offset)
  | some none => Run.failAt offset t
  | some (some c) =>
    if test c then return .matched (offset + c.utf8Size) (.text (String.singleton c))
    else Run.failAt offset t

/-- Match exactly a text. -/
def literal (m : Matcher σ) (text : String) (offset : Nat) : Run σ Outcome :=
  if m.input.holdsAt offset text.toList then
    return .matched (offset + byteLength text.toList) (.text text)
  else Run.failAt offset (.literal text)

/-- A predicate matches nothing; its value says that it holds. -/
def verdict (holds : Bool) (offset : Nat) : Outcome :=
  if holds then .matched offset (.bool true) else .failed

/-- Whether an answer is what a polarity asks for. -/
def wants : Polarity → Bool → Bool
  | .positive, b => b
  | .negative, b => !b

mutual

/-- How an expression fares at an offset; `call` tries a rule. -/
def eval (m : Matcher σ) (call : String → Nat → Run σ Outcome) : Expr → Nat → Run σ Outcome
  | .literal _ text, offset => m.literal text offset
  | .charClass _ k, offset => m.oneChar (.charClass k) k.admits offset
  | .anyChar _, offset => m.oneChar .anyChar (fun _ => true) offset
  | .ref reference, offset => call reference.name.name offset
  | .seq _ elements, offset => do
    let mark ← Run.height
    match ← evalSeq m call elements offset with
    | some (stop, vs) => return .matched stop (.list vs)
    | none => do
      Run.cut mark
      return .failed
  | .choice _ branches, offset => evalChoice m call branches offset
  | .star _ body, offset => do
    match ← repeatFrom (fun p => eval m call body p) (m.input.size + 1) offset with
    | (_, []) => return .matched offset .absent
    | (stop, vs) => return .matched stop (.list vs)
  | .plus _ body, offset => do
    match ← repeatFrom (fun p => eval m call body p) (m.input.size + 1) offset with
    | (_, []) => return .failed
    | (stop, vs) => return .matched stop (.list vs)
  | .opt _ body, offset => do
    match ← eval m call body offset with
    | .matched stop v => return .matched stop v
    | .failed => return .matched offset .absent
  | .lookahead _ polarity body, offset => do
    let mark ← Run.height
    Run.mute
    let outcome ← eval m call body offset
    Run.unmute
    Run.cut mark
    return verdict (wants polarity outcome.isMatch) offset
  | .codePredicate _ polarity code, offset => do
    let holds ← Run.ask none code.text m.handlers.predicate
    return verdict (wants polarity holds) offset
  | .label _ name body, offset => do
    match ← eval m call body offset with
    | .matched stop v => do
      Run.bindLabel name.name v
      return .matched stop v
    | .failed => return .failed
  | .action _ hint code body, offset => do
    match ← eval m call body offset with
    | .matched stop _ => return .matched stop (← Run.ask (some hint) code.text m.handlers.action)
    | .failed => return .failed
  | .bareAction _ hint code, offset =>
    return .matched offset (← Run.ask (some hint) code.text m.handlers.action)
  | .group _ body, offset => eval m call body offset

/-- Match expressions one after the other: where the last one stops, and the values. -/
def evalSeq (m : Matcher σ) (call : String → Nat → Run σ Outcome) :
    List Expr → Nat → Run σ (Option (Nat × List Value))
  | [], offset => return some (offset, [])
  | e :: rest, offset => do
    match ← eval m call e offset with
    | .failed => return none
    | .matched next v =>
      match ← evalSeq m call rest next with
      | none => return none
      | some (stop, vs) => return some (stop, v :: vs)

/-- Match the first expression that does match. -/
def evalChoice (m : Matcher σ) (call : String → Nat → Run σ Outcome) :
    List Expr → Nat → Run σ Outcome
  | [], _ => return .failed
  | e :: rest, offset => do
    let mark ← Run.height
    match ← eval m call e offset with
    | .matched stop v => return .matched stop v
    | .failed => do
      Run.cut mark
      evalChoice m call rest offset

end

/-- What is told of an outcome that was known from before. -/
def cachedEvent (name : String) (offset : Nat) : Outcome → Event
  | .matched stop _ => .cachedMatch name offset stop
  | .failed => .cachedFail name offset

/-- What is told of an outcome that was found now. -/
def outcomeEvent (name : String) (offset : Nat) : Outcome → Event
  | .matched stop _ => .matched name offset stop
  | .failed => .failed name offset

/-- How a rule fares at an offset: what is known from before, or else how its body fares.  Between
a rule and itself at the same offset there has to be an answer. -/
def invoke (m : Matcher σ) : (fuel : Nat) → (name : String) → (offset : Nat) → Run σ Outcome
  | 0, _, _ => throw .exhausted
  | fuel + 1, name, offset => do
    match m.rule? name with
    | none => throw (.undefinedRule name)
    | some rule =>
      match (← get).memo.find? name offset with
      | some (.done outcome) => do
        Run.tell (cachedEvent name offset outcome)
        return outcome
      | some .inProgress => throw (.leftRecursion name offset)
      | none => do
        Run.remember name offset .inProgress
        Run.tell (.attempt name offset)
        let caller ← Run.enter name
        let outcome ← eval m (invoke m fuel) rule.expr offset
        Run.leave caller
        Run.tell (outcomeEvent name offset outcome)
        Run.remember name offset (.done outcome)
        return outcome

/-- Rules that wait for one another differ in their name or their offset, so this many invocations
are enough. -/
def fuel (m : Matcher σ) : Nat := m.rules.length * (m.input.size + 1) + 1

/-- How a rule fares at the start of the input. -/
def fromStart (m : Matcher σ) (start : String) : Run σ Outcome := m.invoke m.fuel start 0

end Matcher

end Packrat

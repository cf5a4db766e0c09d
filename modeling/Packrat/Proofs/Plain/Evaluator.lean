import Packrat.Actions.Basic
import Packrat.Engine.State
import Packrat.Grammar.Basic
import Packrat.Text.Offset

/-!
# Plain evaluation of parsing expressions

What a grammar means, without anything that makes it fast: no memory of earlier answers, no stack of
labels that rules share, no record of failures.

* `Meaning` — what actions and predicates answer, as functions of the call and the labels.
* `Handlers.Pure` — handlers that answer by such functions.
* `Step` — what happens on the way: terminals that fail, calls that are made, lookaheads and rules
  with what happens inside them.
* `Trial` — an answer with the labels that are bound after it and the steps on the way to it.
* `Plain` — what is evaluated: rules, the meaning of code, and a text.
* `Plain.lookahead`, `Plain.predicate` — what becomes of the answer of the body of a lookahead, or of
  a predicate, under each polarity.
* `Plain.rule`, `Plain.expr`, `Plain.sequence`, `Plain.choice`, `Plain.iterate` — the evaluation.  A
  rule is evaluated anew at each reference, and it begins without labels.  There is no answer where
  a rule is missing, an offset is no boundary of the text, or the evaluation never ends.
-/

set_option autoImplicit false

namespace Packrat

/-- What actions and predicates answer. -/
structure Meaning where
  action : Call → Bindings → Value
  predicate : Call → Bindings → Bool

/-- **Handlers that answer every call by a function of the call and the labels.**  They may keep a
state and tell what they like about calls, but nothing that a run tells about rules. -/
structure Handlers.Pure {σ : Type} (h : Handlers σ) (f : Meaning) : Prop where
  action : ∀ call b u, (h.action call b u).answer = .ok (f.action call b)
  predicate : ∀ call b u, (h.predicate call b u).answer = .ok (f.predicate call b)
  actionTells : ∀ call b u, ∀ e ∈ (h.action call b u).events, e.level ≠ .trace
  predicateTells : ∀ call b u, ∀ e ∈ (h.predicate call b u).events, e.level ≠ .trace

theorem Handlers.ofFunctions_pure (f : Meaning) :
    (Handlers.ofFunctions f.action f.predicate).Pure f := by
  refine ⟨fun _ _ _ => rfl, fun _ _ _ => rfl, ?_, ?_⟩ <;> intro call b u e he <;> cases he

/-- The handlers that are no handlers at all are pure too, though each call warns. -/
theorem Handlers.none_pure (σ : Type) : (Handlers.none σ).Pure ⟨fun _ _ => .absent, fun _ _ => false⟩ := by
  refine ⟨fun _ _ _ => rfl, fun _ _ _ => rfl, ?_, ?_⟩ <;> intro call b u e he <;>
    simp only [Handlers.none, List.mem_singleton] at he <;> subst he <;> simp [Event.level]

/-- What happens while an expression is evaluated. -/
inductive Step where
  /-- A terminal fails. -/
  | failure (offset : Nat) (terminal : Terminal)
  /-- An action or a predicate is called. -/
  | asked (record : CallRecord)
  /-- The body of a lookahead is evaluated. -/
  | lookahead (inside : List Step)
  /-- A rule is evaluated. -/
  | rule (name : String) (offset : Nat) (outcome : Outcome) (inside : List Step)
  /-- The outcome of a rule is known from before.  Without a memory there is no such step. -/
  | known (name : String) (offset : Nat) (outcome : Outcome)

/-- An answer, the labels of the current rule after it, and the steps on the way to it. -/
structure Trial (α : Type) where
  result : α
  labels : Bindings
  steps : List Step

/-- What is evaluated. -/
structure Plain where
  rules : List Rule
  meaning : Meaning
  text : List Char

namespace Plain

/-- A terminal that fails. -/
def missed (t : Terminal) (offset : Nat) (labels : Bindings) : Trial Outcome :=
  ⟨.failed, labels, [.failure offset t]⟩

/-- Exactly a text. -/
def literal (c : Plain) (text : String) (labels : Bindings) (offset : Nat) :
    Option (Trial Outcome) := do
  let rest ← dropBytes? c.text offset
  if text.toList.isPrefixOf rest then
    return ⟨.matched (offset + byteLength text.toList) (.text text), labels, []⟩
  else return missed (.literal text) offset labels

/-- One character that passes a test. -/
def oneChar (c : Plain) (t : Terminal) (test : Char → Bool) (labels : Bindings) (offset : Nat) :
    Option (Trial Outcome) := do
  match ← dropBytes? c.text offset with
  | [] => return missed t offset labels
  | x :: _ =>
    if test x then return ⟨.matched (offset + x.utf8Size) (.text (String.singleton x)), labels, []⟩
    else return missed t offset labels

/-- What a lookahead answers.  A positive one matches where its body does, a negative one where its
body does not; the match is empty, and its value is true. -/
def lookahead (polarity : Polarity) (body : Outcome) (offset : Nat) : Outcome :=
  match polarity, body with
  | .positive, .matched _ _ => .matched offset (.bool true)
  | .positive, .failed => .failed
  | .negative, .matched _ _ => .failed
  | .negative, .failed => .matched offset (.bool true)

/-- What a predicate answers.  A positive one matches where it holds, a negative one where it does
not; the match is empty, and its value is true. -/
def predicate (polarity : Polarity) (holds : Bool) (offset : Nat) : Outcome :=
  match polarity, holds with
  | .positive, true => .matched offset (.bool true)
  | .positive, false => .failed
  | .negative, true => .failed
  | .negative, false => .matched offset (.bool true)

/-- A predicate about the labels of the current rule. -/
def askPredicate (c : Plain) (current : String) (polarity : Polarity) (code : Code)
    (labels : Bindings) (offset : Nat) : Trial Outcome :=
  let call : Call := ⟨current, none, code.text⟩
  ⟨predicate polarity (c.meaning.predicate call labels) offset, labels, [.asked ⟨call, labels⟩]⟩

/-- The value of an action on the labels of the current rule, after `steps`. -/
def askAction (c : Plain) (current hint : String) (code : Code) (labels : Bindings) (stop : Nat)
    (steps : List Step) : Trial Outcome :=
  let call : Call := ⟨current, some hint, code.text⟩
  ⟨.matched stop (c.meaning.action call labels), labels, steps ++ [.asked ⟨call, labels⟩]⟩

mutual

/-- How a rule fares at an offset, and the steps of its body. -/
def rule (c : Plain) (name : String) (offset : Nat) : Option (Outcome × List Step) := do
  let r ← c.rules.find? (·.name.name == name)
  let t ← c |>.expr name r.expr [] offset
  return (t.result, t.steps)
partial_fixpoint

/-- How an expression in the body of the rule `current` fares at an offset, where `labels` are bound
so far.  What fails leaves no labels, and no more does a lookahead. -/
def expr (c : Plain) (current : String) (e : Expr) (labels : Bindings) (offset : Nat) :
    Option (Trial Outcome) :=
  match e with
  | .literal _ text => literal c text labels offset
  | .charClass _ k => oneChar c (.charClass k) k.admits labels offset
  | .anyChar _ => oneChar c .anyChar (fun _ => true) labels offset
  | .ref reference => do
    let (outcome, inside) ← c |>.rule reference.name.name offset
    return ⟨outcome, labels, [.rule reference.name.name offset outcome inside]⟩
  | .seq _ elements => do
    let t ← c |>.sequence current elements labels offset
    match t.result with
    | some (stop, vs) => return ⟨.matched stop (.list vs), t.labels, t.steps⟩
    | none => return ⟨.failed, labels, t.steps⟩
  | .choice _ branches => c |>.choice current branches labels offset
  | .star _ body => do
    let t ← c |>.iterate current body labels offset
    match t.result with
    | (_, []) => return ⟨.matched offset .absent, labels, t.steps⟩
    | (stop, vs) => return ⟨.matched stop (.list vs), t.labels, t.steps⟩
  | .plus _ body => do
    let t ← c |>.iterate current body labels offset
    match t.result with
    | (_, []) => return ⟨.failed, labels, t.steps⟩
    | (stop, vs) => return ⟨.matched stop (.list vs), t.labels, t.steps⟩
  | .opt _ body => do
    let t ← c |>.expr current body labels offset
    match t.result with
    | .matched _ _ => return t
    | .failed => return ⟨.matched offset .absent, labels, t.steps⟩
  | .lookahead _ polarity body => do
    let t ← c |>.expr current body labels offset
    return ⟨lookahead polarity t.result offset, labels, [.lookahead t.steps]⟩
  | .codePredicate _ polarity code => some (askPredicate c current polarity code labels offset)
  | .label _ name body => do
    let t ← c |>.expr current body labels offset
    match t.result with
    | .matched _ v => return ⟨t.result, t.labels ++ [(name.name, v)], t.steps⟩
    | .failed => return ⟨.failed, labels, t.steps⟩
  | .action _ hint code body => do
    let t ← c |>.expr current body labels offset
    match t.result with
    | .matched stop _ => return askAction c current hint code t.labels stop t.steps
    | .failed => return ⟨.failed, labels, t.steps⟩
  | .bareAction _ hint code => some (askAction c current hint code labels offset [])
  | .group _ body => c |>.expr current body labels offset
partial_fixpoint

/-- Expressions one after the other: where the last one stops, and the values. -/
def sequence (c : Plain) (current : String) (es : List Expr) (labels : Bindings) (offset : Nat) :
    Option (Trial (Option (Nat × List Value))) :=
  match es with
  | [] => some ⟨some (offset, []), labels, []⟩
  | e :: rest => do
    let t ← c |>.expr current e labels offset
    match t.result with
    | .failed => return ⟨none, labels, t.steps⟩
    | .matched next v => do
      let u ← c |>.sequence current rest t.labels next
      return ⟨u.result.map fun (stop, vs) => (stop, v :: vs), u.labels, t.steps ++ u.steps⟩
partial_fixpoint

/-- The first expression that matches.  Each begins with the same labels. -/
def choice (c : Plain) (current : String) (es : List Expr) (labels : Bindings) (offset : Nat) :
    Option (Trial Outcome) :=
  match es with
  | [] => some ⟨.failed, labels, []⟩
  | e :: rest => do
    let t ← c |>.expr current e labels offset
    match t.result with
    | .matched _ _ => return t
    | .failed => do
      let u ← c |>.choice current rest labels offset
      return ⟨u.result, u.labels, t.steps ++ u.steps⟩
partial_fixpoint

/-- An expression as often as it matches: where the last match stops, and the values.  A match that
consumes nothing is the last one. -/
def iterate (c : Plain) (current : String) (body : Expr) (labels : Bindings) (offset : Nat) :
    Option (Trial (Nat × List Value)) := do
  let t ← c |>.expr current body labels offset
  match t.result with
  | .failed => return ⟨(offset, []), labels, t.steps⟩
  | .matched next v =>
    if next = offset then return ⟨(offset, [v]), t.labels, t.steps⟩
    else do
      let u ← c |>.iterate current body t.labels next
      return ⟨(u.result.1, v :: u.result.2), u.labels, t.steps ++ u.steps⟩
partial_fixpoint

end

end Plain

end Packrat

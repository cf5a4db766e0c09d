import Packrat.Proofs.Plain.Evaluator
import Packrat.Proofs.Template.Resolve

/-!
# Evaluation of a grammar with templates

What a grammar with templates means by itself.  It is the plain evaluation but for references: what a
reference stands for is found where it is written, and a template's body is evaluated there and then,
without labels, with its parameters standing for what the arguments stood for.

* `Direct` — what is evaluated: a grammar, the meaning of code, and a text.
* `Direct.target`, `Direct.expr`, `Direct.sequence`, `Direct.choice`, `Direct.iterate` — the
  evaluation.  Calls within the body of a target are made in its name.
-/

set_option autoImplicit false

namespace Packrat

/-- What is evaluated. -/
structure Direct where
  grammar : Grammar
  meaning : Meaning
  text : List Char

/-- The evaluation of a grammar with templates. -/
def Grammar.direct (g : Grammar) (f : Meaning) (input : List Char) : Direct := ⟨g, f, input⟩

namespace Direct

/-- Terminals and calls are evaluated as without templates. -/
def plain (d : Direct) : Plain := ⟨d.grammar.rules, d.meaning, d.text⟩

mutual

/-- How a target fares at an offset, and the steps of its body. -/
def target (d : Direct) (t : Target) (offset : Nat) : Option (Outcome × List Step) := do
  let (env, e) ← d.grammar.body? t
  let u ← d |>.expr env t.name e [] offset
  return (u.result, u.steps)
partial_fixpoint

/-- How an expression in the body of the target `current` fares at an offset, where `env` tells what
the parameters stand for and `labels` are bound so far. -/
def expr (d : Direct) (env : Environment) (current : String) (e : Expr) (labels : Bindings)
    (offset : Nat) : Option (Trial Outcome) :=
  match e with
  | .literal _ text => d.plain.literal text labels offset
  | .charClass _ k => d.plain.oneChar (.charClass k) k.admits labels offset
  | .anyChar _ => d.plain.oneChar .anyChar (fun _ => true) labels offset
  | .ref reference => do
    let t := env.resolve reference
    let (outcome, inside) ← d |>.target t offset
    return ⟨outcome, labels, [.rule t.name offset outcome inside]⟩
  | .seq _ elements => do
    let t ← d |>.sequence env current elements labels offset
    match t.result with
    | some (stop, vs) => return ⟨.matched stop (.list vs), t.labels, t.steps⟩
    | none => return ⟨.failed, labels, t.steps⟩
  | .choice _ branches => d |>.choice env current branches labels offset
  | .star _ body => do
    let t ← d |>.iterate env current body labels offset
    match t.result with
    | (_, []) => return ⟨.matched offset .absent, labels, t.steps⟩
    | (stop, vs) => return ⟨.matched stop (.list vs), t.labels, t.steps⟩
  | .plus _ body => do
    let t ← d |>.iterate env current body labels offset
    match t.result with
    | (_, []) => return ⟨.failed, labels, t.steps⟩
    | (stop, vs) => return ⟨.matched stop (.list vs), t.labels, t.steps⟩
  | .opt _ body => do
    let t ← d |>.expr env current body labels offset
    match t.result with
    | .matched _ _ => return t
    | .failed => return ⟨.matched offset .absent, labels, t.steps⟩
  | .lookahead _ polarity body => do
    let t ← d |>.expr env current body labels offset
    return ⟨Plain.lookahead polarity t.result offset, labels, [.lookahead t.steps]⟩
  | .codePredicate _ polarity code =>
    some (d.plain.askPredicate current polarity code labels offset)
  | .label _ name body => do
    let t ← d |>.expr env current body labels offset
    match t.result with
    | .matched _ v => return ⟨t.result, t.labels ++ [(name.name, v)], t.steps⟩
    | .failed => return ⟨.failed, labels, t.steps⟩
  | .action _ hint code body => do
    let t ← d |>.expr env current body labels offset
    match t.result with
    | .matched stop _ => return d.plain.askAction current hint code t.labels stop t.steps
    | .failed => return ⟨.failed, labels, t.steps⟩
  | .bareAction _ hint code => some (d.plain.askAction current hint code labels offset [])
  | .group _ body => d |>.expr env current body labels offset
partial_fixpoint

/-- Expressions one after the other: where the last one stops, and the values. -/
def sequence (d : Direct) (env : Environment) (current : String) (es : List Expr)
    (labels : Bindings) (offset : Nat) : Option (Trial (Option (Nat × List Value))) :=
  match es with
  | [] => some ⟨some (offset, []), labels, []⟩
  | e :: rest => do
    let t ← d |>.expr env current e labels offset
    match t.result with
    | .failed => return ⟨none, labels, t.steps⟩
    | .matched next v => do
      let u ← d |>.sequence env current rest t.labels next
      return ⟨u.result.map fun (stop, vs) => (stop, v :: vs), u.labels, t.steps ++ u.steps⟩
partial_fixpoint

/-- The first expression that matches.  Each begins with the same labels. -/
def choice (d : Direct) (env : Environment) (current : String) (es : List Expr)
    (labels : Bindings) (offset : Nat) : Option (Trial Outcome) :=
  match es with
  | [] => some ⟨.failed, labels, []⟩
  | e :: rest => do
    let t ← d |>.expr env current e labels offset
    match t.result with
    | .matched _ _ => return t
    | .failed => do
      let u ← d |>.choice env current rest labels offset
      return ⟨u.result, u.labels, t.steps ++ u.steps⟩
partial_fixpoint

/-- An expression as often as it matches: where the last match stops, and the values.  A match that
consumes nothing is the last one. -/
def iterate (d : Direct) (env : Environment) (current : String) (body : Expr) (labels : Bindings)
    (offset : Nat) : Option (Trial (Nat × List Value)) := do
  let t ← d |>.expr env current body labels offset
  match t.result with
  | .failed => return ⟨(offset, []), labels, t.steps⟩
  | .matched next v =>
    if next = offset then return ⟨(offset, [v]), t.labels, t.steps⟩
    else do
      let u ← d |>.iterate env current body t.labels next
      return ⟨(u.result.1, v :: u.result.2), u.labels, t.steps ++ u.steps⟩
partial_fixpoint

end

end Direct

end Packrat

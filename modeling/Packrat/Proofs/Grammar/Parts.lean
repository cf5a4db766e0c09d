import Packrat.Grammar.Basic

/-!
# The parts of an expression

* `Expr.parts`, `Expr.at?` — the parts of an expression, and the part at a path.
* `Expr.parts_induction` — what holds of an expression if it holds of its parts holds of all.
-/

set_option autoImplicit false

namespace Packrat.Expr

/-- The parts of an expression, from left to right. -/
def parts : Expr → List Expr
  | .literal .. | .charClass .. | .anyChar _ | .ref _ | .codePredicate .. | .bareAction .. => []
  | .seq _ elements => elements
  | .choice _ branches => branches
  | .star _ body | .plus _ body | .opt _ body | .lookahead _ _ body | .label _ _ body
  | .action _ _ _ body | .group _ body => [body]

/-- The part of an expression at a path: the numbers of the parts on the way down to it. -/
def at? : Expr → List Nat → Option Expr
  | e, [] => some e
  | e, k :: path => e.parts[k]?.bind (·.at? path)

theorem at?_append_singleton (e : Expr) (path : List Nat) (k : Nat) :
    e.at? (path ++ [k]) = (e.at? path).bind fun part => part.parts[k]? := by
  induction path generalizing e with
  | nil =>
    show e.parts[k]?.bind (fun part => part.at? []) = e.parts[k]?
    exact Option.bind_fun_some e.parts[k]?
  | cons i path ih =>
    show e.parts[i]?.bind (fun part => part.at? (path ++ [k])) = _
    rw [at?, Option.bind_assoc]
    exact congrArg (e.parts[i]?.bind ·) (funext fun part => ih part)

theorem sizeOf_lt_of_mem_parts {e x : Expr} (h : x ∈ e.parts) : sizeOf x < sizeOf e := by
  cases e with
  | literal | charClass | anyChar | ref | codePredicate | bareAction => cases h
  | seq span es | choice span es =>
    have hlt := List.sizeOf_lt_of_mem (show x ∈ es from h)
    simp only [seq.sizeOf_spec, choice.sizeOf_spec]
    omega
  | star | plus | opt | lookahead | label | action | group =>
    cases List.mem_singleton.1 h
    simp only [star.sizeOf_spec, plus.sizeOf_spec, opt.sizeOf_spec, lookahead.sizeOf_spec,
      label.sizeOf_spec, action.sizeOf_spec, group.sizeOf_spec]
    omega

/-- **Induction on the parts of an expression.** -/
theorem parts_induction {P : Expr → Prop} (h : ∀ e, (∀ x ∈ e.parts, P x) → P e) (e : Expr) : P e :=
  h e fun x hx =>
    have _ := sizeOf_lt_of_mem_parts hx
    parts_induction h x
termination_by sizeOf e

end Packrat.Expr

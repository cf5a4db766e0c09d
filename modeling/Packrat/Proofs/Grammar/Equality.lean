import Packrat.Grammar.Basic

/-!
# Grammars can be compared

* `Reference.same`, `Expr.same` — two trees are compared from the root down.
* `Reference.same_iff`, `Expr.same_iff` — they are the same if and only if they are equal.
* Instances that decide equality of references, expressions, rules, templates and grammars.
-/

set_option autoImplicit false

namespace Packrat

mutual

/-- Two references are the same tree. -/
def Reference.same : Reference → Reference → Bool
  | .mk span name args, .mk span' name' args' =>
    span == span' && name == name' && Reference.sameAll args args'

/-- Two lists of references are the same. -/
def Reference.sameAll : List Reference → List Reference → Bool
  | [], [] => true
  | r :: rest, r' :: rest' => r.same r' && Reference.sameAll rest rest'
  | _, _ => false

end

mutual

theorem Reference.same_iff (r r' : Reference) : r.same r' = true ↔ r = r' := by
  cases r with
  | mk span name args =>
    cases r' with
    | mk span' name' args' =>
      rw [Reference.same, Bool.and_eq_true, Bool.and_eq_true, beq_iff_eq, beq_iff_eq,
        Reference.sameAll_iff args args', Reference.mk.injEq, and_assoc]

theorem Reference.sameAll_iff (rs rs' : List Reference) :
    Reference.sameAll rs rs' = true ↔ rs = rs' := by
  cases rs with
  | nil => cases rs' <;> simp [Reference.sameAll]
  | cons r rest =>
    cases rs' with
    | nil => simp [Reference.sameAll]
    | cons r' rest' =>
      rw [Reference.sameAll, Bool.and_eq_true, Reference.same_iff r r',
        Reference.sameAll_iff rest rest', List.cons.injEq]

end

instance : DecidableEq Reference := fun r r' => decidable_of_iff _ (Reference.same_iff r r')

mutual

/-- Two expressions are the same tree. -/
def Expr.same : Expr → Expr → Bool
  | .literal span text, .literal span' text' => span == span' && text == text'
  | .charClass span k, .charClass span' k' => span == span' && k == k'
  | .anyChar span, .anyChar span' => span == span'
  | .ref r, .ref r' => r == r'
  | .seq span es, .seq span' es' => span == span' && Expr.sameAll es es'
  | .choice span es, .choice span' es' => span == span' && Expr.sameAll es es'
  | .star span e, .star span' e' => span == span' && e.same e'
  | .plus span e, .plus span' e' => span == span' && e.same e'
  | .opt span e, .opt span' e' => span == span' && e.same e'
  | .lookahead span p e, .lookahead span' p' e' => span == span' && p == p' && e.same e'
  | .codePredicate span p k, .codePredicate span' p' k' => span == span' && p == p' && k == k'
  | .label span n e, .label span' n' e' => span == span' && n == n' && e.same e'
  | .action span t k e, .action span' t' k' e' =>
    span == span' && t == t' && k == k' && e.same e'
  | .bareAction span t k, .bareAction span' t' k' => span == span' && t == t' && k == k'
  | .group span e, .group span' e' => span == span' && e.same e'
  | _, _ => false

/-- Two lists of expressions are the same. -/
def Expr.sameAll : List Expr → List Expr → Bool
  | [], [] => true
  | e :: rest, e' :: rest' => e.same e' && Expr.sameAll rest rest'
  | _, _ => false

end

mutual

theorem Expr.same_iff (e e' : Expr) : e.same e' = true ↔ e = e' := by
  cases e with
  | seq span es | choice span es =>
    cases e' <;> simp [Expr.same, Expr.sameAll_iff es]
  | star span e | plus span e | opt span e | lookahead span p e | label span n e | action span t k e
  | group span e => cases e' <;> simp [Expr.same, Expr.same_iff e, and_assoc]
  | literal | charClass | anyChar | ref | codePredicate | bareAction =>
    cases e' <;> simp [Expr.same, and_assoc]

theorem Expr.sameAll_iff (es es' : List Expr) : Expr.sameAll es es' = true ↔ es = es' := by
  cases es with
  | nil => cases es' <;> simp [Expr.sameAll]
  | cons e rest =>
    cases es' with
    | nil => simp [Expr.sameAll]
    | cons e' rest' =>
      rw [Expr.sameAll, Bool.and_eq_true, Expr.same_iff e e', Expr.sameAll_iff rest rest',
        List.cons.injEq]

end

instance : DecidableEq Expr := fun e e' => decidable_of_iff _ (Expr.same_iff e e')

deriving instance DecidableEq for Rule, Template, Item, Grammar

end Packrat

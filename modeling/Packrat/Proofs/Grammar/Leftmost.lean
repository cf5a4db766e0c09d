import Packrat.Grammar.LeftRecursion

/-!
# References at the left edge

* `Expr.leftmost` — the references of an expression that can be reached before input is consumed.
* `LeftWalk.expr_eq_foldl` — the walk through an expression enters these one after the other.
* `LeftEdge` — one rule refers to another at its left edge.
-/

set_option autoImplicit false

namespace Packrat

mutual

/-- The references that can be reached before input is consumed, from left to right. -/
def Expr.leftmost (nullableOnes : List String) : Expr → List Reference
  | .literal _ _ => []
  | .charClass _ _ => []
  | .anyChar _ => []
  | .ref reference => [reference]
  | .seq _ elements => Expr.leftmostOf nullableOnes elements
  | .choice _ branches => Expr.leftmostAny nullableOnes branches
  | .star _ body => Expr.leftmost nullableOnes body
  | .plus _ body => Expr.leftmost nullableOnes body
  | .opt _ body => Expr.leftmost nullableOnes body
  | .lookahead _ _ body => Expr.leftmost nullableOnes body
  | .codePredicate _ _ _ => []
  | .label _ _ body => Expr.leftmost nullableOnes body
  | .action _ _ _ body => Expr.leftmost nullableOnes body
  | .bareAction _ _ _ => []
  | .group _ body => Expr.leftmost nullableOnes body

/-- The same for a sequence: up to the first element that has to consume input. -/
def Expr.leftmostOf (nullableOnes : List String) : List Expr → List Reference
  | [] => []
  | e :: rest =>
    Expr.leftmost nullableOnes e ++
      if nullable nullableOnes e then Expr.leftmostOf nullableOnes rest else []

/-- The same for several branches. -/
def Expr.leftmostAny (nullableOnes : List String) : List Expr → List Reference
  | [] => []
  | e :: rest => Expr.leftmost nullableOnes e ++ Expr.leftmostAny nullableOnes rest

end

/-- The rule named `a` refers to `b` at its left edge. -/
def LeftEdge (rules : List Rule) (nullableOnes : List String) (a b : String) : Prop :=
  ∃ r, rules.find? (·.name.name == a) = some r ∧
    ∃ reference ∈ r.expr.leftmost nullableOnes, reference.name.name = b

namespace LeftWalk

mutual

/-- The walk through an expression enters the references at its left edge one after the other. -/
theorem expr_eq_foldl (nullableOnes : List String) (enter : Reference → LeftWalk → LeftWalk)
    (e : Expr) (w : LeftWalk) :
    expr nullableOnes enter e w =
      (e.leftmost nullableOnes).foldl (fun w reference => enter reference w) w := by
  cases e with
  | literal span text => rfl
  | charClass span k => rfl
  | anyChar span => rfl
  | ref reference => rfl
  | seq span elements =>
    rw [expr, Expr.leftmost]
    exact elementsOf_eq_foldl nullableOnes enter elements w
  | choice span branches =>
    rw [expr, Expr.leftmost]
    exact branchesOf_eq_foldl nullableOnes enter branches w
  | star span body => rw [expr, Expr.leftmost]; exact expr_eq_foldl nullableOnes enter body w
  | plus span body => rw [expr, Expr.leftmost]; exact expr_eq_foldl nullableOnes enter body w
  | opt span body => rw [expr, Expr.leftmost]; exact expr_eq_foldl nullableOnes enter body w
  | lookahead span polarity body =>
    rw [expr, Expr.leftmost]; exact expr_eq_foldl nullableOnes enter body w
  | codePredicate span polarity code => rfl
  | label span name body => rw [expr, Expr.leftmost]; exact expr_eq_foldl nullableOnes enter body w
  | action span hint code body =>
    rw [expr, Expr.leftmost]; exact expr_eq_foldl nullableOnes enter body w
  | bareAction span hint code => rfl
  | group span body => rw [expr, Expr.leftmost]; exact expr_eq_foldl nullableOnes enter body w

theorem elementsOf_eq_foldl (nullableOnes : List String)
    (enter : Reference → LeftWalk → LeftWalk) (es : List Expr) (w : LeftWalk) :
    elementsOf nullableOnes enter es w =
      (Expr.leftmostOf nullableOnes es).foldl (fun w reference => enter reference w) w := by
  cases es with
  | nil => rfl
  | cons e rest =>
    rw [elementsOf, Expr.leftmostOf, List.foldl_append, expr_eq_foldl nullableOnes enter e w]
    split
    · exact elementsOf_eq_foldl nullableOnes enter rest _
    · rfl

theorem branchesOf_eq_foldl (nullableOnes : List String)
    (enter : Reference → LeftWalk → LeftWalk) (es : List Expr) (w : LeftWalk) :
    branchesOf nullableOnes enter es w =
      (Expr.leftmostAny nullableOnes es).foldl (fun w reference => enter reference w) w := by
  cases es with
  | nil => rfl
  | cons e rest =>
    rw [branchesOf, Expr.leftmostAny, List.foldl_append, expr_eq_foldl nullableOnes enter e w]
    exact branchesOf_eq_foldl nullableOnes enter rest _

end

/-- Enter a reference: report a cycle, leave out what was visited, or walk the rule. -/
def follow (rules : List Rule) (nullableOnes : List String) (fuel : Nat) (stack : List String)
    (w : LeftWalk) (reference : Reference) : LeftWalk :=
  let name := reference.name.name
  if name ∈ stack then
    let path := name :: ((stack.takeWhile (· != name)).reverse ++ [name])
    w.report (.leftRecursion path reference.span)
  else if name ∈ w.visited then w
  else
    match rules.find? (·.name.name == name) with
    | some next => rule rules nullableOnes fuel stack next w
    | none => w

/-- The walk of a rule follows the references at its left edge. -/
theorem rule_succ (rules : List Rule) (nullableOnes : List String) (fuel : Nat)
    (stack : List String) (r : Rule) (w : LeftWalk) :
    rule rules nullableOnes (fuel + 1) stack r w =
      (r.expr.leftmost nullableOnes).foldl
        (follow rules nullableOnes fuel (r.name.name :: stack))
        { w with visited := r.name.name :: w.visited } := by
  rw [rule]
  exact expr_eq_foldl nullableOnes _ r.expr _

end LeftWalk

end Packrat

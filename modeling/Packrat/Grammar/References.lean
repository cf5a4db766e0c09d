import Packrat.Grammar.Basic
import Packrat.Graph.Components

/-!
# References between rules

* `Expr.references` — the names that an expression refers to.
* `referencedRules` — the rules that a rule refers to, by their places in the list of rules.
* `ruleComponents` — the rules with their strongly connected components.
-/

set_option autoImplicit false

namespace Packrat

mutual

/-- The names that an expression refers to, from left to right. -/
def Expr.references : Expr → List String
  | .literal _ _ => []
  | .charClass _ _ => []
  | .anyChar _ => []
  | .ref reference => [reference.name.name]
  | .seq _ elements => Expr.referencesAll elements
  | .choice _ branches => Expr.referencesAll branches
  | .star _ body => body.references
  | .plus _ body => body.references
  | .opt _ body => body.references
  | .lookahead _ _ body => body.references
  | .codePredicate _ _ _ => []
  | .label _ _ body => body.references
  | .action _ _ _ body => body.references
  | .bareAction _ _ _ => []
  | .group _ body => body.references

/-- The names that several expressions refer to. -/
def Expr.referencesAll : List Expr → List String
  | [] => []
  | e :: rest => e.references ++ Expr.referencesAll rest

end

/-- The place of the first rule of a name. -/
def ruleIndex? (rules : List Rule) (name : String) : Option Nat :=
  rules.findIdx? (·.name.name == name)

/-- The places of the rules that the rule at a place refers to. -/
def referencedRules (rules : List Rule) (i : Nat) : List Nat :=
  match rules[i]? with
  | some r => r.expr.references.filterMap (ruleIndex? rules)
  | none => []

/-- The places of the rules with the numbers of their strongly connected components. -/
def ruleComponents (rules : List Rule) : List (Nat × Nat) :=
  components (referencedRules rules) rules.length

end Packrat

import Packrat.Event
import Packrat.Fault
import Packrat.Grammar.References
import Packrat.Shape.Basic

/-!
# Shapes of rules and expressions

Every expression of a grammar without templates gets the shape of the values that it yields.  While
a rule is shaped, a reference within its own strongly connected component counts as `dynamic`; every
other reference has the shape of the rule that it names.

* `ShapedExpr`, `ShapedRule` — expressions and rules with their shapes.
* `ShapeRules` — the rules with their components; `ShapeTable` — the shapes known so far.
* `ShapeRules.walk` — the shapes of an expression and its parts, given how to shape a rule.
* `ShapeRules.ruleShape` — the shape of a rule, found when it is first asked for.
* `Grammar.shapes` — all rules with their shapes.  In the trees that it answers every reference has
  the shape of the rule that it names.
-/

set_option autoImplicit false

namespace Packrat

/-- An expression with its shape and with its shaped parts. -/
inductive ShapedExpr where
  | mk (expr : Expr) (shape : Shape) (children : List ShapedExpr)
  deriving Repr, Inhabited

namespace ShapedExpr

/-- The expression. -/
def expr : ShapedExpr → Expr
  | mk expr _ _ => expr

/-- Its shape. -/
def shape : ShapedExpr → Shape
  | mk _ shape _ => shape

/-- Its parts. -/
def children : ShapedExpr → List ShapedExpr
  | mk _ _ children => children

end ShapedExpr

/-- A rule with its shape and with its shaped body. -/
structure ShapedRule where
  rule : Rule
  shape : Shape
  body : ShapedExpr
  deriving Repr, Inhabited

/-- What is told about a rule with its shape. -/
def ShapedRule.event (r : ShapedRule) : Event :=
  .inferredShape r.rule.name.name r.shape.display

/-- The shapes of those rules that are known, by their places. -/
abbrev ShapeTable := List (Nat × Shape)

/-- A computation that comes to know shapes of rules. -/
abbrev Shaping := StateT ShapeTable (Except Fault)

/-- Rules with their strongly connected components. -/
structure ShapeRules where
  rules : List Rule
  component : List (Nat × Nat)
  deriving Repr

namespace ShapeRules

/-- The number of the component of the rule at a place. -/
def componentOf? (s : ShapeRules) (i : Nat) : Option Nat := s.component.lookup i

/-- The shape of a reference.  Those into the component `within` are `dynamic`. -/
def refShape (s : ShapeRules) (ruleShape : Nat → Shaping Shape) (within : Option Nat)
    (name : String) : Shaping Shape :=
  match ruleIndex? s.rules name with
  | none => throw (.undefinedRule name)
  | some i =>
    if within.isSome && within == s.componentOf? i then return .dynamic else ruleShape i

mutual

/-- An expression and its parts with their shapes. -/
def walk (s : ShapeRules) (ruleShape : Nat → Shaping Shape) (within : Option Nat) :
    Expr → Shaping ShapedExpr
  | .literal span text => return .mk (.literal span text) .text []
  | .charClass span k => return .mk (.charClass span k) .text []
  | .anyChar span => return .mk (.anyChar span) .text []
  | .ref reference =>
    return .mk (.ref reference) (← s.refShape ruleShape within reference.name.name) []
  | .seq span elements => do
    let children ← walkAll s ruleShape within elements
    return .mk (.seq span elements) (.list (Shape.common (children.map (·.shape)))) children
  | .choice span branches => do
    let children ← walkAll s ruleShape within branches
    return .mk (.choice span branches) (Shape.common (children.map (·.shape))) children
  | .star span body => do
    let inner ← walk s ruleShape within body
    return .mk (.star span body) (Shape.optionalOf (.list inner.shape)) [inner]
  | .plus span body => do
    let inner ← walk s ruleShape within body
    return .mk (.plus span body) (.list inner.shape) [inner]
  | .opt span body => do
    let inner ← walk s ruleShape within body
    return .mk (.opt span body) (Shape.optionalOf inner.shape) [inner]
  | .lookahead span polarity body => do
    let inner ← walk s ruleShape within body
    return .mk (.lookahead span polarity body) .bool [inner]
  | .codePredicate span polarity code => return .mk (.codePredicate span polarity code) .bool []
  | .label span name body => do
    let inner ← walk s ruleShape within body
    return .mk (.label span name body) inner.shape [inner]
  | .action span hint code body => do
    let inner ← walk s ruleShape within body
    return .mk (.action span hint code body) (.declared hint) [inner]
  | .bareAction span hint code => return .mk (.bareAction span hint code) (.declared hint) []
  | .group span body => do
    let inner ← walk s ruleShape within body
    return .mk (.group span body) inner.shape [inner]

/-- Several expressions with their shapes, from left to right. -/
def walkAll (s : ShapeRules) (ruleShape : Nat → Shaping Shape) (within : Option Nat) :
    List Expr → Shaping (List ShapedExpr)
  | [] => return []
  | e :: rest => do
    let first ← walk s ruleShape within e
    return first :: (← walkAll s ruleShape within rest)

end

/-- The shape of the rule at a place.  Rules that wait for one another belong to different
components, so no more of them wait than there are rules. -/
def ruleShape (s : ShapeRules) : (fuel : Nat) → (i : Nat) → Shaping Shape
  | 0, _ => throw .exhausted
  | fuel + 1, i => do
    match (← get).lookup i with
    | some shape => return shape
    | none =>
      match s.rules[i]? with
      | none => throw .exhausted
      | some r =>
        let shaped ← walk s (ruleShape s fuel) (s.componentOf? i) r.expr
        modify fun table => (i, shaped.shape) :: table
        return shaped.shape

/-- A rule with its shape, and its body with the shapes of all references. -/
def shapedRule (s : ShapeRules) (i : Nat) (r : Rule) : Shaping ShapedRule := do
  let shape ← s.ruleShape (s.rules.length + 1) i
  let body ← s.walk (s.ruleShape (s.rules.length + 1)) none r.expr
  return ⟨r, shape, body⟩

/-- Rules from place `i` on with their shapes.  A rule is told of as soon as it has its shape. -/
def shapedRules (s : ShapeRules) : (i : Nat) → List Rule → ShapeTable → Told (List ShapedRule)
  | _, [], _ => ⟨.ok [], []⟩
  | i, r :: rest, table =>
    match (s.shapedRule i r).run table with
    | .error f => ⟨.error f, []⟩
    | .ok (first, table) =>
      let others := s.shapedRules (i + 1) rest table
      ⟨others.answer.map (first :: ·), first.event :: others.events⟩

end ShapeRules

namespace Grammar

/-- All rules of a grammar without templates with their shapes. -/
def shapes (g : Grammar) : Told (List ShapedRule) :=
  ShapeRules.shapedRules ⟨g.rules, ruleComponents g.rules⟩ 0 g.rules []

end Grammar

/-- The first rule of a name. -/
def shapedRule? (shaped : List ShapedRule) (name : String) : Option ShapedRule :=
  shaped.find? (·.rule.name.name == name)

/-- The shape of the first rule of a name. -/
def shapeOf? (shaped : List ShapedRule) (name : String) : Option Shape :=
  (shapedRule? shaped name).map (·.shape)

end Packrat

import Packrat.Grammar.Diagnostic

/-!
# Left recursion

A rule is left recursive if it can come back to itself before any input is consumed.

* `nullable` — whether an expression can match without consuming input, given the rules that can.
* `nullableAmong`, `Grammar.nullableRules` — the least set of rules that fits.
* `LeftWalk` — a depth-first walk along the references that can be reached before input is consumed.
* `Grammar.leftRecursion` — for every rule the cycles that the walk from it meets.
-/

set_option autoImplicit false

namespace Packrat

mutual

/-- Whether an expression can match without consuming input. -/
def nullable (rules : List String) : Expr → Bool
  | .literal _ text => text.isEmpty
  | .charClass _ _ => false
  | .anyChar _ => false
  | .ref reference => rules.contains reference.name.name
  | .seq _ elements => allNullable rules elements
  | .choice _ branches => anyNullable rules branches
  | .star _ _ => true
  | .plus _ body => nullable rules body
  | .opt _ _ => true
  | .lookahead _ _ _ => true
  | .codePredicate _ _ _ => true
  | .label _ _ body => nullable rules body
  | .action _ _ _ body => nullable rules body
  | .bareAction _ _ _ => true
  | .group _ body => nullable rules body

/-- Whether all of the expressions can. -/
def allNullable (rules : List String) : List Expr → Bool
  | [] => true
  | e :: rest => nullable rules e && allNullable rules rest

/-- Whether one of the expressions can. -/
def anyNullable (rules : List String) : List Expr → Bool
  | [] => false
  | e :: rest => nullable rules e || anyNullable rules rest

end

/-- Add those rules to `known` whose bodies can match without consuming input, one after the
other. -/
def nullableRound (rules : List Rule) (known : List String) : List String :=
  rules.foldl (fun known r =>
    if !known.contains r.name.name && nullable known r.expr then r.name.name :: known else known)
    known

/-- Go round until a round adds nothing.  Each round before adds a rule, so there are no more
rounds than one above the number of rules. -/
def nullableRounds (rules : List Rule) : (rounds : Nat) → (known : List String) → List String
  | 0, known => known
  | rounds + 1, known =>
    let next := nullableRound rules known
    if next.length = known.length then known else nullableRounds rules rounds next

/-- Those of several rules with different names that can match without consuming input. -/
def nullableAmong (rules : List Rule) : List String := nullableRounds rules (rules.length + 1) []

namespace Grammar

/-- The rules that count: of several with one name the first. -/
def definitions (g : Grammar) : List Rule :=
  g.rules.eraseDupsBy fun r s => r.name.name == s.name.name

/-- The rules that can match without consuming input.  Their order does not matter; as most rules
refer to later ones, the last come first. -/
def nullableRules (g : Grammar) : List String := nullableAmong g.definitions.reverse

end Grammar

/-- A walk along references: the rules it has been to since its root, and the errors so far. -/
structure LeftWalk where
  visited : List String
  errors : List Diagnostic
  deriving DecidableEq, Repr

namespace LeftWalk

/-- Report an error once. -/
def report (w : LeftWalk) (d : Diagnostic) : LeftWalk :=
  if d ∈ w.errors then w else { w with errors := w.errors ++ [d] }

mutual

/-- Walk the parts of an expression that are reached before it consumes input. -/
def expr (rules : List String) (enter : Reference → LeftWalk → LeftWalk) :
    Expr → LeftWalk → LeftWalk
  | .literal _ _, w => w
  | .charClass _ _, w => w
  | .anyChar _, w => w
  | .ref reference, w => enter reference w
  | .seq _ elements, w => elementsOf rules enter elements w
  | .choice _ branches, w => branchesOf rules enter branches w
  | .star _ body, w => expr rules enter body w
  | .plus _ body, w => expr rules enter body w
  | .opt _ body, w => expr rules enter body w
  | .lookahead _ _ body, w => expr rules enter body w
  | .codePredicate _ _ _, w => w
  | .label _ _ body, w => expr rules enter body w
  | .action _ _ _ body, w => expr rules enter body w
  | .bareAction _ _ _, w => w
  | .group _ body, w => expr rules enter body w

/-- Walk a sequence up to the first element that has to consume input. -/
def elementsOf (rules : List String) (enter : Reference → LeftWalk → LeftWalk) :
    List Expr → LeftWalk → LeftWalk
  | [], w => w
  | e :: rest, w =>
      let w := expr rules enter e w
      if nullable rules e then elementsOf rules enter rest w else w

/-- Walk every branch of a choice. -/
def branchesOf (rules : List String) (enter : Reference → LeftWalk → LeftWalk) :
    List Expr → LeftWalk → LeftWalk
  | [], w => w
  | e :: rest, w => branchesOf rules enter rest (expr rules enter e w)

end

/-- Walk a rule that was reached through the rules of `stack`, the latest first, whose names all
differ; `fuel` bounds how many more rules can come on top of them. -/
def rule (rules : List Rule) (nullableOnes : List String) :
    (fuel : Nat) → (stack : List String) → Rule → LeftWalk → LeftWalk
  | 0, _, _, w => w
  | fuel + 1, stack, r, w =>
    let stack := r.name.name :: stack
    let enter (reference : Reference) (w : LeftWalk) : LeftWalk :=
      let name := reference.name.name
      if name ∈ stack then
        let path := name :: ((stack.takeWhile (· != name)).reverse ++ [name])
        w.report (.leftRecursion path reference.span)
      else if name ∈ w.visited then w
      else
        match rules.find? (·.name.name == name) with
        | some next => rule rules nullableOnes fuel stack next w
        | none => w
    expr nullableOnes enter r.expr { w with visited := r.name.name :: w.visited }

end LeftWalk

namespace Grammar

/-- All left recursion of a grammar without templates. -/
def leftRecursion (g : Grammar) : List Diagnostic :=
  let rules := g.definitions
  let nullableOnes := g.nullableRules
  let step (w : LeftWalk) (r : Rule) : LeftWalk :=
    LeftWalk.rule rules nullableOnes (rules.length + 1) [] r { w with visited := [] }
  (g.rules.foldl step ⟨[], []⟩).errors

end Grammar

end Packrat

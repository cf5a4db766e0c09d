import Packrat.Fault
import Packrat.Grammar.Basic

/-!
# Expansion of templates

A template with arguments is replaced by a plain rule of its own, the *instance*, whose name is the
template's name with the resolved arguments.  Equal arguments give the same instance.

* `Scope` — the arguments that stand for the parameters of a template body.
* `Scope.resolve` — the name of the rule that a reference stands for.
* `Scope.link` — an expression with every reference resolved.
* `Scope.instances` — the instances that an expression asks for; those of an argument come before
  the one that takes it.
* `collect` — all instances in the order in which they are first asked for; an instance comes before
  those that its body asks for.
* `expand` — the plain rules, then the instances.
-/

set_option autoImplicit false

namespace Packrat

/-- A template with resolved arguments. -/
structure Instance where
  template : String
  args : List String
  deriving DecidableEq, Repr

/-- The name of the rule that an instance becomes. -/
def Instance.name (i : Instance) : String := instanceName i.template i.args

/-- What the parameters in force stand for; of two parameters with one name the later counts. -/
abbrev Scope := List (String × String)

namespace Scope

/-- What a parameter stands for. -/
def get? (scope : Scope) (param : String) : Option String := scope.reverse.lookup param

mutual

/-- The name of the rule that a reference stands for. -/
def resolve (scope : Scope) : Reference → String
  | .mk _ name args =>
    if args.isEmpty then (scope.get? name.name).getD name.name
    else instanceName name.name (resolveAll scope args)

/-- The names of the rules that several references stand for. -/
def resolveAll (scope : Scope) : List Reference → List String
  | [] => []
  | r :: rest => resolve scope r :: resolveAll scope rest

end

mutual

/-- The instances that a reference asks for. -/
def refInstances (scope : Scope) : Reference → List Instance
  | .mk _ name args =>
    if args.isEmpty then []
    else argInstances scope args ++ [⟨name.name, resolveAll scope args⟩]

/-- The instances that several arguments ask for. -/
def argInstances (scope : Scope) : List Reference → List Instance
  | [] => []
  | r :: rest => refInstances scope r ++ argInstances scope rest

end

mutual

/-- The instances that an expression asks for. -/
def instances (scope : Scope) : Expr → List Instance
  | .literal _ _ => []
  | .charClass _ _ => []
  | .anyChar _ => []
  | .ref reference => refInstances scope reference
  | .seq _ elements => listInstances scope elements
  | .choice _ branches => listInstances scope branches
  | .star _ body => instances scope body
  | .plus _ body => instances scope body
  | .opt _ body => instances scope body
  | .lookahead _ _ body => instances scope body
  | .codePredicate _ _ _ => []
  | .label _ _ body => instances scope body
  | .action _ _ _ body => instances scope body
  | .bareAction _ _ _ => []
  | .group _ body => instances scope body

/-- The instances that several expressions ask for. -/
def listInstances (scope : Scope) : List Expr → List Instance
  | [] => []
  | e :: rest => instances scope e ++ listInstances scope rest

end

mutual

/-- The expression with each reference replaced by one to the rule that it stands for. -/
def link (scope : Scope) : Expr → Expr
  | .literal span text => .literal span text
  | .charClass span k => .charClass span k
  | .anyChar span => .anyChar span
  | .ref reference =>
      .ref (.mk reference.span ⟨resolve scope reference, reference.name.span⟩ [])
  | .seq span elements => .seq span (linkAll scope elements)
  | .choice span branches => .choice span (linkAll scope branches)
  | .star span body => .star span (link scope body)
  | .plus span body => .plus span (link scope body)
  | .opt span body => .opt span (link scope body)
  | .lookahead span polarity body => .lookahead span polarity (link scope body)
  | .codePredicate span polarity code => .codePredicate span polarity code
  | .label span name body => .label span name (link scope body)
  | .action span hint code body => .action span hint code (link scope body)
  | .bareAction span hint code => .bareAction span hint code
  | .group span body => .group span (link scope body)

/-- Several expressions, each with its references resolved. -/
def linkAll (scope : Scope) : List Expr → List Expr
  | [] => []
  | e :: rest => link scope e :: linkAll scope rest

end

end Scope

namespace Grammar

/-- The template that an instantiation means: of several with one name the last. -/
def lastTemplate? (g : Grammar) (name : String) : Option Template :=
  g.templates.reverse.find? (·.name.name == name)

/-- The scope of an instance's body. -/
def scopeOf (t : Template) (i : Instance) : Scope := t.paramNames.zip i.args

/-- Add an instance, and after it those that its body asks for, to those in `seen`; instances ask
for one another at most `depth` deep. -/
def collect (g : Grammar) :
    (depth : Nat) → (seen : List Instance) → Instance → Except Fault (List Instance)
  | 0, _, _ => .error .exhausted
  | depth + 1, seen, i =>
    if i ∈ seen then .ok seen
    else
      match g.lastTemplate? i.template with
      | none => .error (.undefinedTemplate i.template)
      | some t => ((scopeOf t i).instances t.expr).foldlM (collect g depth) (seen ++ [i])

/-- All instances that the plain rules ask for, directly or through others. -/
def allInstances (g : Grammar) (depth : Nat) : Except Fault (List Instance) :=
  (g.rules.flatMap fun r => Scope.instances [] r.expr).foldlM (collect g depth) []

/-- A plain rule with its references resolved. -/
def plainRule (r : Rule) : Rule := { r with expr := Scope.link [] r.expr }

/-- The rule that an instance of a template becomes. -/
def instanceRule (t : Template) (i : Instance) : Rule :=
  ⟨t.span, ⟨i.name, t.name.span⟩, (scopeOf t i).link t.expr⟩

/-- The rules of those instances whose templates are defined. -/
def instanceRules (g : Grammar) (is : List Instance) : List Rule :=
  is.filterMap fun i => (g.lastTemplate? i.template).map (instanceRule · i)

/-- How deep instances may ask for one another before the expansion gives up, as it does where the
call stack ends.  A greater limit refuses less and expands nothing otherwise. -/
def depthLimit : Nat := 10000

/-- The grammar without templates, and the number of instances. -/
def expandWithin (g : Grammar) (depth : Nat) : Except Fault (Grammar × Nat) := do
  let is ← g.allInstances depth
  let rules := g.rules.map plainRule ++ g.instanceRules is
  return (⟨g.preamble, rules.map .rule⟩, is.length)

/-- The grammar without templates, and the number of instances. -/
def expand (g : Grammar) : Except Fault (Grammar × Nat) := g.expandWithin depthLimit

end Grammar

end Packrat

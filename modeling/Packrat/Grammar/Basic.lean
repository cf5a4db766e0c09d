import Packrat.Grammar.CharClass

/-!
# Grammars

A grammar is a list of rules and templates.  A template has parameters; a reference with arguments
stands for the template's body with the arguments in place of the parameters.

* `Span`, `Ident`, `Code` — a stretch of grammar text, a name in it, a block of opaque code in it.
* `Reference` — a rule name, possibly with arguments, which are references themselves.
* `Expr` — parsing expressions, each with its span.
* `Rule`, `Template`, `Item`, `Grammar`.
* `instanceName` — how a name with arguments is written.
-/

set_option autoImplicit false

namespace Packrat

/-- A stretch of grammar text, by byte offsets; `hi` is exclusive. -/
structure Span where
  lo : Nat
  hi : Nat
  deriving DecidableEq, Repr, Inhabited

/-- A name as it stands in the grammar text. -/
structure Ident where
  name : String
  span : Span
  deriving DecidableEq, Repr, Inhabited

/-- Code of an action or a predicate, without its braces.  It is never looked into. -/
structure Code where
  text : String
  span : Span
  deriving DecidableEq, Repr, Inhabited

/-- A reference to a rule.  With arguments it is an instantiation of a template; inside a template
its name may be a parameter. -/
inductive Reference where
  | mk (span : Span) (name : Ident) (args : List Reference)
  deriving Repr, Inhabited

/-- Whether a predicate asks that something holds or that it does not. -/
inductive Polarity where
  | positive
  | negative
  deriving DecidableEq, Repr

/-- Parsing expressions. -/
inductive Expr where
  | literal (span : Span) (text : String)
  | charClass (span : Span) (class_ : CharClass)
  | anyChar (span : Span)
  | ref (reference : Reference)
  | seq (span : Span) (elements : List Expr)
  | choice (span : Span) (branches : List Expr)
  | star (span : Span) (body : Expr)
  | plus (span : Span) (body : Expr)
  | opt (span : Span) (body : Expr)
  | lookahead (span : Span) (polarity : Polarity) (body : Expr)
  | codePredicate (span : Span) (polarity : Polarity) (code : Code)
  | label (span : Span) (name : Ident) (body : Expr)
  /-- An action after an expression; `hint` names the type of its result. -/
  | action (span : Span) (hint : String) (code : Code) (body : Expr)
  /-- An action on its own. -/
  | bareAction (span : Span) (hint : String) (code : Code)
  | group (span : Span) (body : Expr)
  deriving Repr, Inhabited

namespace Reference

/-- Where the reference stands. -/
def span : Reference → Span
  | mk span _ _ => span

/-- The name referred to. -/
def name : Reference → Ident
  | mk _ name _ => name

/-- The arguments. -/
def args : Reference → List Reference
  | mk _ _ args => args

end Reference

/-- A name with arguments: `T<a, b>`, and plainly `T` without any. -/
def instanceName (name : String) (args : List String) : String :=
  if args.isEmpty then name else name ++ "<" ++ String.intercalate ", " args ++ ">"

mutual

/-- The written form of a reference. -/
def Reference.display : Reference → String
  | .mk _ name args => instanceName name.name (Reference.displayAll args)

/-- The written forms of several references. -/
def Reference.displayAll : List Reference → List String
  | [] => []
  | r :: rest => r.display :: Reference.displayAll rest

end

/-- Where an expression stands. -/
def Expr.span : Expr → Span
  | .literal span _ => span
  | .charClass span _ => span
  | .anyChar span => span
  | .ref reference => reference.span
  | .seq span _ => span
  | .choice span _ => span
  | .star span _ => span
  | .plus span _ => span
  | .opt span _ => span
  | .lookahead span _ _ => span
  | .codePredicate span _ _ => span
  | .label span _ _ => span
  | .action span _ _ _ => span
  | .bareAction span _ _ => span
  | .group span _ => span

/-- A plain rule. -/
structure Rule where
  span : Span
  name : Ident
  expr : Expr
  deriving Repr, Inhabited

/-- A rule with parameters. -/
structure Template where
  span : Span
  name : Ident
  params : List Ident
  expr : Expr
  deriving Repr, Inhabited

/-- The names of a template's parameters in order. -/
def Template.paramNames (t : Template) : List String := t.params.map (·.name)

/-- The template's name with its parameters, with brackets even if there are none. -/
def Template.signature (t : Template) : String :=
  t.name.name ++ "<" ++ String.intercalate ", " t.paramNames ++ ">"

/-- One definition. -/
inductive Item where
  | rule (r : Rule)
  | template (t : Template)
  deriving Repr, Inhabited

namespace Item

/-- The defined name. -/
def name : Item → Ident
  | rule r => r.name
  | template t => t.name

/-- Where the definition stands. -/
def span : Item → Span
  | rule r => r.span
  | template t => t.span

/-- The body of the definition. -/
def expr : Item → Expr
  | rule r => r.expr
  | template t => t.expr

/-- The parameters; a plain rule has none. -/
def params : Item → List Ident
  | rule _ => []
  | template t => t.params

/-- The item as a plain rule. -/
def rule? : Item → Option Rule
  | rule r => some r
  | template _ => none

/-- The item as a template. -/
def template? : Item → Option Template
  | rule _ => none
  | template t => some t

end Item

/-- A grammar: optional leading code, then definitions in order. -/
structure Grammar where
  preamble : Option Code
  items : List Item
  deriving Repr, Inhabited

namespace Grammar

/-- The plain rules in order. -/
def rules (g : Grammar) : List Rule := g.items.filterMap Item.rule?

/-- The templates in order. -/
def templates (g : Grammar) : List Template := g.items.filterMap Item.template?

/-- The names of the plain rules in order. -/
def ruleNames (g : Grammar) : List String := g.rules.map (·.name.name)

/-- The first rule of a name. -/
def rule? (g : Grammar) (name : String) : Option Rule := g.rules.find? (·.name.name == name)

/-- The first template of a name. -/
def template? (g : Grammar) (name : String) : Option Template :=
  g.templates.find? (·.name.name == name)

end Grammar

end Packrat

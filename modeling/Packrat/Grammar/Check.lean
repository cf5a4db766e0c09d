import Packrat.Grammar.Diagnostic

/-!
# Definition errors

A grammar is well formed if its definitions have different names, the parameters of a template have
different names, every reference fits a definition or a parameter, and no label is bound twice on
one path through a body.

* `Item.redefinition`, `redefinitions`, `paramRedefinitions` — names defined twice.
* `nameError` — what is wrong with one name; `refErrors` goes through a reference and its
  arguments.
* `exprErrors` — references and labels of a body.  Labels bound in one branch of a choice do not
  count in another branch, nor after the choice.
* `check` — all errors of a grammar, in the order in which they are found.
-/

set_option autoImplicit false

namespace Packrat

namespace Grammar

/-- The first definition of a name. -/
def item? (g : Grammar) (name : String) : Option Item := g.items.find? (·.name.name == name)

end Grammar

/-- The error of an item whose name is defined before. -/
def Item.redefinition : Item → Diagnostic
  | rule r => .ruleRedefined r.name.name r.span
  | template t => .templateRedefined t.signature t.span

/-- The items whose names are in `seen` or belong to an earlier item. -/
def redefinitions : (seen : List String) → List Item → List Diagnostic
  | _, [] => []
  | seen, i :: rest =>
    if i.name.name ∈ seen then i.redefinition :: redefinitions seen rest
    else redefinitions (i.name.name :: seen) rest

/-- The parameters whose names are in `seen` or belong to an earlier parameter. -/
def paramRedefinitions : (seen : List String) → List Ident → List Diagnostic
  | _, [] => []
  | seen, p :: rest =>
    if p.name ∈ seen then .paramRedefined p.name p.span :: paramRedefinitions seen rest
    else paramRedefinitions (p.name :: seen) rest

/-- What is wrong with a name that has `count` arguments: a parameter takes none and
hides the definitions, a rule takes none, a template takes as many as it has parameters. -/
def nameError (g : Grammar) (params : List String) (name : Ident) (count : Nat) (span : Span) :
    List Diagnostic :=
  if name.name ∈ params then
    if count = 0 then [] else [.paramWithArgs name.name name.span]
  else
    match g.item? name.name with
    | none => [.undefinedRule name.name span]
    | some (.rule _) => if count = 0 then [] else [.notATemplate name.name span]
    | some (.template t) =>
      if t.params.length = count then []
      else [.argCountMismatch t.signature t.params.length count span]

mutual

/-- The errors of a reference: its own first, then those of its arguments. -/
def refErrors (g : Grammar) (params : List String) : Reference → List Diagnostic
  | .mk span name args => nameError g params name args.length span ++ argErrors g params args

/-- The errors of several arguments. -/
def argErrors (g : Grammar) (params : List String) : List Reference → List Diagnostic
  | [] => []
  | r :: rest => refErrors g params r ++ argErrors g params rest

end

mutual

/-- The errors of an expression after which the labels of `labels` are bound, and the labels that
are bound after it. -/
def exprErrors (g : Grammar) (params : List String) :
    Expr → (labels : List String) → List Diagnostic × List String
  | .literal _ _, labels => ([], labels)
  | .charClass _ _, labels => ([], labels)
  | .anyChar _, labels => ([], labels)
  | .ref reference, labels => (refErrors g params reference, labels)
  | .seq _ elements, labels => seqErrors g params elements labels
  | .choice _ branches, labels => (choiceErrors g params branches labels, labels)
  | .star _ body, labels => exprErrors g params body labels
  | .plus _ body, labels => exprErrors g params body labels
  | .opt _ body, labels => exprErrors g params body labels
  | .lookahead _ _ body, labels => exprErrors g params body labels
  | .codePredicate _ _ _, labels => ([], labels)
  | .label _ name body, labels =>
      let own := if name.name ∈ labels then [.labelRedefined name.name name.span] else []
      let inner := exprErrors g params body (name.name :: labels)
      (own ++ inner.1, inner.2)
  | .action _ _ _ body, labels => exprErrors g params body labels
  | .bareAction _ _ _, labels => ([], labels)
  | .group _ body, labels => exprErrors g params body labels

/-- The errors of a sequence: each element sees the labels of those before it. -/
def seqErrors (g : Grammar) (params : List String) :
    List Expr → (labels : List String) → List Diagnostic × List String
  | [], labels => ([], labels)
  | e :: rest, labels =>
      let first := exprErrors g params e labels
      let others := seqErrors g params rest first.2
      (first.1 ++ others.1, others.2)

/-- The errors of a choice: each branch sees the labels before the choice. -/
def choiceErrors (g : Grammar) (params : List String) :
    List Expr → (labels : List String) → List Diagnostic
  | [], _ => []
  | e :: rest, labels =>
      (exprErrors g params e labels).1 ++ choiceErrors g params rest labels

end

/-- The errors in the body of an item. -/
def Item.bodyErrors (g : Grammar) (i : Item) : List Diagnostic :=
  (exprErrors g (i.params.map (·.name)) i.expr []).1

/-- All definition errors: names first, then parameters, then bodies. -/
def check (g : Grammar) : List Diagnostic :=
  redefinitions [] g.items
    ++ g.templates.flatMap (fun t => paramRedefinitions [] t.params)
    ++ g.items.flatMap (Item.bodyErrors g)

end Packrat

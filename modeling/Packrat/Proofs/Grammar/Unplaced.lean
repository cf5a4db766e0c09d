import Packrat.Grammar.Basic

/-!
# Grammars without their places

Two grammars that differ in their spans only say the same thing.

* `Reference.unplaced`, `Expr.unplaced`, `Item.unplaced`, `Grammar.unplaced` — all spans are forgotten.
* `Expr.unplacedAll_eq` — several expressions, one by one.
-/

set_option autoImplicit false

namespace Packrat

/-- The span of what stands nowhere. -/
def Span.nowhere : Span := ⟨0, 0⟩

/-- A name without its place. -/
def Ident.unplaced (i : Ident) : Ident := ⟨i.name, .nowhere⟩

/-- Code without its place. -/
def Code.unplaced (k : Code) : Code := ⟨k.text, .nowhere⟩

mutual

/-- A reference without its places. -/
def Reference.unplaced : Reference → Reference
  | .mk _ name args => .mk .nowhere name.unplaced (Reference.unplacedAll args)

/-- Several references without their places. -/
def Reference.unplacedAll : List Reference → List Reference
  | [] => []
  | r :: rest => r.unplaced :: Reference.unplacedAll rest

end

mutual

/-- An expression without its places. -/
def Expr.unplaced : Expr → Expr
  | .literal _ text => .literal .nowhere text
  | .charClass _ k => .charClass .nowhere k
  | .anyChar _ => .anyChar .nowhere
  | .ref reference => .ref reference.unplaced
  | .seq _ elements => .seq .nowhere (Expr.unplacedAll elements)
  | .choice _ branches => .choice .nowhere (Expr.unplacedAll branches)
  | .star _ body => .star .nowhere body.unplaced
  | .plus _ body => .plus .nowhere body.unplaced
  | .opt _ body => .opt .nowhere body.unplaced
  | .lookahead _ polarity body => .lookahead .nowhere polarity body.unplaced
  | .codePredicate _ polarity code => .codePredicate .nowhere polarity code.unplaced
  | .label _ name body => .label .nowhere name.unplaced body.unplaced
  | .action _ hint code body => .action .nowhere hint code.unplaced body.unplaced
  | .bareAction _ hint code => .bareAction .nowhere hint code.unplaced
  | .group _ body => .group .nowhere body.unplaced

/-- Several expressions without their places. -/
def Expr.unplacedAll : List Expr → List Expr
  | [] => []
  | e :: rest => e.unplaced :: Expr.unplacedAll rest

end

theorem Reference.unplacedAll_eq (rs : List Reference) : unplacedAll rs = rs.map unplaced := by
  induction rs with
  | nil => rfl
  | cons r rest ih => rw [unplacedAll, ih, List.map_cons]

theorem Expr.unplacedAll_eq (es : List Expr) : unplacedAll es = es.map unplaced := by
  induction es with
  | nil => rfl
  | cons e rest ih => rw [unplacedAll, ih, List.map_cons]

theorem Reference.name_unplaced (r : Reference) : r.unplaced.name = r.name.unplaced := by
  cases r
  rfl

/-- A rule without its places. -/
def Rule.unplaced (r : Rule) : Rule := ⟨.nowhere, r.name.unplaced, r.expr.unplaced⟩

/-- A template without its places. -/
def Template.unplaced (t : Template) : Template :=
  ⟨.nowhere, t.name.unplaced, t.params.map Ident.unplaced, t.expr.unplaced⟩

/-- An item without its places. -/
def Item.unplaced : Item → Item
  | .rule r => .rule r.unplaced
  | .template t => .template t.unplaced

/-- A grammar without its places. -/
def Grammar.unplaced (g : Grammar) : Grammar :=
  ⟨g.preamble.map Code.unplaced, g.items.map Item.unplaced⟩

end Packrat

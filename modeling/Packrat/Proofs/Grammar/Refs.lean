import Packrat.Grammar.Expansion
import Packrat.Grammar.References
import Packrat.Proofs.Grammar.Leftmost

/-!
# The references of an expression

What the stages say about expressions is about the references in them.

* `Expr.refs` — the references of an expression, from left to right.
* `Expr.references_eq`, `Scope.instances_eq`, `Scope.refs_link` — the names that an expression
  refers to, the instances that it asks for and the expression that it becomes, by its references.
* `Expr.leftmost_subset` — the references at the left edge are among all references.
* `Grammar.Needs` — the rules that can be reached from a rule by references.
-/

set_option autoImplicit false

namespace Packrat

mutual

/-- The references of an expression, from left to right. -/
def Expr.refs : Expr → List Reference
  | .literal _ _ => []
  | .charClass _ _ => []
  | .anyChar _ => []
  | .ref reference => [reference]
  | .seq _ elements => Expr.refsAll elements
  | .choice _ branches => Expr.refsAll branches
  | .star _ body => body.refs
  | .plus _ body => body.refs
  | .opt _ body => body.refs
  | .lookahead _ _ body => body.refs
  | .codePredicate _ _ _ => []
  | .label _ _ body => body.refs
  | .action _ _ _ body => body.refs
  | .bareAction _ _ _ => []
  | .group _ body => body.refs

/-- The references of several expressions. -/
def Expr.refsAll : List Expr → List Reference
  | [] => []
  | e :: rest => e.refs ++ Expr.refsAll rest

end

mutual

/-- The names that an expression refers to are those of its references. -/
theorem Expr.references_eq (e : Expr) : e.references = e.refs.map (·.name.name) := by
  cases e with
  | seq span elements =>
    rw [Expr.references, Expr.refs]; exact Expr.referencesAll_eq elements
  | choice span branches =>
    rw [Expr.references, Expr.refs]; exact Expr.referencesAll_eq branches
  | literal | charClass | anyChar | ref | codePredicate | bareAction => rfl
  | star _ body | plus _ body | opt _ body | lookahead _ _ body | label _ _ body
  | action _ _ _ body | group _ body =>
    rw [Expr.references, Expr.refs]; exact Expr.references_eq body

theorem Expr.referencesAll_eq (es : List Expr) :
    Expr.referencesAll es = (Expr.refsAll es).map (·.name.name) := by
  cases es with
  | nil => rfl
  | cons e rest =>
    rw [Expr.referencesAll, Expr.refsAll, List.map_append, Expr.references_eq e,
      Expr.referencesAll_eq rest]

end

mutual

/-- An expression asks for the instances that its references ask for. -/
theorem Scope.instances_eq (scope : Scope) (e : Expr) :
    scope.instances e = e.refs.flatMap scope.refInstances := by
  cases e with
  | ref reference =>
    rw [Scope.instances, Expr.refs, List.flatMap_cons, List.flatMap_nil, List.append_nil]
  | seq span elements => rw [Scope.instances, Expr.refs]; exact Scope.listInstances_eq scope elements
  | choice span branches =>
    rw [Scope.instances, Expr.refs]; exact Scope.listInstances_eq scope branches
  | literal | charClass | anyChar | codePredicate | bareAction => rfl
  | star _ body | plus _ body | opt _ body | lookahead _ _ body | label _ _ body
  | action _ _ _ body | group _ body =>
    rw [Scope.instances, Expr.refs]; exact Scope.instances_eq scope body

theorem Scope.listInstances_eq (scope : Scope) (es : List Expr) :
    scope.listInstances es = (Expr.refsAll es).flatMap scope.refInstances := by
  cases es with
  | nil => rfl
  | cons e rest =>
    rw [Scope.listInstances, Expr.refsAll, List.flatMap_append, Scope.instances_eq scope e,
      Scope.listInstances_eq scope rest]

end

/-- The reference that takes the place of another one. -/
def Scope.linkRef (scope : Scope) (r : Reference) : Reference :=
  .mk r.span ⟨scope.resolve r, r.name.span⟩ []

mutual

/-- In a linked expression each reference is replaced. -/
theorem Scope.refs_link (scope : Scope) (e : Expr) :
    (scope.link e).refs = e.refs.map scope.linkRef := by
  cases e with
  | seq span elements => rw [Scope.link, Expr.refs, Expr.refs]; exact Scope.refsAll_linkAll scope elements
  | choice span branches =>
    rw [Scope.link, Expr.refs, Expr.refs]; exact Scope.refsAll_linkAll scope branches
  | literal | charClass | anyChar | ref | codePredicate | bareAction => rfl
  | star _ body | plus _ body | opt _ body | lookahead _ _ body | label _ _ body
  | action _ _ _ body | group _ body =>
    rw [Scope.link, Expr.refs, Expr.refs]; exact Scope.refs_link scope body

theorem Scope.refsAll_linkAll (scope : Scope) (es : List Expr) :
    Expr.refsAll (scope.linkAll es) = (Expr.refsAll es).map scope.linkRef := by
  cases es with
  | nil => rfl
  | cons e rest =>
    rw [Scope.linkAll, Expr.refsAll, Expr.refsAll, List.map_append, Scope.refs_link scope e,
      Scope.refsAll_linkAll scope rest]

end

mutual

/-- What stands at the left edge of an expression is one of its references. -/
theorem Expr.leftmost_subset (nullableOnes : List String) (e : Expr) :
    e.leftmost nullableOnes ⊆ e.refs := by
  cases e with
  | literal | charClass | anyChar | ref | codePredicate | bareAction => exact fun _ h => h
  | seq span elements => exact Expr.leftmostOf_subset nullableOnes elements
  | choice span branches => exact Expr.leftmostAny_subset nullableOnes branches
  | star _ body | plus _ body | opt _ body | lookahead _ _ body | label _ _ body
  | action _ _ _ body | group _ body => exact Expr.leftmost_subset nullableOnes body

theorem Expr.leftmostOf_subset (nullableOnes : List String) (es : List Expr) :
    Expr.leftmostOf nullableOnes es ⊆ Expr.refsAll es := by
  cases es with
  | nil => exact fun _ h => h
  | cons e rest =>
    intro r hr
    rw [Expr.leftmostOf, List.mem_append] at hr
    rw [Expr.refsAll, List.mem_append]
    refine hr.imp (fun h => Expr.leftmost_subset nullableOnes e h) fun h => ?_
    split at h
    · exact Expr.leftmostOf_subset nullableOnes rest h
    · cases h

theorem Expr.leftmostAny_subset (nullableOnes : List String) (es : List Expr) :
    Expr.leftmostAny nullableOnes es ⊆ Expr.refsAll es := by
  cases es with
  | nil => exact fun _ h => h
  | cons e rest =>
    intro r hr
    rw [Expr.leftmostAny, List.mem_append] at hr
    rw [Expr.refsAll, List.mem_append]
    exact hr.imp (fun h => Expr.leftmost_subset nullableOnes e h)
      fun h => Expr.leftmostAny_subset nullableOnes rest h

end

/-- A rule that matching the rule `start` may call. -/
inductive Grammar.Needs (g : Grammar) (start : String) : String → Prop where
  | start : Needs g start start
  | ref {name : String} {r : Rule} {reference : Reference} (caller : Needs g start name)
      (defined : g.rule? name = some r) (refers : reference ∈ r.expr.refs) :
      Needs g start reference.name.name

end Packrat

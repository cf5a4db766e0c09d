import Mathlib.Data.List.Forall2
import Packrat.Proofs.Grammar.Parts
import Packrat.Shape.Infer

/-!
# The values that expressions may have

* `Expr.MayYield` — the values that an expression may have, whatever the input is and whatever actions
  and predicates answer.
* `ShapedExpr.at?` — the part of an expression with shapes at a path, as `Expr.at?` for expressions.
* `ShapedExpr.Fits` — every shape in a shaped expression admits what the expression there may yield.
* `Shape.admits_common`, `Shape.admits_optionalOf` — what the combinations of shapes admit.
-/

set_option autoImplicit false

namespace Packrat

/-- The values that an expression may have. -/
inductive Expr.MayYield (rules : List Rule) : Expr → Value → Prop where
  | literal {span : Span} {text : String} : MayYield rules (.literal span text) (.text text)
  | charClass {span : Span} {k : CharClass} (c : Char) :
      MayYield rules (.charClass span k) (.text (String.singleton c))
  | anyChar {span : Span} (c : Char) : MayYield rules (.anyChar span) (.text (String.singleton c))
  | ref {reference : Reference} {r : Rule} {v : Value}
      (named : rules.find? (·.name.name == reference.name.name) = some r)
      (body : MayYield rules r.expr v) : MayYield rules (.ref reference) v
  | seq {span : Span} {elements : List Expr} {vs : List Value}
      (each : List.Forall₂ (MayYield rules) elements vs) :
      MayYield rules (.seq span elements) (.list vs)
  | choice {span : Span} {branches : List Expr} {e : Expr} {v : Value} (mem : e ∈ branches)
      (branch : MayYield rules e v) : MayYield rules (.choice span branches) v
  | starNone {span : Span} {body : Expr} : MayYield rules (.star span body) .absent
  | star {span : Span} {body : Expr} {vs : List Value} (each : ∀ v ∈ vs, MayYield rules body v) :
      MayYield rules (.star span body) (.list vs)
  | plus {span : Span} {body : Expr} {vs : List Value} (each : ∀ v ∈ vs, MayYield rules body v) :
      MayYield rules (.plus span body) (.list vs)
  | optNone {span : Span} {body : Expr} : MayYield rules (.opt span body) .absent
  | opt {span : Span} {body : Expr} {v : Value} (some : MayYield rules body v) :
      MayYield rules (.opt span body) v
  | lookahead {span : Span} {polarity : Polarity} {body : Expr} :
      MayYield rules (.lookahead span polarity body) (.bool true)
  | codePredicate {span : Span} {polarity : Polarity} {code : Code} :
      MayYield rules (.codePredicate span polarity code) (.bool true)
  | label {span : Span} {name : Ident} {body : Expr} {v : Value} (of : MayYield rules body v) :
      MayYield rules (.label span name body) v
  | action {span : Span} {hint : String} {code : Code} {body : Expr} (v : Value) :
      MayYield rules (.action span hint code body) v
  | bareAction {span : Span} {hint : String} {code : Code} (v : Value) :
      MayYield rules (.bareAction span hint code) v
  | group {span : Span} {body : Expr} {v : Value} (of : MayYield rules body v) :
      MayYield rules (.group span body) v

/-! ## Parts -/

/-- The part of a shaped expression at a path. -/
def ShapedExpr.at? : ShapedExpr → List Nat → Option ShapedExpr
  | t, [] => some t
  | t, k :: path => t.children[k]?.bind (·.at? path)

/-! ## Shapes that fit -/

/-- Every shape in the tree admits what the expression there may yield, and the tree has the parts of
the expression. -/
inductive ShapedExpr.Fits (rules : List Rule) : ShapedExpr → Expr → Prop where
  | mk {e : Expr} {shape : Shape} {children : List ShapedExpr}
      (own : ∀ v, e.MayYield rules v → shape.admits v = true)
      (parts : List.Forall₂ (Fits rules) children e.parts) : Fits rules (.mk e shape children) e

namespace ShapedExpr

variable {rules : List Rule} {t : ShapedExpr} {e : Expr}

theorem Fits.admits (h : t.Fits rules e) {v : Value} (hv : e.MayYield rules v) :
    t.shape.admits v = true := by
  cases h with
  | mk own parts => exact own v hv

theorem Fits.expr_eq (h : t.Fits rules e) : t.expr = e := by
  cases h with
  | mk own parts => rfl

theorem Fits.children (h : t.Fits rules e) : List.Forall₂ (Fits rules) t.children e.parts := by
  cases h with
  | mk own parts => exact parts

end ShapedExpr

/-- Two lists that are related have related elements at each place of the second one. -/
theorem exists_getElem?_of_forall₂ {α β : Type} {R : α → β → Prop} {as : List α} {bs : List β}
    (h : List.Forall₂ R as bs) {k : Nat} {b : β} (hb : bs[k]? = some b) :
    ∃ a, as[k]? = some a ∧ R a b := by
  induction h generalizing k with
  | nil => cases hb
  | cons hab hrest ih =>
    cases k with
    | zero =>
      cases hb
      exact ⟨_, rfl, hab⟩
    | succ k => exact ih hb

theorem exists_mem_of_forall₂ {α β : Type} {R : α → β → Prop} {as : List α} {bs : List β}
    (h : List.Forall₂ R as bs) {b : β} (hb : b ∈ bs) : ∃ a ∈ as, R a b := by
  obtain ⟨k, hk⟩ := List.getElem?_of_mem hb
  obtain ⟨a, ha, hab⟩ := exists_getElem?_of_forall₂ h hk
  exact ⟨a, List.mem_of_getElem? ha, hab⟩

/-- **A tree that fits an expression fits each part of it.** -/
theorem ShapedExpr.Fits.at? {rules : List Rule} {t : ShapedExpr} {e part : Expr} {path : List Nat}
    (h : t.Fits rules e) (hpart : e.at? path = some part) :
    ∃ node, t.at? path = some node ∧ node.Fits rules part := by
  induction path generalizing t e with
  | nil =>
    cases hpart
    exact ⟨t, rfl, h⟩
  | cons k path ih =>
    rw [Expr.at?, Option.bind_eq_some_iff] at hpart
    obtain ⟨e', he', hpart⟩ := hpart
    obtain ⟨t', ht', hfits⟩ := exists_getElem?_of_forall₂ h.children he'
    obtain ⟨node, hnode, hfits⟩ := ih hfits hpart
    exact ⟨node, by rw [ShapedExpr.at?, ht']; exact hnode, hfits⟩

/-! ## What combined shapes admit -/

namespace Shape

variable {s : Shape} {v : Value}

/-- The common shape of several admits what one of them admits. -/
theorem admits_common {shapes : List Shape} (hs : s ∈ shapes) (h : s.admits v = true) :
    (common shapes).admits v = true := by
  cases shapes with
  | nil => cases hs
  | cons first rest =>
    rw [common]
    split
    · rename_i hall
      obtain rfl | hrest := List.mem_cons.1 hs
      · exact h
      · rw [List.all_eq_true] at hall
        rw [← eq_of_beq (hall s hrest)]
        exact h
    · rfl

theorem admits_optionalOf_absent (s : Shape) : s.optionalOf.admits .absent = true := by
  have habsent : ∀ s, (Shape.optional s).admits .absent = true := fun s => by rw [admits]; rfl
  cases s <;> exact habsent _

/-- What a shape admits is still admitted when it is made optional. -/
theorem admits_optionalOf (h : s.admits v = true) : s.optionalOf.admits v = true := by
  have hoptional : (Shape.optional s).admits v = true := by rw [admits, h, Bool.or_true]
  cases s with
  | optional element => exact h
  | text | bool | declared type | list element | dynamic => exact hoptional

theorem admits_list {items : List Value} (h : ∀ v ∈ items, s.admits v = true) :
    (Shape.list s).admits (.list items) = true := by
  rw [admits, List.all_eq_true]
  exact h

end Shape

end Packrat

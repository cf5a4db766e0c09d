import Packrat.Proofs.Shape.Solution

/-!
# The shape of a body and the shape of its rule

A rule is announced with the shape that its body has while references within its cycle count as
`dynamic`; in the tree of the body these references have the shapes of their rules.  With more precise
shapes the parts of an expression may come to differ, and then there is no shape that they all have.

* `Shape.Refines` — one shape admits no value that another one does not.
* `Expr.madeOfParts` — expressions whose shape is made of those of their parts.
* `Expr.Diverges` — parts that have one shape with some shapes of references, and several with others.
* `Expr.refines_iff` — more precise references give a more precise shape unless something diverges.
* `compile_bodies_refine_iff` — so the shape of a body refines that of its rule unless the body diverges.
-/

set_option autoImplicit false

namespace Packrat

namespace Shape

variable {s t : Shape} {shapes : List Shape}

/-! ## Precision -/

/-- Every value that the first shape admits is admitted by the second one. -/
def Refines (s t : Shape) : Prop := ∀ v, s.admits v = true → t.admits v = true

/-- The first shape admits a value, other than that nothing is there, that the second one does not. -/
def Exceeds (s t : Shape) : Prop := ∃ v, v.isAbsent = false ∧ s.admits v = true ∧ t.admits v = false

theorem Refines.refl (s : Shape) : s.Refines s := fun _ h => h

theorem refines_dynamic (s : Shape) : s.Refines .dynamic := fun _ _ => by rw [admits]

theorem Exceeds.not_refines (h : s.Exceeds t) : ¬ s.Refines t := by
  obtain ⟨v, -, hs, ht⟩ := h
  intro hrefines
  rw [hrefines v hs] at ht
  cases ht

/-- A shape that does not admit everything does not admit something that is there. -/
theorem dynamic_exceeds (h : ∃ v, s.admits v = false) : Shape.dynamic.Exceeds s := by
  obtain ⟨v, hv⟩ := h
  induction s with
  | text => exact ⟨.bool true, rfl, by rw [admits], rfl⟩
  | bool => exact ⟨.text "", rfl, by rw [admits], rfl⟩
  | list element => exact ⟨.text "", rfl, by rw [admits], rfl⟩
  | optional element ih =>
    rw [admits, Bool.or_eq_false_iff] at hv
    obtain ⟨w, hpresent, -, hw⟩ := ih hv.2
    exact ⟨w, hpresent, by rw [admits], by rw [admits, hpresent, hw]; rfl⟩
  | declared type | dynamic =>
    rw [admits] at hv
    cases hv

theorem admits_optionalOf_eq (s : Shape) (v : Value) :
    s.optionalOf.admits v = (v.isAbsent || s.admits v) := by
  have hoptional : (Shape.optional s).admits v = (v.isAbsent || s.admits v) := by rw [admits]
  cases s with
  | optional element => rw [optionalOf, admits, ← Bool.or_assoc, Bool.or_self]
  | text | bool | declared type | list element | dynamic => exact hoptional

/-- What is made of a shape keeps what a shape has more than another one, and does not add to it. -/
structure Faithful (wrap : Shape → Shape) : Prop where
  refines : ∀ {s t}, s.Refines t → (wrap s).Refines (wrap t)
  exceeds : ∀ {s t}, s.Exceeds t → (wrap s).Exceeds (wrap t)

theorem faithful_id : Faithful id := ⟨fun h => h, fun h => h⟩

theorem faithful_list : Faithful .list where
  refines := by
    intro s t h v hv
    cases v with
    | list items =>
      rw [admits, List.all_eq_true] at hv ⊢
      exact fun item hitem => h item (hv item hitem)
    | absent | bool b | text x | int i | float x | map m => cases hv
  exceeds := by
    rintro s t ⟨v, -, hs, ht⟩
    refine ⟨.list [v], rfl, ?_, ?_⟩
    · rw [admits, List.all_cons, List.all_nil, hs]
      rfl
    · rw [admits, List.all_cons, List.all_nil, ht]
      rfl

theorem faithful_optionalOf : Faithful optionalOf where
  refines := by
    intro s t h v hv
    rw [admits_optionalOf_eq, Bool.or_eq_true] at hv ⊢
    exact hv.imp_right (h v)
  exceeds := by
    rintro s t ⟨v, hpresent, hs, ht⟩
    refine ⟨v, hpresent, ?_, ?_⟩
    · rw [admits_optionalOf_eq, hs, Bool.or_true]
    · rw [admits_optionalOf_eq, hpresent, ht]
      rfl

theorem Faithful.comp {f f' : Shape → Shape} (h : Faithful f) (h' : Faithful f') :
    Faithful (f ∘ f') :=
  ⟨fun hst => h.refines (h'.refines hst), fun hst => h.exceeds (h'.exceeds hst)⟩

/-! ## The common shape -/

theorem common_of_forall_eq (hs : t ∈ shapes) (h : ∀ x ∈ shapes, x = s) : common shapes = s := by
  cases shapes with
  | nil => cases hs
  | cons first rest =>
    obtain ⟨rfl, hrest⟩ := List.forall_mem_cons.1 h
    rw [common, if_pos (List.all_eq_true.2 fun x hx => beq_iff_eq.2 (hrest x hx))]

/-- Shapes have their common one, or they differ or there are none, and it is `dynamic`. -/
theorem common_cases (shapes : List Shape) :
    (common shapes ∈ shapes ∧ ∀ x ∈ shapes, x = common shapes) ∨ common shapes = .dynamic := by
  cases shapes with
  | nil => exact .inr rfl
  | cons first rest =>
    rw [common]
    split
    · rename_i hall
      rw [List.all_eq_true] at hall
      exact .inl ⟨List.mem_cons_self .., List.forall_mem_cons.2 ⟨rfl, fun x hx => beq_iff_eq.1 (hall x hx)⟩⟩
    · exact .inr rfl

theorem common_of_ne (hs : s ∈ shapes) (ht : t ∈ shapes) (h : s ≠ t) : common shapes = .dynamic := by
  rcases common_cases shapes with ⟨-, hall⟩ | hdynamic
  · exact absurd ((hall s hs).trans (hall t ht).symm) h
  · exact hdynamic

end Shape

/-! ## Expressions that diverge -/

namespace Expr

/-- Whether the shape of an expression is made of the shapes of its parts.  A lookahead and an action
have their own. -/
def madeOfParts : Expr → Bool
  | .seq .. | .choice .. | .star .. | .plus .. | .opt .. | .label .. | .group .. => true
  | .literal .. | .charClass .. | .anyChar _ | .ref _ | .lookahead .. | .codePredicate ..
  | .action .. | .bareAction .. => false

/-- **An expression diverges** if its parts, of which its shape is made, have one shape while references
have the shapes `declared`, and with the shapes `actual` they differ where this one does not admit
everything, or one of them diverges itself. -/
inductive Diverges (declared actual : String → Shape) : Expr → Prop where
  | here {e x y : Expr} {s : Shape} (made : e.madeOfParts = true)
      (alike : ∀ x ∈ e.parts, (x.shapedBy declared).shape = s) (narrow : ∃ v, s.admits v = false)
      (left : x ∈ e.parts) (right : y ∈ e.parts)
      (differ : (x.shapedBy actual).shape ≠ (y.shapedBy actual).shape) : Diverges declared actual e
  | part {e x : Expr} {s : Shape} (made : e.madeOfParts = true)
      (alike : ∀ x ∈ e.parts, (x.shapedBy declared).shape = s) (mem : x ∈ e.parts)
      (below : Diverges declared actual x) : Diverges declared actual e

/-- What an expression makes of the common shape of its parts. -/
theorem exists_faithful {e : Expr} (h : e.madeOfParts = true) : ∃ wrap, Shape.Faithful wrap ∧
    ∀ ref, (e.shapedBy ref).shape =
      wrap (Shape.common (e.parts.map fun x => (x.shapedBy ref).shape)) := by
  have hall : ∀ ref (es : List Expr), (shapedAllBy ref es).map ShapedExpr.shape =
      es.map fun x => (x.shapedBy ref).shape := fun ref es => by
    rw [shapedAllBy_eq, List.map_map]
    rfl
  cases e with
  | seq span es => exact ⟨_, Shape.faithful_list, fun ref => by rw [shapedBy, parts, ← hall]; rfl⟩
  | choice span es => exact ⟨_, Shape.faithful_id, fun ref => by rw [shapedBy, parts, ← hall]; rfl⟩
  | star span body => exact ⟨_, Shape.faithful_optionalOf.comp Shape.faithful_list, fun _ => rfl⟩
  | plus span body => exact ⟨_, Shape.faithful_list, fun _ => rfl⟩
  | opt span body => exact ⟨_, Shape.faithful_optionalOf, fun _ => rfl⟩
  | label span name body => exact ⟨_, Shape.faithful_id, fun _ => rfl⟩
  | group span body => exact ⟨_, Shape.faithful_id, fun _ => rfl⟩
  | literal | charClass | anyChar | ref | lookahead | codePredicate | action | bareAction => cases h

variable {declared actual : String → Shape} {e : Expr}

/-- What diverges gets a shape that is too wide. -/
theorem Diverges.exceeds (h : e.Diverges declared actual) :
    (e.shapedBy actual).shape.Exceeds (e.shapedBy declared).shape := by
  have hmem : ∀ {ref : String → Shape} {e x : Expr}, x ∈ e.parts →
      (x.shapedBy ref).shape ∈ e.parts.map fun x => (x.shapedBy ref).shape :=
    fun hx => List.mem_map_of_mem hx
  induction h with
  | @here e x y s made alike narrow left right differ =>
    obtain ⟨wrap, hwrap, hshape⟩ := exists_faithful made
    rw [hshape, hshape, Shape.common_of_ne (hmem left) (hmem right) differ,
      Shape.common_of_forall_eq (hmem left) (List.forall_mem_map.2 alike)]
    exact hwrap.exceeds (Shape.dynamic_exceeds narrow)
  | @part e x s made alike mem below ih =>
    obtain ⟨wrap, hwrap, hshape⟩ := exists_faithful made
    rw [alike x mem] at ih
    rw [hshape, hshape, Shape.common_of_forall_eq (hmem mem) (List.forall_mem_map.2 alike)]
    apply hwrap.exceeds
    -- the parts have the shape of the one that diverges, or any shape at all
    rcases Shape.common_cases (e.parts.map fun x => (x.shapedBy actual).shape) with ⟨-, hall⟩ | hdynamic
    · rwa [← hall _ (hmem mem)]
    · obtain ⟨v, hpresent, -, hv⟩ := ih
      exact ⟨v, hpresent, by rw [hdynamic, Shape.admits], hv⟩

/-- What does not diverge gets a shape that is as precise, if references do. -/
theorem refines_of_not_diverges (hrefs : ∀ name, (actual name).Refines (declared name))
    (h : ¬ e.Diverges declared actual) :
    (e.shapedBy actual).shape.Refines (e.shapedBy declared).shape := by
  induction e using parts_induction with
  | h e ih =>
    cases hmade : e.madeOfParts with
    | false =>
      cases e with
      | ref reference => exact hrefs reference.name.name
      | literal | charClass | anyChar | lookahead | codePredicate | action | bareAction =>
        exact .refl _
      | seq | choice | star | plus | opt | label | group => cases hmade
    | true =>
      obtain ⟨wrap, hwrap, hshape⟩ := exists_faithful hmade
      rw [hshape, hshape]
      apply hwrap.refines
      rcases Shape.common_cases (e.parts.map fun x => (x.shapedBy declared).shape) with
        ⟨hcommon, hall⟩ | hdynamic
      · generalize Shape.common (e.parts.map fun x => (x.shapedBy declared).shape) = s at hcommon hall
        obtain ⟨x, hx, rfl⟩ := List.mem_map.1 hcommon
        have halike := List.forall_mem_map.1 hall
        by_cases hwide : ∃ v, (x.shapedBy declared).shape.admits v = false
        · have hsame : ∀ y ∈ e.parts, (y.shapedBy actual).shape = (x.shapedBy actual).shape := by
            intro y hy
            by_contra hne
            exact h (.here hmade halike hwide hy hx hne)
          rw [Shape.common_of_forall_eq (List.mem_map_of_mem hx) (List.forall_mem_map.2 hsame)]
          exact ih x hx fun hbelow => h (.part hmade halike hx hbelow)
        · exact fun v _ => eq_true_of_ne_false fun hv => hwide ⟨v, hv⟩
      · rw [hdynamic]
        exact Shape.refines_dynamic _

/-- **More precise references give a more precise shape, unless the expression diverges.** -/
theorem refines_iff (hrefs : ∀ name, (actual name).Refines (declared name)) :
    (e.shapedBy actual).shape.Refines (e.shapedBy declared).shape ↔ ¬ e.Diverges declared actual :=
  ⟨fun h hdiverges => hdiverges.exceeds.not_refines h, refines_of_not_diverges hrefs⟩

end Expr

/-! ## Rules -/

/-- The shapes that were found, by the names of the rules. -/
def shapesFound (shaped : List ShapedRule) (name : String) : Shape :=
  (shapeOf? shaped name).getD .dynamic

theorem Rule.shapedBy_congr {shapes other : String → Shape} {r : Rule}
    (hname : shapes r.name.name = other r.name.name)
    (hrefs : ∀ name ∈ r.expr.references, shapes name = other name) :
    r.shapedBy shapes = r.shapedBy other := by
  rw [shapedBy, shapedBy, hname, Expr.shapedBy_congr r.expr hrefs]

namespace Grammar

variable {g : Grammar} {shapes : String → Shape}

theorem refines_refersAs (g : Grammar) (shapes : String → Shape) (owner name : String) :
    (shapes name).Refines (g.refersAs shapes owner name) := by
  unfold refersAs
  split
  · exact Shape.refines_dynamic _
  · exact .refl _

theorem shapeOf?_shapedBy (g : Grammar) (shapes : String → Shape) (name : String) :
    shapeOf? (g.rules.map (Rule.shapedBy shapes)) name =
      (g.rule? name).map fun r => shapes r.name.name := by
  rw [shapeOf?, shapedRule?, List.find?_map, Option.map_map]
  rfl

/-- The shapes that are found solve the equations. -/
theorem exists_solves_shapesFound (hclosed : g.Closed) (hnames : g.ruleNames.Nodup) :
    ∃ shaped, g.shapes.answer = .ok shaped ∧ g.Solves (shapesFound shaped) ∧
      shaped = g.rules.map (Rule.shapedBy (shapesFound shaped)) := by
  obtain ⟨shapes, hsolves⟩ := exists_solves hclosed hnames
  have hshaped := shapes_of_solves hclosed hnames hsolves
  have hfound : ∀ name ∈ g.ruleNames,
      shapesFound (g.rules.map (Rule.shapedBy shapes)) name = shapes name := by
    intro name hname
    obtain ⟨r, hr⟩ := exists_rule?_iff.2 hname
    rw [shapesFound, shapeOf?_shapedBy, hr, Option.map_some, Option.getD_some, name_of_rule? hr]
  have hrefs : ∀ r ∈ g.rules, ∀ name ∈ r.expr.references, name ∈ g.ruleNames := by
    intro r hr name hname
    rw [Expr.references_eq] at hname
    obtain ⟨reference, hreference, rfl⟩ := List.mem_map.1 hname
    exact hclosed r hr reference hreference
  refine ⟨_, hshaped, fun r hr => ?_, List.map_congr_left fun r hr => ?_⟩
  · rw [hfound _ (List.mem_map_of_mem hr), hsolves r hr]
    refine congrArg ShapedExpr.shape (Expr.shapedBy_congr _ fun name hname => ?_)
    unfold refersAs
    rw [hfound name (hrefs r hr name hname)]
  · exact Rule.shapedBy_congr (hfound _ (List.mem_map_of_mem hr)).symm
      fun name hname => (hfound name (hrefs r hr name hname)).symm

end Grammar

section

variable {depth : Nat} {source : String} {cs : List Char} {g : Grammar}

/-- **The shape of a body is as precise as that of its rule, unless the body diverges.**  Every rule
of a compiled grammar gets its shape, and then its body, in which references into the cycle of the rule
have their own shapes instead of `dynamic`, admits only what the rule does, if and only if no parts that
all had one shape come to differ. -/
theorem compile_bodies_refine_iff (hg : (compileWithin depth source cs).answer = .ok (.ok g)) :
    ∃ shaped, g.shapes.answer = .ok shaped ∧ ∀ sr ∈ shaped,
      sr.body.shape.Refines sr.shape ↔
        ¬ sr.rule.expr.Diverges (g.refersAs (shapesFound shaped) sr.rule.name.name)
          (shapesFound shaped) := by
  obtain ⟨shaped, hanswer, hsolves, hshaped⟩ :=
    Grammar.exists_solves_shapesFound (compile_closed hg) (compile_nodup_ruleNames hg)
  refine ⟨shaped, hanswer, fun sr hsr => ?_⟩
  rw [hshaped] at hsr
  obtain ⟨r, hr, rfl⟩ := List.mem_map.1 hsr
  have hshape := hsolves r hr
  show (r.expr.shapedBy _).shape.Refines (shapesFound shaped r.name.name) ↔ _
  rw [hshape]
  exact Expr.refines_iff (g.refines_refersAs _ r.name.name)

end

/-! ## A body that is wider than its rule -/

/-- A cycle of three rules.  `A` has values in one list and `B` has them in two, so that the branches of
`S` differ as soon as references to these have their shapes. -/
def mixedCycle : List Char := "S <- A A / B B\nA <- \"(\" S?\nB <- (\"[\" S?)+".toList

theorem mixedCycle_shapes : ∃ g shaped, (compile "mixed.peg" mixedCycle).answer = .ok (.ok g) ∧
    g.shapes.answer = .ok shaped ∧
      shaped.map (fun sr => (sr.rule.name.name, sr.shape, sr.body.shape)) =
        [("S", .list .dynamic, .dynamic), ("A", .list .dynamic, .list .dynamic),
          ("B", .list (.list .dynamic), .list (.list .dynamic))] := by
  obtain ⟨g, hg, -, hshapes⟩ := exists_of_acceptedWith? (show
    (acceptedWith? "mixed.peg" mixedCycle "S").any (fun g =>
      match g.shapes.answer with
      | .ok shaped => shaped.map (fun sr => (sr.rule.name.name, sr.shape, sr.body.shape)) ==
        [("S", .list .dynamic, .dynamic), ("A", .list .dynamic, .list .dynamic),
          ("B", .list (.list .dynamic), .list (.list .dynamic))]
      | .error _ => false) = true by decide +kernel)
  split at hshapes
  · rename_i shaped hanswer
    exact ⟨g, shaped, hg, hanswer, eq_of_beq hshapes⟩
  · cases hshapes

/-- The body of a rule may admit what the rule does not. -/
theorem compile_body_wider : ∃ g shaped sr v, (compile "mixed.peg" mixedCycle).answer = .ok (.ok g) ∧
    g.shapes.answer = .ok shaped ∧ sr ∈ shaped ∧ sr.body.shape.admits v = true ∧
      sr.shape.admits v = false := by
  obtain ⟨g, shaped, hg, hanswer, hshapes⟩ := mixedCycle_shapes
  have hmem : ("S", Shape.list .dynamic, Shape.dynamic) ∈
      shaped.map (fun sr => (sr.rule.name.name, sr.shape, sr.body.shape)) := by
    rw [hshapes]
    exact List.mem_cons_self ..
  obtain ⟨sr, hsr, heq⟩ := List.mem_map.1 hmem
  simp only [Prod.mk.injEq] at heq
  obtain ⟨-, hrule, hbody⟩ := heq
  exact ⟨g, shaped, sr, .text "(", hg, hanswer, hsr, by rw [hbody]; rfl, by rw [hrule]; rfl⟩

/-- It is the body of `S` that diverges, and no other one. -/
theorem compile_bodies_refine_iff_mixed : ∃ g shaped,
    (compile "mixed.peg" mixedCycle).answer = .ok (.ok g) ∧ g.shapes.answer = .ok shaped ∧
      ∀ sr ∈ shaped, sr.rule.expr.Diverges (g.refersAs (shapesFound shaped) sr.rule.name.name)
        (shapesFound shaped) ↔ sr.rule.name.name = "S" := by
  obtain ⟨g, shaped, hg, hanswer, hshapes⟩ := mixedCycle_shapes
  obtain ⟨shaped', hanswer', hiff⟩ := compile_bodies_refine_iff hg
  cases hanswer.symm.trans hanswer'
  refine ⟨g, shaped, hg, hanswer, fun sr hsr => ?_⟩
  rw [← not_iff_not, ← hiff sr hsr]
  have hmem := List.mem_map_of_mem (f := fun sr : ShapedRule =>
    (sr.rule.name.name, sr.shape, sr.body.shape)) hsr
  rw [hshapes] at hmem
  simp only [List.mem_cons, Prod.mk.injEq, List.not_mem_nil, or_false] at hmem
  obtain ⟨hname, hrule, hbody⟩ | ⟨hname, hrule, hbody⟩ | ⟨hname, hrule, hbody⟩ := hmem
  · rw [hname, hrule, hbody]
    have hwider := (Shape.dynamic_exceeds (s := .list .dynamic) ⟨.text "(", rfl⟩).not_refines
    exact iff_of_false hwider fun hne => hne rfl
  · rw [hname, hrule, hbody]
    exact iff_of_true (.refl _) (by decide)
  · rw [hname, hrule, hbody]
    exact iff_of_true (.refl _) (by decide)

end Packrat

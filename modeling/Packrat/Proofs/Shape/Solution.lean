import Packrat.Proofs.Shape.Equations
import Packrat.Proofs.Shape.Soundness

/-!
# Shape inference finds the solution of the equations

Rules are shaped when they are first asked for, from each rule in its order.  Whatever the order, the
shapes that are found are the only ones that satisfy all equations.

* `Shaping.Answers` — from tables of right shapes a computation ends with an answer and such a table.
* `ShapeRules.walk_answers` — a walk answers the tree that the shapes of references give.
* `Grammar.ruleShape_answers`, `Grammar.shapes_of_solves` — rules get the shapes of any solution.
* `Grammar.shapes_unique` — the shapes do not depend on the order of the rules.
-/

set_option autoImplicit false

namespace Packrat

/-- A rule with its shape and its body with shapes, given those of all rules. -/
def Rule.shapedBy (shapes : String → Shape) (r : Rule) : ShapedRule :=
  ⟨r, shapes r.name.name, r.expr.shapedBy shapes⟩

/-- All shapes in the table are right. -/
def ShapeTable.Right (rules : List Rule) (shapes : String → Shape) (table : ShapeTable) : Prop :=
  ∀ i shape r, table.lookup i = some shape → rules[i]? = some r → shape = shapes r.name.name

theorem ShapeTable.Right.cons {rules : List Rule} {shapes : String → Shape} {table : ShapeTable}
    (h : table.Right rules shapes) {i : Nat} {r : Rule} (hr : rules[i]? = some r) :
    ShapeTable.Right rules shapes ((i, shapes r.name.name) :: table) := by
  intro j other r' hlookup hr'
  rw [List.lookup_cons] at hlookup
  split at hlookup
  · rename_i hij
    cases hlookup
    rw [eq_of_beq hij, hr] at hr'
    cases hr'
    rfl
  · exact h j other r' hlookup hr'

namespace Shaping

variable {α β : Type} {rules : List Rule} {shapes : String → Shape}

/-- From each table of right shapes the computation ends with the answer and a table of right
shapes. -/
def Answers (rules : List Rule) (shapes : String → Shape) (a : α) (x : Shaping α) : Prop :=
  ∀ table, ShapeTable.Right rules shapes table →
    ∃ table', x table = .ok (a, table') ∧ ShapeTable.Right rules shapes table'

theorem Answers.pure (a : α) : Answers rules shapes a (Pure.pure a) :=
  fun table h => ⟨table, rfl, h⟩

theorem Answers.bind {x : Shaping α} {f : α → Shaping β} {a : α} {b : β}
    (hx : Answers rules shapes a x) (hf : Answers rules shapes b (f a)) :
    Answers rules shapes b (x >>= f) := by
  intro table h
  obtain ⟨table', hxa, h'⟩ := hx table h
  obtain ⟨table'', hfb, h''⟩ := hf table' h'
  exact ⟨table'', by rw [bind_ok hxa, hfb], h''⟩

end Shaping

namespace ShapeRules

variable {s : ShapeRules} {ruleShape : Nat → Shaping Shape} {within : Option Nat}
  {shapes ref : String → Shape}

mutual

/-- **A walk answers the tree that the shapes of references give.** -/
theorem walk_answers (e : Expr) (href : ∀ name ∈ e.references,
      (s.refShape ruleShape within name).Answers s.rules shapes (ref name)) :
    (s.walk ruleShape within e).Answers s.rules shapes (e.shapedBy ref) := by
  cases e with
  | literal | charClass | anyChar | codePredicate | bareAction => exact .pure _
  | ref reference => exact (href _ (List.mem_singleton_self _)).bind (.pure _)
  | seq _ es | choice _ es => exact (walkAll_answers es href).bind (.pure _)
  | star _ body | plus _ body | opt _ body | lookahead _ _ body | label _ _ body
  | action _ _ _ body | group _ body => exact (walk_answers body href).bind (.pure _)

theorem walkAll_answers (es : List Expr) (href : ∀ name ∈ Expr.referencesAll es,
      (s.refShape ruleShape within name).Answers s.rules shapes (ref name)) :
    (s.walkAll ruleShape within es).Answers s.rules shapes (Expr.shapedAllBy ref es) := by
  cases es with
  | nil => exact .pure _
  | cons e rest =>
    rw [Expr.referencesAll, List.forall_mem_append] at href
    exact (walk_answers e href.1).bind ((walkAll_answers rest href.2).bind (.pure _))

end

end ShapeRules

namespace Grammar

variable {g g' : Grammar} {shapes : String → Shape}

/-- The rules of a grammar with their components. -/
def shapeRules (g : Grammar) : ShapeRules := ⟨g.rules, ruleComponents g.rules⟩

theorem ruleIndex?_of_nodup (hnames : g.ruleNames.Nodup) {i : Nat} {r : Rule}
    (hr : g.rules[i]? = some r) : ruleIndex? g.rules r.name.name = some i := by
  obtain ⟨hlt, rfl⟩ := List.getElem?_eq_some_iff.1 hr
  refine List.findIdx?_eq_some_iff_getElem.2 ⟨hlt, beq_self_eq_true _, fun j hj heq => ?_⟩
  have hlength : g.ruleNames.length = g.rules.length := List.length_map _
  have hi : i < g.ruleNames.length := by omega
  have hj' : j < g.ruleNames.length := by omega
  have hsame : g.ruleNames[j] = g.ruleNames[i] := by simpa [ruleNames] using heq
  have hji := (List.Nodup.getElem_inj_iff hnames).1 hsame
  omega

/-- A reference in the body of a rule gets the shape that it counts as. -/
theorem refShape_answers {ruleShape : Nat → Shaping Shape} {owner name : String} {i j : Nat}
    (hi : ruleIndex? g.rules owner = some i) (hj : ruleIndex? g.rules name = some j)
    (hrule : ¬ g.Mutual owner name → (ruleShape j).Answers g.rules shapes (shapes name)) :
    (g.shapeRules.refShape ruleShape (g.shapeRules.componentOf? i) name).Answers g.rules shapes
      (g.refersAs shapes owner name) := by
  obtain ⟨c, -, hc⟩ := exists_component hi
  have hwithin : g.shapeRules.componentOf? i = some c := hc
  have hiff : g.shapeRules.componentOf? i = g.shapeRules.componentOf? j ↔ g.Mutual owner name :=
    lookup_ruleComponents_eq_iff hi hj
  rw [hwithin] at hiff
  rw [ShapeRules.refShape, show ruleIndex? g.shapeRules.rules name = some j from hj]
  simp only [hwithin, Option.isSome_some, Bool.true_and, beq_iff_eq]
  unfold refersAs
  by_cases hmutual : g.Mutual owner name
  · rw [if_pos hmutual, if_pos (hiff.2 hmutual)]
    exact .pure _
  · rw [if_neg hmutual, if_neg fun heq => hmutual (hiff.1 heq)]
    exact hrule hmutual

/-- **A rule gets the shape of a solution**, with fuel for the rules of less rank. -/
theorem ruleShape_answers (hclosed : g.Closed) (hnames : g.ruleNames.Nodup)
    (hsolves : g.Solves shapes) (fuel : Nat) : ∀ (i : Nat) (r : Rule), g.rules[i]? = some r →
      g.rank r.name.name < fuel →
        (g.shapeRules.ruleShape fuel i).Answers g.rules shapes (shapes r.name.name) := by
  induction fuel with
  | zero => exact fun _ _ _ hlt => absurd hlt (Nat.not_lt_zero _)
  | succ fuel ih =>
    intro i r hr hlt table htable
    cases hlookup : table.lookup i with
    | some shape =>
      rw [← htable i shape r hlookup hr]
      exact ⟨table, ShapeRules.ruleShape_of_some hlookup, htable⟩
    | none =>
      have hmem : r ∈ g.rules := List.mem_of_getElem? hr
      have hrefs : ∀ name ∈ r.expr.references,
          (g.shapeRules.refShape (g.shapeRules.ruleShape fuel) (g.shapeRules.componentOf? i)
            name).Answers g.rules shapes (g.refersAs shapes r.name.name name) := by
        intro name hname
        have hdefined : name ∈ g.ruleNames := by
          rw [Expr.references_eq] at hname
          obtain ⟨reference, hreference, rfl⟩ := List.mem_map.1 hname
          exact hclosed r hmem reference hreference
        obtain ⟨j, hj⟩ := exists_ruleIndex? hdefined
        obtain ⟨r', hr'⟩ := exists_rule_of_ruleIndex? hj
        refine refShape_answers (ruleIndex?_of_nodup hnames hr) hj fun hmutual => ?_
        have hless := rank_lt (rule?_of_nodup hnames hmem) hname hdefined hmutual
        rw [← name_of_ruleIndex? hj hr'] at hless ⊢
        exact ih j r' hr' (by omega)
      obtain ⟨table', hwalk, htable'⟩ :=
        ShapeRules.walk_answers (s := g.shapeRules) r.expr hrefs table htable
      have hshape := ShapeRules.ruleShape_of_none (s := g.shapeRules) hlookup hr hwalk
      rw [← hsolves r hmem] at hshape
      exact ⟨_, hshape, htable'.cons hr⟩

/-- Outside of its own component a reference gets the shape of the rule that it names. -/
theorem shapedRule_answers (hclosed : g.Closed) (hnames : g.ruleNames.Nodup)
    (hsolves : g.Solves shapes) {i : Nat} {r : Rule} (hr : g.rules[i]? = some r) :
    (g.shapeRules.shapedRule i r).Answers g.rules shapes (r.shapedBy shapes) := by
  have hrule : ∀ (j : Nat) (r' : Rule), g.rules[j]? = some r' →
      (g.shapeRules.ruleShape (g.rules.length + 1) j).Answers g.rules shapes
        (shapes r'.name.name) := fun j r' hr' =>
    ruleShape_answers hclosed hnames hsolves _ j r' hr' (Nat.lt_succ_of_lt
      (rank_lt_length (List.mem_map_of_mem (List.mem_of_getElem? hr'))))
  refine (hrule i r hr).bind (Shaping.Answers.bind ?_ (.pure _))
  refine ShapeRules.walk_answers (s := g.shapeRules) r.expr fun name hname => ?_
  rw [Expr.references_eq] at hname
  obtain ⟨reference, hreference, rfl⟩ := List.mem_map.1 hname
  obtain ⟨j, hj⟩ := exists_ruleIndex?
    (hclosed r (List.mem_of_getElem? hr) reference hreference)
  obtain ⟨r', hr'⟩ := exists_rule_of_ruleIndex? hj
  rw [ShapeRules.refShape, show ruleIndex? g.shapeRules.rules _ = some j from hj]
  rw [← name_of_ruleIndex? hj hr']
  exact hrule j r' hr'

/-- **All rules get the shapes of a solution.** -/
theorem shapes_of_solves (hclosed : g.Closed) (hnames : g.ruleNames.Nodup)
    (hsolves : g.Solves shapes) :
    g.shapes.answer = .ok (g.rules.map (Rule.shapedBy shapes)) := by
  have hrest : ∀ (rest : List Rule) (i : Nat) (table : ShapeTable), g.rules.drop i = rest →
      table.Right g.rules shapes →
        (g.shapeRules.shapedRules i rest table).answer = .ok (rest.map (Rule.shapedBy shapes)) := by
    intro rest
    induction rest with
    | nil => exact fun _ _ _ _ => rfl
    | cons r rest ih =>
      intro i table hdrop htable
      have hr : g.rules[i]? = some r := by
        rw [← List.head?_drop, hdrop]
        rfl
      have hdrop' : g.rules.drop (i + 1) = rest := by
        rw [← List.tail_drop, hdrop]
        rfl
      obtain ⟨table', hfirst, htable'⟩ :=
        shapedRule_answers hclosed hnames hsolves hr table htable
      have hrun : (g.shapeRules.shapedRule i r).run table = .ok (r.shapedBy shapes, table') := hfirst
      rw [ShapeRules.shapedRules, hrun]
      simp only
      rw [ih (i + 1) table' hdrop' htable']
      rfl
  exact hrest g.rules 0 [] rfl fun _ _ _ h => by cases h

/-! ## The order of the rules -/

section

variable (hperm : g'.rules.Perm g.rules)

include hperm

theorem ruleNames_perm : g'.ruleNames.Perm g.ruleNames := hperm.map _

/-- In another order a name stands for the same rule. -/
theorem rule?_perm (hnames : g.ruleNames.Nodup) (name : String) : g'.rule? name = g.rule? name := by
  have hnames' : g'.ruleNames.Nodup := (ruleNames_perm hperm).nodup_iff.2 hnames
  cases hr : g.rule? name with
  | some r =>
    obtain rfl := name_of_rule? hr
    exact rule?_of_nodup hnames' (hperm.mem_iff.2 (List.mem_of_find?_eq_some hr))
  | none =>
    rw [rule?, List.find?_eq_none] at hr ⊢
    exact fun r hmem => hr r (hperm.mem_iff.1 hmem)

theorem closed_perm (hclosed : g.Closed) : g'.Closed := fun r hr reference hreference =>
  (ruleNames_perm hperm).mem_iff.2 (hclosed r (hperm.mem_iff.1 hr) reference hreference)

theorem solves_perm (hnames : g.ruleNames.Nodup) (h : g.Solves shapes) : g'.Solves shapes := by
  intro r hr
  rw [refersAs_congr (rule?_perm hperm hnames)]
  exact h r (hperm.mem_iff.1 hr)

end

/-- **Shape inference has one answer, whatever the order of the rules.**  For every grammar whose
rules have distinct names and refer to rules, left recursive or not, the equations have exactly one
solution.  In whatever order the rules stand, inference ends, each rule gets the shape of the
solution and the same body with shapes, and each reference in a body has the shape of the rule that it
names. -/
theorem shapes_unique (hnames : g.ruleNames.Nodup) (hclosed : g.Closed) :
    ∃ shapes : String → Shape, g.Solves shapes ∧
      (∀ other, g.Solves other → ∀ name ∈ g.ruleNames, other name = shapes name) ∧
      (∀ g' : Grammar, g'.rules.Perm g.rules →
        g'.shapes.answer = .ok (g'.rules.map (Rule.shapedBy shapes))) ∧
      ∀ r ∈ g.rules, ∀ path reference, r.expr.at? path = some (.ref reference) →
        (r.shapedBy shapes).body.at? path =
          some (.mk (.ref reference) (shapes reference.name.name) []) := by
  obtain ⟨shapes, hsolves⟩ := exists_solves hclosed hnames
  refine ⟨shapes, hsolves, fun other hother name hname => ?_, fun g' hperm => ?_,
    fun r _ path reference href => ?_⟩
  · exact hother.unique hclosed hnames hsolves _ name hname (rank_lt_length hname)
  · exact shapes_of_solves (closed_perm hperm hclosed)
      ((ruleNames_perm hperm).nodup_iff.2 hnames) (solves_perm hperm hnames hsolves)
  · rw [Rule.shapedBy, Expr.at?_shapedBy, href]
    rfl

/-- A left recursive rule that stands before the rule that it needs. -/
def chain : Grammar where
  preamble := none
  items :=
    [.rule ⟨⟨0, 8⟩, ⟨"A", ⟨0, 1⟩⟩, .seq ⟨5, 8⟩
      [.ref (.mk ⟨5, 6⟩ ⟨"A", ⟨5, 6⟩⟩ []), .ref (.mk ⟨7, 8⟩ ⟨"B", ⟨7, 8⟩⟩ [])]⟩,
     .rule ⟨⟨9, 21⟩, ⟨"B", ⟨9, 10⟩⟩, .seq ⟨14, 21⟩ [.literal ⟨14, 17⟩ "b", .literal ⟨18, 21⟩ "c"]⟩]

/-- The same rules in the other order. -/
def chainBack : Grammar := ⟨none, chain.items.reverse⟩

/-- References of a rule to itself count as `dynamic`, in both orders. -/
theorem shapes_unique_chain : chain.ruleNames.Nodup ∧ chain.Closed ∧
    ∃ shapes, chain.Solves shapes ∧
      chain.shapes.answer = .ok (chain.rules.map (Rule.shapedBy shapes)) ∧
      chainBack.shapes.answer = .ok (chainBack.rules.map (Rule.shapedBy shapes)) ∧
      shapes "A" = .list .dynamic ∧ shapes "B" = .list .text := by
  have hnames : chain.ruleNames.Nodup := by decide
  have hclosed : chain.Closed := by unfold Closed; decide
  obtain ⟨shapes, hsolves, -, horder, -⟩ := shapes_unique hnames hclosed
  have hchain := horder chain (.refl _)
  have hback := horder chainBack (by
    show (chain.items.reverse.filterMap Item.rule?).Perm (chain.items.filterMap Item.rule?)
    exact chain.items.reverse_perm.filterMap _)
  have hfound : chain.shapes.answer.map (·.map (·.shape)) = .ok [.list .dynamic, .list .text] := by
    decide
  rw [hchain] at hfound
  have hshapes : [shapes "A", shapes "B"] = [.list .dynamic, .list .text] := Except.ok.inj hfound
  simp only [List.cons.injEq, and_true] at hshapes
  exact ⟨hnames, hclosed, shapes, hsolves, hchain, hback, hshapes⟩

end Grammar

end Packrat

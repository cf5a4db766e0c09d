import Packrat.Proofs.Engine.Occurrences
import Packrat.Proofs.Engine.Safety
import Packrat.Proofs.Graph.Components
import Packrat.Proofs.Shape.Inference

/-!
# The shapes of a compiled grammar are those of its values

* `Grammar.shapes_fit` — if all references are defined, all rules get shapes, and these fit.
* `Matcher.Respects` — whatever is matched in a pass has a value that the shape of the occurrence, or of
  the rule, admits.
* `compile_respects_shapes` — so it is in all passes of all runs of a compiled grammar.
-/

set_option autoImplicit false

namespace Packrat

variable {σ : Type}

/-! ## All rules get shapes -/

theorem lt_of_mem_referencedRules {rules : List Rule} {i j : Nat} (h : j ∈ referencedRules rules i) :
    j < rules.length := by
  unfold referencedRules at h
  split at h
  · obtain ⟨name, -, hj⟩ := List.mem_filterMap.1 h
    obtain ⟨r, hr⟩ := exists_rule_of_ruleIndex? hj
    exact (List.getElem?_eq_some_iff.1 hr).1
  · cases h

namespace Grammar

variable {g : Grammar}

theorem Closed.ranked (hg : g.Closed) : ShapeRules.Ranked ⟨g.rules, ruleComponents g.rules⟩ where
  defined := by
    intro r hr name hname
    rw [Expr.references_eq] at hname
    obtain ⟨reference, hreference, rfl⟩ := List.mem_map.1 hname
    exact exists_ruleIndex? (hg r hr reference hreference)
  numbered := fun i hi => components_numbered (fun _ _ => lt_of_mem_referencedRules) hi
  descending := by
    have hnext : ∀ i, ∀ j ∈ referencedRules g.rules i, j < g.rules.length :=
      fun _ _ => lt_of_mem_referencedRules
    exact fun i j a b hj ha hb => components_descending hnext hj ha hb

/-- **All rules get shapes, and these fit**, if all references are defined. -/
theorem shapes_fit (hg : g.Closed) : ∃ shaped, g.shapes.answer = .ok shaped ∧
    List.Forall₂ (ShapedRule.Fits g.rules) shaped g.rules :=
  ShapeRules.shapedRules_gives hg.ranked g.rules 0 [] rfl (ShapeTable.sound_nil g.rules)

end Grammar

/-! ## Runs respect shapes -/

/-- In the pass from `start` in the state `s₀`, whatever is matched has a value that its shape admits. -/
structure Matcher.Respects (m : Matcher σ) (shaped : List ShapedRule) (start : String)
    (s₀ : RunState σ) : Prop where
  /-- Each occurrence that is matched has its node in the tree of its rule, at the same path, and the
  shape of this node admits the value. -/
  occurrence : ∀ fuel r path e p s, m.Comes start s₀ fuel r path e p s →
    ∃ sr node, shapedRule? shaped r.name.name = some sr ∧ sr.rule = r ∧
      sr.body.at? path = some node ∧ node.expr = e ∧
        ∀ stop v s', m.eval (m.invoke fuel) e p s = .ok (.matched stop v) s' →
          node.shape.admits v = true
  /-- The shape of a rule that is called at a reference admits the value, be it found now or known
  from before. -/
  call : ∀ fuel r path reference p s, m.Comes start s₀ fuel r path (.ref reference) p s →
    ∀ stop v s', m.invoke fuel reference.name.name p s = .ok (.matched stop v) s' →
      ∃ shape, shapeOf? shaped reference.name.name = some shape ∧ shape.admits v = true
  /-- So does the shape of the start rule. -/
  whole : ∀ stop v s', m.fromStart start s₀ = .ok (.matched stop v) s' →
    ∃ shape, shapeOf? shaped start = some shape ∧ shape.admits v = true

/-- The shape of a rule admits what the rule may yield. -/
theorem exists_shapeOf?_admits {rules : List Rule} {shaped : List ShapedRule}
    (h : List.Forall₂ (ShapedRule.Fits rules) shaped rules) {name : String} {v : Value}
    (hv : RuleMayYield rules name v) :
    ∃ shape, shapeOf? shaped name = some shape ∧ shape.admits v = true := by
  obtain ⟨r, hr, hbody⟩ := hv
  obtain ⟨sr, hsr, hfits⟩ := shapedRule?_fits h hr
  exact ⟨sr.shape, by rw [shapeOf?, hsr]; rfl, hfits.covers v hbody⟩

/-- **A pass respects shapes that fit**, whatever the handlers answer. -/
theorem Matcher.respects_of_fit {m : Matcher σ} {shaped : List ShapedRule}
    (h : List.Forall₂ (ShapedRule.Fits m.rules) shaped m.rules) {start : String} {s₀ : RunState σ}
    (hs₀ : s₀.memo.Honest m.rules) : m.Respects shaped start s₀ where
  occurrence := by
    intro fuel r path e p s hcomes
    obtain ⟨hr, hpart⟩ := hcomes.occurs
    obtain ⟨sr, hsr, hfits⟩ := shapedRule?_fits h hr
    obtain ⟨node, hnode, hnodeFits⟩ := hfits.body.at? hpart
    exact ⟨sr, node, hsr, hfits.rule_eq, hnode, hnodeFits.expr_eq,
      fun stop v s' hv => hnodeFits.admits (hcomes.mayYield hs₀ hv)⟩
  call := by
    intro fuel r path reference p s hcomes stop v s' hv
    exact exists_shapeOf?_admits h
      (m.invoke_keeps fuel reference.name.name p s _ s' (hcomes.honest hs₀) hv).1
  whole := by
    intro stop v s' hv
    exact exists_shapeOf?_admits h (m.invoke_keeps m.fuel start 0 s₀ _ s' hs₀ hv).1

/-! ## Answers -/

namespace Grammar

variable {g : Grammar} {shaped : List ShapedRule} {h : Handlers σ} {user : σ} {start : String}
  {input : List Char} {v : Value}

/-- The value of a run has the shape of the start rule. -/
theorem run_respects (hfit : List.Forall₂ (ShapedRule.Fits g.rules) shaped g.rules) {stop : Nat}
    (hv : (g.run h user start input).answer = .ok (.ok (.matched stop v))) :
    ∃ shape, shapeOf? shaped start = some shape ∧ shape.admits v = true := by
  unfold run at hv
  split at hv
  · cases hv
  · obtain ⟨s, hrun⟩ := Run.eq_ok_of_report hv
    obtain ⟨o, hstart, ho⟩ := Run.map_eq_ok hrun
    cases ho
    exact (Matcher.respects_of_fit hfit (.empty g.rules)).whole stop v s hstart

/-- The value of a parse has the shape of the start rule. -/
theorem parse_respects (hfit : List.Forall₂ (ShapedRule.Fits g.rules) shaped g.rules)
    (hv : (g.parse h user start input).answer = .ok (.ok v)) :
    ∃ shape, shapeOf? shaped start = some shape ∧ shape.admits v = true := by
  unfold parse at hv
  split at hv
  · cases hv
  · obtain ⟨s, hparse⟩ := Run.eq_ok_of_report hv
    obtain ⟨r, hstart, hr⟩ := Run.map_eq_ok hparse
    cases r with
    | error e => cases hr
    | ok w =>
      cases hr
      have hinit : (RunState.init user).memo.Honest (g.matcher h input).rules := .empty g.rules
      obtain ⟨hyield, -⟩ := (g.matcher h input).parse_keeps start _ _ _ hinit hstart
      exact exists_shapeOf?_admits hfit (hyield v rfl)

end Grammar

/-! ## Compiled grammars -/

section

variable {depth : Nat} {source : String} {cs : List Char} {g : Grammar}

/-- **The shapes of a compiled grammar admit whatever is matched**: the grammar has shapes for all its
rules, and every pass of a run or a parse, from every rule, on every input and with all handlers,
respects them. -/
theorem compile_respects_shapes (hg : (compileWithin depth source cs).answer = .ok (.ok g)) :
    ∃ shaped, g.shapes.answer = .ok shaped ∧
      ∀ (σ : Type) (h : Handlers σ) (user : σ) (start : String) (input : List Char)
        (s₀ : RunState σ), (g.matcher h input).Starts start user s₀ →
          (g.matcher h input).Respects shaped start s₀ := by
  obtain ⟨shaped, hshaped, hfit⟩ := Grammar.shapes_fit (compile_closed hg)
  exact ⟨shaped, hshaped, fun σ h user start input s₀ hs₀ =>
    Matcher.respects_of_fit hfit hs₀.honest⟩

/-- Whether the pass from `start` ends with a match up to an offset. -/
def Matcher.matchesUpTo (m : Matcher σ) (start : String) (s₀ : RunState σ) (stop : Nat) : Bool :=
  match m.fromStart start s₀ with
  | .ok (.matched q _) _ => q == stop
  | _ => false

theorem Matcher.exists_of_matchesUpTo {m : Matcher σ} {start : String} {s₀ : RunState σ} {stop : Nat}
    (h : m.matchesUpTo start s₀ stop = true) :
    ∃ v s', m.fromStart start s₀ = .ok (.matched stop v) s' := by
  unfold matchesUpTo at h
  split at h
  · rename_i q v s' hstart
    rw [beq_iff_eq] at h
    exact ⟨v, s', h ▸ hstart⟩
  · cases h

/-- Rules that refer to one another, with a repetition that may match nothing in an option, where the
second alternative finds what the first one has left in the memory. -/
theorem compile_respects_shapes_nested : ∃ g, (compile "nested.peg"
      "S <- x:A 'b' / A C?\nA <- ('a'*)?\nC <- '(' S ')' / A".toList).answer = .ok (.ok g) ∧
      ∃ shaped, g.shapes.answer = .ok shaped ∧
        (g.matcher (Handlers.none Unit) "aa(ab)".toList).Respects shaped "S" (.init ()) ∧
        ∃ v s', (g.matcher (Handlers.none Unit) "aa(ab)".toList).fromStart "S" (.init ()) =
          .ok (.matched 6 v) s' := by
  obtain ⟨g, hg, -, hmatch⟩ := exists_of_acceptedWith? (show (acceptedWith? "nested.peg"
    "S <- x:A 'b' / A C?\nA <- ('a'*)?\nC <- '(' S ')' / A".toList "S").any (fun g =>
      (g.matcher (Handlers.none Unit) "aa(ab)".toList).matchesUpTo "S" (.init ()) 6) = true
        by decide +kernel)
  obtain ⟨shaped, hshaped, hrespects⟩ := compile_respects_shapes hg
  exact ⟨g, hg, shaped, hshaped, hrespects Unit _ () "S" _ _ .first,
    Matcher.exists_of_matchesUpTo hmatch⟩

end

end Packrat

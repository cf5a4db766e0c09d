import Packrat.Proofs.Graph.Exploration
import Packrat.Proofs.Shape.Equations
import Packrat.Proofs.Shape.Solution

/-!
# The components of rules

The rules of a grammar and their references are a graph.  Its components are found by one search, which
visits every rule once.

* `Expr.mem_refs_iff` — the references of an expression are those that stand at a path in it.
* `Grammar.HasReference`, `Grammar.Depends` — a rule refers to another one, directly or through others.
* `Grammar.depends_iff_needs` — a rule depends on the rules that matching it may need.
* `Grammar.ruleComponents_exact` — the search ends, and the numbers that it gives to rules are those of
  their strongly connected components, in the order of the references.
-/

set_option autoImplicit false

namespace Packrat

theorem Expr.refs_eq_parts (e : Expr) (h : ∀ reference, e ≠ .ref reference) :
    e.refs = e.parts.flatMap refs := by
  cases e with
  | ref reference => exact absurd rfl (h reference)
  | seq span es | choice span es => exact refsAll_eq_flatMap es
  | literal | charClass | anyChar | codePredicate | bareAction => rfl
  | star | plus | opt | lookahead | label | action | group => exact (List.append_nil _).symm

/-- **The references of an expression are those that stand at a path in it.** -/
theorem Expr.mem_refs_iff {e : Expr} {reference : Reference} :
    reference ∈ e.refs ↔ ∃ path, e.at? path = some (.ref reference) := by
  induction e using Expr.parts_induction with
  | h e ih =>
    by_cases hleaf : ∃ r, e = .ref r
    · obtain ⟨r, rfl⟩ := hleaf
      rw [refs, List.mem_singleton]
      constructor
      · rintro rfl
        exact ⟨[], rfl⟩
      · rintro ⟨path, hpath⟩
        cases path with
        | nil =>
          cases hpath
          rfl
        | cons k path => cases hpath
    · have hne : ∀ r, e ≠ .ref r := fun r hr => hleaf ⟨r, hr⟩
      rw [refs_eq_parts e hne, List.mem_flatMap]
      constructor
      · rintro ⟨part, hpart, hmem⟩
        obtain ⟨path, hpath⟩ := (ih part hpart).1 hmem
        obtain ⟨k, hk⟩ := List.mem_iff_getElem?.1 hpart
        exact ⟨k :: path, by rw [at?, hk, Option.bind_some, hpath]⟩
      · rintro ⟨path, hpath⟩
        cases path with
        | nil => exact absurd (Option.some.inj hpath) (hne reference)
        | cons k path =>
          obtain ⟨part, hk, hrest⟩ := Option.bind_eq_some_iff.1 hpath
          have hpart := List.mem_of_getElem? hk
          exact ⟨part, hpart, (ih part hpart).2 ⟨path, hrest⟩⟩

namespace Grammar

variable {g : Grammar} {a b : String}

/-- A reference to the rule `b` stands in the body of the rule `a`. -/
def HasReference (g : Grammar) (a b : String) : Prop :=
  ∃ r ∈ g.rules, r.name.name = a ∧
    ∃ path reference, r.expr.at? path = some (.ref reference) ∧ reference.name.name = b

/-- A rule depends on another one: references lead from it to the other one, or it is the same. -/
def Depends (g : Grammar) : String → String → Prop := Relation.ReflTransGen g.HasReference

theorem hasReference_iff (hnames : g.ruleNames.Nodup) {r : Rule} (hr : r ∈ g.rules) :
    g.HasReference r.name.name b ↔ b ∈ r.expr.references := by
  rw [Expr.references_eq, List.mem_map]
  constructor
  · rintro ⟨s, hs, hname, path, reference, hpath, rfl⟩
    have hsame := (rule?_of_nodup hnames hs).symm.trans (hname ▸ rule?_of_nodup hnames hr)
    cases hsame
    exact ⟨reference, Expr.mem_refs_iff.2 ⟨path, hpath⟩, rfl⟩
  · rintro ⟨reference, hmem, rfl⟩
    obtain ⟨path, hpath⟩ := Expr.mem_refs_iff.1 hmem
    exact ⟨r, hr, rfl, path, reference, hpath, rfl⟩

/-- **A rule depends on the rules that matching it may need.** -/
theorem depends_iff_needs (hnames : g.ruleNames.Nodup) : g.Depends a b ↔ g.Needs a b := by
  constructor
  · intro h
    induction h with
    | refl => exact .start
    | tail _ edge ih =>
      obtain ⟨r, hr, rfl, path, reference, hpath, rfl⟩ := edge
      exact .ref ih (rule?_of_nodup hnames hr) (Expr.mem_refs_iff.2 ⟨path, hpath⟩)
  · intro h
    induction h with
    | start => exact .refl
    | @ref name r reference _ defined refers ih =>
      obtain ⟨path, hpath⟩ := Expr.mem_refs_iff.1 refers
      exact ih.tail ⟨r, List.mem_of_find?_eq_some defined, name_of_rule? defined, path, reference,
        hpath, rfl⟩

/-- **The components of rules are found by a search that ends and visits every rule once**, and at the end
no component is open.  Two rules have one number if and only if they depend on each other; and if a rule
refers to a rule of another component, the number of that one is smaller. -/
theorem ruleComponents_exact (hnames : g.ruleNames.Nodup) :
    (∃ visited w,
      (∀ vs w', ComponentWalk.Searches (referencedRules g.rules) (List.range g.rules.length)
        ComponentWalk.init vs w' ↔ vs = visited ∧ w' = w) ∧
      visited.Perm (List.range g.rules.length) ∧ w.stack = [] ∧
      w.component = ruleComponents g.rules) ∧
    ∀ i j r s, g.rules[i]? = some r → g.rules[j]? = some s →
      ∃ c d, (ruleComponents g.rules).lookup i = some c ∧ (ruleComponents g.rules).lookup j = some d ∧
        (c = d ↔ g.Depends r.name.name s.name.name ∧ g.Depends s.name.name r.name.name) ∧
        (g.HasReference r.name.name s.name.name → c ≠ d → d < c) := by
  refine ⟨?_, fun i j r s hr hs => ?_⟩
  · obtain ⟨visited, hvisited, hsearches⟩ := ComponentWalk.searches_iff (referencedRules_lt (g := g))
    exact ⟨visited, _, hsearches, hvisited, (ComponentWalk.walkAll_resting referencedRules_lt).1.stack, rfl⟩
  · have hi := ruleIndex?_of_nodup hnames hr
    have hj := ruleIndex?_of_nodup hnames hs
    obtain ⟨c, -, hc⟩ := exists_component hi
    obtain ⟨d, -, hd⟩ := exists_component hj
    refine ⟨c, d, hc, hd, ?_, fun hrefers hne => ?_⟩
    · have hsame := lookup_ruleComponents_eq_iff hi hj
      rw [hc, hd, Option.some.injEq] at hsame
      rw [hsame, depends_iff_needs hnames, depends_iff_needs hnames, Mutual]
    · have hreferences := (hasReference_iff hnames (List.mem_of_getElem? hr)).1 hrefers
      have hle : d ≤ c := component_le_of_references hr hreferences hj hc hd
      omega

/-- Two rules that depend on each other, the first one with two references to the second one and one to
itself; a third rule that depends on none; and a name that is not defined. -/
def tangle : Grammar where
  preamble := none
  items :=
    [.rule ⟨⟨0, 14⟩, ⟨"S", ⟨0, 1⟩⟩, .seq ⟨5, 14⟩
      [.ref (.mk ⟨5, 6⟩ ⟨"A", ⟨5, 6⟩⟩ []), .ref (.mk ⟨7, 8⟩ ⟨"L", ⟨7, 8⟩⟩ []),
        .ref (.mk ⟨9, 10⟩ ⟨"A", ⟨9, 10⟩⟩ []), .ref (.mk ⟨11, 12⟩ ⟨"S", ⟨11, 12⟩⟩ []),
        .ref (.mk ⟨13, 14⟩ ⟨"U", ⟨13, 14⟩⟩ [])]⟩,
     .rule ⟨⟨15, 22⟩, ⟨"A", ⟨15, 16⟩⟩, .opt ⟨20, 22⟩ (.ref (.mk ⟨20, 21⟩ ⟨"S", ⟨20, 21⟩⟩ []))⟩,
     .rule ⟨⟨23, 31⟩, ⟨"L", ⟨23, 24⟩⟩, .literal ⟨28, 31⟩ "l"⟩]

theorem ruleComponents_exact_tangle : tangle.ruleNames.Nodup ∧
    ruleComponents tangle.rules = [(1, 1), (0, 1), (2, 0)] ∧
    (tangle.Depends "S" "A" ∧ tangle.Depends "A" "S") ∧
    ¬ (tangle.Depends "S" "L" ∧ tangle.Depends "L" "S") := by
  have hnames : tangle.ruleNames.Nodup := by decide
  have hfound : ruleComponents tangle.rules = [(1, 1), (0, 1), (2, 0)] := by decide
  obtain ⟨-, hexact⟩ := ruleComponents_exact hnames
  obtain ⟨c, d, hc, hd, hmutual, -⟩ := hexact 0 1 _ _ rfl rfl
  obtain ⟨c', d', hc', hd', hapart, -⟩ := hexact 0 2 _ _ rfl rfl
  rw [hfound] at hc hd hc' hd'
  cases hc
  cases hd
  cases hc'
  cases hd'
  exact ⟨hnames, hfound, hmutual.1 rfl, fun h => absurd (hapart.2 h) (by decide)⟩

end Grammar

end Packrat

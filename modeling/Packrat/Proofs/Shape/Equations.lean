import Packrat.Proofs.Grammar.Closed
import Packrat.Proofs.Grammar.Definitions
import Packrat.Proofs.Graph.Strong
import Packrat.Proofs.Shape.Inference

/-!
# The equations of the shapes of rules

The shape of a rule is the shape of its body, where references to rules that are mutually recursive
with it count as `dynamic`.

* `Expr.shapedBy` — an expression with its shapes, given those of the rules.
* `Grammar.Mutual` — two rules that can be reached from each other.
* `Grammar.Solves` — shapes of rules that satisfy all equations.
* `Grammar.Solves.unique`, `Grammar.exists_solves` — there is one solution.
-/

set_option autoImplicit false

namespace Packrat

mutual

/-- An expression with its shapes, if references have the shapes `ref`. -/
def Expr.shapedBy (ref : String → Shape) : Expr → ShapedExpr
  | .literal span text => .mk (.literal span text) .text []
  | .charClass span k => .mk (.charClass span k) .text []
  | .anyChar span => .mk (.anyChar span) .text []
  | .ref reference => .mk (.ref reference) (ref reference.name.name) []
  | .seq span elements =>
    .mk (.seq span elements)
      (.list (Shape.common ((Expr.shapedAllBy ref elements).map (·.shape))))
      (Expr.shapedAllBy ref elements)
  | .choice span branches =>
    .mk (.choice span branches) (Shape.common ((Expr.shapedAllBy ref branches).map (·.shape)))
      (Expr.shapedAllBy ref branches)
  | .star span body =>
    .mk (.star span body) (Shape.optionalOf (.list (body.shapedBy ref).shape)) [body.shapedBy ref]
  | .plus span body => .mk (.plus span body) (.list (body.shapedBy ref).shape) [body.shapedBy ref]
  | .opt span body =>
    .mk (.opt span body) (Shape.optionalOf (body.shapedBy ref).shape) [body.shapedBy ref]
  | .lookahead span polarity body => .mk (.lookahead span polarity body) .bool [body.shapedBy ref]
  | .codePredicate span polarity code => .mk (.codePredicate span polarity code) .bool []
  | .label span name body =>
    .mk (.label span name body) (body.shapedBy ref).shape [body.shapedBy ref]
  | .action span hint code body =>
    .mk (.action span hint code body) (.declared hint) [body.shapedBy ref]
  | .bareAction span hint code => .mk (.bareAction span hint code) (.declared hint) []
  | .group span body => .mk (.group span body) (body.shapedBy ref).shape [body.shapedBy ref]

/-- Several expressions with their shapes. -/
def Expr.shapedAllBy (ref : String → Shape) : List Expr → List ShapedExpr
  | [] => []
  | e :: rest => e.shapedBy ref :: Expr.shapedAllBy ref rest

end

section

variable {ref ref' : String → Shape}

theorem Expr.shapedAllBy_eq (es : List Expr) : shapedAllBy ref es = es.map (shapedBy ref) := by
  induction es with
  | nil => rfl
  | cons e rest ih => rw [shapedAllBy, ih, List.map_cons]

theorem Expr.children_shapedBy (e : Expr) :
    (e.shapedBy ref).children = e.parts.map (shapedBy ref) := by
  cases e with
  | seq span es | choice span es => exact shapedAllBy_eq es
  | literal | charClass | anyChar | ref | codePredicate | bareAction => rfl
  | star | plus | opt | lookahead | label | action | group => rfl

/-- The shapes of a part are those that the part has by itself. -/
theorem Expr.at?_shapedBy (e : Expr) (path : List Nat) :
    (e.shapedBy ref).at? path = (e.at? path).map (shapedBy ref) := by
  induction path generalizing e with
  | nil => rfl
  | cons k path ih =>
    rw [ShapedExpr.at?, Expr.at?, children_shapedBy, List.getElem?_map]
    cases e.parts[k]? with
    | none => rfl
    | some part => exact ih part

mutual

/-- The shapes of an expression depend only on those of the rules that it refers to. -/
theorem Expr.shapedBy_congr (e : Expr) (h : ∀ name ∈ e.references, ref name = ref' name) :
    e.shapedBy ref = e.shapedBy ref' := by
  cases e with
  | literal | charClass | anyChar | codePredicate | bareAction => rfl
  | ref reference => rw [shapedBy, shapedBy, h _ (List.mem_singleton_self _)]
  | seq span es | choice span es => rw [shapedBy, shapedBy, shapedAllBy_congr es h]
  | star _ body | plus _ body | opt _ body | lookahead _ _ body | label _ _ body
  | action _ _ _ body | group _ body => rw [shapedBy, shapedBy, shapedBy_congr body h]

theorem Expr.shapedAllBy_congr (es : List Expr)
    (h : ∀ name ∈ referencesAll es, ref name = ref' name) :
    shapedAllBy ref es = shapedAllBy ref' es := by
  cases es with
  | nil => rfl
  | cons e rest =>
    rw [referencesAll, List.forall_mem_append] at h
    rw [shapedAllBy, shapedAllBy, shapedBy_congr e h.1, shapedAllBy_congr rest h.2]

end

end

/-! ## Mutually recursive rules -/

namespace Grammar

variable {g g' : Grammar} {a b : String} {i j : Nat}

/-- Two rules that can be reached from each other; a rule always can be reached from itself. -/
def Mutual (g : Grammar) (a b : String) : Prop := g.Needs a b ∧ g.Needs b a

theorem Needs.congr (h : ∀ name, g.rule? name = g'.rule? name) (hab : g.Needs a b) :
    g'.Needs a b := by
  induction hab with
  | start => exact .start
  | ref _ defined refers ih => exact .ref ih ((h _).symm.trans defined) refers

theorem mutual_congr (h : ∀ name, g.rule? name = g'.rule? name) : g.Mutual a b ↔ g'.Mutual a b :=
  ⟨fun hab => ⟨hab.1.congr h, hab.2.congr h⟩,
    fun hab => ⟨hab.1.congr fun name => (h name).symm, hab.2.congr fun name => (h name).symm⟩⟩

/-- The references of a rule lead to the places of the rules that it names. -/
theorem Needs.connected (ha : ruleIndex? g.rules a = some i) (hab : g.Needs a b) :
    ∀ j, ruleIndex? g.rules b = some j → Connected (referencedRules g.rules) i j := by
  induction hab with
  | start =>
    intro j hj
    cases ha.symm.trans hj
    exact .refl
  | @ref name r reference _ defined refers ih =>
    intro j hj
    obtain ⟨k, hk⟩ := exists_ruleIndex? (exists_rule?_iff.1 ⟨r, defined⟩)
    have hr : g.rules[k]? = some r := (getElem?_of_ruleIndex? hk).trans defined
    refine (ih k hk).tail ?_
    refine ShapeRules.mem_referencedRules (s := ⟨g.rules, []⟩) hr ?_ hj
    rw [Expr.references_eq]
    exact List.mem_map_of_mem refers

/-- What a place leads to are rules that can be reached by references. -/
theorem needs_of_connected (ha : ruleIndex? g.rules a = some i)
    (hij : Connected (referencedRules g.rules) i j) :
    ∃ b, ruleIndex? g.rules b = some j ∧ g.Needs a b := by
  induction hij with
  | refl => exact ⟨a, ha, .start⟩
  | tail _ edge ih =>
    obtain ⟨name, hk, hneeds⟩ := ih
    obtain ⟨r, hr⟩ := exists_rule_of_ruleIndex? hk
    rw [referencedRules, hr] at edge
    obtain ⟨name', hname', hj⟩ := List.mem_filterMap.1 edge
    rw [Expr.references_eq] at hname'
    obtain ⟨reference, hreference, rfl⟩ := List.mem_map.1 hname'
    exact ⟨_, hj, .ref hneeds ((getElem?_of_ruleIndex? hk).symm.trans hr) hreference⟩

theorem needs_iff_connected (ha : ruleIndex? g.rules a = some i)
    (hb : ruleIndex? g.rules b = some j) :
    g.Needs a b ↔ Connected (referencedRules g.rules) i j := by
  refine ⟨fun hab => hab.connected ha j hb, fun hij => ?_⟩
  obtain ⟨b', hb', hneeds⟩ := needs_of_connected ha hij
  obtain ⟨r, hr⟩ := exists_rule_of_ruleIndex? hb
  rwa [← name_of_ruleIndex? hb hr, name_of_ruleIndex? hb' hr]

theorem referencedRules_lt : ∀ i, ∀ j ∈ referencedRules g.rules i, j < g.rules.length := by
  intro i j h
  unfold referencedRules at h
  split at h
  · obtain ⟨name, -, hj⟩ := List.mem_filterMap.1 h
    exact (List.findIdx?_eq_some_iff_getElem.1 hj).1
  · cases h

/-- **Two rules have one component if and only if they are mutually recursive.** -/
theorem lookup_ruleComponents_eq_iff (ha : ruleIndex? g.rules a = some i)
    (hb : ruleIndex? g.rules b = some j) :
    (ruleComponents g.rules).lookup i = (ruleComponents g.rules).lookup j ↔ g.Mutual a b := by
  rw [ruleComponents, components_eq_iff referencedRules_lt
      (List.findIdx?_eq_some_iff_getElem.1 ha).1 (List.findIdx?_eq_some_iff_getElem.1 hb).1,
    ← needs_iff_connected ha hb, ← needs_iff_connected hb ha]
  rfl

/-- Every rule has a component. -/
theorem exists_component (ha : ruleIndex? g.rules a = some i) :
    ∃ c < g.rules.length, (ruleComponents g.rules).lookup i = some c :=
  components_numbered referencedRules_lt (List.findIdx?_eq_some_iff_getElem.1 ha).1

/-- No rule refers to a rule of a later component. -/
theorem component_le_of_references {r : Rule} {c d : Nat} (hr : g.rules[i]? = some r)
    (hrefs : b ∈ r.expr.references) (hb : ruleIndex? g.rules b = some j)
    (hc : (ruleComponents g.rules).lookup i = some c) (hd : (ruleComponents g.rules).lookup j = some d) :
    d ≤ c :=
  components_descending referencedRules_lt
    (ShapeRules.mem_referencedRules (s := ⟨g.rules, []⟩) hr hrefs hb) hc hd

/-! ## Solutions -/

open Classical in
/-- What a reference counts as in the body of the rule `owner`. -/
noncomputable def refersAs (g : Grammar) (shapes : String → Shape) (owner name : String) : Shape :=
  if g.Mutual owner name then .dynamic else shapes name

/-- Shapes of rules such that each rule has the shape of its body, in which references to rules that
are mutually recursive with it, and to itself, count as `dynamic`, and other references have the shapes
of the rules that they name. -/
def Solves (g : Grammar) (shapes : String → Shape) : Prop :=
  ∀ r ∈ g.rules,
    shapes r.name.name = (r.expr.shapedBy (g.refersAs shapes r.name.name)).shape

theorem refersAs_congr (h : ∀ name, g.rule? name = g'.rule? name) (shapes : String → Shape)
    (owner : String) : g.refersAs shapes owner = g'.refersAs shapes owner := by
  funext name
  unfold refersAs
  rw [mutual_congr h]

/-- The rank of a rule: the number of its component. -/
noncomputable def rank (g : Grammar) (name : String) : Nat :=
  (((ruleIndex? g.rules name).bind fun i => (ruleComponents g.rules).lookup i)).getD 0

theorem rank_of_ruleIndex? {c : Nat} (ha : ruleIndex? g.rules a = some i)
    (hc : (ruleComponents g.rules).lookup i = some c) : g.rank a = c := by
  rw [rank, ha, Option.bind_some, hc, Option.getD_some]

/-- References to rules that are not mutually recursive lead to rules of less rank. -/
theorem rank_lt {r : Rule} (hr : g.rule? a = some r) (hrefs : b ∈ r.expr.references)
    (hb : b ∈ g.ruleNames) (hmutual : ¬ g.Mutual a b) : g.rank b < g.rank a := by
  obtain ⟨i, hi⟩ := exists_ruleIndex? (exists_rule?_iff.1 ⟨r, hr⟩)
  obtain ⟨j, hj⟩ := exists_ruleIndex? hb
  obtain ⟨c, -, hc⟩ := exists_component hi
  obtain ⟨d, -, hd⟩ := exists_component hj
  have hle : d ≤ c := component_le_of_references ((getElem?_of_ruleIndex? hi).trans hr) hrefs hj hc hd
  have hne : d ≠ c := by
    rintro rfl
    exact hmutual ((lookup_ruleComponents_eq_iff hi hj).1 (hc.trans hd.symm))
  rw [rank_of_ruleIndex? hi hc, rank_of_ruleIndex? hj hd]
  omega

section

variable {shapes other : String → Shape}

/-- The shapes of a body depend only on rules of less rank. -/
theorem shapedBy_refersAs_congr (hclosed : g.Closed) {r : Rule} (hr : g.rule? a = some r)
    (h : ∀ name ∈ g.ruleNames, g.rank name < g.rank a → shapes name = other name) :
    r.expr.shapedBy (g.refersAs shapes a) = r.expr.shapedBy (g.refersAs other a) := by
  apply Expr.shapedBy_congr
  intro name hname
  unfold refersAs
  split
  · rfl
  · rename_i hmutual
    have hdefined : name ∈ g.ruleNames := by
      rw [Expr.references_eq] at hname
      obtain ⟨reference, hreference, rfl⟩ := List.mem_map.1 hname
      exact hclosed r (List.mem_of_find?_eq_some hr) reference hreference
    exact h name hdefined (rank_lt hr hname hdefined hmutual)

/-- **There is no more than one solution**: the shape of a rule is given by those of rules of less
rank. -/
theorem Solves.unique (hclosed : g.Closed) (hnames : g.ruleNames.Nodup) (h : g.Solves shapes)
    (h' : g.Solves other) (n : Nat) : ∀ name ∈ g.ruleNames, g.rank name < n →
      shapes name = other name := by
  induction n with
  | zero => exact fun _ _ hlt => absurd hlt (Nat.not_lt_zero _)
  | succ n ih =>
    intro name hname hlt
    obtain ⟨r, hr, rfl⟩ := List.mem_map.1 hname
    have hbody := shapedBy_refersAs_congr hclosed (rule?_of_nodup hnames hr)
      fun name' hname' hlt' => ih name' hname' (by omega)
    rw [h r hr, h' r hr, hbody]

/-- Shapes by rank: those of rules of rank less than `n` satisfy their equations. -/
noncomputable def solve (g : Grammar) : (n : Nat) → String → Shape
  | 0, _ => .dynamic
  | n + 1, name =>
    match g.rule? name with
    | some r => (r.expr.shapedBy (g.refersAs (g.solve n) name)).shape
    | none => .dynamic

theorem solve_stable (hclosed : g.Closed) (n : Nat) : ∀ m, n ≤ m → ∀ name ∈ g.ruleNames,
    g.rank name < n → g.solve n name = g.solve m name := by
  induction n with
  | zero => exact fun _ _ _ _ hlt => absurd hlt (Nat.not_lt_zero _)
  | succ n ih =>
    intro m hm name hname hlt
    obtain ⟨m, rfl⟩ := Nat.exists_eq_add_of_lt hm
    obtain ⟨r, hr⟩ := exists_rule?_iff.2 hname
    have hless : ∀ name' ∈ g.ruleNames, g.rank name' < g.rank name →
        g.solve n name' = g.solve (n + m) name' := fun name' hname' hlt' =>
      ih _ (Nat.le_add_right n m) name' hname' (by omega)
    rw [solve, solve, hr]
    exact congrArg ShapedExpr.shape (shapedBy_refersAs_congr hclosed hr hless)

theorem rank_lt_length {name : String} (h : name ∈ g.ruleNames) : g.rank name < g.rules.length := by
  obtain ⟨i, hi⟩ := exists_ruleIndex? h
  obtain ⟨c, hlt, hc⟩ := exists_component hi
  rwa [rank_of_ruleIndex? hi hc]

/-- **There is a solution.** -/
theorem exists_solves (hclosed : g.Closed) (hnames : g.ruleNames.Nodup) :
    ∃ shapes, g.Solves shapes := by
  refine ⟨g.solve g.rules.length, fun r hr => ?_⟩
  have hname : r.name.name ∈ g.ruleNames := List.mem_map_of_mem hr
  rw [solve_stable hclosed _ _ (Nat.le_succ _) _ hname (rank_lt_length hname), solve,
    rule?_of_nodup hnames hr]

end

end Grammar

end Packrat

import Packrat.Proofs.Grammar.RuleIndex
import Packrat.Proofs.Shape.Values

/-!
# Shapes are found, and they fit

* `Shape.Covers` — a shape admits what a rule may yield.
* `ShapeTable.Sound` — every shape in a table covers its rule.
* `Shaping.Gives` — from sound tables a computation ends with a sound table and with what it should.
* `ShapeRules.walk_gives` — a walk finds a tree that fits if it finds shapes that fit for references.
* `ShapeRules.Ranked` — references do not lead to components with greater numbers.
* `ShapeRules.ruleShape_gives` — then every rule gets a shape that covers it.
* `ShapeRules.shapedRules_gives` — and every body gets a tree that fits it.
-/

set_option autoImplicit false

namespace Packrat

/-- The shape admits what the rule may yield. -/
def Shape.Covers (rules : List Rule) (shape : Shape) (r : Rule) : Prop :=
  ∀ v, r.expr.MayYield rules v → shape.admits v = true

theorem Shape.covers_dynamic (rules : List Rule) (r : Rule) : Shape.dynamic.Covers rules r :=
  fun _ _ => rfl

/-- Every shape in the table covers the rule at its place. -/
def ShapeTable.Sound (rules : List Rule) (table : ShapeTable) : Prop :=
  ∀ i shape r, table.lookup i = some shape → rules[i]? = some r → shape.Covers rules r

theorem ShapeTable.sound_nil (rules : List Rule) : ShapeTable.Sound rules [] :=
  fun _ _ _ h => by cases h

theorem ShapeTable.Sound.cons {rules : List Rule} {table : ShapeTable} (h : table.Sound rules)
    {i : Nat} {shape : Shape} (hi : ∀ r, rules[i]? = some r → shape.Covers rules r) :
    ShapeTable.Sound rules ((i, shape) :: table) := by
  intro j other r hlookup hr
  rw [List.lookup_cons] at hlookup
  split at hlookup
  · rename_i hij
    cases hlookup
    exact hi r (eq_of_beq hij ▸ hr)
  · exact h j other r hlookup hr

/-! ## Computations that come to know shapes -/

namespace Shaping

variable {α β : Type} {rules : List Rule} {P : α → Prop} {Q : β → Prop}

/-- From each sound table the computation ends, with a sound table and with an answer of a kind. -/
def Gives (rules : List Rule) (P : α → Prop) (x : Shaping α) : Prop :=
  ∀ table, ShapeTable.Sound rules table →
    ∃ a table', x table = .ok (a, table') ∧ P a ∧ ShapeTable.Sound rules table'

theorem Gives.pure {a : α} (h : P a) : Gives rules P (Pure.pure a : Shaping α) :=
  fun table htable => ⟨a, table, rfl, h, htable⟩

theorem bind_ok {x : Shaping α} {table table' : ShapeTable} {a : α} (h : x table = .ok (a, table'))
    (f : α → Shaping β) : (x >>= f) table = f a table' := by
  show Except.bind (x table) (fun p => f p.1 p.2) = _
  rw [h]
  rfl

theorem Gives.bind {x : Shaping α} {f : α → Shaping β} (hx : Gives rules P x)
    (hf : ∀ a, P a → Gives rules Q (f a)) : Gives rules Q (x >>= f) := by
  intro table htable
  obtain ⟨a, table', hxa, ha, htable'⟩ := hx table htable
  obtain ⟨b, table'', hfb, hb, htable''⟩ := hf a ha table' htable'
  exact ⟨b, table'', by rw [bind_ok hxa]; exact hfb, hb, htable''⟩

theorem Gives.imp {x : Shaping α} {P' : α → Prop} (hx : Gives rules P x) (h : ∀ a, P a → P' a) :
    Gives rules P' x := by
  intro table htable
  obtain ⟨a, table', hxa, ha, htable'⟩ := hx table htable
  exact ⟨a, table', hxa, h a ha, htable'⟩

end Shaping

/-! ## One walk -/

/-- The common shape of several trees admits what one of several parts may yield. -/
theorem ShapedExpr.admits_common_of_fits {rules : List Rule} {children : List ShapedExpr}
    {es : List Expr} (h : List.Forall₂ (Fits rules) children es) {e : Expr} (he : e ∈ es) {v : Value}
    (hv : e.MayYield rules v) : (Shape.common (children.map (·.shape))).admits v = true := by
  obtain ⟨t, ht, hfits⟩ := exists_mem_of_forall₂ h he
  have hshape : t.shape ∈ children.map (·.shape) := List.mem_map_of_mem ht
  exact Shape.admits_common hshape (hfits.admits hv)

namespace ShapeRules

section

variable {rules : List Rule} {e : Expr}

/-- The tree of an expression without parts. -/
theorem leaf_gives {shape : Shape} (hparts : e.parts = [])
    (hown : ∀ v, e.MayYield rules v → shape.admits v = true) :
    (pure (.mk e shape []) : Shaping ShapedExpr).Gives rules fun t => t.Fits rules e := by
  apply Shaping.Gives.pure
  refine .mk hown ?_
  rw [hparts]
  exact .nil

/-- The tree of an expression with one part, whose shape depends on the shape of the part. -/
theorem node_gives {body : Expr} {x : Shaping ShapedExpr} (shape : Shape → Shape)
    (hx : x.Gives rules fun t => t.Fits rules body) (hparts : e.parts = [body])
    (hown : ∀ inner : ShapedExpr, inner.Fits rules body →
      ∀ v, e.MayYield rules v → (shape inner.shape).admits v = true) :
    (x >>= fun inner => pure (.mk e (shape inner.shape) [inner]) : Shaping ShapedExpr).Gives rules
      fun t => t.Fits rules e := by
  apply hx.bind
  intro inner hfits
  apply Shaping.Gives.pure
  refine .mk (hown inner hfits) ?_
  rw [hparts]
  exact .cons hfits .nil

/-- The tree of an expression with several parts. -/
theorem list_gives {es : List Expr} {x : Shaping (List ShapedExpr)} (shape : List Shape → Shape)
    (hx : x.Gives rules fun ts => List.Forall₂ (ShapedExpr.Fits rules) ts es) (hparts : e.parts = es)
    (hown : ∀ ts, List.Forall₂ (ShapedExpr.Fits rules) ts es →
      ∀ v, e.MayYield rules v → (shape (ts.map (·.shape))).admits v = true) :
    (x >>= fun ts => pure (.mk e (shape (ts.map (·.shape))) ts) : Shaping ShapedExpr).Gives rules
      fun t => t.Fits rules e := by
  apply hx.bind
  intro ts hfits
  apply Shaping.Gives.pure
  refine .mk (hown ts hfits) ?_
  rw [hparts]
  exact hfits

end

variable {s : ShapeRules} {ruleShape : Nat → Shaping Shape} {within : Option Nat}

/-- A reference to `name` gets a shape that covers the rule of this name. -/
def RefGives (s : ShapeRules) (ruleShape : Nat → Shaping Shape) (within : Option Nat)
    (name : String) : Prop :=
  (s.refShape ruleShape within name).Gives s.rules fun shape =>
    ∀ r, s.rules.find? (·.name.name == name) = some r → shape.Covers s.rules r

mutual

/-- **A walk finds a tree that fits**, if references get shapes that cover their rules. -/
theorem walk_gives (e : Expr) (hrefs : ∀ name ∈ e.references, s.RefGives ruleShape within name) :
    (s.walk ruleShape within e).Gives s.rules fun t => t.Fits s.rules e := by
  cases e with
  | literal span text =>
    apply leaf_gives rfl
    intro v hv
    cases hv
    rfl
  | charClass span k =>
    apply leaf_gives rfl
    intro v hv
    cases hv
    rfl
  | anyChar span =>
    apply leaf_gives rfl
    intro v hv
    cases hv
    rfl
  | ref reference =>
    have href := hrefs reference.name.name (List.mem_singleton.2 rfl)
    apply Shaping.Gives.bind href
    intro shape hshape
    apply leaf_gives rfl
    intro v hv
    cases hv with
    | ref named body => exact hshape _ named v body
  | seq span elements =>
    refine list_gives (fun shapes => .list (Shape.common shapes)) (walkAll_gives elements hrefs) rfl ?_
    intro ts hfits v hv
    cases hv with
    | seq each =>
      apply Shape.admits_list
      intro v hv
      obtain ⟨e, he, hyield⟩ := exists_mem_of_forall₂ each hv
      exact ShapedExpr.admits_common_of_fits hfits he hyield
  | choice span branches =>
    refine list_gives Shape.common (walkAll_gives branches hrefs) rfl ?_
    intro ts hfits v hv
    cases hv with
    | choice he hyield => exact ShapedExpr.admits_common_of_fits hfits he hyield
  | star span body =>
    refine node_gives (fun s => Shape.optionalOf (.list s)) (walk_gives body hrefs) rfl ?_
    intro inner hfits v hv
    cases hv with
    | starNone => exact Shape.admits_optionalOf_absent _
    | star each =>
      apply Shape.admits_optionalOf
      exact Shape.admits_list fun v hv => hfits.admits (each v hv)
  | plus span body =>
    refine node_gives Shape.list (walk_gives body hrefs) rfl ?_
    intro inner hfits v hv
    cases hv with
    | plus each => exact Shape.admits_list fun v hv => hfits.admits (each v hv)
  | opt span body =>
    refine node_gives Shape.optionalOf (walk_gives body hrefs) rfl ?_
    intro inner hfits v hv
    cases hv with
    | optNone => exact Shape.admits_optionalOf_absent _
    | opt hyield => exact Shape.admits_optionalOf (hfits.admits hyield)
  | lookahead span polarity body =>
    refine node_gives (fun _ => .bool) (walk_gives body hrefs) rfl ?_
    intro inner hfits v hv
    cases hv
    rfl
  | codePredicate span polarity code =>
    apply leaf_gives rfl
    intro v hv
    cases hv
    rfl
  | label span name body =>
    refine node_gives id (walk_gives body hrefs) rfl ?_
    intro inner hfits v hv
    cases hv with
    | label hyield => exact hfits.admits hyield
  | action span hint code body =>
    -- nothing is known about what an action answers
    refine node_gives (fun _ => .declared hint) (walk_gives body hrefs) rfl ?_
    intro inner hfits v hv
    rfl
  | bareAction span hint code =>
    apply leaf_gives rfl
    intro v hv
    rfl
  | group span body =>
    refine node_gives id (walk_gives body hrefs) rfl ?_
    intro inner hfits v hv
    cases hv with
    | group hyield => exact hfits.admits hyield

theorem walkAll_gives (es : List Expr)
    (hrefs : ∀ name ∈ Expr.referencesAll es, s.RefGives ruleShape within name) :
    (s.walkAll ruleShape within es).Gives s.rules fun ts =>
      List.Forall₂ (ShapedExpr.Fits s.rules) ts es := by
  cases es with
  | nil => exact .pure .nil
  | cons e rest =>
    rw [Expr.referencesAll, List.forall_mem_append] at hrefs
    apply (walk_gives e hrefs.1).bind
    intro t ht
    apply (walkAll_gives rest hrefs.2).bind
    intro ts hts
    exact .pure (.cons ht hts)

end

end ShapeRules

/-! ## All rules -/

namespace ShapeRules

/-- References name rules, and they do not lead to components with greater numbers. -/
structure Ranked (s : ShapeRules) : Prop where
  defined : ∀ r ∈ s.rules, ∀ name ∈ r.expr.references, ∃ j, ruleIndex? s.rules name = some j
  numbered : ∀ i < s.rules.length, ∃ c < s.rules.length, s.componentOf? i = some c
  descending : ∀ i j a b, j ∈ referencedRules s.rules i → s.componentOf? i = some a →
    s.componentOf? j = some b → b ≤ a

variable {s : ShapeRules}

theorem mem_referencedRules {i j : Nat} {r : Rule} {name : String} (hr : s.rules[i]? = some r)
    (hname : name ∈ r.expr.references) (hj : ruleIndex? s.rules name = some j) :
    j ∈ referencedRules s.rules i := by
  rw [referencedRules, hr]
  exact List.mem_filterMap.2 ⟨name, hname, hj⟩

theorem Ranked.component {s : ShapeRules} (hs : s.Ranked) {i : Nat} {r : Rule}
    (hr : s.rules[i]? = some r) : ∃ c < s.rules.length, s.componentOf? i = some c :=
  hs.numbered i (List.getElem?_eq_some_iff.1 hr).1

/-- A reference gets a shape that covers its rule if the rule does, or if it is in the component
that counts as `dynamic`. -/
theorem refGives_of {ruleShape : Nat → Shaping Shape} {within : Option Nat} {name : String} {j : Nat}
    (hj : ruleIndex? s.rules name = some j)
    (hrule : ∀ r, s.rules[j]? = some r → within ≠ s.componentOf? j ∨ within = none →
      (ruleShape j).Gives s.rules fun shape => shape.Covers s.rules r) :
    s.RefGives ruleShape within name := by
  obtain ⟨r, hr⟩ := exists_rule_of_ruleIndex? hj
  have hname : s.rules.find? (·.name.name == name) = some r :=
    (getElem?_of_ruleIndex? hj).symm.trans hr
  rw [RefGives, refShape, hj]
  simp only
  split
  · exact .pure fun r' _ => Shape.covers_dynamic s.rules r'
  · rename_i hother
    have hwithin : within ≠ s.componentOf? j ∨ within = none := by
      cases within with
      | none => exact .inr rfl
      | some c => exact .inl fun heq => hother (by rw [← heq]; exact beq_self_eq_true _)
    refine (hrule r hr hwithin).imp fun shape hshape r' hr' => ?_
    cases hname.symm.trans hr'
    exact hshape

/-- What a rule is shaped to if its shape is known. -/
theorem ruleShape_of_some {fuel i : Nat} {table : ShapeTable} {shape : Shape}
    (h : table.lookup i = some shape) : s.ruleShape (fuel + 1) i table = .ok (shape, table) := by
  have hget : (get : Shaping ShapeTable) table = .ok (table, table) := rfl
  rw [ruleShape, Shaping.bind_ok hget, h]
  rfl

/-- What a rule is shaped to if its shape is not known. -/
theorem ruleShape_of_none {fuel i : Nat} {table : ShapeTable} (h : table.lookup i = none) {r : Rule}
    (hr : s.rules[i]? = some r) {shaped : ShapedExpr} {table' : ShapeTable}
    (hwalk : s.walk (s.ruleShape fuel) (s.componentOf? i) r.expr table = .ok (shaped, table')) :
    s.ruleShape (fuel + 1) i table = .ok (shaped.shape, (i, shaped.shape) :: table') := by
  have hget : (get : Shaping ShapeTable) table = .ok (table, table) := rfl
  rw [ruleShape, Shaping.bind_ok hget, h]
  simp only [hr]
  rw [Shaping.bind_ok hwalk]
  rfl

/-- **Every rule gets a shape that covers it.**  The number of the component goes down whenever the
shape of another rule is asked for, since references within the component are `dynamic`. -/
theorem ruleShape_gives (hs : s.Ranked) (fuel : Nat) : ∀ (i c : Nat) (r : Rule),
    s.rules[i]? = some r → s.componentOf? i = some c → c < fuel →
      (s.ruleShape fuel i).Gives s.rules fun shape => shape.Covers s.rules r := by
  induction fuel with
  | zero => exact fun _ _ _ _ _ hlt => absurd hlt (Nat.not_lt_zero _)
  | succ fuel ih =>
    intro i c r hr hc hlt table htable
    cases hlookup : table.lookup i with
    | some shape =>
      exact ⟨shape, table, ruleShape_of_some hlookup, htable i shape r hlookup hr, htable⟩
    | none =>
      have hrefs : ∀ name ∈ r.expr.references,
          s.RefGives (s.ruleShape fuel) (s.componentOf? i) name := by
        intro name hname
        obtain ⟨j, hj⟩ := hs.defined r (List.mem_of_getElem? hr) name hname
        refine refGives_of hj fun r' hr' hwithin => ?_
        obtain ⟨b, -, hb⟩ := hs.component hr'
        have hle : b ≤ c := hs.descending i j c b (mem_referencedRules hr hname hj) hc hb
        have hne : b ≠ c := by
          rintro rfl
          simp [hc, hb] at hwithin
        exact ih j b r' hr' hb (by omega)
      obtain ⟨shaped, table', hwalk, hfits, htable'⟩ := walk_gives r.expr hrefs table htable
      refine ⟨shaped.shape, _, ruleShape_of_none hlookup hr hwalk, fun v hv => hfits.admits hv,
        htable'.cons fun r' hr' v hv => ?_⟩
      cases hr.symm.trans hr'
      exact hfits.admits hv

end ShapeRules

/-- The shape covers the rule, and the tree fits its body. -/
structure ShapedRule.Fits (rules : List Rule) (shaped : ShapedRule) (r : Rule) : Prop where
  rule_eq : shaped.rule = r
  covers : shaped.shape.Covers rules r
  body : shaped.body.Fits rules r.expr

namespace ShapeRules

variable {s : ShapeRules}

theorem shapedRule_gives (hs : s.Ranked) {i : Nat} {r : Rule} (hr : s.rules[i]? = some r) :
    (s.shapedRule i r).Gives s.rules fun shaped => shaped.Fits s.rules r := by
  have hrule : ∀ j r', s.rules[j]? = some r' →
      (s.ruleShape (s.rules.length + 1) j).Gives s.rules fun shape => shape.Covers s.rules r' := by
    intro j r' hr'
    obtain ⟨c, hlt, hc⟩ := hs.component hr'
    exact ruleShape_gives hs _ j c r' hr' hc (Nat.lt_succ_of_lt hlt)
  have hrefs : ∀ name ∈ r.expr.references,
      s.RefGives (s.ruleShape (s.rules.length + 1)) none name := by
    intro name hname
    obtain ⟨j, hj⟩ := hs.defined r (List.mem_of_getElem? hr) name hname
    exact refGives_of hj fun r' hr' _ => hrule j r' hr'
  exact (hrule i r hr).bind fun shape hshape =>
    (walk_gives r.expr hrefs).bind fun body hbody => .pure ⟨rfl, hshape, hbody⟩

/-- **All rules from a place on get shapes that cover them and trees that fit them.** -/
theorem shapedRules_gives (hs : s.Ranked) : ∀ (rest : List Rule) (i : Nat) (table : ShapeTable),
    s.rules.drop i = rest → table.Sound s.rules →
      ∃ shaped, (s.shapedRules i rest table).answer = .ok shaped ∧
        List.Forall₂ (ShapedRule.Fits s.rules) shaped rest := by
  intro rest
  induction rest with
  | nil => exact fun _ _ _ _ => ⟨[], rfl, .nil⟩
  | cons r rest ih =>
    intro i table hdrop htable
    have hr : s.rules[i]? = some r := by
      rw [← List.head?_drop, hdrop]
      rfl
    have hrest : s.rules.drop (i + 1) = rest := by
      rw [← List.tail_drop, hdrop]
      rfl
    obtain ⟨first, table', hfirst, hfits, htable'⟩ := shapedRule_gives hs hr table htable
    obtain ⟨others, hothers, hall⟩ := ih (i + 1) table' hrest htable'
    refine ⟨first :: others, ?_, .cons hfits hall⟩
    have hrun : (s.shapedRule i r).run table = .ok (first, table') := hfirst
    rw [shapedRules, hrun]
    simp only
    rw [hothers]
    rfl

end ShapeRules

/-- The first shaped rule of a name fits the first rule of this name. -/
theorem shapedRule?_fits {rules all : List Rule} {shaped : List ShapedRule}
    (h : List.Forall₂ (ShapedRule.Fits all) shaped rules) {name : String} {r : Rule}
    (hr : rules.find? (·.name.name == name) = some r) :
    ∃ sr, shapedRule? shaped name = some sr ∧ sr.Fits all r := by
  unfold shapedRule?
  induction h with
  | nil => cases hr
  | @cons first r' others rest hfits hall ih =>
    rw [List.find?_cons] at hr ⊢
    rw [hfits.rule_eq]
    split at hr
    · cases hr
      exact ⟨first, rfl, hfits⟩
    · exact ih hr

end Packrat

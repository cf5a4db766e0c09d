import Packrat.Proofs.Grammar.LeftWalk
import Packrat.Proofs.Grammar.Nullable
import Packrat.Proofs.Grammar.Parts

/-!
# What is reached before input is consumed

* `Grammar.Nullable` — the expressions that can match without consuming input, as the least such
  property.
* `Grammar.nullable_iff` — these are what `nullable` finds with the nullable rules of the grammar.
* `Grammar.Reaches` — an expression comes to a reference before it has to consume input.
* `Grammar.mem_leftmost_iff` — these references are those at its left edge.
* `Grammar.Refers`, `Grammar.leads_iff` — the edges between rules that come of it.
-/

set_option autoImplicit false

namespace Packrat

/-- **The expressions that can match without consuming input.**  A reference can if the body of its
rule can. -/
inductive Grammar.Nullable (g : Grammar) : Expr → Prop where
  | literal {span : Span} : Nullable g (.literal span "")
  | ref {reference : Reference} {r : Rule} (named : g.rule? reference.name.name = some r)
      (body : Nullable g r.expr) : Nullable g (.ref reference)
  | seq {span : Span} {es : List Expr} (each : ∀ e ∈ es, Nullable g e) : Nullable g (.seq span es)
  | choice {span : Span} {es : List Expr} {e : Expr} (mem : e ∈ es) (branch : Nullable g e) :
      Nullable g (.choice span es)
  | star {span : Span} {body : Expr} : Nullable g (.star span body)
  | plus {span : Span} {body : Expr} (of : Nullable g body) : Nullable g (.plus span body)
  | opt {span : Span} {body : Expr} : Nullable g (.opt span body)
  | lookahead {span : Span} {polarity : Polarity} {body : Expr} :
      Nullable g (.lookahead span polarity body)
  | codePredicate {span : Span} {polarity : Polarity} {code : Code} :
      Nullable g (.codePredicate span polarity code)
  | label {span : Span} {name : Ident} {body : Expr} (of : Nullable g body) :
      Nullable g (.label span name body)
  | action {span : Span} {hint : String} {code : Code} {body : Expr} (of : Nullable g body) :
      Nullable g (.action span hint code body)
  | bareAction {span : Span} {hint : String} {code : Code} :
      Nullable g (.bareAction span hint code)
  | group {span : Span} {body : Expr} (of : Nullable g body) : Nullable g (.group span body)

/-- **An expression comes to a reference before it has to consume input**: in a sequence past elements
that can match without consuming any, and in all other expressions at once. -/
inductive Grammar.Reaches (g : Grammar) : Expr → Reference → Prop where
  | ref (reference : Reference) : Reaches g (.ref reference) reference
  | seq {span : Span} {before after : List Expr} {e : Expr} {reference : Reference}
      (passed : ∀ x ∈ before, g.Nullable x) (element : Reaches g e reference) :
      Reaches g (.seq span (before ++ e :: after)) reference
  | choice {span : Span} {es : List Expr} {e : Expr} {reference : Reference} (mem : e ∈ es)
      (branch : Reaches g e reference) : Reaches g (.choice span es) reference
  | star {span : Span} {body : Expr} {reference : Reference} (of : Reaches g body reference) :
      Reaches g (.star span body) reference
  | plus {span : Span} {body : Expr} {reference : Reference} (of : Reaches g body reference) :
      Reaches g (.plus span body) reference
  | opt {span : Span} {body : Expr} {reference : Reference} (of : Reaches g body reference) :
      Reaches g (.opt span body) reference
  | lookahead {span : Span} {polarity : Polarity} {body : Expr} {reference : Reference}
      (of : Reaches g body reference) : Reaches g (.lookahead span polarity body) reference
  | label {span : Span} {name : Ident} {body : Expr} {reference : Reference}
      (of : Reaches g body reference) : Reaches g (.label span name body) reference
  | action {span : Span} {hint : String} {code : Code} {body : Expr} {reference : Reference}
      (of : Reaches g body reference) : Reaches g (.action span hint code body) reference
  | group {span : Span} {body : Expr} {reference : Reference} (of : Reaches g body reference) :
      Reaches g (.group span body) reference

/-- **The rule named `a` comes to a reference to `b` before it has to consume input.** -/
def Grammar.Refers (g : Grammar) (a b : String) : Prop :=
  ∃ r, g.rule? a = some r ∧ ∃ reference, g.Reaches r.expr reference ∧ reference.name.name = b

/-! ## What can match without consuming input -/

theorem allNullable_iff (known : List String) (es : List Expr) :
    allNullable known es = true ↔ ∀ e ∈ es, nullable known e = true := by
  induction es with
  | nil => simp [allNullable]
  | cons e rest ih => rw [allNullable, Bool.and_eq_true, ih, List.forall_mem_cons]

theorem anyNullable_iff (known : List String) (es : List Expr) :
    anyNullable known es = true ↔ ∃ e ∈ es, nullable known e = true := by
  induction es with
  | nil => simp [anyNullable]
  | cons e rest ih =>
    rw [anyNullable, Bool.or_eq_true, ih]
    simp only [List.mem_cons, exists_eq_or_imp]

/-- What the addition of a nullable rule keeps is kept by the rounds. -/
theorem nullableRounds_keeps {P : List String → Prop} {rules : List Rule}
    (hadd : ∀ known, ∀ r ∈ rules, P known → nullable known r.expr = true →
      P (r.name.name :: known)) (rounds : Nat) :
    ∀ known, P known → P (nullableRounds rules rounds known) := by
  have hround : ∀ (l : List Rule), (∀ r ∈ l, r ∈ rules) → ∀ known, P known →
      P (nullableRound l known) := by
    intro l
    induction l with
    | nil => exact fun _ _ h => h
    | cons r l ih =>
      intro hl known hknown
      rw [List.forall_mem_cons] at hl
      rw [nullableRound_cons]
      refine ih hl.2 _ ?_
      unfold nullableStep
      split
      · rename_i h
        exact hadd known r hl.1 hknown (Bool.and_eq_true_iff.1 h).2
      · exact hknown
  induction rounds with
  | zero => exact fun _ h => h
  | succ rounds ih =>
    intro known hknown
    unfold nullableRounds
    simp only
    split
    · exact hknown
    · exact ih _ (hround rules (fun _ h => h) known hknown)

namespace Grammar

variable {g : Grammar} {known : List String}

/-- With names of rules whose bodies can match nothing, only such expressions are found. -/
theorem nullable_of_eq_true
    (hknown : ∀ name ∈ known, ∃ r, g.rule? name = some r ∧ g.Nullable r.expr) (e : Expr)
    (h : nullable known e = true) : g.Nullable e := by
  induction e using Expr.parts_induction with
  | h e ih =>
    cases e with
    | literal span text =>
      rw [nullable, String.isEmpty_iff] at h
      rw [h]
      exact .literal
    | charClass | anyChar => cases h
    | ref reference =>
      rw [nullable, List.contains_iff_mem] at h
      obtain ⟨r, hr, hbody⟩ := hknown _ h
      exact .ref hr hbody
    | seq span es => exact .seq fun e he => ih e he ((allNullable_iff known es).1 h e he)
    | choice span es =>
      obtain ⟨e, he, hn⟩ := (anyNullable_iff known es).1 h
      exact .choice he (ih e he hn)
    | star => exact .star
    | plus span body => exact .plus (ih body (List.mem_singleton_self body) h)
    | opt => exact .opt
    | lookahead => exact .lookahead
    | codePredicate => exact .codePredicate
    | label span name body => exact .label (ih body (List.mem_singleton_self body) h)
    | action span hint code body => exact .action (ih body (List.mem_singleton_self body) h)
    | bareAction => exact .bareAction
    | group span body => exact .group (ih body (List.mem_singleton_self body) h)

/-- The rules that are found can match nothing. -/
theorem exists_of_mem_nullableRules (g : Grammar) :
    ∀ name ∈ g.nullableRules, ∃ r, g.rule? name = some r ∧ g.Nullable r.expr := by
  refine nullableRounds_keeps (P := fun known => ∀ name ∈ known, ∃ r, g.rule? name = some r ∧
    g.Nullable r.expr) (fun known r hr hknown hn => ?_) _ [] fun _ h => by cases h
  have hdef := mem_definitions_iff.1 (List.mem_reverse.1 hr)
  exact List.forall_mem_cons.2 ⟨⟨r, hdef, nullable_of_eq_true hknown r.expr hn⟩, hknown⟩

/-- **The expressions that are found to be nullable are those that are.** -/
theorem nullable_iff (g : Grammar) (e : Expr) : nullable g.nullableRules e = true ↔ g.Nullable e := by
  refine ⟨nullable_of_eq_true g.exists_of_mem_nullableRules e, fun h => ?_⟩
  induction h with
  | literal | star | opt | lookahead | codePredicate | bareAction => rfl
  | @ref reference r named _ ih =>
    have hname := name_of_rule? named
    have hdef : r ∈ g.definitions := mem_definitions_iff.2 (hname ▸ named)
    rw [nullable, List.contains_iff_mem, ← hname]
    exact g.nullableRules_settled r hdef ih
  | seq _ ih => exact (allNullable_iff _ _).2 ih
  | choice mem _ ih => exact (anyNullable_iff _ _).2 ⟨_, mem, ih⟩
  | plus _ ih | label _ ih | action _ ih | group _ ih => exact ih

/-! ## What stands at the left edge -/

theorem mem_leftmostOf_iff {reference : Reference} (es : List Expr) :
    reference ∈ Expr.leftmostOf known es ↔ ∃ before e after, es = before ++ e :: after ∧
      (∀ x ∈ before, nullable known x = true) ∧ reference ∈ e.leftmost known := by
  induction es with
  | nil => simp [Expr.leftmostOf]
  | cons e rest ih =>
    rw [Expr.leftmostOf, List.mem_append]
    constructor
    · rintro (h | h)
      · exact ⟨[], e, rest, rfl, fun _ hx => absurd hx List.not_mem_nil, h⟩
      · split at h
        · rename_i hn
          obtain ⟨before, x, after, hsplit, hall, hx⟩ := ih.1 h
          exact ⟨e :: before, x, after, by rw [hsplit, List.cons_append],
            List.forall_mem_cons.2 ⟨hn, hall⟩, hx⟩
        · cases h
    · rintro ⟨before, x, after, hsplit, hall, hx⟩
      cases before with
      | nil =>
        cases hsplit
        exact .inl hx
      | cons y before =>
        cases hsplit
        rw [List.forall_mem_cons] at hall
        refine .inr ?_
        rw [if_pos hall.1]
        exact ih.2 ⟨before, x, after, rfl, hall.2, hx⟩

theorem mem_leftmostAny_iff {reference : Reference} (es : List Expr) :
    reference ∈ Expr.leftmostAny known es ↔ ∃ e ∈ es, reference ∈ e.leftmost known := by
  induction es with
  | nil => simp [Expr.leftmostAny]
  | cons e rest ih =>
    rw [Expr.leftmostAny, List.mem_append, ih]
    simp only [List.mem_cons, exists_eq_or_imp]

/-- **The references at the left edge of an expression are those that it reaches.** -/
theorem mem_leftmost_iff {reference : Reference} (e : Expr) :
    reference ∈ e.leftmost g.nullableRules ↔ g.Reaches e reference := by
  constructor
  · intro h
    induction e using Expr.parts_induction with
    | h e ih =>
      cases e with
      | literal | charClass | anyChar | codePredicate | bareAction => cases h
      | ref r =>
        rw [List.mem_singleton.1 h]
        exact .ref r
      | seq span es =>
        obtain ⟨before, e, after, rfl, hall, he⟩ := (mem_leftmostOf_iff es).1 h
        refine .seq (fun x hx => (g.nullable_iff x).1 (hall x hx)) (ih e ?_ he)
        exact List.mem_append_right _ (List.mem_cons_self ..)
      | choice span es =>
        obtain ⟨e, hmem, he⟩ := (mem_leftmostAny_iff es).1 h
        exact .choice hmem (ih e hmem he)
      | star span body => exact .star (ih body (List.mem_singleton_self body) h)
      | plus span body => exact .plus (ih body (List.mem_singleton_self body) h)
      | opt span body => exact .opt (ih body (List.mem_singleton_self body) h)
      | lookahead span polarity body => exact .lookahead (ih body (List.mem_singleton_self body) h)
      | label span name body => exact .label (ih body (List.mem_singleton_self body) h)
      | action span hint code body => exact .action (ih body (List.mem_singleton_self body) h)
      | group span body => exact .group (ih body (List.mem_singleton_self body) h)
  · intro h
    induction h with
    | ref => exact List.mem_singleton_self _
    | seq passed _ ih =>
      exact (mem_leftmostOf_iff _).2 ⟨_, _, _, rfl, fun x hx => (g.nullable_iff x).2 (passed x hx), ih⟩
    | choice mem _ ih => exact (mem_leftmostAny_iff _).2 ⟨_, mem, ih⟩
    | star _ ih | plus _ ih | opt _ ih | lookahead _ ih | label _ ih | action _ ih | group _ ih =>
      exact ih

/-- **The walk goes along the edges that rules have before they consume input.** -/
theorem leads_iff (g : Grammar) (a b : String) : g.Leads a b ↔ g.Refers a b := by
  simp only [Leads, LeftEdge, Refers, find?_definitions, mem_leftmost_iff]

end Grammar

end Packrat

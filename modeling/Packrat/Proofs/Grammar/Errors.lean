import Mathlib.Logic.Basic
import Mathlib.Tactic.Tauto
import Packrat.Grammar.Check
import Packrat.Proofs.Grammar.LabelScope
import Packrat.Proofs.Grammar.Refs

/-!
# When the checks find nothing

* `redefinitions_eq_nil_iff`, `paramRedefinitions_eq_nil_iff` — no name comes twice.
* `Reference.Part` — a reference or an argument in it; `refErrors_eq_nil_iff` — each has a name
  without error.
* `mem_exprErrors_labels` — the labels that are bound after an expression.
* `exprErrors_eq_nil_iff` — the references of an expression have no errors, and it binds no label
  again.
-/

set_option autoImplicit false

namespace Packrat

/-! ## Names -/

theorem redefinitions_eq_nil_iff (seen : List String) (items : List Item) :
    redefinitions seen items = [] ↔
      (items.map (·.name.name)).Nodup ∧ ∀ i ∈ items, i.name.name ∉ seen := by
  induction items generalizing seen with
  | nil => simp [redefinitions]
  | cons i rest ih =>
    rw [redefinitions, List.map_cons, List.nodup_cons, List.forall_mem_cons]
    by_cases hseen : i.name.name ∈ seen
    · simp [hseen]
    · rw [if_neg hseen, ih]
      simp only [List.mem_cons, List.mem_map, not_or]
      grind

theorem paramRedefinitions_eq_nil_iff (seen : List String) (params : List Ident) :
    paramRedefinitions seen params = [] ↔
      (params.map (·.name)).Nodup ∧ ∀ p ∈ params, p.name ∉ seen := by
  induction params generalizing seen with
  | nil => simp [paramRedefinitions]
  | cons p rest ih =>
    rw [paramRedefinitions, List.map_cons, List.nodup_cons, List.forall_mem_cons]
    by_cases hseen : p.name ∈ seen
    · simp [hseen]
    · rw [if_neg hseen, ih]
      simp only [List.mem_cons, List.mem_map, not_or]
      grind

/-! ## References -/

/-- A reference itself, or an argument in it, however deep. -/
inductive Reference.Part : Reference → Reference → Prop where
  | self (r : Reference) : Part r r
  | arg {r a s : Reference} (mem : a ∈ r.args) (part : Part a s) : Part r s

section

variable {g : Grammar} {params : List String}

mutual

/-- A reference has no errors if no name in it has one. -/
theorem refErrors_eq_nil_iff (r : Reference) : refErrors g params r = [] ↔
    ∀ s, r.Part s → nameError g params s.name s.args.length s.span = [] := by
  obtain ⟨span, name, args⟩ := r
  rw [refErrors, List.append_eq_nil_iff, argErrors_eq_nil_iff args]
  constructor
  · rintro ⟨hname, hargs⟩ s hs
    cases hs with
    | self => exact hname
    | arg mem part => exact hargs _ mem s part
  · intro h
    exact ⟨h _ (.self _), fun a ha s hs => h s (.arg ha hs)⟩

theorem argErrors_eq_nil_iff (rs : List Reference) : argErrors g params rs = [] ↔
    ∀ r ∈ rs, ∀ s, r.Part s → nameError g params s.name s.args.length s.span = [] := by
  cases rs with
  | nil => simp [argErrors]
  | cons r rest =>
    rw [argErrors, List.append_eq_nil_iff, refErrors_eq_nil_iff r, argErrors_eq_nil_iff rest,
      List.forall_mem_cons]

end

/-! ## Labels that are bound after an expression -/

/-- What is bound after a sequence, once it is known of its elements. -/
theorem mem_seqErrors_labels {name : String} (es : List Expr) (labels : List String)
    (hes : ∀ e ∈ es, ∀ labels, name ∈ (exprErrors g params e labels).2 ↔
      name ∈ labels ∨ e.Leaves name) :
    name ∈ (seqErrors g params es labels).2 ↔ name ∈ labels ∨ ∃ e ∈ es, e.Leaves name := by
  induction es generalizing labels with
  | nil => simp [seqErrors]
  | cons e rest ih =>
    rw [List.forall_mem_cons] at hes
    show name ∈ (seqErrors g params rest (exprErrors g params e labels).2).2 ↔ _
    rw [ih _ hes.2, hes.1, or_assoc]
    simp only [List.mem_cons, exists_eq_or_imp]

/-- **After an expression those labels are bound that were bound before or that it leaves.** -/
theorem mem_exprErrors_labels {name : String} (e : Expr) : ∀ labels,
    name ∈ (exprErrors g params e labels).2 ↔ name ∈ labels ∨ e.Leaves name := by
  induction e using Expr.parts_induction with
  | h e ih =>
    intro labels
    rw [Expr.leaves_iff]
    cases e with
    | literal | charClass | anyChar | ref | codePredicate | bareAction =>
      simp [exprErrors, Expr.labelAt?, Expr.at?, Expr.parts]
    | seq span es =>
      have hseq := mem_seqErrors_labels es labels ih
      simpa [exprErrors, Expr.labelAt?, Expr.at?, Expr.IsChoice, Expr.parts] using hseq
    | choice span es => simp [exprErrors, Expr.labelAt?, Expr.at?, Expr.IsChoice]
    | star _ body | plus _ body | opt _ body | lookahead _ _ body | action _ _ _ body
    | group _ body =>
      have hbody := ih body (List.mem_singleton_self body) labels
      simpa [exprErrors, Expr.labelAt?, Expr.at?, Expr.IsChoice, Expr.parts] using hbody
    | label span own body =>
      have hbody := ih body (List.mem_singleton_self body) (own.name :: labels)
      simp only [exprErrors, hbody, Expr.labelAt?, Expr.at?, Expr.IsChoice, Expr.parts]
      grind

/-! ## Errors of an expression -/

/-- The references have no errors, no label of `labels` occurs, and no label is bound again. -/
structure Expr.Clean (g : Grammar) (params labels : List String) (e : Expr) : Prop where
  refs : ∀ r ∈ e.refs, refErrors g params r = []
  new : ∀ name ∈ labels, ¬ e.Mentions name
  apart : ¬ e.Clashes

namespace Expr

variable {labels : List String}

theorem clean_iff {e : Expr} : e.Clean g params labels ↔
    (∀ r ∈ e.refs, refErrors g params r = []) ∧ (∀ name ∈ labels, ¬ e.Mentions name) ∧
      ¬ e.Clashes :=
  ⟨fun h => ⟨h.refs, h.new, h.apart⟩, fun ⟨hrefs, hnew, hapart⟩ => ⟨hrefs, hnew, hapart⟩⟩

/-- With more labels bound before. -/
theorem clean_of_labels {e : Expr} {more : List String} {P : String → Prop}
    (hmore : ∀ name, name ∈ more ↔ name ∈ labels ∨ P name) :
    e.Clean g params more ↔ e.Clean g params labels ∧ ∀ name, P name → ¬ e.Mentions name := by
  simp only [clean_iff, hmore, or_imp, forall_and]
  tauto

theorem refsAll_eq_flatMap (es : List Expr) : refsAll es = es.flatMap refs := by
  induction es with
  | nil => rfl
  | cons e rest ih => rw [refsAll, List.flatMap_cons, ih]

theorem clean_leaf_iff {e : Expr} (hparts : e.parts = []) (hlabel : e.labelAt? [] = none) :
    e.Clean g params labels ↔ ∀ r ∈ e.refs, refErrors g params r = [] := by
  have hmentions : ∀ name, ¬ e.Mentions name := by
    intro name
    rw [mentions_iff, hparts, hlabel]
    simp
  have hclashes : ¬ e.Clashes := by
    rw [clashes_iff, hparts]
    simp
  rw [clean_iff]
  tauto

theorem clean_body_iff {e body : Expr} (hparts : e.parts = [body]) (hlabel : e.labelAt? [] = none)
    (hrefs : e.refs = body.refs) : e.Clean g params labels ↔ body.Clean g params labels := by
  have hmentions : ∀ name, e.Mentions name ↔ body.Mentions name := by
    intro name
    rw [mentions_iff, hparts, hlabel]
    simp
  have hclashes : e.Clashes ↔ body.Clashes := by
    rw [clashes_iff, hparts, hlabel]
    simp
  simp only [clean_iff, hmentions, hclashes, hrefs]

theorem clean_label_iff {span : Span} {own : Ident} {body : Expr} :
    (label span own body).Clean g params labels ↔
      own.name ∉ labels ∧ body.Clean g params (own.name :: labels) := by
  have hmentions : ∀ name, (label span own body).Mentions name ↔
      own.name = name ∨ body.Mentions name := by
    intro name
    rw [mentions_iff]
    simp [labelAt?, at?, parts]
  have hclashes : (label span own body).Clashes ↔ body.Mentions own.name ∨ body.Clashes := by
    rw [clashes_iff]
    simp [labelAt?, at?, parts]
  simp only [clean_iff, hmentions, hclashes, refs, List.forall_mem_cons]
  grind

theorem clean_seq_iff {span : Span} {es : List Expr} :
    (seq span es).Clean g params labels ↔ (∀ e ∈ es, e.Clean g params labels) ∧
      es.Pairwise fun x y => ∀ name, x.Leaves name → ¬ y.Mentions name := by
  have hmentions : ∀ name, (seq span es).Mentions name ↔ ∃ e ∈ es, e.Mentions name := by
    intro name
    rw [mentions_iff]
    simp [labelAt?, at?, parts]
  have hclashes : (seq span es).Clashes ↔ (∃ e ∈ es, e.Clashes) ∨
      ¬ es.Pairwise fun x y => ∀ name, x.Leaves name → ¬ y.Mentions name := by
    rw [clashes_iff]
    simp [labelAt?, at?, parts, IsChoice]
  simp only [clean_iff, hmentions, hclashes, refs, refsAll_eq_flatMap, List.mem_flatMap]
  grind

theorem clean_choice_iff {span : Span} {es : List Expr} :
    (choice span es).Clean g params labels ↔ ∀ e ∈ es, e.Clean g params labels := by
  have hmentions : ∀ name, (choice span es).Mentions name ↔ ∃ e ∈ es, e.Mentions name := by
    intro name
    rw [mentions_iff]
    simp [labelAt?, at?, parts]
  have hclashes : (choice span es).Clashes ↔ ∃ e ∈ es, e.Clashes := by
    rw [clashes_iff]
    simp [labelAt?, at?, parts, IsChoice]
  simp only [clean_iff, hmentions, hclashes, refs, refsAll_eq_flatMap, List.mem_flatMap]
  grind

end Expr

variable {labels : List String}

theorem seqErrors_eq_nil_iff (es : List Expr) (labels : List String)
    (hes : ∀ e ∈ es, ∀ labels, (exprErrors g params e labels).1 = [] ↔ e.Clean g params labels) :
    (seqErrors g params es labels).1 = [] ↔ (∀ e ∈ es, e.Clean g params labels) ∧
      es.Pairwise fun x y => ∀ name, x.Leaves name → ¬ y.Mentions name := by
  induction es generalizing labels with
  | nil => simp [seqErrors]
  | cons e rest ih =>
    rw [List.forall_mem_cons] at hes
    -- the labels that `e` leaves are bound before the rest
    have hrest : ∀ x ∈ rest, x.Clean g params (exprErrors g params e labels).2 ↔
        x.Clean g params labels ∧ ∀ name, e.Leaves name → ¬ x.Mentions name :=
      fun x _ => Expr.clean_of_labels fun name => mem_exprErrors_labels e labels
    show (exprErrors g params e labels).1 ++
      (seqErrors g params rest (exprErrors g params e labels).2).1 = [] ↔ _
    rw [List.append_eq_nil_iff, hes.1, ih _ hes.2, List.forall_mem_cons, List.pairwise_cons,
      forall₂_congr hrest]
    simp only [imp_and, forall_and]
    tauto

theorem choiceErrors_eq_nil_iff (es : List Expr) (labels : List String)
    (hes : ∀ e ∈ es, ∀ labels, (exprErrors g params e labels).1 = [] ↔ e.Clean g params labels) :
    choiceErrors g params es labels = [] ↔ ∀ e ∈ es, e.Clean g params labels := by
  induction es with
  | nil => simp [choiceErrors]
  | cons e rest ih =>
    rw [List.forall_mem_cons] at hes
    rw [choiceErrors, List.append_eq_nil_iff, hes.1, ih hes.2, List.forall_mem_cons]

/-- **An expression has no errors if its references have none, no label that is bound before occurs in
it, and it binds no label again.** -/
theorem exprErrors_eq_nil_iff (e : Expr) : ∀ labels,
    (exprErrors g params e labels).1 = [] ↔ e.Clean g params labels := by
  induction e using Expr.parts_induction with
  | h e ih =>
    intro labels
    cases e with
    | literal | charClass | anyChar | ref | codePredicate | bareAction =>
      rw [Expr.clean_leaf_iff (by rfl) (by rfl)]
      simp [exprErrors, Expr.refs]
    | seq span es =>
      rw [Expr.clean_seq_iff]
      exact seqErrors_eq_nil_iff es labels ih
    | choice span es =>
      rw [Expr.clean_choice_iff]
      exact choiceErrors_eq_nil_iff es labels ih
    | star _ body | plus _ body | opt _ body | lookahead _ _ body | action _ _ _ body
    | group _ body =>
      rw [Expr.clean_body_iff (by rfl) (by rfl) (by rfl)]
      exact ih body (List.mem_singleton_self body) labels
    | label span own body =>
      rw [Expr.clean_label_iff, exprErrors, ← ih body (List.mem_singleton_self body)]
      by_cases hown : own.name ∈ labels <;> simp [hown]

end

end Packrat

import Packrat.Proofs.Grammar.Nodes
import Packrat.Proofs.GrammarText.Extent
import Packrat.Proofs.GrammarText.Landing
import Packrat.Proofs.GrammarText.Yields

/-!
# Spans tell the truth

What is read from a text has spans that are where it was read from.

* `Reader.Lays` — a reader comes across nodes after those that it was given; with a rule for each
  combinator, and `spanned_lays` for a node around them.
* `ident_lays`, `code_lays`, `reference_lays`, `expr_lays`, `item_lays`, `grammar_lays` — the readers, from
  the inside out.
* `readGrammar_spans` — every node of a grammar that is read.
-/

set_option autoImplicit false

namespace Packrat

namespace Reader

variable {α β : Type} {p q : Reader α} {f : α → Reader β} {cs : List Char}

/-- If the nodes `ns` stand one after the other up to where the reader begins, then up to where a match `a`
ends the nodes `v a` do, from the same offset on. -/
def Lays (p : Reader α) (cs : List Char) (ns : List Node) (v : α → List Node) : Prop :=
  ∀ lo mid, Laid cs lo ns mid → p.Lands cs mid fun a hi => Laid cs lo (v a) hi

section Rules

variable {ns : List Node} {v : α → List Node} {w : β → List Node}

theorem Lays.pure {a : α} (h : ∀ lo hi, Laid cs lo ns hi → Laid cs lo (v a) hi) :
    (Pure.pure a : Reader α).Lays cs ns v := fun lo mid hns => .pure (h lo mid hns)

theorem Lays.bind (hp : p.Lays cs ns v) (hf : ∀ a, (f a).Lays cs (v a) w) : (p >>= f).Lays cs ns w :=
  fun lo mid hns => (hp lo mid hns).bind fun a mid' _ ha => hf a lo mid' ha

theorem Skips.lays (hp : p.Skips cs) : p.Lays cs ns fun _ => ns := fun _ mid hns =>
  (hp mid).mono fun _ _ hle _ => hns.widen (Nat.le_refl _) hle

/-- What a reader comes across at the beginning it comes across after other nodes. -/
theorem Lays.frame (hp : p.Lays cs [] v) (ns : List Node) : p.Lays cs ns fun a => ns ++ v a :=
  fun _ mid hns => (hp mid mid (Nat.le_refl _)).mono fun _ _ _ ha => hns.append ha

theorem Lays.orElse (hp : p.Lays cs ns v) (hq : q.Lays cs ns v) : (p.orElse q).Lays cs ns v :=
  fun lo mid hns => (hp lo mid hns).orElse (hq lo mid hns)

theorem Lays.firstOf {ps : List (Reader α)} (h : ∀ p ∈ ps, p.Lays cs ns v) :
    (Reader.firstOf ps).Lays cs ns v :=
  fun lo mid hns => .firstOf fun p hp => h p hp lo mid hns

theorem Lays.optional {v : Option α → List Node} (hp : p.Lays cs ns fun a => v (some a))
    (hnone : v none = ns) : (Reader.optional p).Lays cs ns v :=
  fun lo mid hns => .optional (hp lo mid hns) (by rwa [hnone])

theorem Lays.many {node : α → Node} (hp : p.Lays cs [] fun a => [node a]) (ns : List Node) :
    (Reader.many p).Lays cs ns fun as => ns ++ as.map node := fun lo mid hns =>
  Lands.many (fun as hi => Laid cs lo (ns ++ as.map node) hi) (fun as mid has =>
    (hp.frame _ lo mid has).mono fun a hi _ ha => by
      rwa [List.map_append, ← List.append_assoc]) [] (by rwa [List.map_nil, List.append_nil])

theorem Lays.sepBy1 {sep : Reader Unit} {node : α → Node} (hp : p.Lays cs [] fun a => [node a])
    (hsep : sep.Skips cs) : (Reader.sepBy1 p sep).Lays cs [] fun as => as.map node :=
  hp.bind fun a => ((hsep.lays.bind fun _ => hp).many [node a]).bind fun _ => .pure fun _ _ h => h

end Rules

end Reader

namespace GrammarText

open Reader

variable {α β : Type} {cs : List Char}

/-- A node is made of what is read, with the span of it. -/
theorem spanned_lays {p : Reader α} {f : α × Span → Reader β} {v : α → List Node} {w : β → List Node}
    (hp : p.Lays cs [] v)
    (hf : ∀ a s, Encloses cs s (v a) → ∃ b, f (a, s) = pure b ∧ Laid cs s.lo (w b) s.hi) :
    (spanned p >>= f).Lays cs [] w := by
  have hspanned : ∀ mid, (spanned p).Lands cs mid fun r hi =>
      r.2 = ⟨mid, hi⟩ ∧ Encloses cs ⟨mid, hi⟩ (v r.1) := fun mid =>
    .position fun hlo => (hp mid mid (Nat.le_refl _)).bind fun a _ _ ha => .position fun hhi =>
      .pure ⟨rfl, hlo, hhi, ha⟩
  intro lo mid hle
  refine (hspanned mid).bind ?_
  rintro ⟨a, s⟩ hi - ⟨rfl, ha⟩
  obtain ⟨b, hb, hlaid⟩ := hf a ⟨mid, hi⟩ ha
  rw [hb]
  exact .pure (hlaid.widen hle (Nat.le_refl _))

/-! ### Names, code and references -/

theorem ident_lays : ident.Lays cs [] fun i => [.ident i] := fun _ _ hle =>
  .of_boundary fun hmid => ident_lands.mono fun i _ _ ⟨hspan, ht⟩ =>
    (ht.node hmid (.ident i) hspan rfl rfl).widen hle (Nat.le_refl _)

theorem code_lays : code.Lays cs [] fun k => [.code k] := fun _ _ hle =>
  .of_boundary fun hmid => code_lands.mono fun k _ _ ⟨hspan, ht⟩ =>
    (ht.node hmid (.code k) hspan rfl rfl).widen hle (Nat.le_refl _)

/-- The arguments end where they are recorded to end, before the blanks and the bracket. -/
theorem referenceArguments_lands {fuel : Nat}
    (h : (referenceWithin fuel).Lays cs [] fun r => [.reference r]) (lo : Nat) :
    (referenceArguments fuel).Lands cs lo fun r hi =>
      Boundary cs r.2 ∧ r.2 ≤ hi ∧ Laid cs lo (r.1.map .reference) r.2 := by
  refine (exactly_skips _ _).bind fun _ m₁ h₁ _ => (blanks_skips _).bind fun _ m₂ h₂ _ => ?_
  refine (h.sepBy1 (separator_skips _) m₂ m₂ (Nat.le_refl _)).bind fun as m₃ _ has => ?_
  refine .position fun hm₃ => (blanks_skips _).bind fun _ m₄ h₄ _ => ?_
  refine (exactly_skips _ _).bind fun _ hi h₅ _ => ?_
  exact .pure ⟨hm₃, Nat.le_trans h₄ h₅, has.widen (Nat.le_trans h₁ h₂) (Nat.le_refl _)⟩

theorem referenceWithin_lays (fuel : Nat) :
    (referenceWithin fuel).Lays cs [] fun r => [.reference r] := by
  induction fuel with
  | zero => exact fun _ _ _ => .never
  | succ fuel ih =>
    rw [referenceWithin_succ]
    refine fun lo mid hle => .position fun hmid => ?_
    refine (ident_lays mid mid (Nat.le_refl _)).bind fun name m₁ _ hname => .position fun hm₁ => ?_
    have hargs : (optional (referenceArguments fuel)).Lands cs m₁ fun args hi =>
        Laid cs lo [.reference (referenceOf mid m₁ name args)] hi := by
      refine .optional ((referenceArguments_lands ih m₁).mono ?_) ?_
      · rintro ⟨as, last⟩ hi - ⟨hlast, hhi, has⟩
        have hinside : Encloses cs ⟨mid, last⟩ (.ident name :: as.map .reference) :=
          ⟨hmid, hlast, hname.append has⟩
        exact (hinside.node rfl rfl rfl).widen hle hhi
      · have hinside : Encloses cs ⟨mid, m₁⟩ [.ident name] := ⟨hmid, hm₁, hname⟩
        exact (hinside.node rfl rfl rfl).widen hle (Nat.le_refl _)
    exact hargs.bind fun _ _ _ h => .pure h

theorem reference_lays : reference.Lays cs [] fun r => [.reference r] := fun lo mid hle rest =>
  referenceWithin_lays (rest.length + 1) lo mid hle rest

/-! ### Expressions -/

theorem literalOperand_lays : literalOperand.Lays cs [] fun x => [.expr x] := by
  refine fun _ mid hle => .position fun hmid => (stringLiteral_skips _).bind fun text m₁ h₁ _ => ?_
  refine (absent_skips _ _).bind fun _ m₂ h₂ _ => .position fun hm₂ => .pure ?_
  have hinside : Encloses cs ⟨mid, m₂⟩ [] := ⟨hmid, hm₂, Nat.le_trans h₁ h₂⟩
  exact (hinside.node rfl rfl rfl).widen hle (Nat.le_refl _)

theorem referenceOperand_lays : referenceOperand.Lays cs [] fun x => [.expr x] :=
  reference_lays.bind fun _ => (absent_skips _).lays.bind fun _ => (absent_skips _).lays.bind fun _ =>
    .pure fun _ _ h => h.wrap rfl rfl rfl

theorem marked_lays {p : Reader α} {v : α → List Node} (hp : p.Lays cs [] v) (mark : Char) :
    (marked mark p).Lays cs [] v :=
  (exactly_skips _).lays.bind fun _ => blanks_skips.lays.bind fun _ => hp

theorem markAt_lands (lo : Nat) : markAt.Lands cs lo fun m hi => m.2 = hi ∧ Boundary cs hi := by
  have hmark : ∀ (mark : Char) (r : Repetition), Skips (do exactly [mark]; return r) cs := fun _ _ =>
    (exactly_skips _).bind fun _ => .pure _
  have hr : repetition.Skips cs :=
    (hmark _ _).orElse <| (hmark _ _).orElse <| (hmark _ _).orElse fun _ => .never
  exact (hr lo).bind fun r mid _ _ => .position fun hmid => .pure ⟨rfl, hmid⟩

theorem actionTail_lays : actionTail.Lays cs [] fun r => [.code r.2] := by
  have hhint : actionType.Skips cs :=
    .orElse ((Lands.skips fun _ => ident_lands).bind fun _ => .pure _) stringLiteral_skips
  exact hhint.lays.bind fun _ => (exactly_skips _).lays.bind fun _ => blanks_skips.lays.bind fun _ =>
    code_lays.bind fun _ => .pure fun _ _ hk => hk

/-- A list of expressions as one, with the span around all of them. -/
theorem flatten_laid {wrap : List Expr → Expr} {s : Span} {xs : List Expr}
    (h : Encloses cs s (xs.map .expr)) (hspan : (wrap xs).span = s)
    (hchildren : (Node.expr (wrap xs)).children = xs.map .expr) :
    Laid cs s.lo [.expr (flatten wrap xs)] s.hi := by
  match xs with
  | [x] => exact h.laid
  | [] | _ :: _ :: _ => exact h.node hspan hchildren rfl

section Levels

variable {inner : Reader Expr} (h : inner.Lays cs [] fun x => [.expr x])
include h

theorem operand_lays : (operand inner).Lays cs [] fun x => [.expr x] := by
  have hgroup : (parenthesized inner).Lays cs [] fun x => [.expr x] :=
    (exactly_skips _).lays.bind fun _ => blanks_skips.lays.bind fun _ => h.bind fun _ =>
      blanks_skips.lays.bind fun _ => (exactly_skips _).lays.bind fun _ => .pure fun _ _ hx => hx
  refine .firstOf ?_
  simp only [List.forall_mem_cons]
  refine ⟨?_, ?_, ?_, referenceOperand_lays, literalOperand_lays, ?_, ?_, List.forall_mem_nil _⟩
  · exact spanned_lays hgroup fun _ _ hx => ⟨_, rfl, hx.node rfl rfl rfl⟩
  · exact spanned_lays (marked_lays code_lays '&') fun _ _ hk => ⟨_, rfl, hk.node rfl rfl rfl⟩
  · exact spanned_lays (marked_lays code_lays '!') fun _ _ hk => ⟨_, rfl, hk.node rfl rfl rfl⟩
  · exact spanned_lays charClass_skips.lays fun _ _ hk => ⟨_, rfl, hk.node rfl rfl rfl⟩
  · exact spanned_lays (exactly_skips _).lays fun _ _ hk => ⟨_, rfl, hk.node rfl rfl rfl⟩

/-- The marks of repetition all go back to where the operand begins. -/
theorem repeated_lays : (repeated inner).Lays cs [] fun x => [.expr x] := by
  refine fun lo mid hle => .position fun hmid => ?_
  refine (operand_lays h mid mid (Nat.le_refl _)).bind fun x m₁ _ hx => ?_
  have hmark : ∀ x m₁, Laid cs mid [.expr x] m₁ → markAt.Lands cs m₁ fun m hi =>
      Laid cs mid [.expr (m.1.apply ⟨mid, m.2⟩ x)] hi := by
    intro x m₁ hx
    refine (markAt_lands m₁).mono ?_
    rintro ⟨r, hi⟩ _ hm₁ ⟨rfl, hhi⟩
    have hinside : Encloses cs ⟨mid, hi⟩ [.expr x] := ⟨hmid, hhi, hx.widen (Nat.le_refl _) hm₁⟩
    cases r <;> exact hinside.node rfl rfl rfl
  exact (Lands.many_foldl (fun x hi => Laid cs mid [.expr x] hi) _ hmark x hx).bind fun _ _ _ hxs =>
    .pure (hxs.widen hle (Nat.le_refl _))

theorem predicate_lays : (predicate inner).Lays cs [] fun x => [.expr x] := by
  refine .firstOf ?_
  simp only [List.forall_mem_cons]
  refine ⟨?_, ?_, repeated_lays h, List.forall_mem_nil _⟩
  · exact spanned_lays (marked_lays (repeated_lays h) '&') fun _ _ hx => ⟨_, rfl, hx.node rfl rfl rfl⟩
  · exact spanned_lays (marked_lays (repeated_lays h) '!') fun _ _ hx => ⟨_, rfl, hx.node rfl rfl rfl⟩

theorem labelled_lays : (labelled inner).Lays cs [] fun x => [.expr x] := by
  have hparts : (labelParts inner).Lays cs [] fun r => [.ident r.1, .expr r.2] :=
    ident_lays.bind fun name => (exactly_skips _).lays.bind fun _ => (absent_skips _).lays.bind fun _ =>
      blanks_skips.lays.bind fun _ => ((predicate_lays h).frame [.ident name]).bind fun _ =>
        .pure fun _ _ hx => hx
  refine .orElse ?_ (predicate_lays h)
  exact spanned_lays hparts fun _ _ hx => ⟨_, rfl, hx.node rfl rfl rfl⟩

theorem sequence_lays : (sequence inner).Lays cs [] fun x => [.expr x] :=
  spanned_lays ((labelled_lays h).sepBy1 blanks_skips) fun _ _ hxs => ⟨_, rfl, flatten_laid hxs rfl rfl⟩

theorem acted_lays : (acted inner).Lays cs [] fun x => [.expr x] := by
  have hparts : (actedParts inner).Lays cs [] fun r => .expr r.1 :: r.2.toList.map fun t => .code t.2 := by
    refine (sequence_lays h).bind fun x => ?_
    have htail : Reader.Lays (do blanks; actionTail) cs [.expr x] fun t => [.expr x, .code t.2] :=
      blanks_skips.lays.bind fun _ => actionTail_lays.frame [.expr x]
    exact (Lays.optional (v := fun tail => .expr x :: tail.toList.map fun t => .code t.2) htail rfl).bind
      fun _ => .pure fun _ _ hx => hx
  rw [acted_eq]
  refine .orElse (spanned_lays hparts ?_) ?_
  · rintro ⟨x, _ | ⟨hint, k⟩⟩ s hx
    · exact ⟨x, rfl, hx.laid⟩
    · exact ⟨_, rfl, hx.node rfl rfl rfl⟩
  · exact spanned_lays actionTail_lays fun _ _ hk => ⟨_, rfl, hk.node rfl rfl rfl⟩

theorem alternatives_lays : (alternatives inner).Lays cs [] fun x => [.expr x] :=
  spanned_lays ((acted_lays h).sepBy1 (separator_skips '/')) fun _ _ hxs => ⟨_, rfl, flatten_laid hxs rfl rfl⟩

end Levels

theorem exprWithin_lays (fuel : Nat) : (exprWithin fuel).Lays cs [] fun x => [.expr x] := by
  induction fuel with
  | zero => exact fun _ _ _ => .never
  | succ fuel ih => exact fun lo mid hle rest => alternatives_lays ih lo mid hle rest

theorem expr_lays : expr.Lays cs [] fun x => [.expr x] := fun lo mid hle rest =>
  exprWithin_lays (rest.length + 1) lo mid hle rest

/-! ### Definitions -/

theorem params_lays : params.Lays cs [] fun ps => ps.map .ident :=
  blanks_skips.lays.bind fun _ => (exactly_skips _).lays.bind fun _ => blanks_skips.lays.bind fun _ =>
    (ident_lays.sepBy1 (separator_skips ',')).bind fun _ => blanks_skips.lays.bind fun _ =>
      (exactly_skips _).lays.bind fun _ => .pure fun _ _ hps => hps

theorem item_lays : item.Lays cs [] fun i => [.item i] := by
  have hparts : itemParts.Lays cs [] fun r =>
      .ident r.1 :: ((r.2.1.getD []).map .ident ++ [.expr r.2.2]) := by
    refine ident_lays.bind fun name => ?_
    refine (Lays.optional (v := fun ps => .ident name :: (ps.getD []).map .ident)
      (params_lays.frame [.ident name]) rfl).bind fun ps => ?_
    exact blanks_skips.lays.bind fun _ => (exactly_skips _).lays.bind fun _ =>
      blanks_skips.lays.bind fun _ => (expr_lays.frame _).bind fun _ => .pure fun _ _ hx => hx
  rw [item_eq]
  refine spanned_lays hparts ?_
  rintro ⟨name, _ | ps, x⟩ s hparts
  · exact ⟨_, rfl, hparts.node rfl rfl rfl⟩
  · exact ⟨_, rfl, hparts.node rfl rfl rfl⟩

theorem thenBlanks_lays {p : Reader α} {v : α → List Node} (hp : p.Lays cs [] v) :
    (thenBlanks p).Lays cs [] v :=
  hp.bind fun _ => blanks_skips.lays.bind fun _ => .pure fun _ _ h => h

theorem grammar_lays : grammar.Lays cs [] Grammar.roots :=
  blanks_skips.lays.bind fun _ =>
    (Lays.optional (v := fun k => k.toList.map .code) (thenBlanks_lays code_lays) rfl).bind fun _ =>
      ((thenBlanks_lays item_lays).many _).bind fun _ => .pure fun _ _ h => h

/-- **Spans tell the truth.**  In a grammar that is read from a text every node has a span between two
boundaries of the text, names and code stand at theirs, the nodes inside a node have theirs inside its
span, each before the next, and so have the definitions among each other. -/
theorem readGrammar_spans {cs : List Char} {g : Grammar} (h : readGrammar cs = .ok g) :
    (∀ n, g.HasNode n → n.Truthful cs) ∧ g.roots.Pairwise fun a b => a.span.hi ≤ b.span.lo := by
  obtain ⟨c', hres, -⟩ := readGrammar_eq_ok h
  have hdrop : dropBytes? cs 0 = some cs := dropBytes?_eq_some_iff.2 ⟨[], rfl, rfl⟩
  obtain ⟨-, -, hroots⟩ := grammar_lays 0 0 (Nat.le_refl 0) cs hdrop g c' hres
  exact ⟨fun n hn => (hn.sound hroots.sound).truthful, hroots.ordered⟩

/-- The span of a reference with arguments ends with the last of them. -/
theorem readGrammar_spans_bracket : ∃ g, readGrammar "T<x> <- x\nS <- T<S >".toList = .ok g ∧
    g.items.map (fun i => (i.span, i.expr.span)) = [(⟨0, 9⟩, ⟨8, 9⟩), (⟨10, 20⟩, ⟨15, 18⟩)] ∧
    (∀ n, g.HasNode n → n.Truthful "T<x> <- x\nS <- T<S >".toList) ∧
    g.roots.Pairwise fun a b => a.span.hi ≤ b.span.lo := by
  obtain ⟨g, hg, htest⟩ := exists_of_readsAs (show readsAs "T<x> <- x\nS <- T<S >".toList (fun g =>
    g.items.map (fun i => (i.span, i.expr.span)) = [(⟨0, 9⟩, ⟨8, 9⟩), (⟨10, 20⟩, ⟨15, 18⟩)]) = true by
      decide +kernel)
  exact ⟨g, hg, of_decide_eq_true htest, readGrammar_spans hg⟩

end GrammarText

end Packrat

import Packrat.Proofs.GrammarText.Alike
import Packrat.Proofs.GrammarText.Levels

/-!
# Texts in other places

The offset at which a text stands goes into spans only.

* `item_alike` — a definition that is read at one offset is read at every other.
-/

set_option autoImplicit false

namespace Packrat.GrammarText

open Reader

variable {α γ : Type}

theorem blanks_alike : Alike [] id blanks blanks := by
  intro c d hcd
  rw [List.append_nil] at hcd
  obtain ⟨u, c', hc, hc', -⟩ := blanks_reads c.rest c rfl
  obtain ⟨u', d', hd, hd', -⟩ := blanks_reads c.rest d hcd
  rw [hc, hd]
  exact .some rfl (by rw [hc', hd', List.append_nil])

theorem mark_alike (lit : List Char) : Alike [] id (exactly lit) (exactly lit) :=
  .exactly (by rintro x ⟨⟩)

theorem spanned_alike {v : α → γ} {p q : Reader α} (h : Alike [] v p q) :
    Alike [] (fun r => v r.1) (spanned p) (spanned q) :=
  Alike.position.bind fun _ _ _ => h.bind fun _ _ ha => Alike.position.bind fun _ _ _ => .pure ha

theorem thenBlanks_alike {v : α → γ} {p q : Reader α} (h : Alike [] v p q) :
    Alike [] v (thenBlanks p) (thenBlanks q) :=
  h.bind fun _ _ ha => blanks_alike.bind fun _ _ _ => .pure ha

theorem marked_alike {v : α → γ} {p q : Reader α} (mark : Char) (h : Alike [] v p q) :
    Alike [] v (marked mark p) (marked mark q) :=
  (mark_alike _).bind fun _ _ _ => blanks_alike.bind fun _ _ _ => h

theorem separator_alike (mark : Char) : Alike [] id (separator mark) (separator mark) :=
  blanks_alike.bind fun _ _ _ => (mark_alike _).bind fun _ _ _ => blanks_alike

theorem codeBody_alike (fuel : Nat) : Alike [] id (codeBody fuel) (codeBody fuel) := by
  induction fuel with
  | zero => exact .never
  | succ fuel ih =>
    have hpart : Alike [] id (codePart fuel) (codePart fuel) := by
      refine .orElse ((mark_alike _).bind fun _ _ _ => ih.bind fun t t' ht => (mark_alike _).bind
        fun _ _ _ => .pure (by rw [show t = t' from ht])) ?_
      exact (Alike.satisfy _ (by rintro x ⟨⟩)).bind fun x x' hx => .pure (by rw [show x = x' from hx])
    rw [codeBody_succ]
    refine (hpart.many (codePart_takes fuel)).bind fun ps ps' hps => .pure ?_
    rw [List.map_id, List.map_id] at hps
    rw [hps]

theorem code_alike : Alike [] Code.unplaced code code := by
  have hbody : Alike [] id (fun c => codeBody (c.rest.length + 1) c)
      (fun c => codeBody (c.rest.length + 1) c) := by
    intro c d hcd
    have h := codeBody_alike (d.rest.length + 1) c d hcd
    rw [List.append_nil] at hcd
    change Agree [] id (codeBody (c.rest.length + 1) c).result (codeBody (d.rest.length + 1) d).result
    rw [hcd] at h ⊢
    exact h
  refine Alike.position.bind fun _ _ _ => (mark_alike _).bind fun _ _ _ => hbody.bind fun t t' ht =>
    (mark_alike _).bind fun _ _ _ => Alike.position.bind fun _ _ _ => .pure ?_
  rw [show t = t' from ht, Code.unplaced, Code.unplaced]

theorem referenceOf_unplaced {lo lo' hi hi' : Nat} {name name' : Ident}
    {args args' : Option (List Reference × Nat)} (hname : name.unplaced = name'.unplaced)
    (hargs : args.map (fun as => as.1.map Reference.unplaced) =
      args'.map (fun as => as.1.map Reference.unplaced)) :
    (referenceOf lo hi name args).unplaced = (referenceOf lo' hi' name' args').unplaced := by
  cases args with
  | none =>
    cases args' with
    | none => rw [referenceOf, referenceOf, Reference.unplaced, Reference.unplaced, hname]
    | some _ => cases hargs
  | some as =>
    cases args' with
    | none => cases hargs
    | some as' =>
      rw [Option.map_some, Option.map_some, Option.some_inj] at hargs
      rw [referenceOf, referenceOf, Reference.unplaced, Reference.unplaced, hname,
        Reference.unplacedAll_eq, Reference.unplacedAll_eq, hargs]

theorem referenceWithin_alike (fuel : Nat) :
    Alike [] Reference.unplaced (referenceWithin fuel) (referenceWithin fuel) := by
  induction fuel with
  | zero => exact .never
  | succ fuel ih =>
    have htakes : Reader.Takes 1 (separator ',' >>= fun _ => referenceWithin fuel) :=
      (separator_takes _).then fun _ => (referenceWithin_takes _).mono (Nat.zero_le 1)
    have hargs : Alike [] (fun as => as.1.map Reference.unplaced) (referenceArguments fuel)
        (referenceArguments fuel) :=
      (mark_alike _).bind fun _ _ _ => blanks_alike.bind fun _ _ _ =>
        (ih.sepBy1 (separator_alike ',') htakes).bind fun _ _ has => Alike.position.bind fun _ _ _ =>
          blanks_alike.bind fun _ _ _ => (mark_alike _).bind fun _ _ _ => .pure has
    rw [referenceWithin_succ]
    exact Alike.position.bind fun _ _ _ => (ident_alike head_nil).bind fun _ _ hname =>
      Alike.position.bind fun _ _ _ => hargs.optional.bind fun _ _ has =>
        .pure (referenceOf_unplaced hname has)

theorem reference_alike : Alike [] Reference.unplaced reference reference := by
  intro c d hcd
  have h := referenceWithin_alike (d.rest.length + 1) c d hcd
  rw [List.append_nil] at hcd
  rw [hcd] at h
  unfold reference
  rw [hcd]
  exact h

section Levels

variable {inner inner' : Reader Expr} (h : Alike [] Expr.unplaced inner inner')
include h

theorem operand_alike : Alike [] Expr.unplaced (operand inner) (operand inner') := by
  have hgroup : Alike [] Expr.unplaced (parenthesized inner) (parenthesized inner') :=
    (mark_alike _).bind fun _ _ _ => blanks_alike.bind fun _ _ _ => h.bind fun _ _ hx =>
      blanks_alike.bind fun _ _ _ => (mark_alike _).bind fun _ _ _ => .pure hx
  have href : Alike [] Expr.unplaced referenceOperand referenceOperand :=
    reference_alike.bind fun r r' hr => (Alike.absent (blanks_alike.bind fun _ _ _ => mark_alike _)).bind
      fun _ _ _ => (mark_alike _).absent.bind fun _ _ _ => .pure (by simp only [Expr.unplaced, hr])
  have hlit : Alike [] Expr.unplaced literalOperand literalOperand :=
    Alike.position.bind fun _ _ _ => (stringLiteral_alike head_nil).bind fun s s' hs =>
      (mark_alike _).absent.bind fun _ _ _ => Alike.position.bind fun _ _ _ =>
        .pure (by rw [Expr.unplaced, Expr.unplaced, show s = s' from hs])
  refine .orElse ((spanned_alike hgroup).bind ?_) <|
    .orElse ((spanned_alike (marked_alike _ code_alike)).bind ?_) <|
    .orElse ((spanned_alike (marked_alike _ code_alike)).bind ?_) <| .orElse href <| .orElse hlit <|
    .orElse ((spanned_alike (charClass_alike head_nil)).bind ?_) <|
    .orElse ((spanned_alike (mark_alike _)).bind ?_) .never
  · rintro ⟨x, s⟩ ⟨x', s'⟩ hx
    exact .pure (congrArg (Expr.group .nowhere) hx)
  · rintro ⟨k, s⟩ ⟨k', s'⟩ hk
    exact .pure (congrArg (Expr.codePredicate .nowhere .positive) hk)
  · rintro ⟨k, s⟩ ⟨k', s'⟩ hk
    exact .pure (congrArg (Expr.codePredicate .nowhere .negative) hk)
  · rintro ⟨k, s⟩ ⟨k', s'⟩ hk
    exact .pure (congrArg (Expr.charClass .nowhere) hk)
  · rintro ⟨_, s⟩ ⟨_, s'⟩ -
    exact .pure rfl

theorem repeated_alike : Alike [] Expr.unplaced (repeated inner) (repeated inner') := by
  refine Alike.position.bind fun lo lo' _ => (operand_alike h).bind fun x x' hx =>
    ((markAt_alike head_nil).many markAt_takes).bind fun ms ms' hms => .pure ?_
  rw [foldl_apply_unplaced, foldl_apply_unplaced, hx, hms]

theorem predicate_alike : Alike [] Expr.unplaced (predicate inner) (predicate inner') := by
  refine .orElse ((spanned_alike (marked_alike _ (repeated_alike h))).bind ?_) <|
    .orElse ((spanned_alike (marked_alike _ (repeated_alike h))).bind ?_) <|
    .orElse (repeated_alike h) .never
  · rintro ⟨x, s⟩ ⟨x', s'⟩ hx
    exact .pure (congrArg (Expr.lookahead .nowhere .positive) hx)
  · rintro ⟨x, s⟩ ⟨x', s'⟩ hx
    exact .pure (congrArg (Expr.lookahead .nowhere .negative) hx)

theorem labelled_alike : Alike [] Expr.unplaced (labelled inner) (labelled inner') := by
  have hbrace : Alike [] id (absent (do blanks; exactly ['\x7b'])) (absent (do blanks; exactly ['\x7b'])) :=
    Alike.absent (blanks_alike.bind fun _ _ _ => mark_alike _)
  have hlabel : Alike [] (fun r : Ident × Expr => (r.1.unplaced, r.2.unplaced)) (labelParts inner)
      (labelParts inner') :=
    (ident_alike head_nil).bind fun name name' hn => (mark_alike _).bind fun _ _ _ =>
      hbrace.bind fun _ _ _ => blanks_alike.bind fun _ _ _ => (predicate_alike h).bind fun x x' hx =>
        .pure (by rw [hn, hx])
  refine .orElse ((spanned_alike hlabel).bind ?_) (predicate_alike h)
  rintro ⟨⟨name, x⟩, s⟩ ⟨⟨name', x'⟩, s'⟩ hr
  obtain ⟨hn, hx⟩ := Prod.mk.inj hr
  refine .pure ?_
  rw [Expr.unplaced, Expr.unplaced, hn, hx]

theorem sequence_alike (htakes : inner.Takes 0) :
    Alike [] Expr.unplaced (sequence inner) (sequence inner') := by
  refine (spanned_alike ((labelled_alike h).sepBy1 blanks_alike (blanksLabelled_takes htakes))).bind ?_
  rintro ⟨xs, s⟩ ⟨xs', s'⟩ hxs
  refine .pure ?_
  rw [flatten_seq_unplaced, flatten_seq_unplaced, hxs]

end Levels

theorem actionTail_alike :
    Alike [] (fun r => (r.1, r.2.unplaced)) actionTail actionTail :=
  (actionType_alike head_nil).bind fun hint hint' hh => (mark_alike _).bind fun _ _ _ =>
    blanks_alike.bind fun _ _ _ => code_alike.bind fun k k' hk =>
      .pure (by rw [show hint = hint' from hh, hk])

theorem actedOf_unplaced {s s' : Span} {x x' : Expr} {tail tail' : Option (String × Code)}
    (hx : x.unplaced = x'.unplaced)
    (ht : tail.map (fun r => (r.1, r.2.unplaced)) = tail'.map (fun r => (r.1, r.2.unplaced))) :
    (actedOf s x tail).unplaced = (actedOf s' x' tail').unplaced := by
  cases tail with
  | none =>
    cases tail' with
    | none => exact hx
    | some _ => cases ht
  | some r =>
    cases tail' with
    | none => cases ht
    | some r' =>
      rw [Option.map_some, Option.map_some, Option.some_inj, Prod.mk.injEq] at ht
      rw [actedOf, actedOf, Expr.unplaced, Expr.unplaced, hx, ht.1, ht.2]

section Expressions

variable {inner inner' : Reader Expr} (h : Alike [] Expr.unplaced inner inner') (htakes : inner.Takes 0)
include h htakes

theorem acted_alike : Alike [] Expr.unplaced (acted inner) (acted inner') := by
  have hparts := (sequence_alike h htakes).bind fun x x' hx =>
    (blanks_alike.bind fun _ _ _ => actionTail_alike).optional.bind fun tail tail' ht =>
      (Alike.pure (Prod.ext hx ht) : Alike [] (fun r : Expr × Option (String × Code) =>
        (r.1.unplaced, r.2.map fun t => (t.1, t.2.unplaced))) (pure (x, tail)) (pure (x', tail')))
  rw [acted_eq, acted_eq]
  refine .orElse ((spanned_alike hparts).bind ?_) ((spanned_alike actionTail_alike).bind ?_)
  · rintro ⟨⟨x, tail⟩, s⟩ ⟨⟨x', tail'⟩, s'⟩ hr
    obtain ⟨hx, ht⟩ := Prod.mk.inj hr
    exact .pure (actedOf_unplaced hx ht)
  · rintro ⟨⟨hint, k⟩, s⟩ ⟨⟨hint', k'⟩, s'⟩ hr
    obtain ⟨hh, hk⟩ := Prod.mk.inj hr
    refine .pure ?_
    rw [Expr.unplaced, Expr.unplaced, hk, show hint = hint' from hh]

theorem alternatives_alike : Alike [] Expr.unplaced (alternatives inner) (alternatives inner') := by
  refine (spanned_alike ((acted_alike h htakes).sepBy1 (separator_alike '/')
    (separatorActed_takes htakes))).bind ?_
  rintro ⟨xs, s⟩ ⟨xs', s'⟩ hxs
  refine .pure ?_
  rw [flatten_choice_unplaced, flatten_choice_unplaced, hxs]

end Expressions

theorem exprWithin_alike (fuel : Nat) : Alike [] Expr.unplaced (exprWithin fuel) (exprWithin fuel) := by
  induction fuel with
  | zero => exact .never
  | succ fuel ih => exact fun c d hcd => alternatives_alike ih (exprWithin_takes fuel) c d hcd

theorem expr_alike : Alike [] Expr.unplaced expr expr := by
  intro c d hcd
  have h := exprWithin_alike (d.rest.length + 1) c d hcd
  rw [List.append_nil] at hcd
  rw [hcd] at h
  unfold expr
  rw [hcd]
  exact h

theorem params_alike : Alike [] (List.map Ident.unplaced) params params :=
  have htakes : Reader.Takes 1 (separator ',' >>= fun _ => ident) :=
    (separator_takes _).then fun _ => ident_takes.mono (Nat.zero_le 1)
  blanks_alike.bind fun _ _ _ => (mark_alike _).bind fun _ _ _ => blanks_alike.bind fun _ _ _ =>
    ((ident_alike head_nil).sepBy1 (separator_alike ',') htakes).bind fun _ _ hps =>
      blanks_alike.bind fun _ _ _ => (mark_alike _).bind fun _ _ _ => .pure hps

theorem itemOf_unplaced {s s' : Span} {name name' : Ident} {x x' : Expr} {ps ps' : Option (List Ident)}
    (hname : name.unplaced = name'.unplaced) (hx : x.unplaced = x'.unplaced)
    (hps : ps.map (List.map Ident.unplaced) = ps'.map (List.map Ident.unplaced)) :
    (itemOf s name x ps).unplaced = (itemOf s' name' x' ps').unplaced := by
  cases ps with
  | none =>
    cases ps' with
    | none => rw [itemOf, itemOf, Item.unplaced, Item.unplaced, Rule.unplaced, Rule.unplaced, hname, hx]
    | some _ => cases hps
  | some names =>
    cases ps' with
    | none => cases hps
    | some names' =>
      rw [Option.map_some, Option.map_some, Option.some_inj] at hps
      rw [itemOf, itemOf, Item.unplaced, Item.unplaced, Template.unplaced, Template.unplaced, hname, hx, hps]

/-- **A definition is read in one place as it is in another.** -/
theorem item_alike : Alike [] Item.unplaced item item := by
  have hparts := (ident_alike head_nil).bind fun name name' hn => params_alike.optional.bind
    fun ps ps' hps => blanks_alike.bind fun _ _ _ => (mark_alike ['<', '-']).bind fun _ _ _ =>
      blanks_alike.bind fun _ _ _ => expr_alike.bind fun x x' hx =>
        (Alike.pure (Prod.ext hn (Prod.ext hps hx)) : Alike []
          (fun r : Ident × Option (List Ident) × Expr =>
            (r.1.unplaced, r.2.1.map (List.map Ident.unplaced), r.2.2.unplaced))
          (pure (name, ps, x)) (pure (name', ps', x')))
  rw [item_eq]
  refine (spanned_alike hparts).bind ?_
  rintro ⟨⟨name, ps, x⟩, s⟩ ⟨⟨name', ps', x'⟩, s'⟩ hr
  obtain ⟨hn, hr⟩ := Prod.mk.inj hr
  obtain ⟨hps, hx⟩ := Prod.mk.inj hr
  exact .pure (itemOf_unplaced hn hx hps)

end Packrat.GrammarText

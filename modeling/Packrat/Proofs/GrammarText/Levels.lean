import Packrat.Proofs.Grammar.Unplaced
import Packrat.Proofs.GrammarText.Blanks
import Packrat.Proofs.GrammarText.Tokens

/-!
# The levels of the notation

One lemma for each way to write an expression: if its parts are read, so is the whole, and no
alternative that is tried before takes its text.  Results are told up to spans.
-/

set_option autoImplicit false

namespace Packrat.GrammarText

open Reader

variable {α : Type} {inner : Reader Expr} {cs cs₁ cs₂ cs₃ : List Char}

theorem spanned_reads {p : Reader α} {P : α → Prop} (h : p.Reads cs cs₁ P) :
    (spanned p).Reads cs cs₁ fun r => P r.1 :=
  (position_reads _).bind fun _ _ => h.bind fun _ ha => (position_reads _).bind fun _ _ => .pure ha

theorem spanned_refuses {p : Reader α} (h : p.Refuses cs) : (spanned p).Refuses cs :=
  .bind_right (position_reads _) fun _ _ => .bind_left h

theorem thenBlanks_reads {p : Reader α} {P : α → Prop} (h : p.Reads cs cs₁ P) :
    (thenBlanks p).Reads cs (afterBlanks cs₁) P :=
  h.bind fun _ ha => (blanks_reads _).bind fun _ _ => .pure ha

theorem marked_reads {p : Reader α} {P : α → Prop} (mark : Char)
    (h : p.Reads (afterBlanks cs) cs₁ P) : (marked mark p).Reads (mark :: cs) cs₁ P :=
  (exactly_reads [mark] cs).bind fun _ _ => (blanks_reads cs).bind fun _ _ => h

theorem marked_refuses (p : Reader α) {mark : Char} (h : cs.head? ≠ some mark) :
    (marked mark p).Refuses cs := .bind_left (exactly_refuses h)

theorem separator_reads {mark : Char} (h : afterBlanks cs = mark :: cs₁) :
    (separator mark).Reads cs (afterBlanks cs₁) fun _ => True := by
  refine (blanks_reads cs).bind fun _ _ => ?_
  rw [h]
  exact (exactly_reads [mark] cs₁).bind fun _ _ => blanks_reads cs₁

theorem separator_refuses {mark : Char} (h : (afterBlanks cs).head? ≠ some mark) :
    (separator mark).Refuses cs :=
  .bind_right (blanks_reads cs) fun _ _ => .bind_left (exactly_refuses h)

/-- A mark other than a blank that stands first stands first after blanks too. -/
theorem head_ne_of_afterBlanks {x : Char} (hx : ¬ StartsBlank x) (h : (afterBlanks cs).head? ≠ some x) :
    cs.head? ≠ some x := fun hcs => h (afterBlanks_head_of_head hx hcs)

/-! ### References -/

section References

variable {fuel : Nat} {i : Ident}

theorem referenceArguments_refuses (h : cs.head? ≠ some '<') : (referenceArguments fuel).Refuses cs :=
  .bind_left (exactly_refuses h)

theorem referenceArguments_reads {A : List Reference → Prop}
    (hargs : (sepBy1 (referenceWithin fuel) (separator ',')).Reads (afterBlanks cs) cs₁ A)
    (hend : afterBlanks cs₁ = '>' :: cs₂) :
    (referenceArguments fuel).Reads ('<' :: cs) cs₂ fun as => A as.1 := by
  have hclose := blanks_reads cs₁
  rw [hend] at hclose
  exact (exactly_reads ['<'] cs).bind fun _ _ => (blanks_reads cs).bind fun _ _ =>
    hargs.bind fun as has => (position_reads _).bind fun _ _ => hclose.bind fun _ _ =>
      (exactly_reads ['>'] cs₂).bind fun _ _ => .pure has

theorem reference_reads_plain (hname : ident.Reads cs cs₁ (·.unplaced = i))
    (hargs : (referenceArguments fuel).Refuses cs₁) :
    (referenceWithin (fuel + 1)).Reads cs cs₁ (·.unplaced = .mk .nowhere i []) := by
  rw [referenceWithin_succ]
  refine (position_reads _).bind fun _ _ => hname.bind fun name hn => (position_reads _).bind fun _ _ =>
    (optional_reads_none hargs).bind fun args hargs => .pure ?_
  subst hargs
  rw [referenceOf, Reference.unplaced, hn, Reference.unplacedAll]

theorem reference_reads_args {A : List Reference × Nat → Prop}
    (hname : ident.Reads cs cs₁ (·.unplaced = i)) (hargs : (referenceArguments fuel).Reads cs₁ cs₂ A) :
    (referenceWithin (fuel + 1)).Reads cs cs₂ fun r =>
      ∃ as, A as ∧ r.unplaced = .mk .nowhere i (as.1.map Reference.unplaced) := by
  rw [referenceWithin_succ]
  refine (position_reads _).bind fun _ _ => hname.bind fun name hn => (position_reads _).bind fun _ _ =>
    (optional_reads_some hargs).bind fun args hargs => .pure ?_
  obtain ⟨as, rfl, has⟩ := hargs
  refine ⟨as, has, ?_⟩
  rw [referenceOf, Reference.unplaced, hn, Reference.unplacedAll_eq]

/-- The text that is left bounds how deep arguments are nested. -/
theorem reference_reads {P : Reference → Prop} (h : (referenceWithin (cs.length + 1)).Reads cs cs₁ P) :
    reference.Reads cs cs₁ P := by
  intro c hc
  subst hc
  exact h c rfl

theorem referenceOperand_reads {r : Reference} (hr : reference.Reads cs cs₁ (·.unplaced = r))
    (harrow : ∀ ds, afterBlanks cs₁ ≠ '<' :: '-' :: ds) (hcolon : cs₁.head? ≠ some ':') :
    referenceOperand.Reads cs cs₁ (·.unplaced = .ref r) := by
  have hno : Reader.Refuses (do blanks; exactly ['<', '-']) cs₁ :=
    .bind_right (blanks_reads cs₁) fun _ _ => exactly_refuses_of_ne harrow
  refine hr.bind fun r' hr' => (absent_reads hno).bind fun _ _ =>
    (absent_reads (exactly_refuses hcolon)).bind fun _ _ => .pure ?_
  rw [Expr.unplaced, hr']

/-- A reference before an arrow is no operand. -/
theorem referenceOperand_refuses_arrow {P : Reference → Prop} (hr : reference.Reads cs cs₁ P)
    (harrow : afterBlanks cs₁ = '<' :: '-' :: cs₂) : referenceOperand.Refuses cs := by
  have hyes : Reader.Reads (do blanks; exactly ['<', '-']) cs₁ cs₂ fun _ => True := by
    refine (blanks_reads cs₁).bind fun _ _ => ?_
    rw [harrow]
    exact exactly_reads ['<', '-'] cs₂
  exact .bind_right hr fun _ _ => .bind_left (absent_refuses hyes)

/-- A name before a colon is no operand. -/
theorem referenceOperand_refuses_colon (hname : ident.Reads cs (':' :: cs₁) (·.unplaced = i)) :
    referenceOperand.Refuses cs := by
  have hr : reference.Reads cs (':' :: cs₁) (·.unplaced = .mk .nowhere i []) :=
    reference_reads (reference_reads_plain hname (referenceArguments_refuses (by simp)))
  have hno : Reader.Refuses (do blanks; exactly ['<', '-']) (':' :: cs₁) :=
    .bind_right (blanks_reads_nothing (by simp; decide)) fun _ _ => exactly_refuses (by simp)
  exact .bind_right hr fun _ _ => .bind_right (absent_reads hno) fun _ _ =>
    .bind_left (absent_refuses (exactly_reads [':'] cs₁))

end References

/-! ### Operands -/

section Operands

variable {x : Char} {e : Expr} {k : Code}

/-- The mark of a predicate. -/
def markOf : Polarity → Char
  | .positive => '&'
  | .negative => '!'

theorem operand_refuses (hopen : cs.head? ≠ some '(') (hcode : ∀ p, (marked (markOf p) code).Refuses cs)
    (href : referenceOperand.Refuses cs) (hlit : literalOperand.Refuses cs)
    (hclass : cs.head? ≠ some '[') (hdot : cs.head? ≠ some '.') : (operand inner).Refuses cs := by
  have hclass' : charClass.Refuses cs := .bind_left (exactly_refuses hclass)
  refine .firstOf ?_
  simp only [List.forall_mem_cons]
  exact ⟨.bind_left (spanned_refuses (.bind_left (exactly_refuses hopen))),
    .bind_left (spanned_refuses (hcode .positive)), .bind_left (spanned_refuses (hcode .negative)), href,
    hlit, .bind_left (spanned_refuses hclass'), .bind_left (spanned_refuses (exactly_refuses hdot)),
    List.forall_mem_nil _⟩

/-- An operand that begins with a letter or an underscore is a reference. -/
theorem operand_refuses_of_name (hx : startsName x = true) (h : referenceOperand.Refuses (x :: cs)) :
    (operand inner).Refuses (x :: cs) := by
  have hne : ∀ y ∈ marks, (x :: cs).head? ≠ some y := fun y hy => head_ne_of_startsName hx hy cs
  have hlit : literalOperand.Refuses (x :: cs) := by
    refine literalOperand_starts.refuses ?_
    rintro y hy (rfl | rfl)
    · exact hne _ (by decide) hy
    · exact hne _ (by decide) hy
  have hcode : ∀ p, (marked (markOf p) code).Refuses (x :: cs) := by
    rintro (_ | _)
    · exact marked_refuses _ (hne _ (by decide))
    · exact marked_refuses _ (hne _ (by decide))
  exact operand_refuses (hne _ (by decide)) hcode h hlit (hne _ (by decide)) (hne _ (by decide))

/-- A mark of a predicate that no code follows begins no operand. -/
theorem operand_refuses_of_mark (polarity : Polarity) (h : (afterBlanks cs).head? ≠ some '\x7b') :
    (operand inner).Refuses (markOf polarity :: cs) := by
  have hcode : ∀ p, (marked (markOf p) code).Refuses (markOf polarity :: cs) := by
    intro p
    by_cases hp : p = polarity
    · subst hp
      exact .bind_right (exactly_reads [_] cs) fun _ _ => .bind_right (blanks_reads cs) fun _ _ =>
        code_starts.refuses (by rintro y hy rfl; exact h hy)
    · refine marked_refuses _ ?_
      cases p <;> cases polarity <;> simp_all [markOf]
  have hname : startsName (markOf polarity) = false := by
    cases polarity <;> exact startsName_eq_false (by decide)
  have href : referenceOperand.Refuses (markOf polarity :: cs) := by
    refine referenceOperand_starts.refuses ?_
    rintro y ⟨⟩
    simp [hname]
  have hlit : literalOperand.Refuses (markOf polarity :: cs) := by
    refine literalOperand_starts.refuses ?_
    rintro y ⟨⟩
    cases polarity <;> simp [markOf]
  cases polarity <;> exact operand_refuses (by simp [markOf]) hcode href hlit (by simp [markOf])
    (by simp [markOf])

theorem operand_reads_group (hx : inner.Reads (afterBlanks cs) cs₁ (·.unplaced = e))
    (hclose : afterBlanks cs₁ = ')' :: cs₂) :
    (operand inner).Reads ('(' :: cs) cs₂ (·.unplaced = .group .nowhere e) := by
  have hend := blanks_reads cs₁
  rw [hclose] at hend
  have hbody : (parenthesized inner).Reads ('(' :: cs) cs₂ (·.unplaced = e) :=
    (exactly_reads ['('] cs).bind fun _ _ => (blanks_reads cs).bind fun _ _ => hx.bind fun _ hy =>
      hend.bind fun _ _ => (exactly_reads [')'] cs₂).bind fun _ _ => .pure hy
  refine .orElse_left ((spanned_reads hbody).bind ?_)
  rintro ⟨y, s⟩ hy
  refine .pure ?_
  rw [Expr.unplaced, hy]

theorem operand_reads_codePredicate (polarity : Polarity)
    (hk : code.Reads (afterBlanks cs) cs₁ (·.unplaced = k)) :
    (operand inner).Reads (markOf polarity :: cs) cs₁ (·.unplaced = .codePredicate .nowhere polarity k) := by
  have hmarked := spanned_reads (marked_reads (markOf polarity) hk)
  have hgroup : ∀ polarity, (markOf polarity :: cs).head? ≠ some '(' := by
    rintro (_ | _) <;> simp [markOf]
  refine .orElse_right (.bind_left (spanned_refuses (.bind_left (exactly_refuses (hgroup polarity))))) ?_
  cases polarity with
  | positive =>
    refine .orElse_left (hmarked.bind ?_)
    rintro ⟨k', s⟩ hk'
    refine .pure ?_
    rw [Expr.unplaced, hk']
  | negative =>
    refine .orElse_right (.bind_left (spanned_refuses (marked_refuses _ (by simp [markOf])))) ?_
    refine .orElse_left (hmarked.bind ?_)
    rintro ⟨k', s⟩ hk'
    refine .pure ?_
    rw [Expr.unplaced, hk']

/-- What does not begin with a parenthesis or a mark is read by one of the other four readers. -/
theorem operand_reads_of_head {P : Expr → Prop} (hhead : ∀ x ∈ cs.head?, x ≠ '(' ∧ x ≠ '&' ∧ x ≠ '!')
    (h : (firstOf [referenceOperand, literalOperand,
      (do let (k, s) ← spanned charClass; return .charClass s k),
      (do let (_, s) ← spanned (exactly ['.']); return .anyChar s)]).Reads cs cs₁ P) :
    (operand inner).Reads cs cs₁ P := by
  have hne : ∀ y, y = '(' ∨ y = '&' ∨ y = '!' → cs.head? ≠ some y := by
    rintro y hy heq
    obtain ⟨h₁, h₂, h₃⟩ := hhead y heq
    rcases hy with hy | hy | hy
    · exact h₁ hy
    · exact h₂ hy
    · exact h₃ hy
  exact .orElse_right (.bind_left (spanned_refuses (.bind_left (exactly_refuses (hne _ (.inl rfl)))))) <|
    .orElse_right (.bind_left (spanned_refuses (marked_refuses _ (hne _ (.inr (.inl rfl)))))) <|
    .orElse_right (.bind_left (spanned_refuses (marked_refuses _ (hne _ (.inr (.inr rfl)))))) h

theorem operand_reads_reference {P : Expr → Prop} (h : referenceOperand.Reads cs cs₁ P) :
    (operand inner).Reads cs cs₁ P := by
  obtain ⟨x, cs', rfl, hx⟩ := referenceOperand_starts.of_reads h
  refine operand_reads_of_head ?_ (.orElse_left h)
  rintro y ⟨⟩
  refine ⟨?_, ?_, ?_⟩ <;> rintro rfl <;> exact not_mem_marks_of_startsName hx (by decide)

theorem operand_reads_literal {s : String} (hs : stringLiteral.Reads cs cs₁ (· = s))
    (hcolon : cs₁.head? ≠ some ':') :
    (operand inner).Reads cs cs₁ (·.unplaced = .literal .nowhere s) := by
  obtain ⟨x, cs', rfl, hx⟩ := stringLiteral_starts.of_reads hs
  have hname : startsName x = false := by
    rcases hx with rfl | rfl
    · exact startsName_eq_false (by decide)
    · exact startsName_eq_false (by decide)
  refine operand_reads_of_head ?_ (.orElse_right (referenceOperand_starts.refuses ?_) (.orElse_left ?_))
  · rintro y ⟨⟩
    rcases hx with rfl | rfl <;> simp
  · rintro y ⟨⟩
    simp [hname]
  · refine (position_reads _).bind fun _ _ => hs.bind fun s' hs' =>
      (absent_reads (exactly_refuses hcolon)).bind fun _ _ => (position_reads _).bind fun _ _ => .pure ?_
    rw [Expr.unplaced, hs']

theorem operand_reads_class {k : CharClass} (hk : charClass.Reads cs cs₁ (· = k)) :
    (operand inner).Reads cs cs₁ (·.unplaced = .charClass .nowhere k) := by
  obtain ⟨x, cs', rfl, rfl⟩ := charClass_starts.of_reads hk
  refine operand_reads_of_head (by simp) (.orElse_right (referenceOperand_starts.refuses ?_)
    (.orElse_right (literalOperand_starts.refuses (by simp)) (.orElse_left ((spanned_reads hk).bind ?_))))
  · rintro y ⟨⟩
    simp [startsName_eq_false (show '[' ∈ marks by decide)]
  · rintro ⟨k', s⟩ hk'
    exact .pure (congrArg (Expr.charClass .nowhere) hk')

theorem operand_reads_anyChar (inner : Reader Expr) (cs : List Char) :
    (operand inner).Reads ('.' :: cs) cs (·.unplaced = .anyChar .nowhere) := by
  refine operand_reads_of_head (by simp) (.orElse_right (referenceOperand_starts.refuses ?_)
    (.orElse_right (literalOperand_starts.refuses (by simp)) (.orElse_right ?_ (.orElse_left ?_))))
  · rintro y ⟨⟩
    simp [startsName_eq_false (show '.' ∈ marks by decide)]
  · exact .bind_left (spanned_refuses (.bind_left (exactly_refuses (by simp))))
  · refine (spanned_reads (exactly_reads ['.'] cs)).bind ?_
    rintro ⟨_, s⟩ -
    exact .pure rfl

end Operands

/-! ### Repetitions, lookaheads and labels -/

section Elements

variable {x : Char} {e : Expr} {i : Ident} {P : Expr → Prop}

/-- The character of a mark of repetition. -/
def repetitionMark : Repetition → Char
  | .star => '*'
  | .plus => '+'
  | .opt => '?'

theorem markAt_reads (r : Repetition) (cs : List Char) :
    markAt.Reads (repetitionMark r :: cs) cs fun m => m.1 = r := by
  have hr : repetition.Reads (repetitionMark r :: cs) cs (· = r) := by
    cases r with
    | star => exact .orElse_left ((exactly_reads ['*'] cs).bind fun _ _ => .pure rfl)
    | plus =>
      exact .orElse_right (.bind_left (exactly_refuses (by simp [repetitionMark])))
        (.orElse_left ((exactly_reads ['+'] cs).bind fun _ _ => .pure rfl))
    | opt =>
      exact .orElse_right (.bind_left (exactly_refuses (by simp [repetitionMark])))
        (.orElse_right (.bind_left (exactly_refuses (by simp [repetitionMark])))
          (.orElse_left ((exactly_reads ['?'] cs).bind fun _ _ => .pure rfl)))
  exact hr.bind fun _ hr' => (position_reads _).bind fun _ _ => .pure hr'

theorem foldl_apply_unplaced (lo : Nat) (ms : List (Repetition × Nat)) (x : Expr) :
    (ms.foldl (fun x m => m.1.apply ⟨lo, m.2⟩ x) x).unplaced =
      (ms.map (·.1)).foldl (fun x r => r.apply .nowhere x) x.unplaced := by
  induction ms generalizing x with
  | nil => rfl
  | cons m ms ih =>
    rw [List.foldl_cons, ih, List.map_cons, List.foldl_cons]
    obtain ⟨r, hi⟩ := m
    cases r <;> rfl

theorem repeated_reads {rs : List Repetition} (hx : (operand inner).Reads cs cs₁ (·.unplaced = e))
    (hmarks : (many markAt).Reads cs₁ cs₂ fun ms => ms.map (·.1) = rs) :
    (repeated inner).Reads cs cs₂ (·.unplaced = rs.foldl (fun x r => r.apply .nowhere x) e) := by
  refine (position_reads _).bind fun lo _ => hx.bind fun y hy => hmarks.bind fun ms hms => .pure ?_
  rw [foldl_apply_unplaced, hms, hy]

theorem predicate_reads_lookahead (polarity : Polarity)
    (hx : (repeated inner).Reads (afterBlanks cs) cs₁ (·.unplaced = e)) :
    (predicate inner).Reads (markOf polarity :: cs) cs₁ (·.unplaced = .lookahead .nowhere polarity e) := by
  have hmarked := spanned_reads (marked_reads (markOf polarity) hx)
  cases polarity with
  | positive =>
    refine .orElse_left (hmarked.bind ?_)
    rintro ⟨y, s⟩ hy
    refine .pure ?_
    rw [Expr.unplaced, hy]
  | negative =>
    refine .orElse_right (.bind_left (spanned_refuses (marked_refuses _ (by simp [markOf])))) ?_
    refine .orElse_left (hmarked.bind ?_)
    rintro ⟨y, s⟩ hy
    refine .pure ?_
    rw [Expr.unplaced, hy]

/-- What is read as a repetition is no lookahead: behind its mark, if it has one, stands a brace. -/
theorem lookahead_refuses (polarity : Polarity) (h : (repeated inner).Reads cs cs₁ P) :
    (marked (markOf polarity) (repeated inner)).Refuses cs := by
  by_cases hhead : cs.head? = some (markOf polarity)
  · obtain ⟨cs', rfl⟩ : ∃ cs', cs = markOf polarity :: cs' := by
      cases cs with
      | nil => cases hhead
      | cons y cs' =>
        cases hhead
        exact ⟨cs', rfl⟩
    by_cases hbrace : (afterBlanks cs').head? = some '\x7b'
    · refine .bind_right (exactly_reads [_] cs') fun _ _ => .bind_right (blanks_reads cs') fun _ _ =>
        (repeated_starts inner).refuses ?_
      intro y hy
      rw [hbrace] at hy
      cases hy
      unfold StartsOperand StartsHint
      simp [startsName_eq_false (show '\x7b' ∈ marks by decide)]
    · refine absurd (.bind_right (position_reads _) fun _ _ => .bind_left ?_) h.not_refuses
      exact operand_refuses_of_mark polarity hbrace
  · exact marked_refuses _ hhead

theorem predicate_reads_repeated (h : (repeated inner).Reads cs cs₁ P) :
    (predicate inner).Reads cs cs₁ P :=
  .orElse_right (.bind_left (spanned_refuses (lookahead_refuses .positive h))) <|
    .orElse_right (.bind_left (spanned_refuses (lookahead_refuses .negative h))) <| .orElse_left h

/-- The part of a label before its body. -/
theorem labelled_reads_label (hname : ident.Reads cs (':' :: cs₁) (·.unplaced = i))
    (hx : (predicate inner).Reads (afterBlanks cs₁) cs₂ (·.unplaced = e)) :
    (labelled inner).Reads cs cs₂ (·.unplaced = .label .nowhere i e) := by
  have hbrace : Reader.Refuses (do blanks; exactly ['\x7b']) cs₁ := by
    refine .bind_right (blanks_reads cs₁) fun _ _ => exactly_refuses fun heq => ?_
    obtain ⟨y, cs', hcs, hy⟩ := (predicate_starts inner).of_reads hx
    rw [hcs] at heq
    cases heq
    unfold StartsOperand StartsHint at hy
    simp [startsName_eq_false (show '\x7b' ∈ marks by decide)] at hy
  have hbody := hname.bind fun name hn => (exactly_reads [':'] cs₁).bind fun _ _ =>
    (absent_reads hbrace).bind fun _ _ => (blanks_reads cs₁).bind fun _ _ => hx.bind fun y hy =>
      (Reads.pure ⟨hn, hy⟩ : (Pure.pure (name, y) : Reader (Ident × Expr)).Reads cs₂ cs₂
        fun r => r.1.unplaced = i ∧ r.2.unplaced = e)
  refine .orElse_left ((spanned_reads hbody).bind ?_)
  rintro ⟨⟨name, y⟩, s⟩ ⟨hn, hy⟩
  refine .pure ?_
  rw [Expr.unplaced, hn, hy]

/-- A predicate that begins with a letter or an underscore is a reference, repeated or not. -/
theorem predicate_refuses_of_name (hx : startsName x = true) (h : referenceOperand.Refuses (x :: cs)) :
    (predicate inner).Refuses (x :: cs) := by
  have hne : ∀ y ∈ marks, (x :: cs).head? ≠ some y := fun y hy => head_ne_of_startsName hx hy cs
  have hrepeated : (repeated inner).Refuses (x :: cs) :=
    .bind_right (position_reads _) fun _ _ => .bind_left (operand_refuses_of_name hx h)
  refine .firstOf ?_
  simp only [List.forall_mem_cons]
  exact ⟨.bind_left (spanned_refuses (marked_refuses _ (hne _ (by decide)))),
    .bind_left (spanned_refuses (marked_refuses _ (hne _ (by decide)))), hrepeated, List.forall_mem_nil _⟩

/-- A name before a colon is no predicate. -/
theorem predicate_refuses_colon (hname : ident.Reads cs (':' :: cs₁) (·.unplaced = i)) :
    (predicate inner).Refuses cs := by
  obtain ⟨x, cs', rfl, hx⟩ := ident_starts.of_reads hname
  exact predicate_refuses_of_name hx (referenceOperand_refuses_colon hname)

/-- What is read as a predicate is no label: it is not a name before a colon. -/
theorem labelled_reads_predicate (h : (predicate inner).Reads cs cs₁ P) :
    (labelled inner).Reads cs cs₁ P := by
  refine .orElse_right (.bind_left (spanned_refuses ?_)) h
  obtain ⟨x, cs', rfl, -⟩ := (predicate_starts inner).of_reads h
  by_cases hx : startsName x = true
  · refine .bind_right (ident_reads hx cs') fun _ _ => .bind_left (exactly_refuses fun hcolon => ?_)
    obtain ⟨ds, hds⟩ : ∃ ds, afterName cs' = ':' :: ds := by
      cases hcs : afterName cs' with
      | nil =>
        rw [hcs] at hcolon
        cases hcolon
      | cons y ds =>
        rw [hcs] at hcolon
        cases hcolon
        exact ⟨ds, rfl⟩
    have hname := ident_reads hx cs'
    rw [hds] at hname
    exact h.not_refuses (predicate_refuses_colon hname)
  · refine .bind_left (ident_starts.refuses ?_)
    rintro y ⟨⟩
    exact hx

/-- The type of an action, before a colon and code, is no element of a sequence. -/
theorem labelled_refuses_hint {Q : String → Prop} (hhint : actionType.Reads cs (':' :: cs₁) Q)
    (hbrace : afterBlanks cs₁ = '\x7b' :: cs₂) : (labelled inner).Refuses cs := by
  obtain ⟨x, cs', rfl, hx⟩ := actionType_starts.of_reads hhint
  by_cases hname : startsName x = true
  · have hident := ident_reads hname cs'
    have htype : actionType.Reads (x :: cs') (afterName cs') fun _ => True :=
      .orElse_left (hident.bind fun _ _ => pure_reads _ _)
    rw [← hhint.unique htype] at hident
    have hcode : Reader.Reads (do blanks; exactly ['\x7b']) cs₁ cs₂ fun _ => True := by
      refine (blanks_reads cs₁).bind fun _ _ => ?_
      rw [hbrace]
      exact exactly_reads ['\x7b'] cs₂
    refine .orElse (.bind_left (spanned_refuses ?_)) (predicate_refuses_colon hident)
    exact .bind_right hident fun _ _ => .bind_right (exactly_reads [':'] cs₁) fun _ _ =>
      .bind_left (absent_refuses hcode)
  · have hquote : x = '"' ∨ x = '\'' := hx.resolve_left hname
    have hident : ident.Refuses (x :: cs') := ident_starts.refuses (by rintro y ⟨⟩; exact hname)
    have hstring : stringLiteral.Reads (x :: cs') (':' :: cs₁) Q := hhint.of_orElse_right (.bind_left hident)
    have hlit : literalOperand.Refuses (x :: cs') := .bind_right (position_reads _) fun _ _ =>
      .bind_right hstring fun _ _ => .bind_left (absent_refuses (exactly_reads [':'] cs₁))
    have href : referenceOperand.Refuses (x :: cs') :=
      referenceOperand_starts.refuses (by rintro y ⟨⟩; exact hname)
    have hne : ∀ y, y ≠ '"' → y ≠ '\'' → (x :: cs').head? ≠ some y := by
      rintro y hdouble hsingle heq
      cases heq
      rcases hquote with h | h
      · exact hdouble h
      · exact hsingle h
    have hmarked : ∀ {α : Type} (q : Reader α) (p : Polarity), (marked (markOf p) q).Refuses (x :: cs') := by
      rintro α q (_ | _) <;> exact marked_refuses _ (hne _ (by decide) (by decide))
    have hoperand : (operand inner).Refuses (x :: cs') :=
      operand_refuses (hne _ (by decide) (by decide)) (hmarked code) href hlit
        (hne _ (by decide) (by decide)) (hne _ (by decide) (by decide))
    have hrepeated : (repeated inner).Refuses (x :: cs') :=
      .bind_right (position_reads _) fun _ _ => .bind_left hoperand
    refine .orElse (.bind_left (spanned_refuses (.bind_left hident))) (.firstOf ?_)
    simp only [List.forall_mem_cons]
    exact ⟨.bind_left (spanned_refuses (hmarked _ .positive)),
      .bind_left (spanned_refuses (hmarked _ .negative)), hrepeated, List.forall_mem_nil _⟩

end Elements

/-! ### Sequences, actions and choices -/

section Expressions

variable {e : Expr} {es : List Expr} {hint : String} {k : Code}

theorem flatten_unplaced (wrap : Span → List Expr → Expr) (s : Span)
    (hwrap : ∀ xs, (wrap s xs).unplaced = wrap .nowhere (xs.map Expr.unplaced)) (xs : List Expr) :
    (flatten (wrap s) xs).unplaced = flatten (wrap .nowhere) (xs.map Expr.unplaced) := by
  match xs with
  | [] => exact hwrap []
  | [x] => rfl
  | x :: y :: xs => exact hwrap (x :: y :: xs)

theorem flatten_seq_unplaced (s : Span) (xs : List Expr) :
    (flatten (.seq s) xs).unplaced = flatten (.seq .nowhere) (xs.map Expr.unplaced) :=
  flatten_unplaced .seq s (fun _ => by rw [Expr.unplaced, Expr.unplacedAll_eq]) xs

theorem flatten_choice_unplaced (s : Span) (xs : List Expr) :
    (flatten (.choice s) xs).unplaced = flatten (.choice .nowhere) (xs.map Expr.unplaced) :=
  flatten_unplaced .choice s (fun _ => by rw [Expr.unplaced, Expr.unplacedAll_eq]) xs

theorem sequence_reads (h : (sepBy1 (labelled inner) blanks).Reads cs cs₁ fun xs =>
    xs.map Expr.unplaced = es) :
    (sequence inner).Reads cs cs₁ (·.unplaced = flatten (.seq .nowhere) es) := by
  refine (spanned_reads h).bind ?_
  rintro ⟨xs, s⟩ hxs
  refine .pure ?_
  rw [flatten_seq_unplaced, hxs]

theorem alternatives_reads (h : (sepBy1 (acted inner) (separator '/')).Reads cs cs₁ fun xs =>
    xs.map Expr.unplaced = es) :
    (alternatives inner).Reads cs cs₁ (·.unplaced = flatten (.choice .nowhere) es) := by
  refine (spanned_reads h).bind ?_
  rintro ⟨xs, s⟩ hxs
  refine .pure ?_
  rw [flatten_choice_unplaced, hxs]

theorem actionTail_reads (hhint : actionType.Reads cs (':' :: cs₁) (· = hint))
    (hcode : code.Reads (afterBlanks cs₁) cs₂ (·.unplaced = k)) :
    actionTail.Reads cs cs₂ fun r => r.1 = hint ∧ r.2.unplaced = k :=
  hhint.bind fun _ hh => (exactly_reads [':'] cs₁).bind fun _ _ => (blanks_reads cs₁).bind fun _ _ =>
    hcode.bind fun _ hk => .pure ⟨hh, hk⟩

/-- A name or a literal that no colon follows is no type of an action. -/
theorem actionTail_refuses {Q : String → Prop} (hhint : actionType.Reads cs cs₁ Q)
    (hcolon : cs₁.head? ≠ some ':') : actionTail.Refuses cs :=
  .bind_right hhint fun _ _ => .bind_left (exactly_refuses hcolon)

theorem acted_reads_sequence {P : Expr → Prop} (h : (sequence inner).Reads cs cs₁ P)
    (htail : actionTail.Refuses (afterBlanks cs₁)) : (acted inner).Reads cs cs₁ P := by
  have hno : Reader.Refuses (do blanks; actionTail) cs₁ := .bind_right (blanks_reads cs₁) fun _ _ => htail
  have hparts := h.bind fun x hx => (optional_reads_none hno).bind fun tail ht =>
    (Reads.pure ⟨hx, ht⟩ : (Pure.pure (x, tail) : Reader (Expr × Option (String × Code))).Reads cs₁ cs₁
      fun r => P r.1 ∧ r.2 = none)
  rw [acted_eq]
  refine .orElse_left ((spanned_reads hparts).bind ?_)
  rintro ⟨⟨x, tail⟩, s⟩ ⟨hx, rfl⟩
  exact .pure hx

theorem acted_reads_action (h : (sequence inner).Reads cs cs₁ (·.unplaced = e))
    (htail : actionTail.Reads (afterBlanks cs₁) cs₂ fun r => r.1 = hint ∧ r.2.unplaced = k) :
    (acted inner).Reads cs cs₂ (·.unplaced = .action .nowhere hint k e) := by
  have hyes : Reader.Reads (do blanks; actionTail) cs₁ cs₂ fun r => r.1 = hint ∧ r.2.unplaced = k :=
    (blanks_reads cs₁).bind fun _ _ => htail
  have hparts := h.bind fun x hx => (optional_reads_some hyes).bind fun tail ht =>
    (Reads.pure ⟨hx, ht⟩ : (Pure.pure (x, tail) : Reader (Expr × Option (String × Code))).Reads cs₂ cs₂
      fun r => r.1.unplaced = e ∧ ∃ a, r.2 = some a ∧ a.1 = hint ∧ a.2.unplaced = k)
  rw [acted_eq]
  refine .orElse_left ((spanned_reads hparts).bind ?_)
  rintro ⟨⟨x, tail⟩, s⟩ ⟨hx, ⟨hint', k'⟩, rfl, rfl, hk⟩
  refine .pure ?_
  rw [actedOf, Expr.unplaced, hx, hk]

/-- An action is no element of a sequence. -/
theorem labelled_refuses_action {Q : String → Prop} {K : Code → Prop}
    (hhint : actionType.Reads cs (':' :: cs₁) Q) (hcode : code.Reads (afterBlanks cs₁) cs₂ K) :
    (labelled inner).Refuses cs := by
  obtain ⟨y, ds, hbrace, rfl⟩ := code_starts.of_reads hcode
  exact labelled_refuses_hint hhint hbrace

theorem acted_reads_bareAction (hrefuses : (labelled inner).Refuses cs)
    (htail : actionTail.Reads cs cs₁ fun r => r.1 = hint ∧ r.2.unplaced = k) :
    (acted inner).Reads cs cs₁ (·.unplaced = .bareAction .nowhere hint k) := by
  have hsequence : (sequence inner).Refuses cs := .bind_left (spanned_refuses (.bind_left hrefuses))
  rw [acted_eq]
  refine .orElse_right (.bind_left (spanned_refuses (.bind_left hsequence))) ?_
  refine (spanned_reads htail).bind ?_
  rintro ⟨⟨hint', k'⟩, s⟩ ⟨rfl, hk⟩
  refine .pure ?_
  rw [Expr.unplaced, hk]

end Expressions

/-! ### Definitions -/

section Definitions

variable {i : Ident} {ps : List Ident}

theorem params_reads (hopen : afterBlanks cs = '<' :: cs₁) {P : List Ident → Prop}
    (hnames : (sepBy1 ident (separator ',')).Reads (afterBlanks cs₁) cs₂ P)
    (hclose : afterBlanks cs₂ = '>' :: cs₃) : params.Reads cs cs₃ P := by
  have hbegin := blanks_reads cs
  rw [hopen] at hbegin
  have hend := blanks_reads cs₂
  rw [hclose] at hend
  exact hbegin.bind fun _ _ => (exactly_reads ['<'] cs₁).bind fun _ _ => (blanks_reads cs₁).bind fun _ _ =>
    hnames.bind fun _ hps => hend.bind fun _ _ => (exactly_reads ['>'] cs₃).bind fun _ _ => .pure hps

/-- The bracket of an arrow opens no parameters. -/
theorem params_refuses (harrow : afterBlanks cs = '<' :: '-' :: cs₁) : params.Refuses cs := by
  have hbegin := blanks_reads cs
  rw [harrow] at hbegin
  refine .bind_right hbegin fun _ _ => .bind_right (exactly_reads ['<'] _) fun _ _ =>
    .bind_right (blanks_reads_nothing (by simp; decide)) fun _ _ => .bind_left (.bind_left
      (ident_starts.refuses ?_))
  rintro y ⟨⟩
  simp [startsName_eq_false (show '-' ∈ marks by decide)]

theorem item_reads_rule {P : Expr → Prop} (hname : ident.Reads cs cs₁ (·.unplaced = i))
    (harrow : afterBlanks cs₁ = '<' :: '-' :: cs₂) (hx : expr.Reads (afterBlanks cs₂) cs₃ P) :
    item.Reads cs cs₃ fun j => ∃ x, P x ∧ j.unplaced = .rule ⟨.nowhere, i, x.unplaced⟩ := by
  have hblanks := blanks_reads cs₁
  rw [harrow] at hblanks
  have hparts := hname.bind fun name hn => (optional_reads_none (params_refuses harrow)).bind fun ps hps =>
    hblanks.bind fun _ _ => (exactly_reads ['<', '-'] cs₂).bind fun _ _ => (blanks_reads cs₂).bind fun _ _ =>
      hx.bind fun x hx => (Reads.pure ⟨hn, hps, hx⟩ :
        (Pure.pure (name, ps, x) : Reader (Ident × Option (List Ident) × Expr)).Reads cs₃ cs₃
          fun r => r.1.unplaced = i ∧ r.2.1 = none ∧ P r.2.2)
  rw [item_eq]
  refine (spanned_reads hparts).bind ?_
  rintro ⟨⟨name, ps, x⟩, s⟩ ⟨hn, rfl, hx⟩
  refine .pure ⟨x, hx, ?_⟩
  rw [itemOf, Item.unplaced, Rule.unplaced, hn]

theorem item_reads_template {cs₄ : List Char} {P : Expr → Prop}
    (hname : ident.Reads cs cs₁ (·.unplaced = i))
    (hparams : params.Reads cs₁ cs₂ fun names => names.map Ident.unplaced = ps)
    (harrow : afterBlanks cs₂ = '<' :: '-' :: cs₃) (hx : expr.Reads (afterBlanks cs₃) cs₄ P) :
    item.Reads cs cs₄ fun j => ∃ x, P x ∧ j.unplaced = .template ⟨.nowhere, i, ps, x.unplaced⟩ := by
  have hblanks := blanks_reads cs₂
  rw [harrow] at hblanks
  have hparts := hname.bind fun name hn => (optional_reads_some hparams).bind fun names hnames =>
    hblanks.bind fun _ _ => (exactly_reads ['<', '-'] cs₃).bind fun _ _ => (blanks_reads cs₃).bind fun _ _ =>
      hx.bind fun x hx => (Reads.pure ⟨hn, hnames, hx⟩ :
        (Pure.pure (name, names, x) : Reader (Ident × Option (List Ident) × Expr)).Reads cs₄ cs₄
          fun r => r.1.unplaced = i ∧ (∃ a, r.2.1 = some a ∧ a.map Ident.unplaced = ps) ∧ P r.2.2)
  rw [item_eq]
  refine (spanned_reads hparts).bind ?_
  rintro ⟨⟨name, names, x⟩, s⟩ ⟨hn, ⟨names', rfl, hnames⟩, hx⟩
  refine .pure ⟨x, hx, ?_⟩
  rw [itemOf, Item.unplaced, Template.unplaced, hn, hnames]

end Definitions

end Packrat.GrammarText

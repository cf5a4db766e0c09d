import Packrat.Proofs.GrammarText.Alike
import Packrat.Proofs.GrammarText.Heads
import Packrat.Proofs.GrammarText.Written

/-!
# Reading on in a longer text

What is read of a text is read of the same text with more lines after it, if what follows then cannot be
taken for a part of it.

* `code_extends`, `referenceWithin_extends`, `operand_extends`, `labelled_extends`, … — for each level, with
  what must not follow.
-/

set_option autoImplicit false

namespace Packrat.GrammarText

open Reader

section Longer

variable {α : Type} {t : List Char}

/-- A character other than a new line is first in the longer text only if it was first before. -/
theorem head_ne_extend {r : List Char} {x : Char} (hx : x ≠ '\n') (h : r.head? ≠ some x) :
    (r ++ '\n' :: t).head? ≠ some x := by
  cases r with
  | nil => simpa using hx.symm
  | cons y r => exact h

/-- Code ends with its last brace, whatever follows. -/
theorem code_extends {c c' : Cursor} {k : Code} (h : (code c).result = some (k, c')) (e : List Char) :
    code.Reads (c.rest ++ e) (c'.rest ++ e) (·.unplaced = k.unplaced) := by
  obtain ⟨s, hs, hrest, htext⟩ := code_eq_some h
  rw [hrest, List.cons_append, List.append_assoc, List.cons_append]
  refine (code_reads hs _).mono fun k' hk' => ?_
  rw [Code.unplaced, hk', ← htext, Code.unplaced]

theorem ident_extends {c c' : Cursor} {i : Ident} (h : (ident c).result = some (i, c')) :
    ident.Reads (c.rest ++ '\n' :: t) (c'.rest ++ '\n' :: t) (·.unplaced = i.unplaced) :=
  (ident_alike (head_line t)).reads h

theorem referenceArguments_eq_some {fuel : Nat} {c c' : Cursor} {as : List Reference} {hi : Nat}
    (h : (referenceArguments fuel c).result = some ((as, hi), c')) :
    ∃ (ds : List Char) (c₁ c₂ : Cursor), c.rest = '<' :: ds ∧ c₁.rest = afterBlanks ds ∧
      (sepBy1 (referenceWithin fuel) (separator ',') c₁).result = some (as, c₂) ∧
      afterBlanks c₂.rest = '>' :: c'.rest := by
  unfold referenceArguments at h
  simp only [bind_eq_some, pure_eq_some] at h
  obtain ⟨_, d₁, h₁, _, d₂, h₂, as', d₃, h₃, hi', d₄, h₄, _, d₅, h₅, _, d₆, h₆, heq⟩ := h
  cases h₄
  cases heq
  have hopen := exactly_eq_cons h₁
  have hclose := exactly_eq_cons h₆
  rw [blanks_eq_some h₅] at hclose
  exact ⟨d₁.rest, d₂, d₃, hopen, blanks_eq_some h₂, h₃, hclose⟩

/-- **A reference is read on**, unless a bracket follows. -/
theorem referenceWithin_extends {fuel fuel' : Nat} (hf : fuel ≤ fuel') {c c' : Cursor} {r : Reference}
    (h : (referenceWithin fuel c).result = some (r, c'))
    (hbracket : (afterBlanks (c'.rest ++ '\n' :: t)).head? ≠ some '<') :
    (referenceWithin fuel').Reads (c.rest ++ '\n' :: t) (c'.rest ++ '\n' :: t)
      (·.unplaced = r.unplaced) := by
  induction fuel generalizing fuel' c c' r with
  | zero => cases h
  | succ fuel ih =>
    obtain ⟨fuel', rfl⟩ : ∃ n, fuel' = n + 1 := ⟨fuel' - 1, by omega⟩
    rw [referenceWithin_succ] at h
    simp only [bind_eq_some, pure_eq_some] at h
    obtain ⟨lo, d₁, h₁, name, d₂, h₂, nameEnd, d₃, h₃, args, d₄, h₄, heq⟩ := h
    cases h₁
    cases h₃
    cases heq
    rcases optional_eq_some.1 h₄ with ⟨⟨as, hi⟩, rfl, has⟩ | ⟨rfl, rfl, -⟩
    · obtain ⟨ds, c₁, c₂, hopen, hc₁, hsep, hclose⟩ := referenceArguments_eq_some has
      have htakes : ∀ n, Reader.Takes 1 (separator ',' >>= fun _ => referenceWithin n) := fun n =>
        (separator_takes _).then fun _ => (referenceWithin_takes n).mono (Nat.zero_le 1)
      have hargs : (sepBy1 (referenceWithin fuel') (separator ',')).Reads (c₁.rest ++ '\n' :: t)
          (c₂.rest ++ '\n' :: t) fun bs => bs.map Reference.unplaced = as.map Reference.unplaced :=
        (arguments_extends (head_line t) (referenceWithin_takes fuel) (referenceWithin_takes fuel')
          (referenceWithin_starts fuel) (fun ha hb => ih (by omega) ha hb) hsep hclose).mono
          fun _ => map_eq_of_forall₂
      have hne : afterBlanks ds ≠ [] := by
        obtain ⟨x, es, hes, -⟩ := (referenceWithin_starts fuel).sepBy1 _ _ hsep
        rw [← hc₁, hes]
        exact List.cons_ne_nil _ _
      rw [hc₁, ← afterBlanks_extend (head_line t) hne] at hargs
      have hall := referenceArguments_reads hargs (afterBlanks_extend_cons (head_line t) hclose)
      rw [← List.cons_append, ← hopen] at hall
      refine (reference_reads_args (ident_extends h₂) hall).mono ?_
      rintro r ⟨bs, hbs, hr⟩
      rw [hr, hbs, referenceOf, Reference.unplaced, Reference.unplacedAll_eq]
    · have hargs : (referenceArguments fuel').Refuses (c'.rest ++ '\n' :: t) :=
        referenceArguments_refuses (head_ne_of_afterBlanks (by decide) hbracket)
      exact reference_reads_plain (ident_extends h₂) hargs

/-! ### Operands -/

theorem spanned_eq_some {p : Reader α} {c c' : Cursor} {r : α × Span}
    (h : (spanned p c).result = some (r, c')) : (p c).result = some (r.1, c') := by
  unfold spanned at h
  simp only [bind_eq_some, pure_eq_some] at h
  obtain ⟨lo, c₁, h₁, a, c₂, h₂, hi, c₃, h₃, heq⟩ := h
  cases h₁
  cases h₃
  cases heq
  exact h₂

theorem marked_eq_some {mark : Char} {p : Reader α} {c c' : Cursor} {a : α}
    (h : (marked mark p c).result = some (a, c')) :
    ∃ (ds : List Char) (c₁ : Cursor), c.rest = mark :: ds ∧ c₁.rest = afterBlanks ds ∧
      (p c₁).result = some (a, c') := by
  unfold marked at h
  simp only [bind_eq_some] at h
  obtain ⟨_, c₁, h₁, _, c₂, h₂, h₃⟩ := h
  exact ⟨c₁.rest, c₂, exactly_eq_cons h₁, blanks_eq_some h₂, h₃⟩

/-- What is read after blanks is read on after them. -/
theorem afterBlanks_extend_of_starts {S : Char → Prop} {p : Reader α} (hstarts : p.Starts S) {c : Cursor}
    {r : α × Cursor} (h : (p c).result = some r) {ds : List Char} (hc : c.rest = afterBlanks ds) :
    afterBlanks (ds ++ '\n' :: t) = c.rest ++ '\n' :: t := by
  obtain ⟨x, es, hes, -⟩ := hstarts c r h
  rw [hc]
  exact afterBlanks_extend (head_line t) (by rw [← hc, hes]; exact List.cons_ne_nil _ _)

theorem head_ne_extend_of_starts {S : Char → Prop} {p : Reader α} (hstarts : p.Starts S) {c : Cursor}
    {r : α × Cursor} (h : (p c).result = some r) {ds : List Char} (hc : c.rest = afterBlanks ds) {x : Char}
    (hx : ¬ S x) : (afterBlanks (ds ++ '\n' :: t)).head? ≠ some x := by
  rw [afterBlanks_extend_of_starts hstarts h hc]
  obtain ⟨y, es, hes, hy⟩ := hstarts c r h
  rw [hes]
  rintro ⟨⟩
  exact hx hy

theorem referenceOperand_extends {c c' : Cursor} {x : Expr}
    (h : (referenceOperand c).result = some (x, c'))
    (hbracket : (afterBlanks (c'.rest ++ '\n' :: t)).head? ≠ some '<') :
    referenceOperand.Reads (c.rest ++ '\n' :: t) (c'.rest ++ '\n' :: t) (·.unplaced = x.unplaced) := by
  unfold referenceOperand at h
  simp only [bind_eq_some, pure_eq_some, absent_eq_some] at h
  obtain ⟨r, c₁, hr, _, c₂, ⟨-, heq₂⟩, _, c₃, ⟨hcolon, heq₃⟩, heq⟩ := h
  cases heq₂
  cases heq₃
  cases heq
  have hread : reference.Reads (c.rest ++ '\n' :: t) (c'.rest ++ '\n' :: t) (·.unplaced = r.unplaced) :=
    reference_reads (referenceWithin_extends (by simp) hr hbracket)
  refine referenceOperand_reads hread (fun ds hds => hbracket ?_)
    (head_ne_extend (by decide) (head_ne_of_exactly hcolon))
  rw [hds]
  rfl

/-- What `inner` reads before a closing parenthesis, `inner'` reads in the longer text. -/
structure Extends (t : List Char) (inner inner' : Reader Expr) : Prop where
  starts : inner.Starts StartsOperand
  takes : inner.Takes 0
  takes' : inner'.Takes 0
  reads {c c' : Cursor} {x : Expr} {ds : List Char} (h : (inner c).result = some (x, c'))
    (hclose : afterBlanks c'.rest = ')' :: ds) :
    inner'.Reads (c.rest ++ '\n' :: t) (c'.rest ++ '\n' :: t) (·.unplaced = x.unplaced)

section Levels

variable {inner inner' : Reader Expr} (hinner : Extends t inner inner')
include hinner

/-- **An operand is read on**, unless a bracket follows. -/
theorem operand_extends {c c' : Cursor} {x : Expr} (h : (operand inner c).result = some (x, c'))
    (hbracket : (afterBlanks (c'.rest ++ '\n' :: t)).head? ≠ some '<') :
    (operand inner').Reads (c.rest ++ '\n' :: t) (c'.rest ++ '\n' :: t) (·.unplaced = x.unplaced) := by
  obtain ⟨p, hp, hx⟩ := firstOf_eq_some h
  simp only [List.mem_cons, List.not_mem_nil, or_false] at hp
  have hcode : ∀ (polarity : Polarity) {k : Code × Span},
      (spanned (marked (markOf polarity) code) c).result = some (k, c') →
      (operand inner').Reads (c.rest ++ '\n' :: t) (c'.rest ++ '\n' :: t)
        (·.unplaced = .codePredicate .nowhere polarity k.1.unplaced) := by
    intro polarity k hk
    obtain ⟨ds, c₁, hc, hc₁, hk⟩ := marked_eq_some (spanned_eq_some hk)
    have hread := code_extends hk ('\n' :: t)
    rw [← afterBlanks_extend_of_starts code_starts hk hc₁] at hread
    rw [hc]
    exact operand_reads_codePredicate polarity hread
  rcases hp with rfl | rfl | rfl | rfl | rfl | rfl | rfl
  · -- an expression in parentheses
    simp only [bind_eq_some, pure_eq_some] at hx
    obtain ⟨y, c₁, hy, heq⟩ := hx
    cases heq
    have hbody := spanned_eq_some hy
    simp only [bind_eq_some, pure_eq_some] at hbody
    obtain ⟨_, d₁, h₁, _, d₂, h₂, z, d₃, h₃, _, d₄, h₄, _, d₅, h₅, heq⟩ := hbody
    cases heq
    have hclose := exactly_eq_cons h₅
    rw [blanks_eq_some h₄] at hclose
    have hread := hinner.reads h₃ hclose
    rw [← afterBlanks_extend_of_starts hinner.starts h₃ (blanks_eq_some h₂)] at hread
    rw [exactly_eq_cons h₁]
    exact operand_reads_group hread (afterBlanks_extend_cons (head_line t) hclose)
  · simp only [bind_eq_some, pure_eq_some] at hx
    obtain ⟨k, c₁, hk, heq⟩ := hx
    cases heq
    exact hcode .positive hk
  · simp only [bind_eq_some, pure_eq_some] at hx
    obtain ⟨k, c₁, hk, heq⟩ := hx
    cases heq
    exact hcode .negative hk
  · exact operand_reads_reference (referenceOperand_extends hx hbracket)
  · -- a literal
    unfold literalOperand at hx
    simp only [bind_eq_some, pure_eq_some, absent_eq_some] at hx
    obtain ⟨lo, c₁, h₁, text, c₂, htext, _, c₃, ⟨hcolon, heq₃⟩, hi, c₄, h₄, heq⟩ := hx
    cases h₁
    cases heq₃
    cases h₄
    cases heq
    exact operand_reads_literal ((stringLiteral_alike (head_line t)).reads htext)
      (head_ne_extend (by decide) (head_ne_of_exactly hcolon))
  · simp only [bind_eq_some, pure_eq_some] at hx
    obtain ⟨k, c₁, hk, heq⟩ := hx
    cases heq
    exact operand_reads_class ((charClass_alike (head_line t)).reads (spanned_eq_some hk))
  · simp only [bind_eq_some, pure_eq_some] at hx
    obtain ⟨u, c₁, hu, heq⟩ := hx
    cases heq
    rw [exactly_eq_cons (spanned_eq_some hu)]
    exact operand_reads_anyChar inner' _

/-- **A repetition is read on**, unless a bracket follows. -/
theorem repeated_extends {c c' : Cursor} {x : Expr} (h : (repeated inner c).result = some (x, c'))
    (hbracket : (afterBlanks (c'.rest ++ '\n' :: t)).head? ≠ some '<') :
    (repeated inner').Reads (c.rest ++ '\n' :: t) (c'.rest ++ '\n' :: t) (·.unplaced = x.unplaced) := by
  unfold repeated at h
  simp only [bind_eq_some, pure_eq_some] at h
  obtain ⟨lo, c₁, h₁, y, c₂, hy, ms, c₃, hms, heq⟩ := h
  cases h₁
  cases heq
  have hnext : (afterBlanks (c₂.rest ++ '\n' :: t)).head? ≠ some '<' := by
    cases (many_eq_some_iff markAt_takes).1 hms with
    | stop _ => exact hbracket
    | more hm _ =>
      obtain ⟨z, ds, hds, hz⟩ := markAt_starts _ _ hm
      rw [hds, List.cons_append, afterBlanks_of_head]
      · rcases hz with rfl | rfl | rfl <;> simp
      · rintro w ⟨⟩
        rcases hz with rfl | rfl | rfl <;> decide
  have hmarks : (many markAt).Reads (c₂.rest ++ '\n' :: t) (c'.rest ++ '\n' :: t)
      fun bs => bs.map (·.1) = ms.map (·.1) :=
    ((markAt_alike (head_line t)).many markAt_takes).reads hms
  rw [foldl_apply_unplaced]
  exact repeated_reads (operand_extends hinner hy hnext) hmarks

/-- **A predicate is read on**, unless a bracket follows. -/
theorem predicate_extends {c c' : Cursor} {x : Expr} (h : (predicate inner c).result = some (x, c'))
    (hbracket : (afterBlanks (c'.rest ++ '\n' :: t)).head? ≠ some '<') :
    (predicate inner').Reads (c.rest ++ '\n' :: t) (c'.rest ++ '\n' :: t) (·.unplaced = x.unplaced) := by
  obtain ⟨p, hp, hx⟩ := firstOf_eq_some h
  simp only [List.mem_cons, List.not_mem_nil, or_false] at hp
  have hlook : ∀ (polarity : Polarity) {y : Expr × Span},
      (spanned (marked (markOf polarity) (repeated inner)) c).result = some (y, c') →
      (predicate inner').Reads (c.rest ++ '\n' :: t) (c'.rest ++ '\n' :: t)
        (·.unplaced = .lookahead .nowhere polarity y.1.unplaced) := by
    intro polarity y hy
    obtain ⟨ds, c₁, hc, hc₁, hy⟩ := marked_eq_some (spanned_eq_some hy)
    have hread := repeated_extends hinner hy hbracket
    rw [← afterBlanks_extend_of_starts (repeated_starts inner) hy hc₁] at hread
    rw [hc]
    exact predicate_reads_lookahead polarity hread
  rcases hp with rfl | rfl | rfl
  · simp only [bind_eq_some, pure_eq_some] at hx
    obtain ⟨y, c₁, hy, heq⟩ := hx
    cases heq
    exact hlook .positive hy
  · simp only [bind_eq_some, pure_eq_some] at hx
    obtain ⟨y, c₁, hy, heq⟩ := hx
    cases heq
    exact hlook .negative hy
  · exact predicate_reads_repeated (repeated_extends hinner hx hbracket)

/-- **A predicate with a label is read on**, unless a bracket follows. -/
theorem labelled_extends {c c' : Cursor} {x : Expr} (h : (labelled inner c).result = some (x, c'))
    (hbracket : (afterBlanks (c'.rest ++ '\n' :: t)).head? ≠ some '<') :
    (labelled inner').Reads (c.rest ++ '\n' :: t) (c'.rest ++ '\n' :: t) (·.unplaced = x.unplaced) := by
  rcases orElse_eq_some.1 h with hx | ⟨-, hx⟩
  · simp only [bind_eq_some, pure_eq_some] at hx
    obtain ⟨⟨⟨i, z⟩, span⟩, c₁, hr, heq⟩ := hx
    cases heq
    have hbody := spanned_eq_some hr
    simp only [bind_eq_some, pure_eq_some, absent_eq_some] at hbody
    obtain ⟨name, d₁, hname, _, d₂, h₂, _, d₃, ⟨-, heq₃⟩, _, d₄, h₄, y, d₅, hy, heq⟩ := hbody
    cases heq₃
    cases heq
    have hident := ident_extends (t := t) hname
    rw [exactly_eq_cons h₂, List.cons_append] at hident
    have hread := predicate_extends hinner hy hbracket
    rw [← afterBlanks_extend_of_starts (predicate_starts inner) hy (blanks_eq_some h₄)] at hread
    exact labelled_reads_label hident hread
  · exact labelled_reads_predicate (predicate_extends hinner hx hbracket)

end Levels

end Longer

end Packrat.GrammarText

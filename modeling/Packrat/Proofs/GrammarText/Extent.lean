import Packrat.GrammarText.Read
import Packrat.Proofs.GrammarText.Reading

/-!
# Where the parts of grammar text begin, and that they use up text

* `blank`, `codePart`, `referenceArguments`, `labelParts`, … — the bodies of readers as readers of their own.
* `…_takes` — how many characters a reader uses up at least; whatever is repeated uses up one.
* `StartsHint`, `StartsOperand`, `…_starts` — the characters that the type of an action and an
  expression begin with.
* `readGrammar_of_reads`, `readGrammar_error_of_reads` — a text is a grammar if all of it is read.
-/

set_option autoImplicit false

namespace Packrat.GrammarText

open Reader

/-! ### Bodies of readers -/

/-- White space or a comment. -/
def blank : Reader Unit := orElse (do let _ ← satisfy "" isSpace) comment

/-- A pair of braces within code and what is between them, or another character of code. -/
def codePart (fuel : Nat) : Reader (List Char) :=
  orElse
    (do
      exactly ['\x7b']
      let inner ← codeBody fuel
      exactly ['\x7d']
      return '\x7b' :: (inner ++ ['\x7d']))
    (do
      let x ← satisfy "[^ '\x7b' | '\x7d']" fun x => x != '\x7b' && x != '\x7d'
      return [x])

theorem codeBody_succ (fuel : Nat) :
    codeBody (fuel + 1) = (do let parts ← many (codePart fuel); return parts.flatten) := rfl

/-- The arguments of a reference, and the offset at which the last of them ends. -/
def referenceArguments (fuel : Nat) : Reader (List Reference × Nat) := do
  exactly ['<']
  blanks
  let args ← sepBy1 (referenceWithin fuel) (separator ',')
  let hi ← position
  blanks
  exactly ['>']
  return (args, hi)

/-- A reference with the arguments that were read. -/
def referenceOf (lo nameEnd : Nat) (name : Ident) : Option (List Reference × Nat) → Reference
  | some (args, hi) => .mk ⟨lo, hi⟩ name args
  | none => .mk ⟨lo, nameEnd⟩ name []

theorem referenceWithin_succ (fuel : Nat) :
    referenceWithin (fuel + 1) = (do
      let lo ← position
      let name ← ident
      let nameEnd ← position
      let args ← optional (referenceArguments fuel)
      return referenceOf lo nameEnd name args) := by
  have hlast : ∀ (lo nameEnd : Nat) (name : Ident) (args : Option (List Reference × Nat)),
      (match args with
        | some (args, hi) => pure (.mk ⟨lo, hi⟩ name args)
        | none => pure (.mk ⟨lo, nameEnd⟩ name []) : Reader Reference) =
      pure (referenceOf lo nameEnd name args) := by
    intro lo nameEnd name args
    cases args <;> rfl
  simp only [← hlast]
  rfl

/-- An expression in parentheses. -/
def parenthesized (inner : Reader Expr) : Reader Expr := do
  exactly ['(']
  blanks
  let x ← inner
  blanks
  exactly [')']
  return x

/-- A label and the expression that it is put on. -/
def labelParts (inner : Reader Expr) : Reader (Ident × Expr) := do
  let name ← ident
  exactly [':']
  absent (do
    blanks
    exactly ['\x7b'])
  blanks
  let x ← predicate inner
  return (name, x)

/-- A sequence and the action after it, if any. -/
def actedParts (inner : Reader Expr) : Reader (Expr × Option (String × Code)) := do
  let x ← sequence inner
  let tail ← optional (do
    blanks
    actionTail)
  return (x, tail)

/-- A sequence with the action that was read after it, if any. -/
def actedOf (s : Span) (x : Expr) : Option (String × Code) → Expr
  | some (hint, k) => .action s hint k x
  | none => x

theorem acted_eq (inner : Reader Expr) :
    acted inner =
      orElse
        (do
          let ((x, tail), s) ← spanned (actedParts inner)
          return actedOf s x tail)
        (do
          let ((hint, k), s) ← spanned actionTail
          return .bareAction s hint k) := by
  have hlast : ∀ (s : Span) (x : Expr) (tail : Option (String × Code)),
      (match tail with
        | some (hint, k) => pure (.action s hint k x)
        | none => pure x : Reader Expr) = pure (actedOf s x tail) := by
    intro s x tail
    cases tail <;> rfl
  simp only [← hlast]
  rfl

/-- The name, the parameters and the body of a definition. -/
def itemParts : Reader (Ident × Option (List Ident) × Expr) := do
  let name ← ident
  let ps ← optional params
  blanks
  exactly ['<', '-']
  blanks
  let x ← expr
  return (name, ps, x)

/-- A rule, or with parameters a template. -/
def itemOf (s : Span) (name : Ident) (x : Expr) : Option (List Ident) → Item
  | some ps => .template ⟨s, name, ps, x⟩
  | none => .rule ⟨s, name, x⟩

theorem item_eq :
    item = (do
      let ((name, ps, x), s) ← spanned itemParts
      return itemOf s name x ps) := by
  have hlast : ∀ (s : Span) (name : Ident) (x : Expr) (ps : Option (List Ident)),
      (match ps with
        | some ps => pure (.template ⟨s, name, ps, x⟩)
        | none => pure (.rule ⟨s, name, x⟩) : Reader Item) = pure (itemOf s name x ps) := by
    intro s name x ps
    cases ps <;> rfl
  simp only [← hlast]
  rfl

/-! ### Text that is used up -/

section Takes

variable {α : Type} {k : Nat} {p : Reader α}

theorem spanned_takes (hp : p.Takes k) : (spanned p).Takes k :=
  position_takes.after fun _ => hp.then fun _ => position_takes.then fun _ => .pure _

theorem satisfy_takes_zero (token : String) (test : Char → Bool) : (satisfy token test).Takes 0 :=
  (satisfy_takes token test).mono (Nat.zero_le 1)

theorem comment_takes : comment.Takes 1 :=
  (exactly_takes _ _).then fun _ =>
    ((absent_takes _).then fun _ => satisfy_takes_zero _ _).many.then fun _ => .pure _

theorem blank_takes : blank.Takes 1 := ((satisfy_takes _ _).then fun _ => .pure _).orElse comment_takes

theorem blanks_takes : blanks.Takes 0 := by
  have h : Reader.Takes 0 (do let _ ← many blank) :=
    (blank_takes.mono (Nat.zero_le 1)).many.then fun _ => .pure _
  exact fun c r hr => h c r hr

theorem marked_takes (mark : Char) (hp : p.Takes 0) : (marked mark p).Takes 1 :=
  (exactly_takes _ _).then fun _ => blanks_takes.then fun _ => hp

theorem thenBlanks_takes (hp : p.Takes k) : (thenBlanks p).Takes k :=
  hp.then fun _ => blanks_takes.then fun _ => .pure _

theorem separator_takes (mark : Char) : (separator mark).Takes 1 :=
  blanks_takes.after fun _ => (exactly_takes _ _).then fun _ => blanks_takes

theorem ident_takes : ident.Takes 1 :=
  position_takes.after fun _ => (satisfy_takes _ _).then fun _ =>
    (satisfy_takes_zero _ _).many.then fun _ => position_takes.then fun _ => .pure _

theorem codePart_takes_of {fuel : Nat} (h : (codeBody fuel).Takes 0) : (codePart fuel).Takes 1 :=
  .orElse
    ((exactly_takes _ _).then fun _ => h.then fun _ =>
      ((exactly_takes _ _).mono (Nat.zero_le 1)).then fun _ => .pure _)
    ((satisfy_takes _ _).then fun _ => .pure _)

theorem codeBody_takes (fuel : Nat) : (codeBody fuel).Takes 0 := by
  induction fuel with
  | zero =>
    intro c r hr
    cases hr
  | succ fuel ih =>
    rw [codeBody_succ]
    exact ((codePart_takes_of ih).mono (Nat.zero_le 1)).many.then fun _ => .pure _

theorem codePart_takes (fuel : Nat) : (codePart fuel).Takes 1 := codePart_takes_of (codeBody_takes fuel)

theorem code_takes : code.Takes 1 :=
  have hbody : Reader.Takes 0 fun c => codeBody (c.rest.length + 1) c := fun c => codeBody_takes _ c
  position_takes.after fun _ => (exactly_takes _ _).then fun _ => hbody.then fun _ =>
    ((exactly_takes _ _).mono (Nat.zero_le 1)).then fun _ => position_takes.then fun _ => .pure _

theorem charOfDigits_takes (ds : List Char) : (charOfDigits ds).Takes 0 := by
  intro c r hr
  unfold charOfDigits at hr
  cases h : charOfCode? (hexValue ds) with
  | some x =>
    rw [h] at hr
    exact Takes.pure x c r hr
  | none =>
    rw [h] at hr
    cases hr

theorem hexDigits_takes (n : Nat) : (hexDigits n).Takes 0 := (satisfy_takes_zero _ _).upTo n

theorem never_takes (k : Nat) : (never : Reader α).Takes k := by
  intro c r hr
  cases hr

theorem expecting_takes (token : String) (k : Nat) : (expecting token : Reader α).Takes k := by
  intro c r hr
  cases hr

theorem escape_takes : escape.Takes 1 := by
  refine .firstOf ?_
  simp only [List.forall_mem_cons]
  have hshort : ∀ written meant, (shortEscape written meant).Takes 1 := fun _ _ =>
    (exactly_takes _ _).then fun _ => .pure _
  have hbyte : byteEscape.Takes 1 := by
    refine (exactly_takes _ _).then fun _ => (hexDigits_takes 2).then fun ds => ?_
    split
    · exact charOfDigits_takes ds
    · exact never_takes 0
  have hcode : codePointEscape.Takes 1 := by
    refine (exactly_takes _ _).then fun _ => (hexDigits_takes 6).then fun ds => ?_
    split
    · exact never_takes 0
    · exact ((exactly_takes _ _).mono (Nat.zero_le 1)).then fun _ => charOfDigits_takes ds
  exact ⟨hshort _ _, hshort _ _, hshort _ _, hshort _ _, hshort _ _, hshort _ _, hshort _ _, hshort _ _,
    hshort _ _, hshort _ _, hbyte, hcode, List.forall_mem_nil _⟩

theorem escapedOr_takes (stops : Char → Bool) : (escapedOr stops).Takes 1 :=
  .orElse ((exactly_takes _ _).then fun _ => escape_takes.mono (Nat.zero_le 1))
    ((absent_takes _).after fun _ => satisfy_takes _ _)

theorem quotedChar_takes (q : Char) : Reader.Takes 1 (do absent (exactly [q]); literalChar) :=
  (absent_takes _).after fun _ => escapedOr_takes _

theorem quotedBy_takes (q : Char) : (quotedBy q).Takes 1 :=
  (exactly_takes _ _).then fun _ => ((quotedChar_takes q).mono (Nat.zero_le 1)).many.then fun _ =>
    ((exactly_takes _ _).mono (Nat.zero_le 1)).then fun _ => .pure _

theorem stringLiteral_takes : stringLiteral.Takes 1 := (quotedBy_takes _).orElse (quotedBy_takes _)

theorem classRange_takes : classRange.Takes 1 := by
  refine .orElse ?_ ((escapedOr_takes _).then fun _ => .pure _)
  refine (escapedOr_takes _).then fun lo => ((exactly_takes _ _).mono (Nat.zero_le 1)).then fun _ =>
    ((escapedOr_takes _).mono (Nat.zero_le 1)).then fun hi => ?_
  split
  · exact .pure _
  · exact expecting_takes _ 0

theorem charClass_takes : charClass.Takes 1 :=
  (exactly_takes _ _).then fun _ => ((exactly_takes _ _).mono (Nat.zero_le 1)).optional.then fun _ =>
    (classRange_takes.mono (Nat.zero_le 1)).many.then fun _ =>
      ((exactly_takes _ _).mono (Nat.zero_le 1)).then fun _ => .pure _

theorem actionType_takes : actionType.Takes 1 := (ident_takes.then fun _ => .pure _).orElse stringLiteral_takes

theorem actionTail_takes : actionTail.Takes 1 :=
  actionType_takes.then fun _ => ((exactly_takes _ _).mono (Nat.zero_le 1)).then fun _ =>
    blanks_takes.then fun _ => (code_takes.mono (Nat.zero_le 1)).then fun _ => .pure _

theorem referenceArguments_takes_of {fuel : Nat} (h : (referenceWithin fuel).Takes 1) :
    (referenceArguments fuel).Takes 1 :=
  (exactly_takes _ _).then fun _ => blanks_takes.then fun _ =>
    (Takes.sepBy1 (h.mono (Nat.zero_le 1)) ((separator_takes _).mono (Nat.zero_le 1))).then fun _ =>
      position_takes.then fun _ => blanks_takes.then fun _ =>
        ((exactly_takes _ _).mono (Nat.zero_le 1)).then fun _ => .pure _

theorem referenceWithin_takes (fuel : Nat) : (referenceWithin fuel).Takes 1 := by
  induction fuel with
  | zero => exact never_takes 1
  | succ fuel ih =>
    rw [referenceWithin_succ]
    exact position_takes.after fun _ => ident_takes.then fun _ => position_takes.then fun _ =>
      ((referenceArguments_takes_of ih).mono (Nat.zero_le 1)).optional.then fun _ => .pure _

theorem reference_takes : reference.Takes 1 := fun c => referenceWithin_takes _ c

variable {inner : Reader Expr}

theorem operand_takes (h : inner.Takes 0) : (operand inner).Takes 1 := by
  have hgroup : (parenthesized inner).Takes 1 :=
    (exactly_takes _ _).then fun _ => blanks_takes.then fun _ => h.then fun _ =>
      blanks_takes.then fun _ => ((exactly_takes _ _).mono (Nat.zero_le 1)).then fun _ => .pure _
  have hcode : ∀ mark, (marked mark code).Takes 1 := fun mark =>
    marked_takes mark (code_takes.mono (Nat.zero_le 1))
  have href : referenceOperand.Takes 1 :=
    reference_takes.then fun _ => (absent_takes _).then fun _ => (absent_takes _).then fun _ => .pure _
  have hlit : literalOperand.Takes 1 :=
    position_takes.after fun _ => stringLiteral_takes.then fun _ => (absent_takes _).then fun _ =>
      position_takes.then fun _ => .pure _
  refine .firstOf ?_
  simp only [List.forall_mem_cons]
  exact ⟨(spanned_takes hgroup).then fun _ => .pure _, (spanned_takes (hcode _)).then fun _ => .pure _,
    (spanned_takes (hcode _)).then fun _ => .pure _, href, hlit,
    (spanned_takes charClass_takes).then fun _ => .pure _,
    (spanned_takes (exactly_takes _ _)).then fun _ => .pure _, List.forall_mem_nil _⟩

/-- A mark of repetition and the offset after it. -/
def markAt : Reader (Repetition × Nat) := do
  let r ← repetition
  let hi ← position
  return (r, hi)

theorem repetition_takes : repetition.Takes 1 := by
  refine .firstOf ?_
  simp only [List.forall_mem_cons]
  exact ⟨(exactly_takes _ _).then fun _ => .pure _, (exactly_takes _ _).then fun _ => .pure _,
    (exactly_takes _ _).then fun _ => .pure _, List.forall_mem_nil _⟩

theorem markAt_takes : markAt.Takes 1 :=
  repetition_takes.then fun _ => position_takes.then fun _ => .pure _

theorem repeated_takes (h : inner.Takes 0) : (repeated inner).Takes 1 :=
  position_takes.after fun _ => (operand_takes h).then fun _ =>
    (markAt_takes.mono (Nat.zero_le 1)).many.then fun _ => .pure _

theorem predicate_takes (h : inner.Takes 0) : (predicate inner).Takes 1 := by
  have hmarked : ∀ mark, (marked mark (repeated inner)).Takes 1 := fun mark =>
    marked_takes mark ((repeated_takes h).mono (Nat.zero_le 1))
  refine .firstOf ?_
  simp only [List.forall_mem_cons]
  exact ⟨(spanned_takes (hmarked _)).then fun _ => .pure _,
    (spanned_takes (hmarked _)).then fun _ => .pure _, repeated_takes h, List.forall_mem_nil _⟩

theorem labelled_takes (h : inner.Takes 0) : (labelled inner).Takes 1 := by
  refine .orElse ((spanned_takes ?_).then fun _ => .pure _) (predicate_takes h)
  exact ident_takes.then fun _ => ((exactly_takes _ _).mono (Nat.zero_le 1)).then fun _ =>
    (absent_takes _).then fun _ => blanks_takes.then fun _ =>
      ((predicate_takes h).mono (Nat.zero_le 1)).then fun _ => .pure _

theorem blanksLabelled_takes (h : inner.Takes 0) :
    Reader.Takes 1 (blanks >>= fun _ => labelled inner) :=
  blanks_takes.after fun _ => labelled_takes h

theorem sequence_takes (h : inner.Takes 0) : (sequence inner).Takes 1 :=
  (spanned_takes (Takes.sepBy1 (labelled_takes h) blanks_takes)).then fun _ => .pure _

theorem acted_takes (h : inner.Takes 0) : (acted inner).Takes 1 := by
  rw [acted_eq]
  refine .orElse ((spanned_takes ?_).then fun _ => .pure _)
    ((spanned_takes actionTail_takes).then fun _ => .pure _)
  exact (sequence_takes h).then fun _ =>
    (blanks_takes.then fun _ => actionTail_takes.mono (Nat.zero_le 1)).optional.then fun _ => .pure _

theorem separatorActed_takes (h : inner.Takes 0) :
    Reader.Takes 1 (separator '/' >>= fun _ => acted inner) :=
  (separator_takes _).then fun _ => (acted_takes h).mono (Nat.zero_le 1)

theorem alternatives_takes (h : inner.Takes 0) : (alternatives inner).Takes 1 :=
  (spanned_takes (Takes.sepBy1 (acted_takes h) ((separator_takes _).mono (Nat.zero_le 1)))).then
    fun _ => .pure _

theorem exprWithin_takes (fuel : Nat) : (exprWithin fuel).Takes 0 := by
  induction fuel with
  | zero => exact never_takes 0
  | succ fuel ih => exact fun c r hr => ((alternatives_takes ih).mono (Nat.zero_le 1)) c r hr

theorem expr_takes : expr.Takes 0 := fun c => exprWithin_takes _ c

theorem params_takes : params.Takes 0 :=
  blanks_takes.then fun _ => ((exactly_takes _ _).mono (Nat.zero_le 1)).then fun _ =>
    blanks_takes.then fun _ =>
      (Takes.sepBy1 (ident_takes.mono (Nat.zero_le 1)) ((separator_takes _).mono (Nat.zero_le 1))).then
        fun _ => blanks_takes.then fun _ => ((exactly_takes _ _).mono (Nat.zero_le 1)).then
          fun _ => .pure _

theorem item_takes : item.Takes 1 := by
  rw [item_eq]
  refine (spanned_takes ?_).then fun _ => .pure _
  exact ident_takes.then fun _ => params_takes.optional.then fun _ => blanks_takes.then fun _ =>
    ((exactly_takes _ _).mono (Nat.zero_le 1)).then fun _ => blanks_takes.then fun _ =>
      expr_takes.then fun _ => .pure _

end Takes

/-! ### First characters -/

/-- The type of an action begins with a letter, an underscore or a quote. -/
def StartsHint (x : Char) : Prop := startsName x = true ∨ x = '"' ∨ x = '\''

/-- An expression begins as the type of an action does, or with a bracket, a mark or a dot. -/
def StartsOperand (x : Char) : Prop :=
  StartsHint x ∨ x = '(' ∨ x = '&' ∨ x = '!' ∨ x = '[' ∨ x = '.'

instance (x : Char) : Decidable (StartsHint x) := inferInstanceAs (Decidable (_ ∨ _))

instance (x : Char) : Decidable (StartsOperand x) := inferInstanceAs (Decidable (_ ∨ _))

section Starts

variable {α : Type} {S : Char → Prop} {p : Reader α}

theorem spanned_starts (h : p.Starts S) : (spanned p).Starts S := .position fun _ => h.bind

theorem marked_starts (mark : Char) (p : Reader α) : (marked mark p).Starts (· = mark) :=
  (exactly_starts _ _).bind

theorem ident_starts : ident.Starts fun x => startsName x = true := .position fun _ => (satisfy_starts _ _).bind

theorem code_starts : code.Starts (· = '\x7b') := .position fun _ => (exactly_starts _ _).bind

theorem quotedBy_starts (q : Char) : (quotedBy q).Starts (· = q) := (exactly_starts _ _).bind

theorem stringLiteral_starts : stringLiteral.Starts fun x => x = '"' ∨ x = '\'' :=
  .orElse ((quotedBy_starts _).mono fun _ => .inl) ((quotedBy_starts _).mono fun _ => .inr)

theorem charClass_starts : charClass.Starts (· = '[') := (exactly_starts _ _).bind

theorem actionType_starts : actionType.Starts StartsHint :=
  .orElse (ident_starts.bind.mono fun _ => .inl) (stringLiteral_starts.mono fun _ => .inr)

theorem actionTail_starts : actionTail.Starts StartsHint := actionType_starts.bind

theorem referenceWithin_starts (fuel : Nat) : (referenceWithin fuel).Starts fun x => startsName x = true := by
  cases fuel with
  | zero =>
    intro c r hr
    cases hr
  | succ fuel =>
    rw [referenceWithin_succ]
    exact .position fun _ => ident_starts.bind

theorem reference_starts : reference.Starts fun x => startsName x = true :=
  fun c => referenceWithin_starts _ c

theorem markAt_starts : markAt.Starts fun x => x = '*' ∨ x = '+' ∨ x = '?' := by
  refine Starts.bind (.firstOf ?_)
  simp only [List.forall_mem_cons]
  exact ⟨(exactly_starts _ _).bind.mono fun _ => .inl,
    (exactly_starts _ _).bind.mono fun _ h => .inr (.inl h),
    (exactly_starts _ _).bind.mono fun _ h => .inr (.inr h), List.forall_mem_nil _⟩

theorem referenceOperand_starts : referenceOperand.Starts fun x => startsName x = true :=
  reference_starts.bind

theorem literalOperand_starts : literalOperand.Starts fun x => x = '"' ∨ x = '\'' :=
  .position fun _ => stringLiteral_starts.bind

theorem operand_starts (inner : Reader Expr) : (operand inner).Starts StartsOperand := by
  refine .firstOf ?_
  simp only [List.forall_mem_cons]
  refine ⟨(spanned_starts (exactly_starts _ _).bind).bind.mono fun _ h => .inr (.inl h),
    (spanned_starts (marked_starts _ _)).bind.mono fun _ h => .inr (.inr (.inl h)),
    (spanned_starts (marked_starts _ _)).bind.mono fun _ h => .inr (.inr (.inr (.inl h))),
    referenceOperand_starts.mono fun _ h => .inl (.inl h),
    literalOperand_starts.mono fun _ h => .inl (.inr h),
    (spanned_starts charClass_starts).bind.mono fun _ h => .inr (.inr (.inr (.inr (.inl h)))),
    (spanned_starts (exactly_starts _ _)).bind.mono fun _ h => .inr (.inr (.inr (.inr (.inr h)))),
    List.forall_mem_nil _⟩

theorem repeated_starts (inner : Reader Expr) : (repeated inner).Starts StartsOperand :=
  .position fun _ => (operand_starts inner).bind

theorem predicate_starts (inner : Reader Expr) : (predicate inner).Starts StartsOperand := by
  refine .firstOf ?_
  simp only [List.forall_mem_cons]
  exact ⟨(spanned_starts (marked_starts _ _)).bind.mono fun _ h => .inr (.inr (.inl h)),
    (spanned_starts (marked_starts _ _)).bind.mono fun _ h => .inr (.inr (.inr (.inl h))),
    repeated_starts inner, List.forall_mem_nil _⟩

theorem labelled_starts (inner : Reader Expr) : (labelled inner).Starts StartsOperand :=
  .orElse ((spanned_starts ident_starts.bind).bind.mono fun _ h => .inl (.inl h)) (predicate_starts inner)

theorem sequence_starts (inner : Reader Expr) : (sequence inner).Starts StartsOperand :=
  (spanned_starts (labelled_starts inner).bind).bind

theorem acted_starts (inner : Reader Expr) : (acted inner).Starts StartsOperand := by
  rw [acted_eq]
  exact .orElse (spanned_starts (sequence_starts inner).bind).bind
    ((spanned_starts actionTail_starts).bind.mono fun _ => .inl)

theorem alternatives_starts (inner : Reader Expr) : (alternatives inner).Starts StartsOperand :=
  (spanned_starts (acted_starts inner).bind).bind

theorem exprWithin_starts (fuel : Nat) : (exprWithin fuel).Starts StartsOperand := by
  cases fuel with
  | zero =>
    intro c r hr
    cases hr
  | succ fuel => exact fun c r hr => alternatives_starts _ c r hr

theorem expr_starts : expr.Starts StartsOperand := fun c => exprWithin_starts _ c

theorem item_starts : item.Starts fun x => startsName x = true := by
  rw [item_eq]
  exact (spanned_starts ident_starts.bind).bind

end Starts

/-! ### Whole texts -/

section Whole

variable {cs : List Char} {P : Grammar → Prop}

theorem readGrammar_eq_ok {g : Grammar} (h : readGrammar cs = .ok g) :
    ∃ c', (grammar ⟨0, cs⟩).result = some (g, c') ∧ c'.rest = [] := by
  unfold readGrammar at h
  split at h
  · rename_i g' hread
    cases h
    unfold readAll at hread
    simp only at hread
    split at hread
    · rename_i b offset hres
      cases hread
      exact ⟨_, hres, rfl⟩
    · cases hread
    · cases hread
  · cases h

theorem readGrammar_of_reads {cs : List Char} {P : Grammar → Prop} (h : grammar.Reads cs [] P) :
    ∃ g, readGrammar cs = .ok g ∧ P g := by
  obtain ⟨g, c', hres, hrest, hg⟩ := h ⟨0, cs⟩ rfl
  refine ⟨g, ?_, hg⟩
  obtain ⟨o, rest⟩ := c'
  cases hrest
  unfold readGrammar readAll
  simp only [hres]

theorem readGrammar_error_of_reads {x : Char} {ds : List Char} (hread : grammar.Reads cs (x :: ds) P) :
    ∃ e, readGrammar cs = .error e := by
  obtain ⟨g, ⟨o, rest⟩, hres, hrest, -⟩ := hread ⟨0, cs⟩ rfl
  cases hrest
  unfold readGrammar readAll
  simp only [hres]
  exact ⟨_, rfl⟩

end Whole

end Packrat.GrammarText

import Packrat.Proofs.GrammarText.Heads
import Packrat.Proofs.GrammarText.Written

/-!
# What may follow the parts of a grammar

What is written of a part is read back if the text that follows cannot be taken for more of it.

* `Reference.display_reads` — a reference is read back from the way it is displayed.
* `Ends`, `readerAt` — what may follow an expression of a level, and the reader of that level;
  `readerAt_of_le`: it reads what the readers of the levels below read.
* `EndsElement.of_write`, `EndsAction.of_slash`, `EndsChoice.of_close`, … — what does follow.
-/

set_option autoImplicit false

namespace Packrat

open Reader GrammarText

/-! ### Names and references -/

/-- A name in full is read back. -/
theorem ident_reads_back {s : String} (hs : IsIdent s) {rest : List Char}
    (hrest : ∀ x ∈ rest.head?, continuesName x = false) :
    ident.Reads (s.toList ++ rest) rest (·.unplaced = ⟨s, .nowhere⟩) := by
  obtain ⟨x, cs, hcs, hx, hcont⟩ := hs
  have hdrop : rest.dropWhile continuesName = rest := by
    cases rest with
    | nil => rfl
    | cons y ys => rw [List.dropWhile_cons_of_neg (by simp [hrest y rfl])]
  have htake : rest.takeWhile continuesName = [] := by
    cases rest with
    | nil => rfl
    | cons y ys => rw [List.takeWhile_cons_of_neg (by simp [hrest y rfl])]
  have h := ident_reads hx (cs ++ rest)
  rw [afterName, List.dropWhile_append_of_pos hcont, hdrop, List.takeWhile_append_of_pos hcont, htake,
    List.append_nil, ← hcs, String.ofList_toList] at h
  rw [hcs]
  exact h

theorem IsIdent.head {s : String} (hs : IsIdent s) (rest : List Char) :
    ∃ x, (s.toList ++ rest).head? = some x ∧ startsName x = true := by
  obtain ⟨x, cs, hcs, hx, -⟩ := hs
  exact ⟨x, by rw [hcs]; rfl, hx⟩

theorem not_startsBlank_of_startsName {x : Char} (h : startsName x = true) : ¬ StartsBlank x :=
  fun hx => not_mem_marks_of_startsName h hx.mem_marks

/-- What may follow a reference: it does not go on with its name, and opens no arguments. -/
structure EndsReference (rest : List Char) : Prop where
  name : ∀ x ∈ rest.head?, continuesName x = false
  bracket : (afterBlanks rest).head? ≠ some '<'

theorem EndsReference.of_mark {x : Char} (hx : x ∈ marks) (hblank : ¬ StartsBlank x) (hne : x ≠ '<')
    (rest : List Char) : EndsReference (x :: rest) := by
  refine ⟨?_, ?_⟩
  · rintro y ⟨⟩
    exact continuesName_eq_false hx
  · rw [afterBlanks_of_head (by rintro y ⟨⟩; exact hblank)]
    simpa using hne

/-- A comma and a blank before what begins with no blank are a separator. -/
theorem comma_reads {cs : List Char} (hcs : ∀ x ∈ cs.head?, ¬ StartsBlank x) :
    (separator ',').Reads ([',', ' '] ++ cs) cs fun _ => True := by
  have h := separator_reads (show afterBlanks (',' :: ' ' :: cs) = ',' :: ' ' :: cs from
    afterBlanks_of_head (by rintro y ⟨⟩; decide))
  rwa [afterBlanks_space rfl, afterBlanks_of_head hcs] at h

theorem Reference.displayAll_eq (rs : List Reference) : displayAll rs = rs.map display := by
  induction rs with
  | nil => rfl
  | cons r rs ih => rw [displayAll, ih, List.map_cons]

theorem Reference.toList_display_args (span : Span) (name : Ident) {args : List Reference}
    (hargs : args ≠ []) :
    (Reference.mk span name args).display.toList =
      name.name.toList ++ '<' :: ([',', ' '].intercalate (args.map (·.display.toList)) ++ ['>']) := by
  rw [display, displayAll_eq, instanceName, if_neg (by simpa using hargs), String.toList_append,
    String.toList_append, String.toList_append, String.toList_intercalate, List.map_map,
    List.append_assoc, List.append_assoc]
  rfl

theorem Reference.display_head {r : Reference} (hr : r.Writable) (rest : List Char) :
    ∃ x, (r.display.toList ++ rest).head? = some x ∧ startsName x = true := by
  obtain ⟨span, name, args⟩ := r
  rw [Reference.Writable] at hr
  by_cases hargs : args = []
  · subst hargs
    exact hr.1.head rest
  · rw [Reference.toList_display_args span name hargs, List.append_assoc]
    exact hr.1.head _

section Listed

variable {α γ δ : Type} {p : Reader α} {write : γ → List Char} {f : α → δ} {g : γ → δ} {xs : List γ}

/-- What is written with commas between, and a bracket behind, is read back if each part is. -/
theorem listed_reads (tp : p.Takes 1) (hne : xs ≠ [])
    (hx : ∀ x ∈ xs, ∀ rest, EndsReference rest → p.Reads (write x ++ rest) rest fun a => f a = g x)
    (hhead : ∀ x ∈ xs, ∀ cs, ∃ y, (write x ++ cs).head? = some y ∧ startsName y = true) (rest : List Char) :
    (sepBy1 p (separator ',')).Reads (afterBlanks ([',', ' '].intercalate (xs.map write) ++ '>' :: rest))
      ('>' :: rest) fun as => as.map f = xs.map g := by
  have hblank : ∀ x ∈ xs, ∀ cs : List Char, ∀ y ∈ (write x ++ cs).head?, ¬ StartsBlank y := by
    intro x hmem cs y hy
    obtain ⟨z, hz, hname⟩ := hhead x hmem cs
    cases hz.symm.trans hy
    exact not_startsBlank_of_startsName hname
  have hfirst : ∀ y ∈ ([',', ' '].intercalate (xs.map write) ++ '>' :: rest).head?, ¬ StartsBlank y := by
    obtain ⟨x, xs', rfl⟩ := List.exists_cons_of_ne_nil hne
    rw [List.map_cons, intercalate_cons, List.append_assoc]
    exact hblank x List.mem_cons_self _
  rw [afterBlanks_of_head hfirst]
  refine sepBy1_reads_joined ((separator_takes _).then fun _ => tp.mono (Nat.zero_le 1)) hne hx
    (fun x hmem cs => comma_reads (hblank x hmem cs))
    (fun x _ cs => EndsReference.of_mark (by decide) (by decide) (by decide) _)
    (EndsReference.of_mark (by decide) (by decide) (by decide) rest) (.bind_left (separator_refuses ?_))
  rw [afterBlanks_of_head (by rintro y ⟨⟩; decide)]
  simp

end Listed

/-- **A reference is read back from the way it is displayed.** -/
theorem Reference.display_reads (r : Reference) (hr : r.Writable) {fuel : Nat}
    (hf : r.display.toList.length < fuel) {rest : List Char} (hrest : EndsReference rest) :
    (referenceWithin fuel).Reads (r.display.toList ++ rest) rest (·.unplaced = r.unplaced) := by
  match r with
  | .mk span name args =>
    rw [Reference.Writable, Reference.writableAll_iff] at hr
    obtain ⟨fuel, rfl⟩ : ∃ n, fuel = n + 1 := ⟨fuel - 1, by omega⟩
    by_cases hargs : args = []
    · subst hargs
      have hbracket := head_ne_of_afterBlanks (show ¬ StartsBlank '<' by decide) hrest.bracket
      exact reference_reads_plain (ident_reads_back hr.1 hrest.name) (referenceArguments_refuses hbracket)
    · rw [Reference.toList_display_args span name hargs] at hf ⊢
      have hlen : ∀ a ∈ args, a.display.toList.length < fuel := by
        intro a ha
        have hle := length_le_intercalate [',', ' '] (List.mem_map.2 ⟨a, ha, rfl⟩ :
          a.display.toList ∈ args.map (·.display.toList))
        simp only [List.length_append, List.length_cons, List.length_nil] at hf
        omega
      have hsepBy := listed_reads (referenceWithin_takes fuel) hargs
        (fun a ha cs hcs => Reference.display_reads a (hr.2 a ha) (hlen a ha) hcs)
        (fun a ha cs => Reference.display_head (hr.2 a ha) cs) rest
      have harguments := referenceArguments_reads hsepBy (afterBlanks_of_head (by rintro y ⟨⟩; decide))
      have hname : ident.Reads (name.name.toList ++
          '<' :: ([',', ' '].intercalate (args.map (·.display.toList)) ++ '>' :: rest))
          ('<' :: ([',', ' '].intercalate (args.map (·.display.toList)) ++ '>' :: rest))
          (·.unplaced = name.unplaced) := ident_reads_back hr.1 (by rintro x ⟨⟩; decide)
      have htext : (name.name.toList ++ '<' ::
          ([',', ' '].intercalate (args.map (·.display.toList)) ++ ['>'])) ++ rest =
          name.name.toList ++
            '<' :: ([',', ' '].intercalate (args.map (·.display.toList)) ++ '>' :: rest) := by simp
      rw [htext]
      refine (reference_reads_args hname harguments).mono ?_
      rintro r ⟨as, has, hr'⟩
      rw [hr', has, Reference.unplaced, Reference.unplacedAll_eq]
termination_by sizeOf r
decreasing_by
  have := List.sizeOf_lt_of_mem ha
  simp_wf
  omega

/-! ### Levels -/

/-- What may follow an operand. -/
structure EndsOperand (rest : List Char) : Prop extends EndsReference rest where
  colon : rest.head? ≠ some ':'

/-- What may follow a repetition, a predicate or a label. -/
structure EndsElement (rest : List Char) : Prop extends EndsOperand rest where
  mark : ∀ r, rest.head? ≠ some (repetitionMark r)

/-- What may follow a sequence. -/
structure EndsSequence (rest : List Char) : Prop extends EndsElement rest where
  element : ∀ inner, (labelled inner).Refuses (afterBlanks rest)

/-- What may follow an action. -/
structure EndsAction (rest : List Char) : Prop extends EndsSequence rest where
  action : actionTail.Refuses (afterBlanks rest)

/-- What may follow a choice. -/
structure EndsChoice (rest : List Char) : Prop extends EndsAction rest where
  branch : (afterBlanks rest).head? ≠ some '/'

/-- What may follow an expression of a level. -/
def Ends : (level : Nat) → List Char → Prop
  | 0 => EndsOperand
  | 1 => EndsElement
  | 2 => EndsElement
  | 3 => EndsElement
  | 4 => EndsSequence
  | 5 => EndsAction
  | _ => EndsChoice

/-- The reader of the expressions up to a level. -/
def readerAt (inner : Reader Expr) : (level : Nat) → Reader Expr
  | 0 => operand inner
  | 1 => repeated inner
  | 2 => predicate inner
  | 3 => labelled inner
  | 4 => sequence inner
  | 5 => acted inner
  | _ => alternatives inner

theorem Ends.of_succ {level : Nat} {rest : List Char} (h : Ends (level + 1) rest) : Ends level rest := by
  match level, h with
  | 0, h => exact h.toEndsOperand
  | 1, h => exact h
  | 2, h => exact h
  | 3, h => exact h.toEndsElement
  | 4, h => exact h.toEndsSequence
  | 5, h => exact h.toEndsAction
  | _ + 6, h => exact h

theorem Ends.of_le {k m : Nat} (hkm : k ≤ m) {rest : List Char} (h : Ends m rest) : Ends k rest := by
  induction hkm with
  | refl => exact h
  | step _ ih => exact ih h.of_succ

section Lift

variable {inner : Reader Expr} {cs rest : List Char} {e : Expr}

theorem markAt_refuses (h : ∀ r, rest.head? ≠ some (repetitionMark r)) : markAt.Refuses rest := by
  refine markAt_starts.refuses ?_
  rintro x hx (rfl | rfl | rfl)
  · exact h .star hx
  · exact h .plus hx
  · exact h .opt hx

theorem repeated_reads_operand (h : (operand inner).Reads cs rest (·.unplaced = e))
    (hrest : EndsElement rest) : (repeated inner).Reads cs rest (·.unplaced = e) := by
  have hnone : (many markAt).Reads rest rest fun ms => ms.map (·.1) = [] :=
    many_reads_none _ (markAt_refuses hrest.mark)
  have hx := repeated_reads h hnone
  exact hx

theorem sequence_reads_element (h : (labelled inner).Reads cs rest (·.unplaced = e))
    (hrest : EndsSequence rest) : (sequence inner).Reads cs rest (·.unplaced = e) := by
  have hnone : (many (blanks >>= fun _ => labelled inner)).Reads rest rest (· = []) :=
    many_reads_nil (.bind_right (blanks_reads rest) fun _ _ => hrest.element inner)
  have hone : (sepBy1 (labelled inner) blanks).Reads cs rest fun xs => xs.map Expr.unplaced = [e] := by
    refine (sepBy1_reads h hnone).mono ?_
    rintro xs ⟨x, xs', rfl, hx, rfl⟩
    rw [List.map_cons, hx]
    rfl
  exact sequence_reads hone

theorem alternatives_reads_acted (h : (acted inner).Reads cs rest (·.unplaced = e))
    (hrest : EndsChoice rest) : (alternatives inner).Reads cs rest (·.unplaced = e) := by
  have hnone : (many (separator '/' >>= fun _ => acted inner)).Reads rest rest (· = []) :=
    many_reads_nil (.bind_left (separator_refuses hrest.branch))
  have hone : (sepBy1 (acted inner) (separator '/')).Reads cs rest fun xs =>
      xs.map Expr.unplaced = [e] := by
    refine (sepBy1_reads h hnone).mono ?_
    rintro xs ⟨x, xs', rfl, hx, rfl⟩
    rw [List.map_cons, hx]
    rfl
  exact alternatives_reads hone

/-- The reader of a level reads what the reader of the level below reads. -/
theorem readerAt_succ {level : Nat} (h : (readerAt inner level).Reads cs rest (·.unplaced = e))
    (hrest : Ends (level + 1) rest) : (readerAt inner (level + 1)).Reads cs rest (·.unplaced = e) := by
  match level, h, hrest with
  | 0, h, hrest => exact repeated_reads_operand h hrest
  | 1, h, _ => exact predicate_reads_repeated h
  | 2, h, _ => exact labelled_reads_predicate h
  | 3, h, hrest => exact sequence_reads_element h hrest
  | 4, h, hrest => exact acted_reads_sequence h hrest.action
  | 5, h, hrest => exact alternatives_reads_acted h hrest
  | _ + 6, h, _ => exact h

theorem readerAt_of_le {k m : Nat} (hkm : k ≤ m) (h : (readerAt inner k).Reads cs rest (·.unplaced = e))
    (hrest : Ends m rest) : (readerAt inner m).Reads cs rest (·.unplaced = e) := by
  induction hkm with
  | refl => exact h
  | step _ ih => exact readerAt_succ (ih hrest.of_succ) hrest

end Lift

/-! ### First characters of expressions -/

/-- What is written of two parts or more begins with one of them. -/
theorem Expr.intercalate_writeAll (sep : List Char) {es : List Expr} (h : 2 ≤ es.length) :
    ∃ y ∈ es, ∃ tail, sep.intercalate (writeAll es) = y.write ++ tail := by
  obtain ⟨y, ys, rfl⟩ := List.exists_cons_of_length_pos (Nat.lt_of_lt_of_le Nat.two_pos h)
  exact ⟨y, List.mem_cons_self, _, by rw [writeAll_eq, List.map_cons, intercalate_cons]⟩

/-- What is written of an expression begins as an expression does. -/
theorem Expr.write_head (e : Expr) (he : e.Writable) (rest : List Char) :
    ∃ x, (e.write ++ rest).head? = some x ∧ StartsOperand x := by
  match e with
  | .literal _ s => exact ⟨'"', rfl, by decide⟩
  | .charClass _ k => exact ⟨'[', rfl, by decide⟩
  | .anyChar _ => exact ⟨'.', rfl, by decide⟩
  | .ref r =>
    rw [Expr.Writable] at he
    obtain ⟨x, hx, hname⟩ := Reference.display_head he rest
    exact ⟨x, hx, .inl (.inl hname)⟩
  | .seq _ es =>
    rw [Expr.Writable, Expr.writableAll_iff] at he
    obtain ⟨y, hy, tail, hwrite⟩ := Expr.intercalate_writeAll [' '] he.1
    have hless := List.sizeOf_lt_of_mem hy
    rw [Expr.write, hwrite, List.append_assoc]
    exact Expr.write_head y (he.2 y hy).2 _
  | .choice _ es =>
    rw [Expr.Writable, Expr.writableAll_iff] at he
    obtain ⟨y, hy, tail, hwrite⟩ := Expr.intercalate_writeAll [' ', '/', ' '] he.1
    have hless := List.sizeOf_lt_of_mem hy
    rw [Expr.write, hwrite, List.append_assoc]
    exact Expr.write_head y (he.2 y hy).2 _
  | .star _ body =>
    rw [Expr.Writable] at he
    rw [Expr.write, List.append_assoc]
    exact Expr.write_head body he.2 _
  | .plus _ body =>
    rw [Expr.Writable] at he
    rw [Expr.write, List.append_assoc]
    exact Expr.write_head body he.2 _
  | .opt _ body =>
    rw [Expr.Writable] at he
    rw [Expr.write, List.append_assoc]
    exact Expr.write_head body he.2 _
  | .lookahead _ polarity _ => exact ⟨markOf polarity, rfl, by cases polarity <;> decide⟩
  | .codePredicate _ polarity _ => exact ⟨markOf polarity, rfl, by cases polarity <;> decide⟩
  | .label _ name body =>
    rw [Expr.Writable] at he
    rw [Expr.write, List.append_assoc]
    obtain ⟨x, hx, hname⟩ := he.1.head _
    exact ⟨x, hx, .inl (.inl hname)⟩
  | .action _ hint k body =>
    rw [Expr.Writable] at he
    rw [Expr.write, List.append_assoc]
    exact Expr.write_head body he.2.2 _
  | .bareAction _ _ _ => exact ⟨'"', rfl, by decide⟩
  | .group _ _ => exact ⟨'(', rfl, by decide⟩
termination_by sizeOf e

theorem not_startsBlank_of_startsOperand {x : Char} (h : StartsOperand x) : ¬ StartsBlank x := by
  rcases h with (h | rfl | rfl) | rfl | rfl | rfl | rfl | rfl
  · exact not_startsBlank_of_startsName h
  all_goals decide

theorem Expr.afterBlanks_write {e : Expr} (he : e.Writable) (rest : List Char) :
    afterBlanks (e.write ++ rest) = e.write ++ rest := by
  obtain ⟨x, hx, hstarts⟩ := e.write_head he rest
  refine afterBlanks_of_head ?_
  rw [hx]
  rintro y ⟨⟩
  exact not_startsBlank_of_startsOperand hstarts

/-! ### What follows a part -/

theorem EndsReference.of_space {x : Char} (hx : isSpace x = true) {rest : List Char}
    (h : (afterBlanks rest).head? ≠ some '<') : EndsReference (x :: rest) := by
  refine ⟨?_, by rwa [afterBlanks_space hx]⟩
  rintro y ⟨⟩
  exact continuesName_eq_false (StartsBlank.mem_marks (.inl hx))

theorem EndsElement.of_space {x : Char} (hx : isSpace x = true) {rest : List Char}
    (h : (afterBlanks rest).head? ≠ some '<') : EndsElement (x :: rest) := by
  have hne : ∀ y, isSpace y = false → (x :: rest).head? ≠ some y := by
    rintro y hy ⟨⟩
    rw [hx] at hy
    cases hy
  exact ⟨⟨.of_space hx h, hne _ rfl⟩, fun r => hne _ (by cases r <;> rfl)⟩

/-- A blank and an expression may follow an element of a sequence. -/
theorem EndsElement.of_write {e : Expr} (he : e.Writable) (rest : List Char) :
    EndsElement (' ' :: (e.write ++ rest)) := by
  refine .of_space rfl ?_
  obtain ⟨x, hx, hstarts⟩ := e.write_head he rest
  rw [Expr.afterBlanks_write he, hx]
  rintro ⟨⟩
  revert hstarts
  decide

/-- What begins with a slash, after a blank, may follow an action. -/
theorem EndsAction.of_slash (rest : List Char) : EndsAction (' ' :: '/' :: rest) := by
  have hslash : afterBlanks (' ' :: '/' :: rest) = '/' :: rest := by
    rw [afterBlanks_space rfl, afterBlanks_of_head (by rintro y ⟨⟩; decide)]
  refine ⟨⟨.of_space rfl ?_, fun inner => ?_⟩, ?_⟩
  · rw [afterBlanks_of_head (by rintro y ⟨⟩; decide)]
    simp
  · rw [hslash]
    exact (labelled_starts inner).refuses (by rintro y ⟨⟩; decide)
  · rw [hslash]
    exact actionTail_starts.refuses (by rintro y ⟨⟩; decide)

/-- A closing parenthesis may follow a choice. -/
theorem EndsChoice.of_close (rest : List Char) : EndsChoice (')' :: rest) := by
  have hclose : afterBlanks (')' :: rest) = ')' :: rest := afterBlanks_of_head (by rintro y ⟨⟩; decide)
  refine ⟨⟨⟨⟨⟨.of_mark (by decide) (by decide) (by decide) rest, by simp⟩, ?_⟩, fun inner => ?_⟩, ?_⟩, ?_⟩
  · rintro (_ | _ | _) <;> simp [repetitionMark]
  · rw [hclose]
    exact (labelled_starts inner).refuses (by rintro y ⟨⟩; decide)
  · rw [hclose]
    exact actionTail_starts.refuses (by rintro y ⟨⟩; decide)
  · rw [hclose]
    simp

/-! ### Actions -/

theorem Code.write_append (k : Code) (rest : List Char) :
    k.write ++ rest = '\x7b' :: (k.text.toList ++ '\x7d' :: rest) := by
  unfold Code.write
  simp

theorem Code.write_reads {k : Code} (hk : k.Balanced) (rest : List Char) :
    code.Reads (k.write ++ rest) rest (·.unplaced = k.unplaced) := by
  rw [Code.write_append]
  refine (code_reads (braced_of_closes hk) rest).mono ?_
  intro k' hk'
  rw [Code.unplaced, hk', String.ofList_toList, Code.unplaced]

theorem Code.afterBlanks_write (k : Code) (rest : List Char) :
    afterBlanks (k.write ++ rest) = k.write ++ rest := by
  rw [Code.write_append]
  exact afterBlanks_of_head (by rintro y ⟨⟩; decide)

/-- The type of an action is read back. -/
theorem hint_reads (hint : String) (rest : List Char) :
    actionType.Reads (writeQuoted hint ++ rest) rest (· = hint) :=
  .orElse_right (.bind_left (ident_starts.refuses (by rintro y ⟨⟩; decide))) (stringLiteral_reads hint rest)

theorem writeAction_append (hint : String) (k : Code) (rest : List Char) :
    writeAction hint k ++ rest = writeQuoted hint ++ ':' :: (k.write ++ rest) := by
  unfold writeAction
  rw [List.append_assoc, List.cons_append]

theorem afterBlanks_writeAction (hint : String) (k : Code) (rest : List Char) :
    afterBlanks (writeAction hint k ++ rest) = writeAction hint k ++ rest :=
  afterBlanks_of_head (by rintro y ⟨⟩; decide)

/-- A blank and an action may follow a sequence. -/
theorem EndsSequence.of_action (hint : String) (k : Code) (rest : List Char) :
    EndsSequence (' ' :: (writeAction hint k ++ rest)) := by
  refine ⟨.of_space rfl ?_, fun inner => ?_⟩
  · rw [afterBlanks_writeAction]
    exact (by decide : some '"' ≠ some '<')
  · rw [afterBlanks_space rfl, afterBlanks_writeAction, writeAction_append]
    exact labelled_refuses_hint (hint_reads hint _) (by rw [Code.afterBlanks_write, Code.write_append])

end Packrat

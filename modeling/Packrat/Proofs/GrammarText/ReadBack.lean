import Packrat.Proofs.GrammarText.Follow

/-!
# Reading back what was written

* `Expr.core`, `Expr.repetitions` — a repetition is an operand with marks after it.
* `Expr.readsBack` — an expression is read back wherever an expression of its level may stand.
* `readGrammar_write` — what is written of a grammar is read back, up to spans.
-/

set_option autoImplicit false

namespace Packrat

open Reader GrammarText

/-! ### Repetitions -/

/-- The operand of a repetition. -/
def Expr.core : Expr → Expr
  | .star _ body => body.core
  | .plus _ body => body.core
  | .opt _ body => body.core
  | e => e

/-- The marks of a repetition, the innermost first. -/
def Expr.repetitions : Expr → List Repetition
  | .star _ body => body.repetitions ++ [.star]
  | .plus _ body => body.repetitions ++ [.plus]
  | .opt _ body => body.repetitions ++ [.opt]
  | _ => []

theorem Expr.write_core (e : Expr) : e.write = e.core.write ++ e.repetitions.map repetitionMark := by
  induction e using Expr.core.induct with
  | case1 s body ih => rw [write, ih, core, repetitions, List.map_append, List.append_assoc]; rfl
  | case2 s body ih => rw [write, ih, core, repetitions, List.map_append, List.append_assoc]; rfl
  | case3 s body ih => rw [write, ih, core, repetitions, List.map_append, List.append_assoc]; rfl
  | case4 e hstar hplus hopt => cases e <;> simp_all [core, repetitions]

theorem Expr.length_core_le (e : Expr) : e.core.write.length ≤ e.write.length := by
  rw [Expr.write_core e, List.length_append]
  exact Nat.le_add_right _ _

theorem Expr.unplaced_core (e : Expr) :
    e.repetitions.foldl (fun x r => r.apply .nowhere x) e.core.unplaced = e.unplaced := by
  induction e using Expr.core.induct with
  | case1 s body ih => rw [repetitions, List.foldl_append, core, ih, unplaced]; rfl
  | case2 s body ih => rw [repetitions, List.foldl_append, core, ih, unplaced]; rfl
  | case3 s body ih => rw [repetitions, List.foldl_append, core, ih, unplaced]; rfl
  | case4 e hstar hplus hopt => cases e <;> simp_all [core, repetitions]

theorem Expr.core_writable {e : Expr} (he : e.Writable) (hlevel : e.level ≤ 1) :
    e.core.Writable ∧ e.core.level = 0 := by
  induction e using Expr.core.induct with
  | case1 s body ih =>
    rw [Writable] at he
    exact ih he.2 he.1
  | case2 s body ih =>
    rw [Writable] at he
    exact ih he.2 he.1
  | case3 s body ih =>
    rw [Writable] at he
    exact ih he.2 he.1
  | case4 e hstar hplus hopt => cases e <;> simp_all [core, level]

theorem Expr.sizeOf_core_le (e : Expr) : sizeOf e.core ≤ sizeOf e := by
  induction e using Expr.core.induct with
  | case1 s body ih => rw [core, star.sizeOf_spec]; omega
  | case2 s body ih => rw [core, plus.sizeOf_spec]; omega
  | case3 s body ih => rw [core, opt.sizeOf_spec]; omega
  | case4 e hstar hplus hopt => cases e <;> simp_all [core]

theorem marks_read (rs : List Repetition) {rest : List Char} (hrest : EndsElement rest) :
    (many markAt).Reads (rs.map repetitionMark ++ rest) rest (fun ms => ms.map (·.1) = rs) ∧
      EndsOperand (rs.map repetitionMark ++ rest) := by
  induction rs with
  | nil =>
    exact ⟨many_reads_none _ (markAt_refuses hrest.mark), hrest.toEndsOperand⟩
  | cons r rs ih =>
    refine ⟨(many_reads_cons markAt_takes (markAt_reads r _) ih.1).mono ?_, .of_mark ?_ ?_ ?_ _, ?_⟩
    · rintro ms ⟨m, ms', rfl, rfl, hms⟩
      rw [List.map_cons, hms]
    · cases r <;> decide
    · cases r <;> decide
    · cases r <;> decide
    · cases r <;> simp [repetitionMark]

/-! ### Reading expressions back -/

/-- Wherever an expression of its level may stand, what is written of the expression is read back. -/
def Expr.ReadsBack (inner : Reader Expr) (e : Expr) : Prop :=
  ∀ rest : List Char, Ends e.level rest →
    (readerAt inner e.level).Reads (e.write ++ rest) rest (·.unplaced = e.unplaced)

theorem Expr.ReadsBack.at {inner : Reader Expr} {e : Expr} (h : e.ReadsBack inner) {level : Nat}
    (hlevel : e.level ≤ level) {rest : List Char} (hrest : Ends level rest) :
    (readerAt inner level).Reads (e.write ++ rest) rest (·.unplaced = e.unplaced) :=
  readerAt_of_le hlevel (h rest (hrest.of_le hlevel)) hrest

section ReadsBack

variable {inner : Reader Expr} {span : Span} {e : Expr} {es : List Expr}

/-- A repetition is read back if its operand is. -/
theorem Expr.readsBack_of_core (he : e.Writable) (hlevel : e.level = 1) {fuel : Nat}
    (hf : e.write.length ≤ fuel)
    (h : e.core.Writable → e.core.write.length ≤ fuel → e.core.ReadsBack inner) : e.ReadsBack inner := by
  obtain ⟨hwritable, hcore⟩ := Expr.core_writable he (Nat.le_of_eq hlevel)
  intro rest hrest
  rw [hlevel] at hrest ⊢
  obtain ⟨hmarks, hends⟩ := marks_read e.repetitions hrest
  have hoperand := (h hwritable (Nat.le_trans e.length_core_le hf)).at (Nat.le_of_eq hcore) hends
  have hall := repeated_reads hoperand hmarks
  rw [Expr.unplaced_core, ← List.append_assoc, ← Expr.write_core] at hall
  exact hall

theorem flatten_of_two_le {wrap : List Expr → Expr} {es : List Expr} (h : 2 ≤ es.length) :
    flatten wrap es = wrap es := by
  match es with
  | [] => simp at h
  | [_] => simp at h
  | _ :: _ :: _ => rfl

theorem Expr.readsBack_seq (htakes : inner.Takes 0) (hes : (Expr.seq span es).Writable)
    (h : ∀ x ∈ es, x.ReadsBack inner) : (Expr.seq span es).ReadsBack inner := by
  intro rest hrest
  rw [Expr.Writable, Expr.writableAll_iff] at hes
  have hne : es ≠ [] := by
    rintro rfl
    exact absurd hes.1 (by simp)
  have hsep : ∀ x ∈ es, ∀ rest, blanks.Reads ([' '] ++ (x.write ++ rest)) (x.write ++ rest)
      fun _ => True := by
    intro x hx rest
    have hblanks := blanks_reads (' ' :: (x.write ++ rest))
    rwa [afterBlanks_space rfl, Expr.afterBlanks_write (hes.2 x hx).2] at hblanks
  have hparts := sepBy1_reads_joined (blanksLabelled_takes htakes) hne
    (fun x hx rest hends => (h x hx).at (hes.2 x hx).1 hends) hsep
    (fun x hx rest => EndsElement.of_write (hes.2 x hx).2 rest) hrest.toEndsElement
    (.bind_right (blanks_reads rest) fun _ _ => hrest.element inner)
  have hall := sequence_reads hparts
  rw [flatten_of_two_le (by simpa using hes.1)] at hall
  rw [Expr.write, Expr.writeAll_eq, Expr.unplaced, Expr.unplacedAll_eq]
  exact hall

theorem Expr.readsBack_choice (htakes : inner.Takes 0) (hes : (Expr.choice span es).Writable)
    (h : ∀ x ∈ es, x.ReadsBack inner) : (Expr.choice span es).ReadsBack inner := by
  intro rest hrest
  rw [Expr.Writable, Expr.writableAll_iff] at hes
  have hne : es ≠ [] := by
    rintro rfl
    exact absurd hes.1 (by simp)
  have hsep : ∀ x ∈ es, ∀ rest, (separator '/').Reads ([' ', '/', ' '] ++ (x.write ++ rest))
      (x.write ++ rest) fun _ => True := by
    intro x hx rest
    have hslash : afterBlanks (' ' :: '/' :: ' ' :: (x.write ++ rest)) = '/' :: ' ' :: (x.write ++ rest) := by
      rw [afterBlanks_space rfl, afterBlanks_of_head (by rintro y ⟨⟩; decide)]
    have hmark := separator_reads hslash
    rwa [afterBlanks_space rfl, Expr.afterBlanks_write (hes.2 x hx).2] at hmark
  have hparts := sepBy1_reads_joined (separatorActed_takes htakes) hne
    (fun x hx rest hends => (h x hx).at (hes.2 x hx).1 hends) hsep
    (fun x _ rest => EndsAction.of_slash _) hrest.toEndsAction
    (.bind_left (separator_refuses hrest.branch))
  have hall := alternatives_reads hparts
  rw [flatten_of_two_le (by simpa using hes.1)] at hall
  rw [Expr.write, Expr.writeAll_eq, Expr.unplaced, Expr.unplacedAll_eq]
  exact hall

/-- A predicate is read back if its body is. -/
theorem Expr.readsBack_lookahead {polarity : Polarity} (he : e.Writable) (hlevel : e.level ≤ 1)
    (h : e.ReadsBack inner) : (Expr.lookahead span polarity e).ReadsBack inner := by
  intro rest hrest
  have hbody := h.at hlevel hrest
  rw [← Expr.afterBlanks_write he] at hbody
  exact predicate_reads_lookahead polarity hbody

/-- A label is read back if its body is. -/
theorem Expr.readsBack_label {name : Ident} (hname : IsIdent name.name) (he : e.Writable)
    (hlevel : e.level ≤ 2) (h : e.ReadsBack inner) : (Expr.label span name e).ReadsBack inner := by
  intro rest hrest
  have hbody := h.at hlevel hrest
  rw [← Expr.afterBlanks_write he] at hbody
  have hident : ident.Reads (name.name.toList ++ ':' :: (e.write ++ rest)) (':' :: (e.write ++ rest))
      (·.unplaced = name.unplaced) := ident_reads_back hname (by rintro x ⟨⟩; decide)
  rw [Expr.write, List.append_assoc, List.cons_append]
  exact labelled_reads_label hident hbody

/-- An expression with an action is read back if the expression is. -/
theorem Expr.readsBack_action {hint : String} {k : Code} (hk : k.Balanced) (hlevel : e.level ≤ 4)
    (h : e.ReadsBack inner) : (Expr.action span hint k e).ReadsBack inner := by
  intro rest _
  have hbody := h.at hlevel (EndsSequence.of_action hint k rest)
  have hcode := Code.write_reads hk rest
  rw [← Code.afterBlanks_write] at hcode
  have htail := actionTail_reads (hint_reads hint _) hcode
  rw [← writeAction_append, ← afterBlanks_writeAction, ← afterBlanks_space (x := ' ') rfl] at htail
  rw [Expr.write, List.append_assoc, List.cons_append]
  exact acted_reads_action hbody htail

/-- A group is read back if its body is, with one pair of parentheses less to go. -/
theorem Expr.readsBack_group {fuel : Nat} (he : e.Writable) (h : e.ReadsBack (exprWithin fuel)) :
    (Expr.group span e).ReadsBack (exprWithin (fuel + 1)) := by
  intro rest _
  have hbody : (exprWithin (fuel + 1)).Reads (e.write ++ ')' :: rest) (')' :: rest)
      (·.unplaced = e.unplaced) := fun c hc => h.at e.level_le (EndsChoice.of_close rest) c hc
  rw [← Expr.afterBlanks_write he] at hbody
  have hgroup := operand_reads_group hbody (afterBlanks_of_head (by rintro y ⟨⟩; decide))
  rw [Expr.write, List.cons_append, List.append_assoc]
  exact hgroup

end ReadsBack

/-- **An expression that can be written is read back.** -/
theorem Expr.readsBack (e : Expr) (he : e.Writable) {fuel : Nat} (hf : e.write.length ≤ fuel) :
    e.ReadsBack (exprWithin fuel) := by
  have htakes := exprWithin_takes fuel
  match e with
  | .literal _ s => exact fun rest hrest => operand_reads_literal (stringLiteral_reads s rest) hrest.colon
  | .charClass _ k =>
    rw [Expr.Writable] at he
    exact fun rest _ => operand_reads_class (charClass_reads he rest)
  | .anyChar _ => exact fun rest _ => operand_reads_anyChar _ rest
  | .ref r =>
    rw [Expr.Writable] at he
    intro rest hrest
    have hr : reference.Reads (r.display.toList ++ rest) rest (·.unplaced = r.unplaced) := by
      refine reference_reads (Reference.display_reads r he ?_ hrest.toEndsReference)
      rw [List.length_append]
      omega
    refine operand_reads_reference (referenceOperand_reads hr (fun ds hds => hrest.bracket ?_) hrest.colon)
    rw [hds]
    rfl
  | .seq _ es =>
    refine Expr.readsBack_seq htakes he fun x hx => ?_
    rw [Expr.Writable, Expr.writableAll_iff] at he
    rw [Expr.write, Expr.writeAll_eq] at hf
    have hlen := length_le_intercalate [' '] (List.mem_map_of_mem hx : x.write ∈ es.map Expr.write)
    have hless := List.sizeOf_lt_of_mem hx
    exact Expr.readsBack x (he.2 x hx).2 (by omega)
  | .choice _ es =>
    refine Expr.readsBack_choice htakes he fun x hx => ?_
    rw [Expr.Writable, Expr.writableAll_iff] at he
    rw [Expr.write, Expr.writeAll_eq] at hf
    have hlen := length_le_intercalate [' ', '/', ' '] (List.mem_map_of_mem hx : x.write ∈ es.map Expr.write)
    have hless := List.sizeOf_lt_of_mem hx
    exact Expr.readsBack x (he.2 x hx).2 (by omega)
  | .star s body =>
    have hless := Expr.sizeOf_core_le body
    exact Expr.readsBack_of_core he rfl hf fun hcore hlen => Expr.readsBack body.core hcore hlen
  | .plus s body =>
    have hless := Expr.sizeOf_core_le body
    exact Expr.readsBack_of_core he rfl hf fun hcore hlen => Expr.readsBack body.core hcore hlen
  | .opt s body =>
    have hless := Expr.sizeOf_core_le body
    exact Expr.readsBack_of_core he rfl hf fun hcore hlen => Expr.readsBack body.core hcore hlen
  | .lookahead _ _ body =>
    rw [Expr.Writable] at he
    rw [Expr.write, List.length_cons] at hf
    exact Expr.readsBack_lookahead he.2 he.1 (Expr.readsBack body he.2 (by omega))
  | .codePredicate _ polarity k =>
    rw [Expr.Writable] at he
    intro rest _
    have hk := Code.write_reads he rest
    rw [← Code.afterBlanks_write] at hk
    exact operand_reads_codePredicate polarity hk
  | .label _ name body =>
    rw [Expr.Writable] at he
    rw [Expr.write, List.length_append, List.length_cons] at hf
    exact Expr.readsBack_label he.1 he.2.2 he.2.1 (Expr.readsBack body he.2.2 (by omega))
  | .action _ hint k body =>
    rw [Expr.Writable] at he
    rw [Expr.write, List.length_append] at hf
    exact Expr.readsBack_action he.1 he.2.1 (Expr.readsBack body he.2.2 (by omega))
  | .bareAction _ hint k =>
    rw [Expr.Writable] at he
    intro rest _
    have hk := Code.write_reads he rest
    rw [← Code.afterBlanks_write] at hk
    rw [Expr.write, writeAction_append]
    exact acted_reads_bareAction (labelled_refuses_action (hint_reads hint _) hk)
      (actionTail_reads (hint_reads hint _) hk)
  | .group _ body =>
    rw [Expr.Writable] at he
    rw [Expr.write, List.length_cons, List.length_append] at hf
    obtain ⟨fuel, rfl⟩ : ∃ n, fuel = n + 1 := ⟨fuel - 1, by omega⟩
    exact Expr.readsBack_group he (Expr.readsBack body he (by omega))
termination_by sizeOf e

/-- What is written of an expression is read back as a whole expression. -/
theorem Expr.write_reads {e : Expr} (he : e.Writable) {rest : List Char} (hrest : EndsChoice rest) :
    expr.Reads (e.write ++ rest) rest (·.unplaced = e.unplaced) := by
  intro c hc
  have hf : e.write.length ≤ c.rest.length := by
    rw [hc, List.length_append]
    omega
  exact (e.readsBack he hf).at e.level_le hrest c hc

/-! ### Reading definitions back -/

/-- Parameters are read back. -/
theorem params_read_back {ps : List Ident} (hne : ps ≠ []) (hps : ∀ p ∈ ps, IsIdent p.name)
    (rest : List Char) :
    (sepBy1 ident (separator ',')).Reads
      (afterBlanks ([',', ' '].intercalate (ps.map (·.name.toList)) ++ '>' :: rest)) ('>' :: rest)
      fun names => names.map Ident.unplaced = ps.map Ident.unplaced :=
  listed_reads ident_takes hne (fun p hp _ hcs => ident_reads_back (hps p hp) (EndsReference.name hcs))
    (fun p hp cs => (hps p hp).head cs) rest

/-- The arrow of a definition with what follows it. -/
def arrowThen (cs : List Char) : List Char := [' ', '<', '-', ' '] ++ cs

theorem afterBlanks_arrowThen (cs : List Char) : afterBlanks (arrowThen cs) = '<' :: '-' :: ' ' :: cs := by
  unfold arrowThen
  rw [List.cons_append, afterBlanks_space rfl]
  exact afterBlanks_of_head (by rintro y ⟨⟩; decide)

/-- The parameters of a definition with what follows them. -/
def paramsThen (ps : List Ident) (cs : List Char) : List Char :=
  '<' :: ([',', ' '].intercalate (ps.map (·.name.toList)) ++ '>' :: cs)

theorem Item.write_rule (r : Rule) (rest : List Char) :
    (Item.rule r).write ++ rest = r.name.name.toList ++ arrowThen (r.expr.write ++ rest) := by
  unfold Item.write arrowThen
  rw [List.append_assoc, List.append_assoc]

theorem Item.write_template (t : Template) (rest : List Char) :
    (Item.template t).write ++ rest =
      t.name.name.toList ++ paramsThen t.params (arrowThen (t.expr.write ++ rest)) := by
  unfold Item.write paramsThen arrowThen
  simp only [List.append_assoc, List.cons_append, List.nil_append]

theorem paramsThen_reads {ps : List Ident} (hne : ps ≠ []) (hps : ∀ p ∈ ps, IsIdent p.name)
    (cs : List Char) :
    params.Reads (paramsThen ps cs) cs fun names => names.map Ident.unplaced = ps.map Ident.unplaced :=
  params_reads (afterBlanks_of_head (by rintro y ⟨⟩; decide)) (params_read_back hne hps cs)
    (afterBlanks_of_head (by rintro y ⟨⟩; decide))

/-- The text of a definition begins with its name, and what follows is the rest of a head. -/
theorem Item.write_head {i : Item} (hi : i.Writable) (rest : List Char) :
    IsIdent i.name.name ∧ ∃ cs, i.write ++ rest = i.name.name.toList ++ cs ∧
      (∀ x ∈ cs.head?, continuesName x = false) ∧ HeadTail cs ∧ ¬ Loose cs := by
  cases i with
  | rule r =>
    refine ⟨hi.1, _, Item.write_rule r rest, by rintro x ⟨⟩; decide, .rule (afterBlanks_arrowThen _), ?_⟩
    rintro ⟨-, ds, hds, hdash⟩
    rw [afterBlanks_arrowThen] at hds
    cases hds
    exact hdash rfl
  | template t =>
    refine ⟨hi.1, _, Item.write_template t rest, by rintro x ⟨⟩; decide, ?_, fun h => h.1 rfl⟩
    exact .template (afterBlanks_of_head (by rintro y ⟨⟩; decide))
      ((params_read_back hi.2.1 hi.2.2.1 _).mono fun _ _ => trivial)
      (afterBlanks_of_head (by rintro y ⟨⟩; decide)) (afterBlanks_arrowThen _)

/-- **A definition is read back.** -/
theorem Item.write_reads {i : Item} (hi : i.Writable) {rest : List Char} (hrest : EndsChoice rest) :
    item.Reads (i.write ++ rest) rest (·.unplaced = i.unplaced) := by
  cases i with
  | rule r =>
    have hbody := Expr.write_reads hi.2 hrest
    rw [← Expr.afterBlanks_write hi.2, ← afterBlanks_space (x := ' ') rfl] at hbody
    rw [Item.write_rule]
    refine (item_reads_rule (ident_reads_back hi.1 (by rintro x ⟨⟩; decide)) (afterBlanks_arrowThen _)
      hbody).mono ?_
    rintro j ⟨x, hx, hj⟩
    rw [hj, hx, Item.unplaced, Rule.unplaced, Ident.unplaced]
  | template t =>
    have hbody := Expr.write_reads hi.2.2.2 hrest
    rw [← Expr.afterBlanks_write hi.2.2.2, ← afterBlanks_space (x := ' ') rfl] at hbody
    rw [Item.write_template]
    refine (item_reads_template (ident_reads_back hi.1 (by rintro x ⟨⟩; decide))
      (paramsThen_reads hi.2.1 hi.2.2.1 _) (afterBlanks_arrowThen _) hbody).mono ?_
    rintro j ⟨x, hx, hj⟩
    rw [hj, hx, Item.unplaced, Template.unplaced, Ident.unplaced]

/-! ### Reading grammars back -/

/-- Definitions, each in a line of its own. -/
def writeItems (is : List Item) : List Char := is.flatMap fun i => i.write ++ ['\n']

theorem writeItems_cons (i : Item) (is : List Item) :
    writeItems (i :: is) = i.write ++ '\n' :: writeItems is := by
  unfold writeItems
  rw [List.flatMap_cons, List.append_assoc]
  rfl

theorem writeItems_head {is : List Item} (his : ∀ i ∈ is, i.Writable) :
    ∀ x ∈ (writeItems is).head?, startsName x = true := by
  cases is with
  | nil => rintro x ⟨⟩
  | cons i is =>
    rw [writeItems_cons]
    obtain ⟨hname, cs, hcs, -⟩ := Item.write_head (his i List.mem_cons_self) ('\n' :: writeItems is)
    obtain ⟨y, hy, hstarts⟩ := hname.head cs
    rw [hcs, hy]
    rintro x ⟨⟩
    exact hstarts

theorem afterBlanks_writeItems {is : List Item} (his : ∀ i ∈ is, i.Writable) :
    afterBlanks (writeItems is) = writeItems is :=
  afterBlanks_of_head fun x hx => not_startsBlank_of_startsName (writeItems_head his x hx)

/-- More definitions, in lines of their own, may follow a definition. -/
theorem EndsChoice.of_items {is : List Item} (his : ∀ i ∈ is, i.Writable) :
    EndsChoice ('\n' :: writeItems is) := by
  have hrefused : (∀ inner, (labelled inner).Refuses (writeItems is)) ∧ actionTail.Refuses (writeItems is) := by
    cases is with
    | nil => exact ⟨fun inner => (labelled_starts inner).refuses (by rintro y ⟨⟩),
        actionTail_starts.refuses (by rintro y ⟨⟩)⟩
    | cons i is =>
      rw [writeItems_cons]
      obtain ⟨hname, cs, hcs, hends, htail, hloose⟩ :=
        Item.write_head (his i List.mem_cons_self) ('\n' :: writeItems is)
      rw [hcs]
      have hident := ident_reads_back hname hends
      exact ⟨fun inner => labelled_refuses_of_head hident htail hloose,
        actionTail_refuses_of_head hident htail⟩
  have hne : ∀ x ∈ marks, (writeItems is).head? ≠ some x := by
    intro x hx heq
    exact not_mem_marks_of_startsName (writeItems_head his x heq) hx
  have hblanks : afterBlanks ('\n' :: writeItems is) = writeItems is := by
    rw [afterBlanks_space rfl, afterBlanks_writeItems his]
  refine ⟨⟨⟨.of_space rfl ?_, fun inner => ?_⟩, ?_⟩, ?_⟩
  · rw [afterBlanks_writeItems his]
    exact hne _ (by decide)
  · rw [hblanks]
    exact hrefused.1 inner
  · rw [hblanks]
    exact hrefused.2
  · rw [hblanks]
    exact hne _ (by decide)

theorem writeItems_read {is : List Item} (his : ∀ i ∈ is, i.Writable) :
    (many (thenBlanks item)).Reads (writeItems is) []
      fun items => items.map Item.unplaced = is.map Item.unplaced := by
  induction is with
  | nil =>
    refine (many_reads_nil (.bind_left (item_starts.refuses (by rintro y ⟨⟩)))).mono ?_
    rintro items rfl
    rfl
  | cons i is ih =>
    have hrest : ∀ j ∈ is, j.Writable := fun j hj => his j (List.mem_cons_of_mem _ hj)
    have hitem := thenBlanks_reads (Item.write_reads (his i List.mem_cons_self) (.of_items hrest))
    rw [afterBlanks_space rfl, afterBlanks_writeItems hrest] at hitem
    rw [writeItems_cons]
    refine (many_reads_cons (thenBlanks_takes item_takes) hitem (ih hrest)).mono ?_
    rintro items ⟨j, js, rfl, hj, hjs⟩
    rw [List.map_cons, hj, hjs, List.map_cons]

/-- The leading code, in a line of its own, is read back. -/
theorem preamble_reads {preamble : Option Code} (hk : ∀ k ∈ preamble, k.Balanced) {is : List Item}
    (his : ∀ i ∈ is, i.Writable) :
    (optional (thenBlanks code)).Reads
      (afterBlanks ((preamble.elim [] fun k => k.write ++ ['\n']) ++ writeItems is)) (writeItems is)
      fun o => o.map Code.unplaced = preamble.map Code.unplaced := by
  cases preamble with
  | none =>
    have hcode : (thenBlanks code).Refuses (writeItems is) := by
      refine .bind_left (code_starts.refuses ?_)
      rintro x hx rfl
      exact not_mem_marks_of_startsName (writeItems_head his _ hx) (by decide)
    rw [Option.elim_none, List.nil_append, afterBlanks_writeItems his]
    refine (optional_reads_none hcode).mono ?_
    rintro o rfl
    rfl
  | some k =>
    have hcode := thenBlanks_reads (Code.write_reads (hk k rfl) ('\n' :: writeItems is))
    rw [afterBlanks_space rfl, afterBlanks_writeItems his, ← Code.afterBlanks_write] at hcode
    have htext : (Option.elim (some k) [] fun k => k.write ++ ['\n']) ++ writeItems is =
        k.write ++ '\n' :: writeItems is := by
      rw [Option.elim_some, List.append_assoc]
      rfl
    rw [htext]
    refine (optional_reads_some hcode).mono ?_
    rintro o ⟨k', rfl, hk'⟩
    rw [Option.map_some, hk', Option.map_some]

/-- **A grammar that can be written is read back, up to spans.** -/
theorem Grammar.readGrammar_write (g : Grammar) (hg : g.Writable) :
    ∃ g', readGrammar g.write = .ok g' ∧ g'.unplaced = g.unplaced := by
  obtain ⟨hpreamble, hitems⟩ := hg
  exact readGrammar_of_reads ((blanks_reads _).bind fun _ _ =>
    (preamble_reads hpreamble hitems).bind fun preamble hp => (writeItems_read hitems).bind fun items hi =>
      .pure (by rw [Grammar.unplaced, hp, hi, Grammar.unplaced]))

/-- Leading code, a template with two parameters that is applied to a rule and to an instance of itself,
labels before a reference and before a repetition, a lookahead before a group, code, classes and both
kinds of action. -/
def sampleGrammar : Grammar :=
  let name (s : String) : Ident := ⟨s, .nowhere⟩
  let code (s : String) : Code := ⟨s, .nowhere⟩
  let rule (s : String) (args : List Reference) : Reference := .mk .nowhere (name s) args
  ⟨some (code "use a;"),
    [.template ⟨.nowhere, name "Pair", [name "a", name "b"],
      .choice .nowhere
        [.action .nowhere "T" (code " \x7b a \x7d ")
          (.seq .nowhere
            [.label .nowhere (name "x") (.ref (rule "a" [])),
              .label .nowhere (name "y") (.star .nowhere (.ref (rule "b" [])))]),
          .bareAction .nowhere "U" (code "")]⟩,
    .rule ⟨.nowhere, name "S",
      .seq .nowhere
        [.lookahead .nowhere .negative (.group .nowhere (.choice .nowhere
            [.literal .nowhere "a\n", .anyChar .nowhere])),
          .codePredicate .nowhere .positive (code "ok"),
          .opt .nowhere (.plus .nowhere (.charClass .nowhere ⟨true, [('a', 'z'), (']', ']')]⟩)),
          .ref (rule "Pair" [rule "S" [], rule "Pair" [rule "S" [], rule "S" []]])]⟩]⟩

theorem sampleGrammar_writable : sampleGrammar.Writable := by
  have hnames : IsIdent "Pair" ∧ IsIdent "S" ∧ IsIdent "a" ∧ IsIdent "b" ∧ IsIdent "x" ∧ IsIdent "y" := by
    decide +kernel
  have hcode : ∀ s ∈ ["use a;", " \x7b a \x7d ", "", "ok"], Code.Balanced ⟨s, .nowhere⟩ := by decide
  have hclass : Ascends ⟨true, [('a', 'z'), (']', ']')]⟩ := by decide
  simp only [List.forall_mem_cons] at hcode
  simp [sampleGrammar, Grammar.Writable, Item.Writable, Expr.Writable, Expr.WritableAll, Reference.Writable,
    Reference.WritableAll, Expr.level, hnames, hcode, hclass]

theorem Grammar.readGrammar_write_sample : sampleGrammar.Writable ∧
    ∃ g, readGrammar sampleGrammar.write = .ok g ∧ g.unplaced = sampleGrammar.unplaced :=
  ⟨sampleGrammar_writable, sampleGrammar.readGrammar_write sampleGrammar_writable⟩

end Packrat

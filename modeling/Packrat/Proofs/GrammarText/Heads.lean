import Packrat.Proofs.GrammarText.Levels

/-!
# Where a definition begins

Nothing ends the body of a definition but the head of the next one, which must not be taken for one more
element of the body's last sequence: a name with optional arguments before an arrow is no operand.

* `HeadTail` — the text after the name of a definition, as far as its arrow.
* `Loose` — there are blanks between the name and the bracket that opens its parameters.
* `arguments_extends` — parts between commas and before a closing bracket, in a longer text.
* `labelled_refuses_of_head`, `labelled_reads_of_loose` — the head of a definition is no element of a
  sequence, unless it is loose: then its name is one.
-/

set_option autoImplicit false

namespace Packrat.GrammarText

open Reader

variable {inner : Reader Expr} {cs cs₁ : List Char} {i : Ident}

/-- The text after the name of a definition, with parameters or without, as far as the arrow. -/
inductive HeadTail (cs : List Char) : Prop where
  | rule {body : List Char} (harrow : afterBlanks cs = '<' :: '-' :: body)
  | template {ds es fs body : List Char} (hopen : afterBlanks cs = '<' :: ds)
      (hnames : (sepBy1 ident (separator ',')).Reads (afterBlanks ds) es fun _ => True)
      (hclose : afterBlanks es = '>' :: fs) (harrow : afterBlanks fs = '<' :: '-' :: body)

/-- After blanks comes a bracket that does not belong to an arrow. -/
def Loose (cs : List Char) : Prop :=
  cs.head? ≠ some '<' ∧ ∃ ds, afterBlanks cs = '<' :: ds ∧ ds.head? ≠ some '-'

theorem loose_iff : Loose cs ↔ cs.head? ≠ some '<' ∧ (afterBlanks cs).head? = some '<' ∧
    (afterBlanks cs).tail.head? ≠ some '-' := by
  constructor
  · rintro ⟨hhead, ds, hds, hdash⟩
    rw [hds]
    exact ⟨hhead, rfl, hdash⟩
  · rintro ⟨hhead, hopen, hdash⟩
    obtain ⟨ds, hds⟩ := List.head?_eq_some_iff.1 hopen
    rw [hds] at hdash
    exact ⟨hhead, ds, hds, hdash⟩

instance (cs : List Char) : Decidable (Loose cs) := decidable_of_iff' _ loose_iff

theorem HeadTail.afterBlanks_head (h : HeadTail cs) : (afterBlanks cs).head? = some '<' := by
  cases h with
  | rule harrow => rw [harrow]; rfl
  | template hopen _ _ _ => rw [hopen]; rfl

theorem HeadTail.head_ne (h : HeadTail cs) {x : Char} (hx : ¬ StartsBlank x) (hne : x ≠ '<') :
    cs.head? ≠ some x := by
  refine head_ne_of_afterBlanks hx ?_
  rw [h.afterBlanks_head]
  simpa using hne.symm

theorem separator_eq_some {mark : Char} {c c' : Cursor} {u : Unit}
    (h : (separator mark c).result = some (u, c')) :
    ∃ ds, afterBlanks c.rest = mark :: ds ∧ c'.rest = afterBlanks ds := by
  obtain ⟨u₁, c₁, h₁, h⟩ := bind_eq_some.1 h
  obtain ⟨u₂, c₂, h₂, h₃⟩ := bind_eq_some.1 h
  obtain ⟨ds, hds, heq⟩ := exactly_eq_some.1 h₂
  cases heq
  rw [blanks_eq_some h₁] at hds
  exact ⟨ds, hds, blanks_eq_some h₃⟩

section Parts

variable {α β : Type} {e : List Char} (he : ∀ x ∈ e.head?, x = '\n')
include he

theorem separator_extends {mark : Char} {c c₁ : Cursor} {u : Unit}
    (h : (separator mark c).result = some (u, c₁)) (hne : c₁.rest ≠ []) :
    (separator mark).Reads (c.rest ++ e) (c₁.rest ++ e) fun _ => True := by
  obtain ⟨ds, hmark, hrest⟩ := separator_eq_some h
  have hread := separator_reads (afterBlanks_extend_cons he hmark)
  rw [hrest] at hne ⊢
  rwa [afterBlanks_extend he hne] at hread

/-- Parts between commas and before a closing bracket are read by another reader in a longer text, if each
of them is, unless an opening bracket follows it. -/
theorem arguments_extends {p : Reader α} {q : Reader β} {R : α → β → Prop} (tp : p.Takes 1)
    (tq : q.Takes 1) (hstarts : p.Starts fun x => startsName x = true)
    (hp : ∀ {c c' : Cursor} {a : α}, (p c).result = some (a, c') →
      (afterBlanks (c'.rest ++ e)).head? ≠ some '<' → q.Reads (c.rest ++ e) (c'.rest ++ e) (R a))
    {c c' : Cursor} {as : List α} (h : (sepBy1 p (separator ',') c).result = some (as, c'))
    {ds : List Char} (hclose : afterBlanks c'.rest = '>' :: ds) :
    (sepBy1 q (separator ',')).Reads (c.rest ++ e) (c'.rest ++ e) (List.Forall₂ R as) := by
  have htakes : ∀ {γ : Type} {p : Reader γ}, p.Takes 1 → Reader.Takes 1 (separator ',' >>= fun _ => p) :=
    fun tp => (separator_takes _).then fun _ => tp.mono (Nat.zero_le 1)
  have hnext : ∀ {r ds : List Char} {x : Char}, x ≠ '<' → afterBlanks r = x :: ds →
      (afterBlanks (r ++ e)).head? ≠ some '<' := by
    intro r ds x hx hr
    rw [afterBlanks_extend_cons he hr]
    simpa using hx
  refine (sepBy1_extends (R := R) (Q := (· = []))
    (fun _ r s => s = r ++ e ∧ (afterBlanks (r ++ e)).head? ≠ some '<') (htakes tp) (htakes tq) ?_ ?_ h
    (fun _ _ => ⟨rfl, hnext (by decide) hclose⟩) (many_reads_nil (.bind_left (separator_refuses ?_)))).mono ?_
  · rintro c c' a s ha ⟨rfl, hne⟩
    exact hp ha hne
  · intro c c₁ u r hu ha
    obtain ⟨x, ds, hds, -⟩ := hstarts _ _ ha
    obtain ⟨es, hcomma, -⟩ := separator_eq_some hu
    exact ⟨separator_extends he hu (by rw [hds]; exact List.cons_ne_nil _ _),
      fun _ => ⟨rfl, hnext (by decide) hcomma⟩⟩
  · rw [afterBlanks_extend_cons he hclose]
    simp
  · rintro bs ⟨bs₁, bs₂, rfl, hbs, rfl⟩
    rwa [List.append_nil]

end Parts

/-- Names with commas between them, before a closing bracket, are references without arguments. -/
theorem references_read_of_names {P : List Ident → Prop} (fuel : Nat)
    (h : (sepBy1 ident (separator ',')).Reads cs cs₁ P) {ds : List Char}
    (hclose : afterBlanks cs₁ = '>' :: ds) :
    (sepBy1 (referenceWithin (fuel + 1)) (separator ',')).Reads cs cs₁ fun _ => True := by
  have hname : ∀ {c c' : Cursor} {j : Ident}, (ident c).result = some (j, c') →
      (afterBlanks (c'.rest ++ [])).head? ≠ some '<' →
        (referenceWithin (fuel + 1)).Reads (c.rest ++ []) (c'.rest ++ []) fun _ => True := by
    intro c c' j hj hne
    obtain ⟨x, ds, hc, hx, hrest, -⟩ := ident_eq_some hj
    rw [List.append_nil] at hne ⊢
    rw [List.append_nil, hc, hrest]
    rw [hrest] at hne
    have hargs : (referenceArguments fuel).Refuses (afterName ds) :=
      referenceArguments_refuses (head_ne_of_afterBlanks (by decide) hne)
    exact (reference_reads_plain (ident_reads hx ds) hargs).mono fun _ _ => trivial
  obtain ⟨js, c', hres, rfl, -⟩ := h ⟨0, cs⟩ rfl
  have hall := arguments_extends head_nil ident_takes (referenceWithin_takes _) ident_starts hname hres hclose
  rw [List.append_nil, List.append_nil] at hall
  exact hall.mono fun _ _ => trivial

theorem Loose.afterBlanks_head (h : Loose cs) : (afterBlanks cs).head? = some '<' := by
  obtain ⟨-, ds, hds, -⟩ := h
  rw [hds]
  rfl

/-- The arrow of a definition opens no arguments. -/
theorem referenceArguments_refuses_arrow {body : List Char} (fuel : Nat)
    (harrow : afterBlanks cs = '<' :: '-' :: body) : (referenceArguments fuel).Refuses cs := by
  by_cases hhead : cs.head? = some '<'
  · rw [afterBlanks_of_head (by rw [hhead]; rintro y ⟨⟩; decide)] at harrow
    subst harrow
    have hdash : (referenceWithin fuel).Refuses ('-' :: body) := by
      refine (referenceWithin_starts fuel).refuses ?_
      rintro y ⟨⟩
      simp [startsName_eq_false (show '-' ∈ marks by decide)]
    exact .bind_right (exactly_reads ['<'] _) fun _ _ =>
      .bind_right (blanks_reads_nothing (by simp; decide)) fun _ _ => .bind_left (.bind_left hdash)
  · exact referenceArguments_refuses hhead

/-- **The head of a definition is no operand**, unless there are blanks before its parameters. -/
theorem referenceOperand_refuses_of_head (hname : ident.Reads cs cs₁ (·.unplaced = i))
    (htail : HeadTail cs₁) (hloose : ¬ Loose cs₁) : referenceOperand.Refuses cs := by
  cases htail with
  | rule harrow =>
    have hargs := referenceArguments_refuses_arrow cs.length harrow
    exact referenceOperand_refuses_arrow (reference_reads (reference_reads_plain hname hargs)) harrow
  | @template ds es fs body hopen hnames hclose harrow =>
    have hdash : ds.head? ≠ some '-' := by
      intro heq
      obtain ⟨x, ds', hds, hx⟩ := ident_starts.sepBy1.of_reads hnames
      have hhead := afterBlanks_head_of_head (by decide) heq
      rw [hds] at hhead
      cases hhead
      rw [startsName_eq_false (by decide)] at hx
      cases hx
    have hsnug : cs₁.head? = some '<' := Classical.byContradiction fun h => hloose ⟨h, ds, hopen, hdash⟩
    have hcs₁ : cs₁ = '<' :: ds := by
      rwa [afterBlanks_of_head (by rw [hsnug]; rintro y ⟨⟩; decide)] at hopen
    obtain ⟨x, cs', rfl, -⟩ := ident_starts.of_reads hname
    have hargs : (referenceArguments (cs'.length + 1)).Reads cs₁ fs fun _ => True := by
      rw [hcs₁]
      exact referenceArguments_reads (references_read_of_names _ hnames hclose) hclose
    exact referenceOperand_refuses_arrow (reference_reads (reference_reads_args hname hargs)) harrow

/-- **The head of a definition is no element of a sequence**, unless it is loose. -/
theorem labelled_refuses_of_head (hname : ident.Reads cs cs₁ (·.unplaced = i)) (htail : HeadTail cs₁)
    (hloose : ¬ Loose cs₁) : (labelled inner).Refuses cs := by
  have href := referenceOperand_refuses_of_head hname htail hloose
  obtain ⟨x, cs', rfl, hx⟩ := ident_starts.of_reads hname
  refine .orElse (.bind_left (spanned_refuses ?_)) (predicate_refuses_of_name hx href)
  exact .bind_right hname fun _ _ => .bind_left (exactly_refuses (htail.head_ne (by decide) (by decide)))

/-- The head of a definition is no action. -/
theorem actionTail_refuses_of_head (hname : ident.Reads cs cs₁ (·.unplaced = i)) (htail : HeadTail cs₁) :
    actionTail.Refuses cs := by
  have hhint : actionType.Reads cs cs₁ fun _ => True := .orElse_left (hname.bind fun _ _ => pure_reads _ _)
  exact actionTail_refuses hhint (htail.head_ne (by decide) (by decide))

/-- **The name before a loose head is one more element of a sequence.** -/
theorem labelled_reads_of_loose (hname : ident.Reads cs cs₁ (·.unplaced = i)) (h : Loose cs₁) :
    (labelled inner).Reads cs cs₁ fun _ => True := by
  have hne : ∀ {x : Char}, ¬ StartsBlank x → x ≠ '<' → cs₁.head? ≠ some x := by
    intro x hx hne
    refine head_ne_of_afterBlanks hx ?_
    rw [h.afterBlanks_head]
    simpa using hne.symm
  obtain ⟨hhead, ds, hopen, hdash⟩ := h
  have href : reference.Reads cs cs₁ (·.unplaced = .mk .nowhere i []) :=
    reference_reads (reference_reads_plain hname (referenceArguments_refuses hhead))
  have harrow : ∀ body, afterBlanks cs₁ ≠ '<' :: '-' :: body := by
    intro body heq
    rw [hopen] at heq
    cases heq
    exact hdash rfl
  have hoperand : (operand inner).Reads cs cs₁ (·.unplaced = .ref (.mk .nowhere i [])) :=
    operand_reads_reference (referenceOperand_reads href harrow (hne (by decide) (by decide)))
  have hmarks : markAt.Refuses cs₁ := by
    refine markAt_starts.refuses ?_
    rintro x hx (rfl | rfl | rfl)
    · exact hne (by decide) (by decide) hx
    · exact hne (by decide) (by decide) hx
    · exact hne (by decide) (by decide) hx
  have hnone : (many markAt).Reads cs₁ cs₁ fun ms => ms.map (·.1) = [] := many_reads_none _ hmarks
  exact (labelled_reads_predicate (predicate_reads_repeated (repeated_reads hoperand hnone))).mono
    fun _ _ => trivial

end Packrat.GrammarText

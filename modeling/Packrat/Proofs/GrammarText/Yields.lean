import Packrat.Proofs.GrammarText.Extent

/-!
# What readers yield

* `Reader.Yields` — every result of a reader has a property.
* `readGrammar_params_ne_nil` — a template that is read has a parameter.
* `IsName`, `readGrammar_isName` — an item that is read has a name of letters, digits and underscores.
-/

set_option autoImplicit false

namespace Packrat

namespace Reader

variable {α β : Type}

/-- Every result of a reader has a property. -/
def Yields (p : Reader α) (P : α → Prop) : Prop :=
  ∀ (c : Cursor) (r : α × Cursor), (p c).result = some r → P r.1

theorem yields_true (p : Reader α) : p.Yields fun _ => True := fun _ _ _ => trivial

theorem Yields.pure {P : α → Prop} {a : α} (h : P a) : (Pure.pure a : Reader α).Yields P := by
  intro c r hr
  cases hr
  exact h

theorem Yields.bind {P : α → Prop} {Q : β → Prop} {p : Reader α} {f : α → Reader β}
    (hp : p.Yields P) (hf : ∀ a, P a → (f a).Yields Q) : (p >>= f).Yields Q := by
  intro c r hr
  change (Reader.bind p f c).result = some r at hr
  unfold Reader.bind at hr
  simp only at hr
  split at hr
  · cases hr
  · rename_i a next hfirst
    exact hf a (hp c _ hfirst) next r hr

theorem satisfy_yields (token : String) (test : Char → Bool) :
    (satisfy token test).Yields fun x => test x = true := by
  intro c r hr
  unfold satisfy at hr
  split at hr
  · split at hr
    · rename_i htest
      cases hr
      exact htest
    · cases hr
  · cases hr

theorem Yields.orElse {P : α → Prop} {p q : Reader α} (hp : p.Yields P) (hq : q.Yields P) :
    (p.orElse q).Yields P := by
  intro c r hr
  unfold Reader.orElse at hr
  simp only at hr
  split at hr
  · rename_i s hfirst
    cases hr
    exact hp c _ hfirst
  · exact hq c r hr

theorem Yields.firstOf {P : α → Prop} {ps : List (Reader α)} (h : ∀ p ∈ ps, p.Yields P) :
    (Reader.firstOf ps).Yields P := by
  induction ps with
  | nil =>
    intro c r hr
    cases hr
  | cons p ps ih =>
    exact (h p List.mem_cons_self).orElse (ih fun q hq => h q (List.mem_cons_of_mem _ hq))

theorem Yields.upTo {P : α → Prop} {p : Reader α} (hp : p.Yields P) (n : Nat) :
    (Reader.upTo n p).Yields fun as => ∀ a ∈ as, P a := by
  induction n with
  | zero => exact .pure fun a ha => by cases ha
  | succ n ih =>
    have hmore : Reader.Yields (p >>= fun a => Reader.upTo n p >>= fun as => Pure.pure (a :: as))
        fun as => ∀ a ∈ as, P a := by
      refine hp.bind fun a ha => ih.bind fun as has => .pure fun b hb => ?_
      rcases List.mem_cons.1 hb with rfl | hb
      · exact ha
      · exact has b hb
    have hnone : Reader.Yields (Pure.pure [] : Reader (List α)) fun as => ∀ a ∈ as, P a :=
      .pure fun a ha => by cases ha
    exact fun c => hmore.orElse hnone c

theorem Yields.many {P : α → Prop} {p : Reader α} (hp : p.Yields P) :
    (Reader.many p).Yields fun as => ∀ a ∈ as, P a := fun c => hp.upTo _ c

theorem Yields.sepBy1 (p : Reader α) (sep : Reader Unit) :
    (Reader.sepBy1 p sep).Yields fun as => as ≠ [] :=
  (yields_true p).bind fun _ _ => (yields_true _).bind fun _ _ => .pure (List.cons_ne_nil _ _)

theorem Yields.sepBy1_forall {P : α → Prop} {p : Reader α} (hp : p.Yields P) (sep : Reader Unit) :
    (Reader.sepBy1 p sep).Yields fun as => ∀ a ∈ as, P a :=
  hp.bind fun _ ha => ((yields_true sep).bind fun _ _ => hp).many.bind fun _ has =>
    .pure (List.forall_mem_cons.2 ⟨ha, has⟩)

theorem Yields.optional {P : α → Prop} {p : Reader α} (hp : p.Yields P) :
    (Reader.optional p).Yields fun o => ∀ a ∈ o, P a := by
  refine Yields.orElse (hp.bind fun a ha => .pure ?_) (.pure ?_)
  · intro b hb
    cases hb
    exact ha
  · intro b hb
    cases hb

end Reader

namespace GrammarText

open Reader

theorem params_yields : params.Yields fun ps => ps ≠ [] :=
  (yields_true _).bind fun _ _ => (yields_true _).bind fun _ _ => (yields_true _).bind fun _ _ =>
    (Yields.sepBy1 _ _).bind fun _ hps =>
      (yields_true _).bind fun _ _ => (yields_true _).bind fun _ _ => .pure hps

/-- If an item is a template, it has a parameter. -/
def Parametrised (i : Item) : Prop := ∀ t, i = .template t → t.params ≠ []

theorem spanned_yields {α : Type} {P : α → Prop} {p : Reader α} (hp : p.Yields P) :
    (spanned p).Yields fun r => P r.1 :=
  (yields_true _).bind fun _ _ => hp.bind fun _ ha => (yields_true _).bind fun _ _ => .pure ha

theorem thenBlanks_yields {α : Type} {P : α → Prop} {p : Reader α} (hp : p.Yields P) :
    (thenBlanks p).Yields P :=
  hp.bind fun _ ha => (yields_true _).bind fun _ _ => .pure ha

theorem grammar_yields {P : Item → Prop} (hitem : item.Yields P) :
    grammar.Yields fun g => ∀ i ∈ g.items, P i :=
  (yields_true _).bind fun _ _ => (yields_true _).bind fun _ _ =>
    (thenBlanks_yields hitem).many.bind fun _ hitems => .pure hitems

theorem readAll_yields {α : Type} {P : α → Prop} {p : Reader α} (hp : p.Yields P) {cs : List Char}
    {a : α} (h : readAll p cs = .ok a) : P a := by
  unfold readAll at h
  simp only at h
  split at h
  · rename_i b offset hres
    cases h
    exact hp _ _ hres
  · cases h
  · cases h

/-- What the reader of items yields holds of the items of a grammar that is read. -/
theorem readGrammar_items {P : Item → Prop} (hitem : item.Yields P) {cs : List Char} {g : Grammar}
    (h : readGrammar cs = .ok g) : ∀ i ∈ g.items, P i := by
  unfold readGrammar at h
  split at h
  · rename_i g' hread
    cases h
    exact readAll_yields (grammar_yields hitem) hread
  · cases h

/-- Every character of a name may go on a name. -/
def IsName (s : String) : Prop := ∀ c ∈ s.toList, continuesName c = true

theorem continuesName_of_startsName {c : Char} (h : startsName c = true) : continuesName c = true := by
  unfold startsName at h
  unfold continuesName isAlphanumeric
  rw [Bool.or_eq_true] at h
  rcases h with h | h <;> simp [h]

theorem ident_yields : ident.Yields fun i => IsName i.name := by
  refine (yields_true _).bind fun _ _ => (satisfy_yields _ _).bind fun first hfirst =>
    (satisfy_yields _ _).many.bind fun others hothers => (yields_true _).bind fun _ _ => .pure ?_
  show ∀ c ∈ (String.ofList (first :: others)).toList, continuesName c = true
  rw [String.toList_ofList, List.forall_mem_cons]
  exact ⟨continuesName_of_startsName hfirst, hothers⟩

/-- **An item has a name, and if it is a template, a parameter.** -/
theorem item_yields : item.Yields fun i => IsName i.name.name ∧ Parametrised i := by
  have hparts : itemParts.Yields fun parts => IsName parts.1.name ∧ ∀ ps ∈ parts.2.1, ps ≠ [] :=
    ident_yields.bind fun _ hname => params_yields.optional.bind fun _ hps =>
      (yields_true _).bind fun _ _ => (yields_true _).bind fun _ _ =>
        (yields_true _).bind fun _ _ => (yields_true _).bind fun _ _ => .pure ⟨hname, hps⟩
  refine (spanned_yields hparts).bind ?_
  rintro ⟨⟨name, ps, x⟩, s⟩ ⟨hname, hps⟩
  cases ps with
  | some ps =>
    refine .pure ⟨hname, fun t ht => ?_⟩
    cases ht
    exact hps ps rfl
  | none =>
    refine .pure ⟨hname, fun t ht => ?_⟩
    cases ht

/-- **An item that is read has a name of letters, digits and underscores.** -/
theorem readGrammar_isName {cs : List Char} {g : Grammar} (h : readGrammar cs = .ok g) {i : Item}
    (hi : i ∈ g.items) : IsName i.name.name := (readGrammar_items item_yields h i hi).1

/-- **A template that is read has a parameter.** -/
theorem readGrammar_params_ne_nil {cs : List Char} {g : Grammar} (h : readGrammar cs = .ok g)
    {t : Template} (ht : t ∈ g.templates) : t.params ≠ [] := by
  obtain ⟨i, hi, hit⟩ := List.mem_filterMap.1 ht
  refine (readGrammar_items item_yields h i hi).2 t ?_
  cases i with
  | rule r => cases hit
  | template t' =>
    cases hit
    rfl

/-- A text is read as a grammar that passes a test. -/
def readsAs (cs : List Char) (test : Grammar → Bool) : Bool :=
  match readGrammar cs with
  | .ok g => test g
  | .error _ => false

theorem exists_of_readsAs {cs : List Char} {test : Grammar → Bool} (h : readsAs cs test = true) :
    ∃ g, readGrammar cs = .ok g ∧ test g = true := by
  unfold readsAs at h
  split at h
  · rename_i g hg
    exact ⟨g, hg, h⟩
  · cases h

end GrammarText

end Packrat

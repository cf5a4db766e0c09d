import Packrat.Proofs.Plain.Evaluator

/-!
# The cases of a plain evaluation

For each kind of expression, what an answer consists of.

* `Plain.expr_ref`, `Plain.expr_seq`, … — the answers for an expression in terms of its parts.
* `Plain.sequence_cons`, `Plain.choice_cons` — the answers for several expressions.
* `Plain.iterate_induction` — induction on how often an expression matched.
-/

set_option autoImplicit false

namespace Packrat.Plain

variable {c : Plain} {current : String} {labels : Bindings} {p : Nat}

/-- A rule is evaluated as its body, without labels. -/
theorem rule_cases {name : String} {o : Outcome} {steps : List Step}
    (h : c.rule name p = some (o, steps)) :
    ∃ r t, c.rules.find? (·.name.name == name) = some r ∧ c.expr name r.expr [] p = some t ∧
      t.result = o ∧ t.steps = steps := by
  rw [rule] at h
  obtain ⟨r, hr, hbody⟩ := Option.bind_eq_some_iff.1 h
  obtain ⟨t, ht, he⟩ := Option.bind_eq_some_iff.1 hbody
  cases he
  exact ⟨r, t, hr, ht, rfl, rfl⟩

theorem literal_cases {text : String} {t : Trial Outcome} (h : c.literal text labels p = some t) :
    ∃ rest, dropBytes? c.text p = some rest ∧
      ((text.toList.isPrefixOf rest = true ∧
          t = ⟨.matched (p + byteLength text.toList) (.text text), labels, []⟩) ∨
        (text.toList.isPrefixOf rest = false ∧ t = missed (.literal text) p labels)) := by
  obtain ⟨rest, hrest, ht⟩ := Option.bind_eq_some_iff.1 h
  refine ⟨rest, hrest, ?_⟩
  split at ht
  · rename_i hpre
    cases ht
    exact .inl ⟨hpre, rfl⟩
  · rename_i hpre
    cases ht
    exact .inr ⟨Bool.eq_false_iff.2 hpre, rfl⟩

theorem oneChar_cases {terminal : Terminal} {test : Char → Bool} {t : Trial Outcome}
    (h : c.oneChar terminal test labels p = some t) :
    ∃ rest, dropBytes? c.text p = some rest ∧
      ((∃ x, rest.head? = some x ∧ test x = true ∧
          t = ⟨.matched (p + x.utf8Size) (.text (String.singleton x)), labels, []⟩) ∨
        ((∀ x, rest.head? = some x → test x = false) ∧ t = missed terminal p labels)) := by
  obtain ⟨rest, hrest, ht⟩ := Option.bind_eq_some_iff.1 h
  refine ⟨rest, hrest, ?_⟩
  cases rest with
  | nil =>
    cases ht
    exact .inr ⟨fun x hx => absurd hx (by simp), rfl⟩
  | cons x rest =>
    by_cases hx : test x = true
    · simp only [hx, if_true] at ht
      cases ht
      exact .inl ⟨x, rfl, hx, rfl⟩
    · simp only [hx] at ht
      cases ht
      refine .inr ⟨fun y hy => ?_, rfl⟩
      cases hy
      exact Bool.eq_false_iff.2 hx

section

variable {span : Span} {body : Expr} {es : List Expr} {t : Trial Outcome}

theorem expr_ref {reference : Reference} (h : c.expr current (.ref reference) labels p = some t) :
    ∃ o inside, c.rule reference.name.name p = some (o, inside) ∧
      t = ⟨o, labels, [.rule reference.name.name p o inside]⟩ := by
  rw [expr] at h
  obtain ⟨⟨o, inside⟩, hr, ht⟩ := Option.bind_eq_some_iff.1 h
  cases ht
  exact ⟨o, inside, hr, rfl⟩

theorem expr_seq (h : c.expr current (.seq span es) labels p = some t) :
    ∃ u, c.sequence current es labels p = some u ∧
      ((u.result = none ∧ t = ⟨.failed, labels, u.steps⟩) ∨
        ∃ stop vs, u.result = some (stop, vs) ∧
          t = ⟨.matched stop (.list vs), u.labels, u.steps⟩) := by
  rw [expr] at h
  obtain ⟨u, hu, ht⟩ := Option.bind_eq_some_iff.1 h
  refine ⟨u, hu, ?_⟩
  split at ht
  · rename_i stop vs hres
    cases ht
    exact .inr ⟨stop, vs, hres, rfl⟩
  · rename_i hres
    cases ht
    exact .inl ⟨hres, rfl⟩

theorem expr_star (h : c.expr current (.star span body) labels p = some t) :
    ∃ u, c.iterate current body labels p = some u ∧
      ((u.result.2 = [] ∧ t = ⟨.matched p .absent, labels, u.steps⟩) ∨
        (u.result.2 ≠ [] ∧
          t = ⟨.matched u.result.1 (.list u.result.2), u.labels, u.steps⟩)) := by
  rw [expr] at h
  obtain ⟨u, hu, ht⟩ := Option.bind_eq_some_iff.1 h
  refine ⟨u, hu, ?_⟩
  obtain ⟨⟨stop, vs⟩, bs, steps⟩ := u
  cases vs with
  | nil =>
    cases ht
    exact .inl ⟨rfl, rfl⟩
  | cons v vs =>
    cases ht
    exact .inr ⟨List.cons_ne_nil _ _, rfl⟩

theorem expr_plus (h : c.expr current (.plus span body) labels p = some t) :
    ∃ u, c.iterate current body labels p = some u ∧
      ((u.result.2 = [] ∧ t = ⟨.failed, labels, u.steps⟩) ∨
        (u.result.2 ≠ [] ∧
          t = ⟨.matched u.result.1 (.list u.result.2), u.labels, u.steps⟩)) := by
  rw [expr] at h
  obtain ⟨u, hu, ht⟩ := Option.bind_eq_some_iff.1 h
  refine ⟨u, hu, ?_⟩
  obtain ⟨⟨stop, vs⟩, bs, steps⟩ := u
  cases vs with
  | nil =>
    cases ht
    exact .inl ⟨rfl, rfl⟩
  | cons v vs =>
    cases ht
    exact .inr ⟨List.cons_ne_nil _ _, rfl⟩

theorem expr_opt (h : c.expr current (.opt span body) labels p = some t) :
    ∃ u, c.expr current body labels p = some u ∧
      ((u.result = .failed ∧ t = ⟨.matched p .absent, labels, u.steps⟩) ∨
        ∃ stop v, u.result = .matched stop v ∧ t = u) := by
  rw [expr] at h
  obtain ⟨u, hu, ht⟩ := Option.bind_eq_some_iff.1 h
  refine ⟨u, hu, ?_⟩
  split at ht
  · rename_i stop v hres
    cases ht
    exact .inr ⟨stop, v, hres, rfl⟩
  · rename_i hres
    cases ht
    exact .inl ⟨hres, rfl⟩

theorem expr_lookahead {polarity : Polarity}
    (h : c.expr current (.lookahead span polarity body) labels p = some t) :
    ∃ u, c.expr current body labels p = some u ∧
      t = ⟨lookahead polarity u.result p, labels, [.lookahead u.steps]⟩ := by
  rw [expr] at h
  obtain ⟨u, hu, ht⟩ := Option.bind_eq_some_iff.1 h
  cases ht
  exact ⟨u, hu, rfl⟩

theorem expr_label {name : Ident} (h : c.expr current (.label span name body) labels p = some t) :
    ∃ u, c.expr current body labels p = some u ∧
      ((u.result = .failed ∧ t = ⟨.failed, labels, u.steps⟩) ∨
        ∃ stop v, u.result = .matched stop v ∧
          t = ⟨.matched stop v, u.labels ++ [(name.name, v)], u.steps⟩) := by
  rw [expr] at h
  obtain ⟨u, hu, ht⟩ := Option.bind_eq_some_iff.1 h
  refine ⟨u, hu, ?_⟩
  split at ht
  · rename_i stop v hres
    cases ht
    exact .inr ⟨stop, v, hres, by rw [hres]⟩
  · rename_i hres
    cases ht
    exact .inl ⟨hres, rfl⟩

theorem expr_action {hint : String} {code : Code}
    (h : c.expr current (.action span hint code body) labels p = some t) :
    ∃ u, c.expr current body labels p = some u ∧
      ((u.result = .failed ∧ t = ⟨.failed, labels, u.steps⟩) ∨
        ∃ stop v, u.result = .matched stop v ∧
          t = c.askAction current hint code u.labels stop u.steps) := by
  rw [expr] at h
  obtain ⟨u, hu, ht⟩ := Option.bind_eq_some_iff.1 h
  refine ⟨u, hu, ?_⟩
  split at ht
  · rename_i stop v hres
    cases ht
    exact .inr ⟨stop, v, hres, rfl⟩
  · rename_i hres
    cases ht
    exact .inl ⟨hres, rfl⟩

end

theorem sequence_cons {e : Expr} {rest : List Expr} {t : Trial (Option (Nat × List Value))}
    (h : c.sequence current (e :: rest) labels p = some t) :
    ∃ u, c.expr current e labels p = some u ∧
      ((u.result = .failed ∧ t = ⟨none, labels, u.steps⟩) ∨
        ∃ next v w, u.result = .matched next v ∧ c.sequence current rest u.labels next = some w ∧
          t = ⟨w.result.map fun (stop, vs) => (stop, v :: vs), w.labels, u.steps ++ w.steps⟩) := by
  rw [sequence] at h
  obtain ⟨u, hu, ht⟩ := Option.bind_eq_some_iff.1 h
  refine ⟨u, hu, ?_⟩
  split at ht
  · rename_i hres
    cases ht
    exact .inl ⟨hres, rfl⟩
  · rename_i next v hres
    obtain ⟨w, hw, ht⟩ := Option.bind_eq_some_iff.1 ht
    cases ht
    exact .inr ⟨next, v, w, hres, hw, rfl⟩

theorem choice_cons {e : Expr} {rest : List Expr} {t : Trial Outcome}
    (h : c.choice current (e :: rest) labels p = some t) :
    ∃ u, c.expr current e labels p = some u ∧
      ((∃ stop v, u.result = .matched stop v ∧ t = u) ∨
        ∃ w, u.result = .failed ∧ c.choice current rest labels p = some w ∧
          t = ⟨w.result, w.labels, u.steps ++ w.steps⟩) := by
  rw [choice] at h
  obtain ⟨u, hu, ht⟩ := Option.bind_eq_some_iff.1 h
  refine ⟨u, hu, ?_⟩
  split at ht
  · rename_i stop v hres
    cases ht
    exact .inl ⟨stop, v, hres, rfl⟩
  · rename_i hres
    obtain ⟨w, hw, ht⟩ := Option.bind_eq_some_iff.1 ht
    cases ht
    exact .inr ⟨w, hres, hw, rfl⟩

theorem iterate_cases {body : Expr} {t : Trial (Nat × List Value)}
    (h : c.iterate current body labels p = some t) :
    ∃ u, c.expr current body labels p = some u ∧
      ((u.result = .failed ∧ t = ⟨(p, []), labels, u.steps⟩) ∨
        (∃ v, u.result = .matched p v ∧ t = ⟨(p, [v]), u.labels, u.steps⟩) ∨
        ∃ next v w, u.result = .matched next v ∧ next ≠ p ∧
          c.iterate current body u.labels next = some w ∧
          t = ⟨(w.result.1, v :: w.result.2), w.labels, u.steps ++ w.steps⟩) := by
  rw [iterate] at h
  obtain ⟨u, hu, ht⟩ := Option.bind_eq_some_iff.1 h
  refine ⟨u, hu, ?_⟩
  split at ht
  · rename_i hres
    cases ht
    exact .inl ⟨hres, rfl⟩
  · rename_i next v hres
    split at ht
    · rename_i hstay
      subst hstay
      cases ht
      exact .inr (.inl ⟨v, hres, rfl⟩)
    · rename_i hmove
      obtain ⟨w, hw, ht⟩ := Option.bind_eq_some_iff.1 ht
      cases ht
      exact .inr (.inr ⟨next, v, w, hres, hmove, hw, rfl⟩)

/-- **Induction on how often an expression matched**: no more, once without consuming input, or once
more. -/
theorem iterate_induction {body : Expr}
    {motive : Bindings → Nat → Trial (Nat × List Value) → Prop}
    (failed : ∀ labels p u, c.expr current body labels p = some u → u.result = .failed →
      motive labels p ⟨(p, []), labels, u.steps⟩)
    (stays : ∀ labels p u v, c.expr current body labels p = some u → u.result = .matched p v →
      motive labels p ⟨(p, [v]), u.labels, u.steps⟩)
    (moves : ∀ labels p u next v w, c.expr current body labels p = some u →
      u.result = .matched next v → next ≠ p → c.iterate current body u.labels next = some w →
      motive u.labels next w →
      motive labels p ⟨(w.result.1, v :: w.result.2), w.labels, u.steps ++ w.steps⟩)
    {labels : Bindings} {p : Nat} {t : Trial (Nat × List Value)}
    (h : c.iterate current body labels p = some t) : motive labels p t := by
  -- the values of the answer count the matches
  generalize hvs : t.result.2 = vs
  induction vs generalizing labels p t with
  | nil =>
    obtain ⟨u, hu, ⟨hres, rfl⟩ | ⟨v, hres, rfl⟩ | ⟨next, v, w, hres, hmove, hw, rfl⟩⟩ :=
      iterate_cases h
    · exact failed labels p u hu hres
    · cases hvs
    · cases hvs
  | cons _ _ ih =>
    obtain ⟨u, hu, ⟨hres, rfl⟩ | ⟨v, hres, rfl⟩ | ⟨next, v, w, hres, hmove, hw, rfl⟩⟩ :=
      iterate_cases h
    · cases hvs
    · exact stays labels p u v hu hres
    · exact moves labels p u next v w hu hres hmove hw (ih hw (List.cons.inj hvs).2)

end Packrat.Plain

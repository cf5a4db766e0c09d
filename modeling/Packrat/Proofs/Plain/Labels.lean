import Packrat.Proofs.Plain.Cases

/-!
# The labels after a plain evaluation

* `Plain.Keeps` — labels are only added, and what fails adds none.
* `Plain.expr_keeps` — every evaluation of an expression keeps the labels in this sense.
-/

set_option autoImplicit false

namespace Packrat.Plain

variable {c : Plain} {current : String}

/-- Labels are only added, and what fails adds none. -/
structure Keeps (before after : Bindings) (failed : Prop) : Prop where
  grows : before <+: after
  same : failed → after = before

theorem Keeps.refl (labels : Bindings) (failed : Prop) : Keeps labels labels failed :=
  ⟨List.prefix_rfl, fun _ => rfl⟩

theorem Keeps.adding {before after : Bindings} {failed : Prop} (h : before <+: after)
    (hfail : ¬ failed) : Keeps before after failed := ⟨h, fun hf => absurd hf hfail⟩

theorem iterate_keeps {body : Expr}
    (hbody : ∀ labels p t, c.expr current body labels p = some t →
      Keeps labels t.labels (t.result = .failed))
    {labels : Bindings} {p : Nat} {t : Trial (Nat × List Value)}
    (h : c.iterate current body labels p = some t) : Keeps labels t.labels (t.result.2 = []) := by
  refine iterate_induction (motive := fun labels _ t => Keeps labels t.labels (t.result.2 = []))
    ?_ ?_ ?_ h
  · exact fun labels p u _ _ => .refl labels _
  · exact fun labels p u v hu _ => .adding (hbody labels p u hu).grows (List.cons_ne_nil v [])
  · exact fun labels p u next v w hu _ _ _ ih =>
      .adding ((hbody labels p u hu).grows.trans ih.grows) (List.cons_ne_nil v _)

mutual

/-- **An evaluation only adds labels, and one that fails adds none.** -/
theorem expr_keeps (e : Expr) (labels : Bindings) (p : Nat) (t : Trial Outcome)
    (h : c.expr current e labels p = some t) : Keeps labels t.labels (t.result = .failed) := by
  cases e with
  | literal span text =>
    rw [expr] at h
    obtain ⟨rest, -, ⟨-, rfl⟩ | ⟨-, rfl⟩⟩ := literal_cases h <;> exact .refl labels _
  | charClass span k =>
    rw [expr] at h
    obtain ⟨rest, -, ⟨x, -, -, rfl⟩ | ⟨-, rfl⟩⟩ := oneChar_cases h <;> exact .refl labels _
  | anyChar span =>
    rw [expr] at h
    obtain ⟨rest, -, ⟨x, -, -, rfl⟩ | ⟨-, rfl⟩⟩ := oneChar_cases h <;> exact .refl labels _
  | ref reference =>
    obtain ⟨o, inside, -, rfl⟩ := expr_ref h
    exact .refl labels _
  | seq span es =>
    obtain ⟨u, hu, ⟨-, rfl⟩ | ⟨stop, vs, -, rfl⟩⟩ := expr_seq h
    · exact .refl labels _
    · exact .adding (sequence_keeps es labels p u hu) Outcome.noConfusion
  | choice span es =>
    rw [expr] at h
    exact choice_keeps es labels p t h
  | star span body =>
    obtain ⟨u, hu, ⟨-, rfl⟩ | ⟨-, rfl⟩⟩ := expr_star h
    · exact .refl labels _
    · exact .adding (iterate_keeps (expr_keeps body) hu).grows Outcome.noConfusion
  | plus span body =>
    obtain ⟨u, hu, ⟨-, rfl⟩ | ⟨-, rfl⟩⟩ := expr_plus h
    · exact .refl labels _
    · exact .adding (iterate_keeps (expr_keeps body) hu).grows Outcome.noConfusion
  | opt span body =>
    obtain ⟨u, hu, ⟨-, rfl⟩ | ⟨stop, v, -, rfl⟩⟩ := expr_opt h
    · exact .refl labels _
    · exact expr_keeps body labels p t hu
  | lookahead span polarity body =>
    obtain ⟨u, -, rfl⟩ := expr_lookahead h
    exact .refl labels _
  | codePredicate span polarity code =>
    rw [expr] at h
    cases h
    exact .refl labels _
  | label span name body =>
    obtain ⟨u, hu, ⟨-, rfl⟩ | ⟨stop, v, -, rfl⟩⟩ := expr_label h
    · exact .refl labels _
    · exact .adding ((expr_keeps body labels p u hu).grows.trans (List.prefix_append _ _))
        Outcome.noConfusion
  | action span hint code body =>
    obtain ⟨u, hu, ⟨-, rfl⟩ | ⟨stop, v, -, rfl⟩⟩ := expr_action h
    · exact .refl labels _
    · exact .adding (expr_keeps body labels p u hu).grows Outcome.noConfusion
  | bareAction span hint code =>
    rw [expr] at h
    cases h
    exact .refl labels _
  | group span body =>
    rw [expr] at h
    exact expr_keeps body labels p t h

theorem sequence_keeps (es : List Expr) (labels : Bindings) (p : Nat)
    (t : Trial (Option (Nat × List Value))) (h : c.sequence current es labels p = some t) :
    labels <+: t.labels := by
  cases es with
  | nil =>
    rw [sequence] at h
    cases h
    exact List.prefix_rfl
  | cons e rest =>
    obtain ⟨u, hu, ⟨-, rfl⟩ | ⟨next, v, w, -, hw, rfl⟩⟩ := sequence_cons h
    · exact List.prefix_rfl
    · exact (expr_keeps e labels p u hu).grows.trans (sequence_keeps rest u.labels next w hw)

theorem choice_keeps (es : List Expr) (labels : Bindings) (p : Nat) (t : Trial Outcome)
    (h : c.choice current es labels p = some t) : Keeps labels t.labels (t.result = .failed) := by
  cases es with
  | nil =>
    rw [choice] at h
    cases h
    exact .refl labels _
  | cons e rest =>
    obtain ⟨u, hu, ⟨stop, v, -, rfl⟩ | ⟨w, -, hw, rfl⟩⟩ := choice_cons h
    · exact expr_keeps e labels p t hu
    · exact choice_keeps rest labels p w hw

end

end Packrat.Plain

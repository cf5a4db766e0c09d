import Packrat.Proofs.Plain.Visits
import Packrat.Proofs.Template.Evaluator

/-!
# Rules that unfold targets

Where each target has a rule, which is its body with the references linked, the plain evaluation of the
rules is the evaluation of the targets: step by step, the two answer alike.

* `Direct.Unfolds` — rules that stand for the targets of a grammar.
* `Direct.Follows` — what is to be shown of a visit of a rule: its target fares like it.
* `Direct.expr_of_link` — a linked expression is evaluated as the expression itself.
* `Direct.target_of_holds` — a target fares like its rule.
-/

set_option autoImplicit false

namespace Packrat.Direct

open Step

/-- **Rules that stand for the targets of a grammar.** -/
structure Unfolds (d : Direct) (c : Plain) : Prop where
  meaning : c.meaning = d.meaning
  text : c.text = d.text
  rule : ∀ target, d.grammar.Reached target → ∃ env e r,
    d.grammar.body? target = some (env, e) ∧
      (∀ reference ∈ e.refs, d.grammar.Linked env reference) ∧
      c.rules.find? (·.name.name == target.name) = some r ∧ r.expr = env.scope.link e

/-- Each target of the name of a visited rule fares like it. -/
def Follows (d : Direct) (v : Visit) : Prop :=
  ∀ target, d.grammar.Reached target → target.name = v.name →
    d.target target v.offset = some (v.outcome, v.inside)

variable {d : Direct} {c : Plain} {env : Environment} {current : String} {labels : Bindings} {p : Nat}

/-- A repetition, once it is known how the body fares. -/
theorem iterate_of_link {body linked : Expr}
    (hbody : ∀ labels p t, c.expr current linked labels p = some t →
      (∀ v ∈ visitsAll t.steps, d.Follows v) → d.expr env current body labels p = some t)
    {t : Trial (Nat × List Value)} (h : c.iterate current linked labels p = some t)
    (hvisits : ∀ v ∈ visitsAll t.steps, d.Follows v) :
    d.iterate env current body labels p = some t := by
  revert hvisits
  refine Plain.iterate_induction (motive := fun labels p t =>
    (∀ v ∈ visitsAll t.steps, d.Follows v) → d.iterate env current body labels p = some t)
    ?_ ?_ ?_ h
  · intro labels p u hu hres hvisits
    rw [iterate, hbody labels p u hu hvisits]
    simp [hres]
  · intro labels p u v hu hres hvisits
    rw [iterate, hbody labels p u hu hvisits]
    simp [hres]
  · intro labels p u next v w hu hres hmove _ ih hvisits
    obtain ⟨hbefore, hafter⟩ := forall_visitsAll_append.1 hvisits
    rw [iterate, hbody labels p u hu hbefore]
    simp [hres, hmove, ih hafter]

section

variable (hc : d.Unfolds c)

include hc

theorem literal_eq (text : String) : c.literal text labels p = d.plain.literal text labels p := by
  rw [Plain.literal, Plain.literal, hc.text]
  rfl

theorem oneChar_eq (terminal : Terminal) (test : Char → Bool) :
    c.oneChar terminal test labels p = d.plain.oneChar terminal test labels p := by
  rw [Plain.oneChar, Plain.oneChar, hc.text]
  rfl

theorem askPredicate_eq (polarity : Polarity) (code : Code) :
    c.askPredicate current polarity code labels p =
      d.plain.askPredicate current polarity code labels p := by
  rw [Plain.askPredicate, Plain.askPredicate, hc.meaning]
  rfl

theorem askAction_eq (hint : String) (code : Code) (steps : List Step) :
    c.askAction current hint code labels p steps =
      d.plain.askAction current hint code labels p steps := by
  rw [Plain.askAction, Plain.askAction, hc.meaning]
  rfl

end

mutual

/-- **A linked expression is evaluated as the expression itself**, once it is known that targets fare
like the rules that are visited. -/
theorem expr_of_link (hc : d.Unfolds c) (e : Expr)
    (hlinked : ∀ reference ∈ e.refs, d.grammar.Linked env reference) (labels : Bindings) (p : Nat)
    (t : Trial Outcome) (h : c.expr current (env.scope.link e) labels p = some t)
    (hvisits : ∀ v ∈ visitsAll t.steps, d.Follows v) :
    d.expr env current e labels p = some t := by
  cases e with
  | literal span text =>
    rw [Scope.link, Plain.expr, literal_eq hc] at h
    rw [expr]
    exact h
  | charClass span k =>
    rw [Scope.link, Plain.expr, oneChar_eq hc] at h
    rw [expr]
    exact h
  | anyChar span =>
    rw [Scope.link, Plain.expr, oneChar_eq hc] at h
    rw [expr]
    exact h
  | ref reference =>
    -- the rule that is visited has the name of the target that the reference stands for
    obtain ⟨o, inside, -, rfl⟩ := Plain.expr_ref h
    have hlink := hlinked reference (by rw [Expr.refs]; exact List.mem_singleton_self _)
    have hname : env.scope.resolve reference = (env.resolve reference).name := hlink.name
    have htarget := hvisits ⟨env.scope.resolve reference, p, o, inside⟩ (by simp [Reference.name])
      _ hlink.reached hname.symm
    rw [expr, htarget, ← hname]
    rfl
  | seq span es =>
    obtain ⟨u, hu, ⟨hres, rfl⟩ | ⟨stop, vs, hres, rfl⟩⟩ := Plain.expr_seq h
    · rw [expr, sequence_of_link hc es hlinked labels p u hu hvisits]
      simp [hres]
    · rw [expr, sequence_of_link hc es hlinked labels p u hu hvisits]
      simp [hres]
  | choice span es =>
    rw [Scope.link, Plain.expr] at h
    rw [expr]
    exact choice_of_link hc es hlinked labels p t h hvisits
  | star span body =>
    obtain ⟨⟨⟨stop, vs⟩, after, steps⟩, hu, ⟨hnil, rfl⟩ | ⟨hcons, rfl⟩⟩ := Plain.expr_star h
    · obtain rfl : vs = [] := hnil
      rw [expr, iterate_of_link (expr_of_link hc body hlinked) hu hvisits]
      rfl
    · obtain ⟨v, vs, rfl⟩ := List.exists_cons_of_ne_nil hcons
      rw [expr, iterate_of_link (expr_of_link hc body hlinked) hu hvisits]
      rfl
  | plus span body =>
    obtain ⟨⟨⟨stop, vs⟩, after, steps⟩, hu, ⟨hnil, rfl⟩ | ⟨hcons, rfl⟩⟩ := Plain.expr_plus h
    · obtain rfl : vs = [] := hnil
      rw [expr, iterate_of_link (expr_of_link hc body hlinked) hu hvisits]
      rfl
    · obtain ⟨v, vs, rfl⟩ := List.exists_cons_of_ne_nil hcons
      rw [expr, iterate_of_link (expr_of_link hc body hlinked) hu hvisits]
      rfl
  | opt span body =>
    obtain ⟨u, hu, ⟨hres, rfl⟩ | ⟨stop, v, hres, rfl⟩⟩ := Plain.expr_opt h
    · rw [expr, expr_of_link hc body hlinked labels p u hu hvisits]
      simp [hres]
    · rw [expr, expr_of_link hc body hlinked labels p t hu hvisits]
      simp [hres]
  | lookahead span polarity body =>
    obtain ⟨u, hu, rfl⟩ := Plain.expr_lookahead h
    rw [expr, expr_of_link hc body hlinked labels p u hu (by simpa using hvisits)]
    rfl
  | codePredicate span polarity code =>
    rw [Scope.link, Plain.expr, askPredicate_eq hc] at h
    rw [expr]
    exact h
  | label span name body =>
    obtain ⟨u, hu, ⟨hres, rfl⟩ | ⟨stop, v, hres, rfl⟩⟩ := Plain.expr_label h
    · rw [expr, expr_of_link hc body hlinked labels p u hu hvisits]
      simp [hres]
    · rw [expr, expr_of_link hc body hlinked labels p u hu hvisits]
      simp [hres]
  | action span hint code body =>
    obtain ⟨u, hu, ⟨hres, rfl⟩ | ⟨stop, v, hres, rfl⟩⟩ := Plain.expr_action h
    · rw [expr, expr_of_link hc body hlinked labels p u hu hvisits]
      simp [hres]
    · rw [Plain.askAction_steps] at hvisits
      obtain ⟨hbefore, -⟩ := forall_visitsAll_append.1 hvisits
      rw [expr, expr_of_link hc body hlinked labels p u hu hbefore, askAction_eq hc]
      simp [hres]
  | bareAction span hint code =>
    rw [Scope.link, Plain.expr, askAction_eq hc] at h
    rw [expr]
    exact h
  | group span body =>
    rw [Scope.link, Plain.expr] at h
    rw [expr]
    exact expr_of_link hc body hlinked labels p t h hvisits

theorem sequence_of_link (hc : d.Unfolds c) (es : List Expr)
    (hlinked : ∀ reference ∈ Expr.refsAll es, d.grammar.Linked env reference) (labels : Bindings)
    (p : Nat) (t : Trial (Option (Nat × List Value)))
    (h : c.sequence current (env.scope.linkAll es) labels p = some t)
    (hvisits : ∀ v ∈ visitsAll t.steps, d.Follows v) :
    d.sequence env current es labels p = some t := by
  cases es with
  | nil =>
    rw [Scope.linkAll, Plain.sequence] at h
    rw [sequence]
    exact h
  | cons e rest =>
    rw [Expr.refsAll, List.forall_mem_append] at hlinked
    obtain ⟨u, hu, ⟨hres, rfl⟩ | ⟨next, v, w, hres, hw, rfl⟩⟩ := Plain.sequence_cons h
    · rw [sequence, expr_of_link hc e hlinked.1 labels p u hu hvisits]
      simp [hres]
    · obtain ⟨hbefore, hafter⟩ := forall_visitsAll_append.1 hvisits
      rw [sequence, expr_of_link hc e hlinked.1 labels p u hu hbefore]
      simp [hres, sequence_of_link hc rest hlinked.2 u.labels next w hw hafter]

theorem choice_of_link (hc : d.Unfolds c) (es : List Expr)
    (hlinked : ∀ reference ∈ Expr.refsAll es, d.grammar.Linked env reference) (labels : Bindings)
    (p : Nat) (t : Trial Outcome)
    (h : c.choice current (env.scope.linkAll es) labels p = some t)
    (hvisits : ∀ v ∈ visitsAll t.steps, d.Follows v) :
    d.choice env current es labels p = some t := by
  cases es with
  | nil =>
    rw [Scope.linkAll, Plain.choice] at h
    rw [choice]
    exact h
  | cons e rest =>
    rw [Expr.refsAll, List.forall_mem_append] at hlinked
    obtain ⟨u, hu, ⟨stop, v, hres, rfl⟩ | ⟨w, hres, hw, rfl⟩⟩ := Plain.choice_cons h
    · rw [choice, expr_of_link hc e hlinked.1 labels p t hu hvisits]
      simp [hres]
    · obtain ⟨hbefore, hafter⟩ := forall_visitsAll_append.1 hvisits
      rw [choice, expr_of_link hc e hlinked.1 labels p u hu hbefore]
      simp [hres, choice_of_link hc rest hlinked.2 labels p w hw hafter]

end

/-- **A target fares like its rule.** -/
theorem target_of_holds (hc : d.Unfolds c) {v : Visit} (hv : c.Holds v) : d.Follows v := by
  refine Plain.rule_induction (fun v hv ih => ?_) v hv
  intro target htarget hname
  obtain ⟨env, e, r, hbody, hlinked, hr, hexpr⟩ := hc.rule target htarget
  obtain ⟨r', t, hr', ht, hres, hsteps⟩ := Plain.rule_cases hv
  rw [← hname, hr] at hr'
  cases hr'
  rw [hexpr, ← hname] at ht
  rw [← hsteps] at ih
  rw [Direct.target, hbody]
  simp only [Option.bind_eq_bind, Option.bind_some, expr_of_link hc e hlinked [] v.offset t ht ih,
    hres, hsteps, Option.pure_def]

end Packrat.Direct

import Packrat.Proofs.Engine.Operations
import Packrat.Proofs.Plain.Labels
import Packrat.Proofs.Plain.Total

/-!
# The engine performs the steps of the plain evaluation

* `Matcher.Plays` — a matcher with pure handlers and what it is to be compared with.
* `Matcher.Follows` — trying a rule does what a visit of the plain evaluation says.
* `Matcher.Fares` — an expression does what the plain evaluation says, if the rules on the way do.
* `Matcher.eval_eq` — an expression fares as it does plainly, and the ledger is changed by the steps
  of the plain evaluation.
* `Matcher.invoke_performs` — with enough fuel, trying a rule does what its visit says.
-/

set_option autoImplicit false

namespace Packrat.Matcher

open Step

variable {σ : Type} {m : Matcher σ} {c : Plain} {weight : String → Nat → Nat} {bound : Nat}
  {call : String → Nat → Run σ Outcome} {current : String} {below : Bindings}

/-- The matcher runs the rules of a plain evaluation on its text, with handlers of its meaning. -/
structure Plays (m : Matcher σ) (c : Plain) : Prop where
  rules : m.rules = c.rules
  text : m.input.text = c.text
  handlers : m.handlers.Pure c.meaning

/-- Trying a rule does what a visit says, wherever nothing stands against it. -/
def Performs (m : Matcher σ) (c : Plain) (weight : String → Nat → Nat)
    (call : String → Nat → Run σ Outcome) (v : Visit) : Prop :=
  ∀ (l : Ledger σ) (bound : Nat) (below visible : Bindings) (rule : String),
    weight v.name v.offset < bound → l.Ready c weight bound →
      call v.name v.offset (l.state below visible rule) =
        .ok v.outcome ((v.step.perform m.handlers l).state below visible rule)

/-- The same for a visit that weighs less than a bound. -/
structure Follows (m : Matcher σ) (c : Plain) (weight : String → Nat → Nat) (bound : Nat)
    (call : String → Nat → Run σ Outcome) (v : Visit) : Prop where
  light : weight v.name v.offset < bound
  performs : m.Performs c weight call v

theorem literal_eq (hm : m.Plays c) {text : String} {labels : Bindings} {p : Nat}
    {t : Trial Outcome} (ht : c.literal text labels p = some t) (l : Ledger σ) :
    m.literal text p (l.state below labels current) =
      .ok t.result ((performAll m.handlers t.steps l).state below t.labels current) := by
  obtain ⟨rest, hrest, hcases⟩ := Plain.literal_cases ht
  rw [← hm.text] at hrest
  rw [literal, Input.holdsAt_of_dropBytes? hrest]
  obtain ⟨hpre, rfl⟩ | ⟨hpre, rfl⟩ := hcases
  · rw [hpre, if_pos rfl, performAll_nil]
    rfl
  · rw [hpre, if_neg Bool.false_ne_true, Plain.missed_steps, performAll_cons, performAll_nil, perform]
    exact Run.failAt_state p _

theorem oneChar_eq (hm : m.Plays c) {terminal : Terminal} {test : Char → Bool} {labels : Bindings}
    {p : Nat} {t : Trial Outcome} (ht : c.oneChar terminal test labels p = some t) (l : Ledger σ) :
    m.oneChar terminal test p (l.state below labels current) =
      .ok t.result ((performAll m.handlers t.steps l).state below t.labels current) := by
  obtain ⟨rest, hrest, hcases⟩ := Plain.oneChar_cases ht
  rw [← hm.text] at hrest
  rw [oneChar, Input.charAt?_of_dropBytes? hrest]
  obtain ⟨x, hx, htest, rfl⟩ | ⟨htest, rfl⟩ := hcases
  · rw [hx, performAll_nil]
    simp only [htest, if_true]
    rfl
  · rw [Plain.missed_steps, performAll_cons, performAll_nil, perform]
    cases hhead : rest.head? with
    | none => exact Run.failAt_state p terminal
    | some x =>
      simp only [htest x hhead]
      exact Run.failAt_state p terminal

/-- A lookahead answers as it does plainly. -/
theorem verdict_of_isMatch (polarity : Polarity) (o : Outcome) (p : Nat) :
    verdict (wants polarity o.isMatch) p = Plain.lookahead polarity o p := by
  cases polarity <;> cases o <;> rfl

/-- And so does a predicate. -/
theorem verdict_of_holds (polarity : Polarity) (holds : Bool) (p : Nat) :
    verdict (wants polarity holds) p = Plain.predicate polarity holds p := by
  cases polarity <;> cases holds <;> rfl

/-- An expression fares as it does plainly, if trying the rules on the way does what their visits
say. -/
def Fares (m : Matcher σ) (c : Plain) (weight : String → Nat → Nat) (bound : Nat)
    (call : String → Nat → Run σ Outcome) (current : String) (below : Bindings) (e : Expr) : Prop :=
  ∀ (labels : Bindings) (p : Nat) (t : Trial Outcome) (l : Ledger σ),
    c.expr current e labels p = some t → Boundary c.text p → l.Ready c weight bound →
      (∀ v ∈ visitsAll t.steps, m.Follows c weight bound call v) →
        m.eval call e p (l.state below labels current) =
          .ok t.result ((performAll m.handlers t.steps l).state below t.labels current)

/-- A repetition, once it is known of its body. -/
theorem repeatFrom_eq {body : Expr} {nullableOnes : List String}
    (hnullable : c.KnowsNullable nullableOnes)
    (hbody : m.Fares c weight bound call current below body)
    {labels : Bindings} {p : Nat} {t : Trial (Nat × List Value)}
    (ht : c.iterate current body labels p = some t) :
    ∀ (l : Ledger σ) (rounds : Nat), Boundary c.text p → l.Ready c weight bound →
      (∀ v ∈ visitsAll t.steps, m.Follows c weight bound call v) →
        byteLength c.text - p < rounds →
          repeatFrom (fun q => m.eval call body q) rounds p (l.state below labels current) =
            .ok t.result ((performAll m.handlers t.steps l).state below t.labels current) := by
  refine Plain.iterate_induction (motive := fun labels p t => ∀ (l : Ledger σ) (rounds : Nat),
    Boundary c.text p → l.Ready c weight bound →
      (∀ v ∈ visitsAll t.steps, m.Follows c weight bound call v) →
        byteLength c.text - p < rounds →
          repeatFrom (fun q => m.eval call body q) rounds p (l.state below labels current) =
            .ok t.result ((performAll m.handlers t.steps l).state below t.labels current))
    ?_ ?_ ?_ ht
  · intro labels p u hu hres l rounds hp hl hv hrounds
    obtain ⟨rounds, rfl⟩ := Nat.exists_eq_add_of_lt hrounds
    rw [repeatFrom, Run.bind_ok Run.height_state, Run.bind_ok (hbody labels p u l hu hp hl hv), hres]
    rw [(Plain.expr_keeps body labels p u hu).same hres]
    exact Run.bind_ok (Run.cut_state List.prefix_rfl) _
  · intro labels p u v hu hres l rounds hp hl hv hrounds
    obtain ⟨rounds, rfl⟩ := Nat.exists_eq_add_of_lt hrounds
    rw [repeatFrom, Run.bind_ok Run.height_state, Run.bind_ok (hbody labels p u l hu hp hl hv), hres]
    simp only [if_true]
    rfl
  · intro labels p u next v w hu hres hmove hw ih l rounds hp hl hv hrounds
    obtain ⟨rounds, rfl⟩ := Nat.exists_eq_add_of_lt hrounds
    obtain ⟨hbefore, hafter⟩ := forall_visitsAll_append.1 hv
    have hadv := Plain.expr_advances hnullable hu hp hres
    have hle := hadv.le
    have hend := hadv.boundary.le_byteLength
    rw [repeatFrom, Run.bind_ok Run.height_state,
      Run.bind_ok (hbody labels p u l hu hp hl hbefore), hres]
    simp only [if_neg hmove]
    rw [Run.bind_ok (ih _ _ hadv.boundary (hl.performAll (Plain.visits_hold body labels p u hu))
      hafter (by omega)), performAll_append]
    rfl

/-- The rounds that are allowed are enough, and a repetition without a match keeps the labels. -/
theorem repeat_eq (hm : m.Plays c) {body : Expr} {nullableOnes : List String}
    (hnullable : c.KnowsNullable nullableOnes)
    (hbody : m.Fares c weight bound call current below body)
    {labels : Bindings} {p : Nat} {t : Trial (Nat × List Value)}
    (ht : c.iterate current body labels p = some t) {l : Ledger σ} (hp : Boundary c.text p)
    (hl : l.Ready c weight bound) (hv : ∀ v ∈ visitsAll t.steps, m.Follows c weight bound call v) :
    repeatFrom (m.eval call body) (m.input.size + 1) p (l.state below labels current) =
      .ok t.result ((performAll m.handlers t.steps l).state below t.labels current) ∧
    (t.result.2 = [] → t.labels = labels) := by
  refine ⟨repeatFrom_eq hnullable hbody ht l _ hp hl hv ?_,
    (Plain.iterate_keeps (Plain.expr_keeps body) ht).same⟩
  rw [m.input.size_eq, hm.text]
  omega

mutual

/-- **An expression fares as it does plainly**, and the steps on the way are performed. -/
theorem eval_eq (hm : m.Plays c) {nullableOnes : List String}
    (hnullable : c.KnowsNullable nullableOnes) (e : Expr) (labels : Bindings) (p : Nat)
    (t : Trial Outcome) (l : Ledger σ) (ht : c.expr current e labels p = some t)
    (hp : Boundary c.text p) (hl : l.Ready c weight bound)
    (hv : ∀ v ∈ visitsAll t.steps, m.Follows c weight bound call v) :
    m.eval call e p (l.state below labels current) =
      .ok t.result ((performAll m.handlers t.steps l).state below t.labels current) := by
  cases e with
  | literal span text =>
    rw [Plain.expr] at ht
    rw [eval]
    exact literal_eq hm ht l
  | charClass span k =>
    rw [Plain.expr] at ht
    rw [eval]
    exact oneChar_eq hm ht l
  | anyChar span =>
    rw [Plain.expr] at ht
    rw [eval]
    exact oneChar_eq hm ht l
  | ref reference =>
    obtain ⟨o, inside, -, rfl⟩ := Plain.expr_ref ht
    have hfollows := hv ⟨reference.name.name, p, o, inside⟩ (by simp)
    rw [eval, performAll_cons, performAll_nil]
    exact hfollows.performs l bound below labels current hfollows.light hl
  | seq span es =>
    obtain ⟨u, hu, hcases⟩ := Plain.expr_seq ht
    have hsteps : t.steps = u.steps := by
      obtain ⟨-, rfl⟩ | ⟨stop, vs, -, rfl⟩ := hcases <;> rfl
    rw [hsteps] at hv ⊢
    rw [eval, Run.bind_ok Run.height_state,
      Run.bind_ok (evalSeq_eq hm hnullable es labels p u l hu hp hl hv)]
    obtain ⟨hres, rfl⟩ | ⟨stop, vs, hres, rfl⟩ := hcases
    · rw [hres]
      exact Run.bind_ok (Run.cut_state (Plain.sequence_keeps es labels p u hu)) _
    · rw [hres]
      rfl
  | choice span es =>
    rw [Plain.expr] at ht
    rw [eval]
    exact evalChoice_eq hm hnullable es labels p t l ht hp hl hv
  | star span body =>
    obtain ⟨u, hu, hcases⟩ := Plain.expr_star ht
    have hsteps : t.steps = u.steps := by obtain ⟨-, rfl⟩ | ⟨-, rfl⟩ := hcases <;> rfl
    rw [hsteps] at hv ⊢
    obtain ⟨hrepeat, hsame⟩ := repeat_eq hm hnullable (eval_eq hm hnullable body) hu hp hl hv
    rw [eval, Run.bind_ok hrepeat]
    obtain ⟨⟨stop, vs⟩, bs, steps⟩ := u
    obtain ⟨rfl, rfl⟩ | ⟨hne, rfl⟩ := hcases
    · obtain rfl : bs = labels := hsame rfl
      rfl
    · obtain ⟨v, vs', rfl⟩ := List.exists_cons_of_ne_nil hne
      rfl
  | plus span body =>
    obtain ⟨u, hu, hcases⟩ := Plain.expr_plus ht
    have hsteps : t.steps = u.steps := by obtain ⟨-, rfl⟩ | ⟨-, rfl⟩ := hcases <;> rfl
    rw [hsteps] at hv ⊢
    obtain ⟨hrepeat, hsame⟩ := repeat_eq hm hnullable (eval_eq hm hnullable body) hu hp hl hv
    rw [eval, Run.bind_ok hrepeat]
    obtain ⟨⟨stop, vs⟩, bs, steps⟩ := u
    obtain ⟨rfl, rfl⟩ | ⟨hne, rfl⟩ := hcases
    · obtain rfl : bs = labels := hsame rfl
      rfl
    · obtain ⟨v, vs', rfl⟩ := List.exists_cons_of_ne_nil hne
      rfl
  | opt span body =>
    obtain ⟨u, hu, ⟨hres, rfl⟩ | ⟨stop, v, hres, rfl⟩⟩ := Plain.expr_opt ht
    · rw [eval, Run.bind_ok (eval_eq hm hnullable body labels p u l hu hp hl hv), hres]
      rw [(Plain.expr_keeps body labels p u hu).same hres]
      rfl
    · rw [eval, Run.bind_ok (eval_eq hm hnullable body labels p t l hu hp hl hv), hres]
      rfl
  | lookahead span polarity body =>
    obtain ⟨u, hu, rfl⟩ := Plain.expr_lookahead ht
    have hbody := eval_eq hm hnullable body labels p u l.mute hu hp
      ⟨hl.knows, hl.waits⟩ (by simpa using hv)
    rw [eval, Run.bind_ok Run.height_state, Run.bind_ok Run.mute_state, Run.bind_ok hbody,
      Run.bind_ok Run.unmute_state, performAll_cons, performAll_nil, perform]
    rw [Run.bind_ok (Run.cut_state (Plain.expr_keeps body labels p u hu).grows), verdict_of_isMatch]
    rfl
  | codePredicate span polarity code =>
    rw [Plain.expr] at ht
    cases ht
    rw [eval, Run.bind_ok (Run.askPredicate_state hm.handlers code.text), verdict_of_holds]
    rw [Plain.askPredicate, performAll_cons, performAll_nil, perform]
    rfl
  | label span name body =>
    obtain ⟨u, hu, ⟨hres, rfl⟩ | ⟨stop, v, hres, rfl⟩⟩ := Plain.expr_label ht
    · rw [eval, Run.bind_ok (eval_eq hm hnullable body labels p u l hu hp hl hv), hres]
      rw [(Plain.expr_keeps body labels p u hu).same hres]
      rfl
    · rw [eval, Run.bind_ok (eval_eq hm hnullable body labels p u l hu hp hl hv), hres]
      exact Run.bind_ok (Run.bindLabel_state name.name v) _
  | action span hint code body =>
    obtain ⟨u, hu, ⟨hres, rfl⟩ | ⟨stop, v, hres, rfl⟩⟩ := Plain.expr_action ht
    · rw [eval, Run.bind_ok (eval_eq hm hnullable body labels p u l hu hp hl hv), hres]
      rw [(Plain.expr_keeps body labels p u hu).same hres]
      rfl
    · rw [Plain.askAction_steps] at hv
      obtain ⟨hbefore, -⟩ := forall_visitsAll_append.1 hv
      rw [eval, Run.bind_ok (eval_eq hm hnullable body labels p u l hu hp hl hbefore), hres,
        Plain.askAction_steps, performAll_append, performAll_cons, performAll_nil, perform]
      exact Run.bind_ok (Run.askAction_state hm.handlers hint code.text) _
  | bareAction span hint code =>
    rw [Plain.expr] at ht
    cases ht
    rw [eval, Plain.askAction_steps, List.nil_append, performAll_cons, performAll_nil, perform]
    exact Run.bind_ok (Run.askAction_state hm.handlers hint code.text) _
  | group span body =>
    rw [Plain.expr] at ht
    rw [eval]
    exact eval_eq hm hnullable body labels p t l ht hp hl hv

theorem evalSeq_eq (hm : m.Plays c) {nullableOnes : List String}
    (hnullable : c.KnowsNullable nullableOnes) (es : List Expr) (labels : Bindings) (p : Nat)
    (t : Trial (Option (Nat × List Value))) (l : Ledger σ)
    (ht : c.sequence current es labels p = some t) (hp : Boundary c.text p)
    (hl : l.Ready c weight bound) (hv : ∀ v ∈ visitsAll t.steps, m.Follows c weight bound call v) :
    m.evalSeq call es p (l.state below labels current) =
      .ok t.result ((performAll m.handlers t.steps l).state below t.labels current) := by
  cases es with
  | nil =>
    rw [Plain.sequence] at ht
    cases ht
    rw [evalSeq, performAll_nil]
    rfl
  | cons e rest =>
    obtain ⟨u, hu, ⟨hres, rfl⟩ | ⟨next, v, w, hres, hw, rfl⟩⟩ := Plain.sequence_cons ht
    · rw [evalSeq, Run.bind_ok (eval_eq hm hnullable e labels p u l hu hp hl hv), hres]
      rw [(Plain.expr_keeps e labels p u hu).same hres]
      rfl
    · obtain ⟨hbefore, hafter⟩ := forall_visitsAll_append.1 hv
      have hadv := Plain.expr_advances hnullable hu hp hres
      rw [evalSeq, Run.bind_ok (eval_eq hm hnullable e labels p u l hu hp hl hbefore), hres]
      simp only
      rw [Run.bind_ok (evalSeq_eq hm hnullable rest u.labels next w _ hw hadv.boundary
        (hl.performAll (Plain.visits_hold e labels p u hu)) hafter), performAll_append]
      cases w.result <;> rfl

theorem evalChoice_eq (hm : m.Plays c) {nullableOnes : List String}
    (hnullable : c.KnowsNullable nullableOnes) (es : List Expr) (labels : Bindings) (p : Nat)
    (t : Trial Outcome) (l : Ledger σ) (ht : c.choice current es labels p = some t)
    (hp : Boundary c.text p) (hl : l.Ready c weight bound)
    (hv : ∀ v ∈ visitsAll t.steps, m.Follows c weight bound call v) :
    m.evalChoice call es p (l.state below labels current) =
      .ok t.result ((performAll m.handlers t.steps l).state below t.labels current) := by
  cases es with
  | nil =>
    rw [Plain.choice] at ht
    cases ht
    rw [evalChoice, performAll_nil]
    rfl
  | cons e rest =>
    obtain ⟨u, hu, ⟨stop, v, hres, rfl⟩ | ⟨w, hres, hw, rfl⟩⟩ := Plain.choice_cons ht
    · rw [evalChoice, Run.bind_ok Run.height_state,
        Run.bind_ok (eval_eq hm hnullable e labels p t l hu hp hl hv), hres]
      rfl
    · obtain ⟨hbefore, hafter⟩ := forall_visitsAll_append.1 hv
      have hkeeps := Plain.expr_keeps e labels p u hu
      rw [evalChoice, Run.bind_ok Run.height_state,
        Run.bind_ok (eval_eq hm hnullable e labels p u l hu hp hl hbefore), hres]
      simp only
      rw [Run.bind_ok (Run.cut_state hkeeps.grows), performAll_append]
      exact evalChoice_eq hm hnullable rest labels p w _ hw hp
        (hl.performAll (Plain.visits_hold e labels p u hu)) hafter

end

/-- While a rule is being tried, a ledger is ready for what weighs less than the rule. -/
theorem ready_attempt {l : Ledger σ} {name : String} {p : Nat} (hl : l.Ready c weight bound)
    (hlt : weight name p < bound) :
    ((l.remember name p .inProgress).tell (.attempt name p)).Ready c weight (weight name p) := by
  refine ⟨hl.knows.remember_inProgress name p, fun other q hf => ?_⟩
  rw [Ledger.memo_tell, Ledger.memo_remember, Memo.find?_insert] at hf
  split at hf
  · rename_i heq
    obtain ⟨rfl, rfl⟩ := heq
    exact Nat.le_refl _
  · have hwaits := hl.waits other q hf
    omega

/-- **With enough fuel, trying a rule does what its visit says.** -/
theorem invoke_performs {known : List String} {rank : String → Nat} (hm : m.Plays c)
    (hranked : c.Ranked known rank) (fuel : Nat) (v : Visit) (hv : c.Holds v)
    (hp : Boundary c.text v.offset) (hfuel : c.weight rank v.name v.offset < fuel) :
    m.Performs c (c.weight rank) (m.invoke fuel) v := by
  induction fuel generalizing v with
  | zero => omega
  | succ fuel ih =>
    obtain ⟨name, p, o, inside⟩ := v
    intro l bound below visible rule hlt hl
    obtain ⟨r, t, hr, ht, rfl, rfl⟩ := Plain.rule_cases hv
    rw [invoke, rule?, hm.rules, hr]
    simp only
    rw [Run.get_bind]
    have hmemo : (l.state below visible rule).memo = l.memo := rfl
    rw [hmemo]
    cases hf : l.memo.find? name p with
    | some entry =>
      cases entry with
      | inProgress =>
        have hwaits := hl.waits name p hf
        exact absurd hlt (Nat.not_lt.2 hwaits)
      | done o =>
        -- what is known is what the plain evaluation says
        obtain ⟨inside', hknown⟩ := hl.knows name p o hf
        cases (Option.some.inj (hknown.symm.trans hv) : (o, inside') = (t.result, t.steps))
        rw [Visit.step, perform_rule_of_some hf]
        exact Run.bind_ok (Run.tell_state _) _
    | none =>
      have hlight := Plain.rule_visits_light hranked hv hp
      have hbody : m.eval (m.invoke fuel) r.expr p
          (((l.remember name p .inProgress).tell (.attempt name p)).state (below ++ visible) [] name) =
            .ok t.result ((performAll m.handlers t.steps ((l.remember name p .inProgress).tell
              (.attempt name p))).state (below ++ visible) t.labels name) := by
        refine eval_eq hm hranked.nullable r.expr [] p t _ ht hp (ready_attempt hl hlt)
          fun w hw => ?_
        have hw' := hlight w hw
        have hfuel' : c.weight rank w.name w.offset < fuel := by
          have hless := hw'.weight
          simp only at hless hfuel
          omega
        exact ⟨hw'.weight, ih w (hv.inside w hw) hw'.boundary hfuel'⟩
      rw [Visit.step, perform_rule_of_none hf]
      simp only
      rw [Run.bind_ok (Run.remember_state name p _), Run.bind_ok (Run.tell_state _),
        Run.bind_ok (Run.enter_state name), Run.bind_ok hbody,
        Run.bind_ok (Run.leave_state t.labels name), Run.bind_ok (Run.tell_state _)]
      exact Run.bind_ok (Run.remember_state name p _) _

end Packrat.Matcher

import Mathlib.Data.List.Basic
import Packrat.Proofs.Plain.Cases
import Packrat.Proofs.Text.Boundary

/-!
# The rules that an evaluation visits

* `Visit` — a rule that is evaluated at an offset, with its outcome and the steps of its body.
* `Step.visits` — the visits among steps, those in lookaheads too, but not those within visits.
* `Plain.expr_steps` — what holds of every step of an evaluation.
* `Plain.visits_hold` — each visit on the way to an answer is an answer itself.
* `Plain.rule_induction` — what holds of every answer of a rule if it holds of its visits.
-/

set_option autoImplicit false

namespace Packrat

/-- A rule that is evaluated at an offset. -/
structure Visit where
  name : String
  offset : Nat
  outcome : Outcome
  inside : List Step

/-- A visit as a step. -/
def Visit.step (v : Visit) : Step := .rule v.name v.offset v.outcome v.inside

mutual

/-- The rules that are evaluated in a step, but not within one another. -/
def Step.visits : Step → List Visit
  | .failure _ _ => []
  | .asked _ => []
  | .lookahead inside => Step.visitsAll inside
  | .rule name offset outcome inside => [⟨name, offset, outcome, inside⟩]
  | .known _ _ _ => []

/-- The same for several steps. -/
def Step.visitsAll : List Step → List Visit
  | [] => []
  | s :: rest => s.visits ++ Step.visitsAll rest

end

namespace Step

@[simp]
theorem visitsAll_nil : visitsAll [] = [] := by rw [visitsAll]

@[simp]
theorem visitsAll_cons (s : Step) (rest : List Step) :
    visitsAll (s :: rest) = s.visits ++ visitsAll rest := by rw [visitsAll]

@[simp]
theorem visitsAll_append (before after : List Step) :
    visitsAll (before ++ after) = visitsAll before ++ visitsAll after := by
  induction before with
  | nil => rw [visitsAll_nil, List.nil_append, List.nil_append]
  | cons s before ih =>
    rw [List.cons_append, visitsAll_cons, visitsAll_cons, ih, List.append_assoc]

theorem forall_visitsAll_append {P : Visit → Prop} {before after : List Step} :
    (∀ v ∈ visitsAll (before ++ after), P v) ↔
      (∀ v ∈ visitsAll before, P v) ∧ ∀ v ∈ visitsAll after, P v := by
  rw [visitsAll_append, List.forall_mem_append]

theorem forall_visitsAll {P : Visit → Prop} {steps : List Step} :
    (∀ v ∈ visitsAll steps, P v) ↔ ∀ s ∈ steps, ∀ v ∈ s.visits, P v := by
  induction steps with
  | nil => simp
  | cons s rest ih => rw [visitsAll_cons, List.forall_mem_append, ih, List.forall_mem_cons]

@[simp]
theorem visits_failure (p : Nat) (t : Terminal) : (failure p t).visits = [] := by rw [visits]

@[simp]
theorem visits_asked (r : CallRecord) : (asked r).visits = [] := by rw [visits]

@[simp]
theorem visits_lookahead (inside : List Step) : (lookahead inside).visits = visitsAll inside := by
  rw [visits]

@[simp]
theorem visits_rule (name : String) (p : Nat) (o : Outcome) (inside : List Step) :
    (rule name p o inside).visits = [⟨name, p, o, inside⟩] := by rw [visits]

@[simp]
theorem visits_known (name : String) (p : Nat) (o : Outcome) : (known name p o).visits = [] := by
  rw [visits]

mutual

/-- The steps within a visit are fewer. -/
theorem sizeOf_visits {v : Visit} (s : Step) (h : v ∈ s.visits) : sizeOf v.inside < sizeOf s := by
  cases s with
  | failure p t => simp at h
  | asked r => simp at h
  | lookahead inside =>
    rw [visits_lookahead] at h
    have hlt := sizeOf_visitsAll inside h
    rw [lookahead.sizeOf_spec]
    omega
  | rule name p o inside =>
    rw [visits_rule, List.mem_singleton] at h
    rw [h, rule.sizeOf_spec]
    show sizeOf inside < _
    omega
  | known name p o => simp at h

theorem sizeOf_visitsAll {v : Visit} (steps : List Step) (h : v ∈ visitsAll steps) :
    sizeOf v.inside < sizeOf steps := by
  cases steps with
  | nil => simp at h
  | cons s rest =>
    rw [List.cons.sizeOf_spec]
    rcases List.mem_append.1 (visitsAll_cons s rest ▸ h) with h | h
    · have hlt := sizeOf_visits s h
      omega
    · have hlt := sizeOf_visitsAll rest h
      omega

end

end Step

namespace Plain

open Step

variable {c : Plain} {current : String}

/-- A visit tells how its rule fares. -/
def Holds (c : Plain) (v : Visit) : Prop := c.rule v.name v.offset = some (v.outcome, v.inside)

theorem missed_steps (t : Terminal) (p : Nat) (labels : Bindings) :
    (missed t p labels).steps = [.failure p t] := rfl

theorem askAction_steps (c : Plain) (current hint : String) (code : Code) (labels : Bindings)
    (stop : Nat) (steps : List Step) : (c.askAction current hint code labels stop steps).steps =
      steps ++ [.asked ⟨⟨current, some hint, code.text⟩, labels⟩] := rfl

section

/-! ## What holds of every step -/

variable {Q : Step → Prop}

/-- The steps of a repetition are steps of its body. -/
theorem iterate_steps {body : Expr}
    (hbody : ∀ labels p t, c.expr current body labels p = some t → ∀ s ∈ t.steps, Q s)
    {labels : Bindings} {p : Nat} {t : Trial (Nat × List Value)}
    (h : c.iterate current body labels p = some t) : ∀ s ∈ t.steps, Q s := by
  refine iterate_induction (motive := fun _ _ t => ∀ s ∈ t.steps, Q s) ?_ ?_ ?_ h
  · exact fun labels p u hu _ => hbody labels p u hu
  · exact fun labels p u _ hu _ => hbody labels p u hu
  · intro labels p u next _ w hu _ _ _ ih s hs
    exact (List.mem_append.1 hs).elim (hbody labels p u hu s) (ih s)

/-- What holds of terminals that fail at boundaries, of calls from the current rule, of lookaheads if
it holds within them, and of visits that hold. -/
structure Covers (c : Plain) (current : String) (Q : Step → Prop) : Prop where
  failure : ∀ q terminal, Boundary c.text q → Q (.failure q terminal)
  asked : ∀ record, record.call.rule = current → Q (.asked record)
  lookahead : ∀ inside, (∀ s ∈ inside, Q s) → Q (.lookahead inside)
  rule : ∀ name q o inside, c.rule name q = some (o, inside) → Q (.rule name q o inside)

theorem literal_steps (hQ : c.Covers current Q) {text : String} {labels : Bindings} {p : Nat}
    {t : Trial Outcome} (h : c.literal text labels p = some t) : ∀ s ∈ t.steps, Q s := by
  obtain ⟨rest, hrest, ⟨-, rfl⟩ | ⟨-, rfl⟩⟩ := literal_cases h
  · exact fun s hs => absurd hs List.not_mem_nil
  · exact List.forall_mem_singleton.2 (hQ.failure p _ (.of_dropBytes? hrest))

theorem oneChar_steps (hQ : c.Covers current Q) {terminal : Terminal} {test : Char → Bool}
    {labels : Bindings} {p : Nat} {t : Trial Outcome}
    (h : c.oneChar terminal test labels p = some t) : ∀ s ∈ t.steps, Q s := by
  obtain ⟨rest, hrest, ⟨x, -, -, rfl⟩ | ⟨-, rfl⟩⟩ := oneChar_cases h
  · exact fun s hs => absurd hs List.not_mem_nil
  · exact List.forall_mem_singleton.2 (hQ.failure p _ (.of_dropBytes? hrest))

mutual

/-- **What holds of terminals that fail, of calls, of lookaheads and of visits holds of every step of
an evaluation.** -/
theorem expr_steps (hQ : c.Covers current Q) (e : Expr) (labels : Bindings) (p : Nat)
    (t : Trial Outcome) (h : c.expr current e labels p = some t) : ∀ s ∈ t.steps, Q s := by
  cases e with
  | literal span text =>
    rw [expr] at h
    exact literal_steps hQ h
  | charClass span k =>
    rw [expr] at h
    exact oneChar_steps hQ h
  | anyChar span =>
    rw [expr] at h
    exact oneChar_steps hQ h
  | ref reference =>
    obtain ⟨o, inside, hr, rfl⟩ := expr_ref h
    exact List.forall_mem_singleton.2 (hQ.rule _ p o inside hr)
  | seq span es =>
    obtain ⟨u, hu, ⟨-, rfl⟩ | ⟨stop, vs, -, rfl⟩⟩ := expr_seq h <;>
      exact sequence_steps hQ es labels p u hu
  | choice span es =>
    rw [expr] at h
    exact choice_steps hQ es labels p t h
  | star span body =>
    obtain ⟨u, hu, ⟨-, rfl⟩ | ⟨-, rfl⟩⟩ := expr_star h <;>
      exact iterate_steps (expr_steps hQ body) hu
  | plus span body =>
    obtain ⟨u, hu, ⟨-, rfl⟩ | ⟨-, rfl⟩⟩ := expr_plus h <;>
      exact iterate_steps (expr_steps hQ body) hu
  | opt span body =>
    obtain ⟨u, hu, ⟨-, rfl⟩ | ⟨stop, v, -, rfl⟩⟩ := expr_opt h
    · exact expr_steps hQ body labels p u hu
    · exact expr_steps hQ body labels p t hu
  | lookahead span polarity body =>
    obtain ⟨u, hu, rfl⟩ := expr_lookahead h
    exact List.forall_mem_singleton.2 (hQ.lookahead u.steps (expr_steps hQ body labels p u hu))
  | codePredicate span polarity code =>
    rw [expr] at h
    cases h
    exact List.forall_mem_singleton.2 (hQ.asked _ rfl)
  | label span name body =>
    obtain ⟨u, hu, ⟨-, rfl⟩ | ⟨stop, v, -, rfl⟩⟩ := expr_label h <;>
      exact expr_steps hQ body labels p u hu
  | action span hint code body =>
    obtain ⟨u, hu, ⟨-, rfl⟩ | ⟨stop, v, -, rfl⟩⟩ := expr_action h
    · exact expr_steps hQ body labels p u hu
    · exact List.forall_mem_append.2
        ⟨expr_steps hQ body labels p u hu, List.forall_mem_singleton.2 (hQ.asked _ rfl)⟩
  | bareAction span hint code =>
    rw [expr] at h
    cases h
    exact List.forall_mem_singleton.2 (hQ.asked _ rfl)
  | group span body =>
    rw [expr] at h
    exact expr_steps hQ body labels p t h

theorem sequence_steps (hQ : c.Covers current Q) (es : List Expr) (labels : Bindings) (p : Nat)
    (t : Trial (Option (Nat × List Value))) (h : c.sequence current es labels p = some t) :
    ∀ s ∈ t.steps, Q s := by
  cases es with
  | nil =>
    rw [sequence] at h
    cases h
    exact fun s hs => absurd hs List.not_mem_nil
  | cons e rest =>
    obtain ⟨u, hu, ⟨-, rfl⟩ | ⟨next, v, w, -, hw, rfl⟩⟩ := sequence_cons h
    · exact expr_steps hQ e labels p u hu
    · exact List.forall_mem_append.2
        ⟨expr_steps hQ e labels p u hu, sequence_steps hQ rest u.labels next w hw⟩

theorem choice_steps (hQ : c.Covers current Q) (es : List Expr) (labels : Bindings) (p : Nat)
    (t : Trial Outcome) (h : c.choice current es labels p = some t) : ∀ s ∈ t.steps, Q s := by
  cases es with
  | nil =>
    rw [choice] at h
    cases h
    exact fun s hs => absurd hs List.not_mem_nil
  | cons e rest =>
    obtain ⟨u, hu, ⟨stop, v, -, rfl⟩ | ⟨w, -, hw, rfl⟩⟩ := choice_cons h
    · exact expr_steps hQ e labels p t hu
    · exact List.forall_mem_append.2
        ⟨expr_steps hQ e labels p u hu, choice_steps hQ rest labels p w hw⟩

end

end

/-- **Each visit on the way to an answer is an answer itself.** -/
theorem visits_hold (e : Expr) (labels : Bindings) (p : Nat) (t : Trial Outcome)
    (h : c.expr current e labels p = some t) : ∀ v ∈ visitsAll t.steps, c.Holds v := by
  rw [forall_visitsAll]
  refine expr_steps ⟨?_, ?_, ?_, ?_⟩ e labels p t h
  · simp
  · simp
  · intro inside hinside
    rw [visits_lookahead, forall_visitsAll]
    exact hinside
  · intro name q o inside hr
    rw [visits_rule]
    exact List.forall_mem_singleton.2 hr

/-- The visits within a visit hold. -/
theorem Holds.inside {v : Visit} (h : c.Holds v) : ∀ w ∈ visitsAll v.inside, c.Holds w := by
  obtain ⟨r, t, -, ht, -, hsteps⟩ := rule_cases h
  rw [← hsteps]
  exact visits_hold r.expr [] v.offset t ht

/-- **Induction on the visits of a rule.** -/
theorem rule_induction {P : Visit → Prop}
    (h : ∀ v, c.Holds v → (∀ w ∈ visitsAll v.inside, P w) → P v) :
    ∀ v, c.Holds v → P v := by
  intro v hv
  induction hsize : sizeOf v.inside using Nat.strongRecOn generalizing v with
  | _ n ih =>
    refine h v hv fun w hw => ?_
    have hlt := sizeOf_visitsAll v.inside hw
    exact ih _ (by omega) w (hv.inside w hw) rfl

end Plain

end Packrat

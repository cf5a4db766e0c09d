import Packrat.Proofs.Engine.Simulation

/-!
# What matching does not look at

Matching depends on the memory, the labels and the calls, but not on the record of failures, on what
was told, or on the state of the handlers.

* `RunState.Twin` — two states that differ in these only.
* `Run.Blind` — a computation that ends alike in twin states, in states that are twins again.
* `Matcher.eval_blind`, `Matcher.invoke_blind`, `Matcher.wholeMatch_blind` — matching is blind if
  the handlers are pure.
* `Matcher.Comes.twin` — what a pass comes to, a pass from a twin state comes to in a twin state.
-/

set_option autoImplicit false

namespace Packrat

variable {σ α β : Type} {s₀ t₀ : RunState σ}

theorem Failures.muted_mark (f : Failures) (p : Nat) (token : String) :
    (f.mark p token).muted = f.muted := by
  unfold mark
  split
  · rfl
  · split <;> split <;> rfl

namespace RunState

/-- Two states that look the same to matching, between which and the states `s₀` and `t₀` the same
calls were made. -/
structure Twin (s₀ t₀ s t : RunState σ) : Prop where
  memo : s.memo = t.memo
  labels : s.labels = t.labels
  frame : s.frame = t.frame
  rule : s.rule = t.rule
  muted : s.failures.muted = t.failures.muted
  calls : ∃ made, s.calls = s₀.calls ++ made ∧ t.calls = t₀.calls ++ made

namespace Twin

variable {s t : RunState σ}

/-- Both passes of a parse begin in the same state, as far as matching can tell. -/
theorem passes (user : σ) (s : RunState σ) :
    Twin (.init user) s.secondPass (.init user) s.secondPass :=
  ⟨rfl, rfl, rfl, rfl, rfl, #[], by simp, by simp⟩

theorem symm (h : Twin s₀ t₀ s t) : Twin t₀ s₀ t s := by
  obtain ⟨made, hs, ht⟩ := h.calls
  exact ⟨h.memo.symm, h.labels.symm, h.frame.symm, h.rule.symm, h.muted.symm, made, ht, hs⟩

theorem relabel (h : Twin s₀ t₀ s t) (f : LabelStack → LabelStack) :
    Twin s₀ t₀ { s with labels := f s.labels } { t with labels := f t.labels } :=
  ⟨h.memo, congrArg f h.labels, h.frame, h.rule, h.muted, h.calls⟩

theorem mark (h : Twin s₀ t₀ s t) (p : Nat) (token : String) :
    Twin s₀ t₀ { s with failures := s.failures.mark p token }
      { t with failures := t.failures.mark p token } := by
  refine ⟨h.memo, h.labels, h.frame, h.rule, ?_, h.calls⟩
  simpa [Failures.muted_mark] using h.muted

theorem mute (h : Twin s₀ t₀ s t) : Twin s₀ t₀ s.muted t.muted := by
  refine ⟨h.memo, h.labels, h.frame, h.rule, ?_, h.calls⟩
  simpa [RunState.muted, Failures.mute] using h.muted

theorem unmute (h : Twin s₀ t₀ s t) : Twin s₀ t₀ s.unmuted t.unmuted := by
  refine ⟨h.memo, h.labels, h.frame, h.rule, ?_, h.calls⟩
  simpa [RunState.unmuted, Failures.unmute] using congrArg (· - 1) h.muted

theorem visible (h : Twin s₀ t₀ s t) : s.visible = t.visible := by
  rw [RunState.visible, RunState.visible, h.labels, h.frame]

theorem asked (h : Twin s₀ t₀ s t) (hint : Option String) (code : String) (es fs : List Event)
    (u v : σ) : Twin s₀ t₀ (s.asked hint code es u) (t.asked hint code fs v) := by
  refine ⟨h.memo, h.labels, h.frame, h.rule, h.muted, ?_⟩
  obtain ⟨made, hs, ht⟩ := h.calls
  refine ⟨made.push ⟨⟨s.rule, hint, code⟩, s.visible⟩, ?_, ?_⟩
  · rw [RunState.asked, hs, Array.append_push]
  · rw [RunState.asked, ht, h.rule, h.visible, Array.append_push]

theorem told (h : Twin s₀ t₀ s t) (e f : Event) : Twin s₀ t₀ (s.told e) (t.told f) :=
  ⟨h.memo, h.labels, h.frame, h.rule, h.muted, h.calls⟩

theorem opened (h : Twin s₀ t₀ s t) (name : String) (p : Nat) :
    Twin s₀ t₀ (s.opened name p) (t.opened name p) := by
  refine ⟨?_, h.labels, ?_, rfl, h.muted, h.calls⟩
  · rw [RunState.opened, RunState.opened, h.memo]
  · rw [RunState.opened, RunState.opened, h.labels]

theorem closed {s' t' : RunState σ} (h : Twin s₀ t₀ s t) (h' : Twin s₀ t₀ s' t') (name : String)
    (p : Nat) (o : Outcome) : Twin s₀ t₀ (s.closed s' name p o) (t.closed t' name p o) := by
  refine ⟨?_, ?_, h.frame, h.rule, h'.muted, h'.calls⟩
  · rw [RunState.closed, RunState.closed, h'.memo]
  · rw [RunState.closed, RunState.closed, h'.labels, h'.frame]

end Twin

end RunState

/-! ## Matching is blind -/

namespace Run

open RunState

/-- **A computation that ends alike in twin states**, in states that are twins again. -/
def Blind (s₀ t₀ : RunState σ) (x : Run σ α) : Prop := Simulates (Twin s₀ t₀) x x

/-- A handler that answers by a function of the call and the labels answers alike in twin states. -/
theorem blind_ask {handler : Call → Bindings → σ → Response σ α} {f : Call → Bindings → α}
    (hpure : ∀ call b u, (handler call b u).answer = .ok (f call b)) (hint : Option String)
    (code : String) : Blind s₀ t₀ (ask hint code handler) := by
  refine Simulates.ask (fun s t h => ⟨congrArg LabelStack.height h.labels, h.frame⟩) fun s t h => ?_
  exact ⟨by rw [hpure, hpure, h.rule, h.visible], h.asked hint code _ _ _ _⟩

end Run

namespace Matcher

open Run RunState

variable {m : Matcher σ} {call : String → Nat → Run σ Outcome} {f : Meaning}

/-- Matching looks at nothing that twin states differ in. -/
theorem twin_lockstep (hm : m.handlers.Pure f) : Lockstep (Twin s₀ t₀) m m where
  input := rfl
  height h := congrArg LabelStack.height h.labels
  relabel h f := h.relabel f
  mark h p token := h.mark p token
  mute h := h.mute
  unmute h := h.unmute
  predicate code := blind_ask hm.predicate none code
  action hint code := blind_ask hm.action (some hint) code

/-- **An expression is matched blindly** if rules are. -/
theorem eval_blind (hm : m.handlers.Pure f) (hcall : ∀ name p, Blind s₀ t₀ (call name p)) (e : Expr)
    (p : Nat) : Blind s₀ t₀ (m.eval call e p) :=
  (twin_lockstep hm).eval hcall e p

/-- **A rule is matched blindly**: what is known of rules is the same in twin states. -/
theorem invoke_blind (hm : m.handlers.Pure f) (fuel : Nat) :
    ∀ name p, Blind s₀ t₀ (m.invoke fuel name p) := by
  induction fuel with
  | zero => exact fun _ _ => .throw _
  | succ fuel ih =>
    intro name p
    cases hr : m.rule? name with
    | none =>
      rw [invoke, hr]
      exact .throw _
    | some r =>
      intro s t h
      cases hf : s.memo.find? name p with
      | none =>
        rw [invoke_of_none hr hf, invoke_of_none hr (h.memo ▸ hf)]
        have hbody : Blind s₀ t₀ (m.eval (m.invoke fuel) r.expr p) := eval_blind hm ih r.expr p
        cases hs : m.eval (m.invoke fuel) r.expr p (s.opened name p) with
        | ok o s' =>
          obtain ⟨t', ht, h'⟩ := hbody.of_ok (h.opened name p) hs
          rw [ht]
          exact ⟨rfl, h.closed h' name p o⟩
        | error e s' =>
          obtain ⟨t', ht, h'⟩ := hbody.of_error (h.opened name p) hs
          rw [ht]
          exact ⟨rfl, h'⟩
      | some entry =>
        cases entry with
        | inProgress =>
          rw [invoke_of_inProgress hr hf, invoke_of_inProgress hr (h.memo ▸ hf)]
          exact ⟨rfl, h⟩
        | done o =>
          rw [invoke_of_done hr hf, invoke_of_done hr (h.memo ▸ hf)]
          exact ⟨rfl, h.told _ _⟩

theorem fromStart_blind (hm : m.handlers.Pure f) (start : String) :
    Blind s₀ t₀ (m.fromStart start) :=
  invoke_blind hm m.fuel start 0

/-- **A pass is blind.** -/
theorem wholeMatch_blind (hm : m.handlers.Pure f) (start : String) :
    Blind s₀ t₀ (m.wholeMatch start) := by
  refine (fromStart_blind hm start).bind fun o => ?_
  cases o with
  | failed => exact .pure _
  | matched stop v =>
    simp only
    split
    · exact .pure _
    · exact ((twin_lockstep hm).failAt_simulates stop _).bind fun _ => .pure _

/-! ## Twin passes -/

variable {fuel : Nat} {e e' : Expr} {p q k : Nat} {s t s' : RunState σ}

theorem Iterates.twin {body : Nat → Run σ Outcome} (hbody : ∀ p, Blind s₀ t₀ (body p))
    (h : Iterates body p s q s') (ht : Twin s₀ t₀ s t) :
    ∃ t', Iterates body p t q t' ∧ Twin s₀ t₀ s' t' := by
  induction h with
  | first => exact ⟨t, .first, ht⟩
  | again before match_ moves ih =>
    obtain ⟨u, hu, hus⟩ := ih
    obtain ⟨t', ht', hts⟩ := (hbody _).of_ok hus match_
    exact ⟨t', .again hu ht' moves, hts⟩

theorem Begins.twin (hm : m.handlers.Pure f)
    (h : m.Begins (m.invoke fuel) e p s k e' q s') (ht : Twin s₀ t₀ s t) :
    ∃ t', m.Begins (m.invoke fuel) e p t k e' q t' ∧ Twin s₀ t₀ s' t' := by
  have hcall : ∀ name p, Blind s₀ t₀ (m.invoke fuel name p) := invoke_blind hm fuel
  have hlock : Lockstep (Twin s₀ t₀) m m := twin_lockstep hm
  cases h with
  | seq part before =>
    obtain ⟨t', ht', hts⟩ := (hlock.evalSeq hcall _ p).of_ok ht before
    exact ⟨t', .seq part ht', hts⟩
  | choice part before =>
    obtain ⟨t', ht', hts⟩ := (hlock.evalChoice hcall _ p).of_ok ht before
    exact ⟨t', .choice part ht', hts⟩
  | star before =>
    obtain ⟨t', ht', hts⟩ := before.twin (eval_blind hm hcall e') ht
    exact ⟨t', .star ht', hts⟩
  | plus before =>
    obtain ⟨t', ht', hts⟩ := before.twin (eval_blind hm hcall e') ht
    exact ⟨t', .plus ht', hts⟩
  | lookahead mute =>
    obtain ⟨t', ht', hts⟩ := hlock.mute_simulates.of_ok ht mute
    exact ⟨t', .lookahead ht', hts⟩
  | opt => exact ⟨t, .opt, ht⟩
  | label => exact ⟨t, .label, ht⟩
  | action => exact ⟨t, .action, ht⟩
  | group => exact ⟨t, .group, ht⟩

theorem Opens.twin {name : String} {r : Rule} (h : m.Opens name p s r s') (ht : Twin s₀ t₀ s t) :
    ∃ t', m.Opens name p t r t' ∧ Twin s₀ t₀ s' t' := by
  have hunknown := h.unknown
  rw [ht.memo] at hunknown
  refine ⟨t.opened name p, .intro h.named hunknown, ?_⟩
  rw [h.eq_opened]
  exact ht.opened name p

/-- **What a pass comes to, a pass from a twin state comes to as well**, in a twin state. -/
theorem Comes.twin (hm : m.handlers.Pure f) {start : String} {r : Rule} {path : List Nat}
    (h : m.Comes start s₀ fuel r path e p s) (h₀ : Twin s₀ t₀ s₀ t₀) :
    ∃ t, m.Comes start t₀ fuel r path e p t ∧ Twin s₀ t₀ s t := by
  induction h with
  | start enough opens =>
    obtain ⟨t, ht, hts⟩ := opens.twin h₀
    exact ⟨t, .start enough ht, hts⟩
  | part whole begins ih =>
    obtain ⟨u, hu, hus⟩ := ih
    obtain ⟨t, ht, hts⟩ := begins.twin hm hus
    exact ⟨t, .part hu ht, hts⟩
  | body caller opens ih =>
    obtain ⟨u, hu, hus⟩ := ih
    obtain ⟨t, ht, hts⟩ := opens.twin hus
    exact ⟨t, .body hu ht, hts⟩

end Matcher

end Packrat

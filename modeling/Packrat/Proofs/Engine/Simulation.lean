import Packrat.Proofs.Engine.Moves

/-!
# Computations that end alike

Matching does the same in two states that look the same to it, also where the handlers have states of
different types.

* `Run.Simulates` — from related states two computations end alike, in related states.
* `Run.Simulates.bind`, `Run.Simulates.ask` — one computation after another; what handlers answer.
* `Matcher.Lockstep` — a relation that the operations and the handlers of two matchers keep.
* `Matcher.Lockstep.eval` — **expressions are then matched alike**, if rules are.
-/

set_option autoImplicit false

namespace Packrat

variable {σ τ α β : Type} {R : RunState σ → RunState τ → Prop}

/-! ## Simulation -/

namespace Run

/-- The same result or the same fault, in related states. -/
def EndsAlike (R : RunState σ → RunState τ → Prop) :
    EStateM.Result Fault (RunState σ) α → EStateM.Result Fault (RunState τ) α → Prop
  | .ok a s, .ok b t => a = b ∧ R s t
  | .error e s, .error f t => e = f ∧ R s t
  | _, _ => False

/-- **From related states both computations end alike**, in related states. -/
def Simulates (R : RunState σ → RunState τ → Prop) (x : Run σ α) (y : Run τ α) : Prop :=
  ∀ s t, R s t → EndsAlike R (x s) (y t)

namespace Simulates

theorem pure (a : α) : Simulates R (Pure.pure a) (Pure.pure a) := fun _ _ h => ⟨rfl, h⟩

theorem throw (e : Fault) : Simulates (α := α) R (throw e) (throw e) := fun _ _ h => ⟨rfl, h⟩

/-- What ends with a result ends with it in a related state as well. -/
theorem of_ok {x : Run σ α} {y : Run τ α} (h : Simulates R x y) {s s' : RunState σ}
    {t : RunState τ} {a : α} (hst : R s t) (hx : x s = .ok a s') :
    ∃ t', y t = .ok a t' ∧ R s' t' := by
  have hend := h s t hst
  rw [hx] at hend
  cases hy : y t with
  | ok b t' =>
    rw [hy] at hend
    obtain ⟨rfl, h'⟩ := hend
    exact ⟨t', rfl, h'⟩
  | error f t' =>
    rw [hy] at hend
    cases hend

/-- What stops at a fault stops at it in a related state as well. -/
theorem of_error {x : Run σ α} {y : Run τ α} (h : Simulates R x y) {s s' : RunState σ}
    {t : RunState τ} {e : Fault} (hst : R s t) (hx : x s = .error e s') :
    ∃ t', y t = .error e t' ∧ R s' t' := by
  have hend := h s t hst
  rw [hx] at hend
  cases hy : y t with
  | ok b t' =>
    rw [hy] at hend
    cases hend
  | error f t' =>
    rw [hy] at hend
    obtain ⟨rfl, h'⟩ := hend
    exact ⟨t', rfl, h'⟩

theorem bind {x : Run σ α} {y : Run τ α} {f : α → Run σ β} {g : α → Run τ β}
    (hx : Simulates R x y) (hf : ∀ a, Simulates R (f a) (g a)) :
    Simulates R (x >>= f) (y >>= g) := by
  intro s t h
  cases hxs : x s with
  | ok a s' =>
    obtain ⟨t', hyt, h'⟩ := hx.of_ok h hxs
    rw [bind_ok hxs, bind_ok hyt]
    exact hf a s' t' h'
  | error e s' =>
    obtain ⟨t', hyt, h'⟩ := hx.of_error h hxs
    rw [bind_error hxs, bind_error hyt]
    exact ⟨rfl, h'⟩

theorem map {x : Run σ α} {y : Run τ α} (hx : Simulates R x y) (f : α → β) :
    Simulates R (f <$> x) (f <$> y) := by
  rw [map_eq_pure_bind, map_eq_pure_bind]
  exact hx.bind fun _ => .pure _

/-- Handlers are asked alike if they answer alike and what they leave behind is related. -/
theorem ask {hint : Option String} {code : String} {handler : Call → Bindings → σ → Response σ α}
    {handler' : Call → Bindings → τ → Response τ α}
    (hstack : ∀ s t, R s t → s.labels.height = t.labels.height ∧ s.frame = t.frame)
    (hasked : ∀ s t, R s t →
      let r := handler ⟨s.rule, hint, code⟩ s.visible s.user
      let r' := handler' ⟨t.rule, hint, code⟩ t.visible t.user
      r.answer = r'.answer ∧
        R (s.asked hint code r.events r.state) (t.asked hint code r'.events r'.state)) :
    Simulates R (ask hint code handler) (ask hint code handler') := by
  intro s t h
  obtain ⟨hheight, hframe⟩ := hstack s t h
  obtain ⟨hanswer, hrest⟩ := hasked s t h
  by_cases habove : s.labels.height < s.frame
  · rw [Run.ask, Run.ask, if_pos habove, if_pos (hheight ▸ hframe ▸ habove), hframe]
    exact ⟨rfl, h⟩
  · rw [Run.ask, Run.ask, if_neg habove, if_neg (hheight ▸ hframe ▸ habove)]
    simp only [← hanswer]
    cases (handler ⟨s.rule, hint, code⟩ s.visible s.user).answer with
    | ok a => exact ⟨rfl, hrest⟩
    | error f => exact ⟨rfl, hrest⟩

end Simulates

end Run

/-! ## Matching in lockstep -/

namespace Matcher

open Run

variable {m : Matcher σ} {m' : Matcher τ} {call : String → Nat → Run σ Outcome}
  {call' : String → Nat → Run τ Outcome}

/-- The operations and the handlers of two matchers of one input keep a relation, and the labels of
related states are equally many. -/
structure Lockstep (R : RunState σ → RunState τ → Prop) (m : Matcher σ) (m' : Matcher τ) :
    Prop where
  input : m.input = m'.input
  height : ∀ {s t}, R s t → s.labels.height = t.labels.height
  relabel : ∀ {s t}, R s t → ∀ f : LabelStack → LabelStack,
    R { s with labels := f s.labels } { t with labels := f t.labels }
  mark : ∀ {s t}, R s t → ∀ (p : Nat) (token : String),
    R { s with failures := s.failures.mark p token } { t with failures := t.failures.mark p token }
  mute : ∀ {s t}, R s t → R s.muted t.muted
  unmute : ∀ {s t}, R s t → R s.unmuted t.unmuted
  predicate : ∀ code : String,
    Simulates R (ask none code m.handlers.predicate) (ask none code m'.handlers.predicate)
  action : ∀ hint code : String,
    Simulates R (ask (some hint) code m.handlers.action) (ask (some hint) code m'.handlers.action)

namespace Lockstep

theorem height_simulates (h : Lockstep R m m') : Simulates R Run.height Run.height :=
  fun _ _ hst => ⟨h.height hst, hst⟩

theorem cut_simulates (h : Lockstep R m m') (mark : Nat) : Simulates R (cut mark) (cut mark) :=
  fun _ _ hst => ⟨rfl, h.relabel hst (·.cut mark)⟩

theorem bindLabel_simulates (h : Lockstep R m m') (label : String) (v : Value) :
    Simulates R (bindLabel label v) (bindLabel label v) :=
  fun _ _ hst => ⟨rfl, h.relabel hst (·.push label v)⟩

theorem mute_simulates (h : Lockstep R m m') : Simulates R Run.mute Run.mute :=
  fun _ _ hst => ⟨rfl, h.mute hst⟩

theorem unmute_simulates (h : Lockstep R m m') : Simulates R Run.unmute Run.unmute :=
  fun _ _ hst => ⟨rfl, h.unmute hst⟩

theorem failAt_simulates (h : Lockstep R m m') (p : Nat) (terminal : Terminal) :
    Simulates R (failAt p terminal) (failAt p terminal) :=
  fun _ _ hst => ⟨rfl, h.mark hst p terminal.display⟩

theorem literal (h : Lockstep R m m') (text : String) (p : Nat) :
    Simulates R (m.literal text p) (m'.literal text p) := by
  unfold Matcher.literal
  rw [h.input]
  split
  · exact .pure _
  · exact h.failAt_simulates p _

theorem oneChar (h : Lockstep R m m') (terminal : Terminal) (test : Char → Bool) (p : Nat) :
    Simulates R (m.oneChar terminal test p) (m'.oneChar terminal test p) := by
  unfold Matcher.oneChar
  rw [h.input]
  split
  · exact .throw _
  · exact h.failAt_simulates p _
  · split
    · exact .pure _
    · exact h.failAt_simulates p _

theorem repeatFrom (h : Lockstep R m m') {body : Nat → Run σ Outcome} {body' : Nat → Run τ Outcome}
    (hbody : ∀ p, Simulates R (body p) (body' p)) (bound : Nat) :
    ∀ p, Simulates R (repeatFrom body bound p) (repeatFrom body' bound p) := by
  induction bound with
  | zero => exact fun _ => .throw _
  | succ bound ih =>
    intro p
    refine h.height_simulates.bind fun mark => (hbody p).bind fun o => ?_
    cases o with
    | failed => exact (h.cut_simulates mark).bind fun _ => .pure _
    | matched next v =>
      simp only
      split
      · exact .pure _
      · exact (ih next).bind fun _ => .pure _

mutual

/-- **An expression is matched alike** if rules are. -/
theorem eval (h : Lockstep R m m') (hcall : ∀ name p, Simulates R (call name p) (call' name p))
    (e : Expr) (p : Nat) : Simulates R (m.eval call e p) (m'.eval call' e p) := by
  cases e with
  | literal span text => exact h.literal text p
  | charClass span k => exact h.oneChar _ _ p
  | anyChar span => exact h.oneChar _ _ p
  | ref reference => exact hcall reference.name.name p
  | seq span elements =>
    refine h.height_simulates.bind fun mark => (evalSeq h hcall elements p).bind fun r => ?_
    cases r with
    | none => exact (h.cut_simulates mark).bind fun _ => .pure _
    | some r => exact .pure _
  | choice span branches => exact evalChoice h hcall branches p
  | star span body =>
    rw [Matcher.eval, Matcher.eval, h.input]
    refine (h.repeatFrom (eval h hcall body) _ p).bind fun r => ?_
    obtain ⟨stop, vs⟩ := r
    cases vs <;> exact .pure _
  | plus span body =>
    rw [Matcher.eval, Matcher.eval, h.input]
    refine (h.repeatFrom (eval h hcall body) _ p).bind fun r => ?_
    obtain ⟨stop, vs⟩ := r
    cases vs <;> exact .pure _
  | opt span body =>
    refine (eval h hcall body p).bind fun o => ?_
    cases o <;> exact .pure _
  | lookahead span polarity body =>
    exact h.height_simulates.bind fun mark => h.mute_simulates.bind fun _ =>
      (eval h hcall body p).bind fun o => h.unmute_simulates.bind fun _ =>
        (h.cut_simulates mark).bind fun _ => .pure _
  | codePredicate span polarity code => exact (h.predicate _).bind fun _ => .pure _
  | label span name body =>
    refine (eval h hcall body p).bind fun o => ?_
    cases o with
    | failed => exact .pure _
    | matched stop v => exact (h.bindLabel_simulates _ v).bind fun _ => .pure _
  | action span hint code body =>
    refine (eval h hcall body p).bind fun o => ?_
    cases o with
    | failed => exact .pure _
    | matched stop v => exact (h.action _ _).bind fun _ => .pure _
  | bareAction span hint code => exact (h.action _ _).bind fun _ => .pure _
  | group span body => exact eval h hcall body p

theorem evalSeq (h : Lockstep R m m')
    (hcall : ∀ name p, Simulates R (call name p) (call' name p)) (es : List Expr) (p : Nat) :
    Simulates R (m.evalSeq call es p) (m'.evalSeq call' es p) := by
  cases es with
  | nil => exact .pure _
  | cons e rest =>
    refine (eval h hcall e p).bind fun o => ?_
    cases o with
    | failed => exact .pure _
    | matched next v =>
      refine (evalSeq h hcall rest next).bind fun r => ?_
      cases r <;> exact .pure _

theorem evalChoice (h : Lockstep R m m')
    (hcall : ∀ name p, Simulates R (call name p) (call' name p)) (es : List Expr) (p : Nat) :
    Simulates R (m.evalChoice call es p) (m'.evalChoice call' es p) := by
  cases es with
  | nil => exact .pure _
  | cons e rest =>
    refine h.height_simulates.bind fun mark => (eval h hcall e p).bind fun o => ?_
    cases o with
    | failed => exact (h.cut_simulates mark).bind fun _ => evalChoice h hcall rest p
    | matched stop v => exact .pure _

end

end Lockstep

end Matcher

end Packrat

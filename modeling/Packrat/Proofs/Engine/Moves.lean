import Packrat.Engine.Run
import Packrat.Proofs.Engine.Occurrences
import Packrat.Proofs.Engine.Operations

/-!
# Relations that every evaluation respects

Whatever handlers answer, an evaluation that ends with a result takes the state from one that it
finds to one that it leaves.  A relation between the two holds of every evaluation if it holds of
the few things that the engine does to a state.

* `RunState.opened`, `RunState.closed` — the states at the beginning and after the end of the body
  of a rule; `Matcher.invoke_cases` says that a rule is known or goes from the one to the other.
* `RunState.Stable`, `RunState.Carries` — a relation that each operation respects, without and with
  the rules that are called.
* `Matcher.eval_moves`, `Matcher.invoke_moves`, `Matcher.wholeMatch_moves` — evaluations respect it.
-/

set_option autoImplicit false

namespace Packrat

variable {σ α β : Type}

/-- Something that a handler may tell. -/
def Handlers.Tells (h : Handlers σ) (e : Event) : Prop :=
  (∃ call b u, e ∈ (h.action call b u).events) ∨ ∃ call b u, e ∈ (h.predicate call b u).events

namespace RunState

/-- The state after something was told. -/
def told (s : RunState σ) (e : Event) : RunState σ := { s with events := s.events.push e }

/-- The state after a call from the current rule, with what the handler told. -/
def asked (s : RunState σ) (hint : Option String) (code : String) (events : List Event) (user : σ) :
    RunState σ :=
  { s with
    calls := s.calls.push ⟨⟨s.rule, hint, code⟩, s.visible⟩
    events := s.events ++ events.toArray
    user := user }

/-- The state within a lookahead. -/
def muted (s : RunState σ) : RunState σ := { s with failures := s.failures.mute }

/-- The state after a lookahead. -/
def unmuted (s : RunState σ) : RunState σ := { s with failures := s.failures.unmute }

/-- The state in which the body of a rule is begun. -/
def opened (s : RunState σ) (name : String) (p : Nat) : RunState σ :=
  { s with
    memo := s.memo.insert name p .inProgress
    events := s.events.push (.attempt name p)
    rule := name
    frame := s.labels.height }

/-- The state after a rule that was tried in the state `s`, when its body has ended in the state
`t`. -/
def closed (s t : RunState σ) (name : String) (p : Nat) (o : Outcome) : RunState σ :=
  { t with
    memo := t.memo.insert name p (.done o)
    labels := t.labels.cut t.frame
    frame := s.frame
    rule := s.rule
    events := t.events.push (Matcher.outcomeEvent name p o) }

end RunState

/-! ## The results of operations -/

namespace Run

variable {s t : RunState σ} {a : α}

/-- A handler that answers is told the current rule and its labels. -/
theorem ask_eq_ok {hint : Option String} {code : String}
    {handler : Call → Bindings → σ → Response σ α} (h : ask hint code handler s = .ok a t) :
    s.frame ≤ s.labels.height ∧ (handler ⟨s.rule, hint, code⟩ s.visible s.user).answer = .ok a ∧
      t = s.asked hint code (handler ⟨s.rule, hint, code⟩ s.visible s.user).events
        (handler ⟨s.rule, hint, code⟩ s.visible s.user).state := by
  unfold ask at h
  split at h
  · cases h
  · rename_i hframe
    simp only at h
    split at h
    · rename_i b hb
      cases h
      exact ⟨Nat.not_lt.1 hframe, hb, rfl⟩
    · cases h

end Run

namespace Matcher

variable {m : Matcher σ} {fuel : Nat} {name : String} {p : Nat} {s t : RunState σ} {o : Outcome}

/-- The body of a rule that is not known is begun in the opened state. -/
theorem Opens.eq_opened {r : Rule} (h : m.Opens name p s r t) : t = s.opened name p := by
  obtain ⟨caller, hentered⟩ := h.entered
  cases hentered
  rfl

theorem Opens.intro {r : Rule} (hr : m.rule? name = some r) (hf : s.memo.find? name p = none) :
    m.Opens name p s r (s.opened name p) := ⟨hr, hf, _, rfl⟩

/-- A rule of which the outcome is known is told of and nothing else. -/
theorem invoke_of_done {r : Rule} (hr : m.rule? name = some r)
    (hf : s.memo.find? name p = some (.done o)) :
    m.invoke (fuel + 1) name p s = .ok o (s.told (cachedEvent name p o)) := by
  rw [invoke, hr]
  simp only
  rw [Run.get_bind, hf]
  rfl

/-- A rule that meets itself at the same offset is left recursive. -/
theorem invoke_of_inProgress {r : Rule} (hr : m.rule? name = some r)
    (hf : s.memo.find? name p = some .inProgress) :
    m.invoke (fuel + 1) name p s = .error (.leftRecursion name p) s := by
  rw [invoke, hr]
  simp only
  rw [Run.get_bind, hf]
  rfl

/-- A rule of which nothing is known fares as its body does. -/
theorem invoke_of_none {r : Rule} (hr : m.rule? name = some r) (hf : s.memo.find? name p = none) :
    m.invoke (fuel + 1) name p s =
      match m.eval (m.invoke fuel) r.expr p (s.opened name p) with
      | .ok o t => .ok o (s.closed t name p o)
      | .error e t => .error e t := by
  have hopen : ∀ k : String × Nat → Run σ Outcome, (do
      Run.remember name p .inProgress
      Run.tell (.attempt name p)
      k (← Run.enter name)) s = k (s.rule, s.frame) (s.opened name p) := fun k => rfl
  rw [invoke, hr]
  simp only
  rw [Run.get_bind, hf]
  simp only
  rw [hopen]
  cases hbody : m.eval (m.invoke fuel) r.expr p (s.opened name p) with
  | ok o t =>
    rw [Run.bind_ok hbody]
    rfl
  | error e t => exact Run.bind_error hbody _

/-- **A rule that ends with an outcome was known, or its body was evaluated.** -/
theorem invoke_cases (h : m.invoke fuel name p s = .ok o t) :
    ∃ n r, fuel = n + 1 ∧ m.rule? name = some r ∧
      ((s.memo.find? name p = some (.done o) ∧ t = s.told (cachedEvent name p o)) ∨
        (s.memo.find? name p = none ∧ ∃ u,
          m.eval (m.invoke n) r.expr p (s.opened name p) = .ok o u ∧ t = s.closed u name p o)) := by
  cases fuel with
  | zero => cases h
  | succ n =>
    cases hr : m.rule? name with
    | none =>
      rw [invoke, hr] at h
      cases h
    | some r =>
      refine ⟨n, r, rfl, rfl, ?_⟩
      cases hf : s.memo.find? name p with
      | none =>
        rw [invoke_of_none hr hf] at h
        split at h
        · rename_i o' u hbody
          cases h
          exact .inr ⟨rfl, u, hbody, rfl⟩
        · cases h
      | some entry =>
        cases entry with
        | inProgress =>
          rw [invoke_of_inProgress hr hf] at h
          cases h
        | done o' =>
          rw [invoke_of_done hr hf] at h
          cases h
          exact .inl ⟨rfl, rfl⟩

end Matcher

/-! ## Relations that are respected -/

variable {R : RunState σ → RunState σ → Prop}

namespace RunState

/-- A relation that the operations respect.  The labels may become what they like. -/
structure Stable (h : Handlers σ) (R : RunState σ → RunState σ → Prop) : Prop where
  refl : ∀ s, R s s
  trans : ∀ {s t u}, R s t → R t u → R s u
  labels : ∀ s labels, R s { s with labels := labels }
  mark : ∀ s p token, R s { s with failures := s.failures.mark p token }
  lookahead : ∀ {s t : RunState σ}, R s.muted t → R s t.unmuted
  asked : ∀ s hint code events user, (∀ e ∈ events, h.Tells e) → R s (s.asked hint code events user)

/-- A relation that rules respect, too: those that are known, and those that are tried if it holds
from the beginning of the body to its end. -/
structure Carries (h : Handlers σ) (R : RunState σ → RunState σ → Prop) : Prop
    extends Stable h R where
  known : ∀ {s name p o}, s.memo.find? name p = some (.done o) →
    R s (s.told (Matcher.cachedEvent name p o))
  tried : ∀ {s t : RunState σ} {name p o}, s.memo.find? name p = none → R (s.opened name p) t →
    R s (s.closed t name p o)

end RunState

namespace Run

/-- A computation that ends with a result goes from a state to a related one. -/
def Moves (R : RunState σ → RunState σ → Prop) (x : Run σ α) : Prop :=
  ∀ s a t, x s = .ok a t → R s t

section

variable {h : Handlers σ} (hR : RunState.Stable h R)

include hR

theorem Moves.pure (a : α) : Moves R (Pure.pure a : Run σ α) := by
  intro s b t heq
  cases heq
  exact hR.refl s

theorem Moves.bind {x : Run σ α} {f : α → Run σ β} (hx : Moves R x) (hf : ∀ a, Moves R (f a)) :
    Moves R (x >>= f) := by
  intro s b t heq
  obtain ⟨a, u, hxa, hfa⟩ := bind_eq_ok heq
  exact hR.trans (hx s a u hxa) (hf a u b t hfa)

theorem moves_height : Moves R (height : Run σ Nat) := by
  intro s a t heq
  cases heq
  exact hR.refl s

theorem moves_cut (mark : Nat) : Moves R (cut mark : Run σ Unit) := by
  intro s a t heq
  cases heq
  exact hR.labels s _

theorem moves_bindLabel (label : String) (v : Value) :
    Moves R (bindLabel label v : Run σ Unit) := by
  intro s a t heq
  cases heq
  exact hR.labels s _

theorem moves_failAt (p : Nat) (terminal : Terminal) :
    Moves R (failAt p terminal : Run σ Outcome) := by
  intro s a t heq
  cases heq
  exact hR.mark s p _

theorem moves_askAction (hint code : String) : Moves R (ask (some hint) code h.action) := by
  intro s a t heq
  obtain ⟨-, -, rfl⟩ := ask_eq_ok heq
  exact hR.asked s _ _ _ _ fun e he => .inl ⟨_, _, _, he⟩

theorem moves_askPredicate (code : String) : Moves R (ask none code h.predicate) := by
  intro s a t heq
  obtain ⟨-, -, rfl⟩ := ask_eq_ok heq
  exact hR.asked s _ _ _ _ fun e he => .inr ⟨_, _, _, he⟩

end

theorem Moves.throw (f : Fault) : Moves R (throw f : Run σ α) := fun _ _ _ heq => by cases heq

end Run

namespace Matcher

open Run

variable {m : Matcher σ} {call : String → Nat → Run σ Outcome}

section

variable (hR : RunState.Stable m.handlers R)

include hR

theorem moves_literal (text : String) (p : Nat) : Moves R (m.literal text p) := by
  unfold literal
  split
  · exact .pure hR _
  · exact moves_failAt hR p _

theorem moves_oneChar (terminal : Terminal) (test : Char → Bool) (p : Nat) :
    Moves R (m.oneChar terminal test p) := by
  unfold oneChar
  split
  · exact .throw _
  · exact moves_failAt hR p _
  · split
    · exact .pure hR _
    · exact moves_failAt hR p _

theorem repeatFrom_moves {body : Nat → Run σ Outcome} (hbody : ∀ p, Moves R (body p))
    (bound : Nat) : ∀ p, Moves R (repeatFrom body bound p) := by
  induction bound with
  | zero => exact fun _ => .throw _
  | succ bound ih =>
    intro p
    refine .bind hR (moves_height hR) fun mark => .bind hR (hbody p) fun o => ?_
    cases o with
    | failed => exact .bind hR (moves_cut hR mark) fun _ => .pure hR _
    | matched next v =>
      simp only
      split
      · exact .pure hR _
      · exact .bind hR (ih next) fun _ => .pure hR _

mutual

/-- **An expression moves along a relation** that the operations respect, if the rules that are
called do. -/
theorem eval_moves (hcall : ∀ name p, Moves R (call name p)) (e : Expr) (p : Nat) :
    Moves R (m.eval call e p) := by
  cases e with
  | literal span text => exact moves_literal hR text p
  | charClass span k => exact moves_oneChar hR _ _ p
  | anyChar span => exact moves_oneChar hR _ _ p
  | ref reference => exact hcall reference.name.name p
  | seq span elements =>
    refine .bind hR (moves_height hR) fun mark =>
      .bind hR (evalSeq_moves hcall elements p) fun r => ?_
    cases r with
    | none => exact .bind hR (moves_cut hR mark) fun _ => .pure hR _
    | some r => exact .pure hR _
  | choice span branches => exact evalChoice_moves hcall branches p
  | star span body =>
    refine .bind hR (repeatFrom_moves hR (eval_moves hcall body) _ p) fun r => ?_
    obtain ⟨stop, vs⟩ := r
    cases vs <;> exact .pure hR _
  | plus span body =>
    refine .bind hR (repeatFrom_moves hR (eval_moves hcall body) _ p) fun r => ?_
    obtain ⟨stop, vs⟩ := r
    cases vs <;> exact .pure hR _
  | opt span body =>
    refine .bind hR (eval_moves hcall body p) fun o => ?_
    cases o <;> exact .pure hR _
  | lookahead span polarity body =>
    -- entering a lookahead alone need not respect the relation
    intro s o t heq
    obtain ⟨mark, s₁, hheight, heq⟩ := bind_eq_ok heq
    obtain ⟨_, s₂, hmute, heq⟩ := bind_eq_ok heq
    obtain ⟨inner, s₃, hbody, heq⟩ := bind_eq_ok heq
    obtain ⟨_, s₄, hunmute, heq⟩ := bind_eq_ok heq
    cases hheight
    cases hmute
    cases hunmute
    cases heq
    exact hR.trans (hR.lookahead (eval_moves hcall body p _ _ _ hbody)) (hR.labels _ _)
  | codePredicate span polarity code =>
    exact .bind hR (moves_askPredicate hR code.text) fun _ => .pure hR _
  | label span name body =>
    refine .bind hR (eval_moves hcall body p) fun o => ?_
    cases o with
    | failed => exact .pure hR _
    | matched stop v => exact .bind hR (moves_bindLabel hR _ v) fun _ => .pure hR _
  | action span hint code body =>
    refine .bind hR (eval_moves hcall body p) fun o => ?_
    cases o with
    | failed => exact .pure hR _
    | matched stop v => exact .bind hR (moves_askAction hR hint code.text) fun _ => .pure hR _
  | bareAction span hint code =>
    exact .bind hR (moves_askAction hR hint code.text) fun _ => .pure hR _
  | group span body => exact eval_moves hcall body p

theorem evalSeq_moves (hcall : ∀ name p, Moves R (call name p)) (es : List Expr) (p : Nat) :
    Moves R (m.evalSeq call es p) := by
  cases es with
  | nil => exact .pure hR _
  | cons e rest =>
    refine .bind hR (eval_moves hcall e p) fun o => ?_
    cases o with
    | failed => exact .pure hR _
    | matched next v =>
      refine .bind hR (evalSeq_moves hcall rest next) fun r => ?_
      cases r <;> exact .pure hR _

theorem evalChoice_moves (hcall : ∀ name p, Moves R (call name p)) (es : List Expr) (p : Nat) :
    Moves R (m.evalChoice call es p) := by
  cases es with
  | nil => exact .pure hR _
  | cons e rest =>
    refine .bind hR (moves_height hR) fun mark => .bind hR (eval_moves hcall e p) fun o => ?_
    cases o with
    | failed => exact .bind hR (moves_cut hR mark) fun _ => evalChoice_moves hcall rest p
    | matched stop v => exact .pure hR _

end

end

variable (hR : RunState.Carries m.handlers R)

include hR

/-- **A rule moves along a relation** that operations and rules respect. -/
theorem invoke_moves (fuel : Nat) : ∀ name p, Moves R (m.invoke fuel name p) := by
  induction fuel with
  | zero => exact fun _ _ => .throw _
  | succ fuel ih =>
    intro name p s o t heq
    obtain ⟨n, r, hn, -, ⟨hf, rfl⟩ | ⟨hf, u, hbody, rfl⟩⟩ := invoke_cases heq
    · exact hR.known hf
    · cases hn
      exact hR.tried hf (eval_moves hR.toStable ih r.expr p _ _ _ hbody)

/-- A pass moves along it. -/
theorem wholeMatch_moves (start : String) : Moves R (m.wholeMatch start) := by
  refine .bind hR.toStable (invoke_moves hR m.fuel start 0) fun o => ?_
  cases o with
  | failed => exact .pure hR.toStable _
  | matched stop v =>
    simp only
    split
    · exact .pure hR.toStable _
    · exact .bind hR.toStable (moves_failAt hR.toStable stop _) fun _ => .pure hR.toStable _

end Matcher

end Packrat

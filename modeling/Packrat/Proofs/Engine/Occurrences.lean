import Packrat.Proofs.Engine.Values

/-!
# The occurrences that a run comes to

While an expression is matched, its parts are matched one after the other, each in the state that the
ones before it have left; and at a reference of which nothing is known the body of a rule is matched.

* `Matcher.Iterates` — the offsets and states at which a repetition begins its body.
* `Matcher.Begins` — the parts of an expression that are begun while it is matched.
* `Matcher.Opens` — a rule whose body is begun.
* `Matcher.Comes` — the occurrences, by rule and path, that are matched in a pass from a start rule.
* `Matcher.Starts` — the states in which the passes of a run and of a parse begin.
* `Matcher.Comes.honest` — in all these states the memory tells only what rules may yield.
-/

set_option autoImplicit false

namespace Packrat

variable {σ : Type}

namespace Matcher

/-- The offsets and states at which a repetition begins its body: the first ones, and those after a
match that consumed something. -/
inductive Iterates (body : Nat → Run σ Outcome) (p : Nat) (s : RunState σ) :
    Nat → RunState σ → Prop where
  | first : Iterates body p s p s
  | again {q next : Nat} {t u : RunState σ} {v : Value} (before : Iterates body p s q t)
      (match_ : body q t = .ok (.matched next v) u) (moves : next ≠ q) : Iterates body p s next u

/-- While an expression is matched at an offset in a state, its part of a number is begun at an offset
in a state. -/
inductive Begins (m : Matcher σ) (call : String → Nat → Run σ Outcome) :
    Expr → Nat → RunState σ → Nat → Expr → Nat → RunState σ → Prop where
  /-- All elements before it have matched. -/
  | seq {span : Span} {elements : List Expr} {p : Nat} {s : RunState σ} {k : Nat} {e : Expr}
      {q : Nat} {vs : List Value} {t : RunState σ} (part : elements[k]? = some e)
      (before : m.evalSeq call (elements.take k) p s = .ok (some (q, vs)) t) :
      Begins m call (.seq span elements) p s k e q t
  /-- All branches before it have failed. -/
  | choice {span : Span} {branches : List Expr} {p : Nat} {s : RunState σ} {k : Nat} {e : Expr}
      {t : RunState σ} (part : branches[k]? = some e)
      (before : m.evalChoice call (branches.take k) p s = .ok .failed t) :
      Begins m call (.choice span branches) p s k e p t
  | star {span : Span} {body : Expr} {p : Nat} {s : RunState σ} {q : Nat} {t : RunState σ}
      (before : Iterates (m.eval call body) p s q t) : Begins m call (.star span body) p s 0 body q t
  | plus {span : Span} {body : Expr} {p : Nat} {s : RunState σ} {q : Nat} {t : RunState σ}
      (before : Iterates (m.eval call body) p s q t) : Begins m call (.plus span body) p s 0 body q t
  | opt {span : Span} {body : Expr} {p : Nat} {s : RunState σ} :
      Begins m call (.opt span body) p s 0 body p s
  | lookahead {span : Span} {polarity : Polarity} {body : Expr} {p : Nat} {s t : RunState σ}
      (mute : Run.mute s = .ok () t) : Begins m call (.lookahead span polarity body) p s 0 body p t
  | label {span : Span} {name : Ident} {body : Expr} {p : Nat} {s : RunState σ} :
      Begins m call (.label span name body) p s 0 body p s
  | action {span : Span} {hint : String} {code : Code} {body : Expr} {p : Nat} {s : RunState σ} :
      Begins m call (.action span hint code body) p s 0 body p s
  | group {span : Span} {body : Expr} {p : Nat} {s : RunState σ} :
      Begins m call (.group span body) p s 0 body p s

/-- The rule `r` is asked for at an offset of which nothing is known, so that its body is begun in the
state `t`. -/
structure Opens (m : Matcher σ) (name : String) (p : Nat) (s : RunState σ) (r : Rule)
    (t : RunState σ) : Prop where
  named : m.rule? name = some r
  unknown : s.memo.find? name p = none
  entered : ∃ caller, (do
    Run.remember name p .inProgress
    Run.tell (.attempt name p)
    Run.enter name : Run σ (String × Nat)) s = .ok caller t

/-- In the pass from `start` in the state `s₀`, the expression `e` at `path` in the body of the rule `r`
is matched at `p` in the state `s`, where rules are called with `fuel`. -/
inductive Comes (m : Matcher σ) (start : String) (s₀ : RunState σ) :
    (fuel : Nat) → (r : Rule) → (path : List Nat) → (e : Expr) → (p : Nat) → (s : RunState σ) →
      Prop where
  | start {fuel : Nat} {r : Rule} {s : RunState σ} (enough : m.fuel = fuel + 1)
      (opens : m.Opens start 0 s₀ r s) : Comes m start s₀ fuel r [] r.expr 0 s
  | part {fuel : Nat} {r : Rule} {path : List Nat} {e : Expr} {p : Nat} {s : RunState σ} {k : Nat}
      {e' : Expr} {p' : Nat} {s' : RunState σ} (whole : Comes m start s₀ fuel r path e p s)
      (begins : m.Begins (m.invoke fuel) e p s k e' p' s') :
      Comes m start s₀ fuel r (path ++ [k]) e' p' s'
  | body {fuel : Nat} {r : Rule} {path : List Nat} {reference : Reference} {p : Nat} {s : RunState σ}
      {r' : Rule} {s' : RunState σ} (caller : Comes m start s₀ (fuel + 1) r path (.ref reference) p s)
      (opens : m.Opens reference.name.name p s r' s') : Comes m start s₀ fuel r' [] r'.expr p s'

/-- A pass from `start` begins in the state: the one pass of a run, or either pass of a parse. -/
inductive Starts (m : Matcher σ) (start : String) (user : σ) : RunState σ → Prop where
  | first : Starts m start user (.init user)
  | second {s : RunState σ} (missed : m.wholeMatch start (.init user) = .ok none s) :
      Starts m start user s.secondPass

/-! ## Honest states -/

section

variable {m : Matcher σ} {start : String} {user : σ} {s₀ s : RunState σ}

theorem Starts.honest (h : m.Starts start user s₀) : s₀.memo.Honest m.rules := by
  cases h with
  | first => exact .empty m.rules
  | second missed => exact .empty m.rules

theorem Iterates.honest {body : Nat → Run σ Outcome} {P : Value → Prop} {rules : List Rule}
    (hbody : ∀ p, Run.Keeps rules (Outcome.All P) (body p)) {p q : Nat} {t : RunState σ}
    (h : Iterates body p s q t) (hs : s.memo.Honest rules) : t.memo.Honest rules := by
  induction h with
  | first => exact hs
  | again before match_ moves ih => exact (hbody _ _ _ _ ih match_).2

/-- A part is begun in an honest state if the whole is. -/
theorem Begins.honest {fuel : Nat} {e e' : Expr} {p p' k : Nat} {s' : RunState σ}
    (h : m.Begins (m.invoke fuel) e p s k e' p' s') (hs : s.memo.Honest m.rules) :
    s'.memo.Honest m.rules := by
  have hcall := m.invoke_keeps fuel
  cases h with
  | seq part before => exact (evalSeq_keeps hcall _ p s _ _ hs before).2
  | choice part before => exact (evalChoice_keeps hcall _ p s _ _ hs before).2
  | star before => exact before.honest (eval_keeps hcall e') hs
  | plus before => exact before.honest (eval_keeps hcall e') hs
  | lookahead mute => exact (Run.keeps_mute s () _ hs mute).2
  | opt | label | action | group => exact hs

theorem Begins.getElem? {call : String → Nat → Run σ Outcome} {e e' : Expr} {p p' k : Nat}
    {s' : RunState σ} (h : m.Begins call e p s k e' p' s') : e.parts[k]? = some e' := by
  cases h with
  | seq part before => exact part
  | choice part before => exact part
  | star | plus | opt | lookahead | label | action | group => rfl

theorem Opens.honest {name : String} {p : Nat} {r : Rule} {t : RunState σ}
    (h : m.Opens name p s r t) (hs : s.memo.Honest m.rules) : t.memo.Honest m.rules := by
  obtain ⟨caller, hentered⟩ := h.entered
  exact ((Run.keeps_inProgress name p).bind (fun _ _ => (Run.keeps_tell _).bind fun _ _ =>
    Run.keeps_enter name) s caller t hs hentered).2

theorem Opens.name_eq {name : String} {p : Nat} {r : Rule} {t : RunState σ}
    (h : m.Opens name p s r t) : r.name.name = name := by
  simpa using List.find?_some h.named

/-- The rule at which a run comes to an occurrence is the one of its name, and the occurrence is the
part of its body at the path. -/
theorem Comes.occurs {fuel : Nat} {r : Rule} {path : List Nat} {e : Expr} {p : Nat}
    (h : m.Comes start s₀ fuel r path e p s) :
    m.rule? r.name.name = some r ∧ r.expr.at? path = some e := by
  induction h with
  | start enough opens => exact ⟨by rw [opens.name_eq]; exact opens.named, rfl⟩
  | body caller opens ih => exact ⟨by rw [opens.name_eq]; exact opens.named, rfl⟩
  | part whole begins ih =>
    refine ⟨ih.1, ?_⟩
    rw [Expr.at?_append_singleton, ih.2]
    exact begins.getElem?

/-- **In every state in which an occurrence is matched the memory is honest.** -/
theorem Comes.honest {fuel : Nat} {r : Rule} {path : List Nat} {e : Expr} {p : Nat}
    (h : m.Comes start s₀ fuel r path e p s) (h₀ : s₀.memo.Honest m.rules) :
    s.memo.Honest m.rules := by
  induction h with
  | start enough opens => exact opens.honest h₀
  | part whole begins ih => exact begins.honest ih
  | body caller opens ih => exact opens.honest ih

/-- What is matched at an occurrence has a value that the occurrence may yield. -/
theorem Comes.mayYield {fuel : Nat} {r : Rule} {path : List Nat} {e : Expr} {p : Nat}
    (h : m.Comes start s₀ fuel r path e p s) (h₀ : s₀.memo.Honest m.rules) {stop : Nat} {v : Value}
    {s' : RunState σ} (hv : m.eval (m.invoke fuel) e p s = .ok (.matched stop v) s') :
    e.MayYield m.rules v :=
  (eval_keeps (m.invoke_keeps fuel) e p s _ s' (h.honest h₀) hv).1

end

end Matcher

end Packrat

import Packrat.Engine.Run
import Packrat.Proofs.Engine.Operations
import Packrat.Proofs.Shape.Values

/-!
# The values of matches

Whatever handlers answer, the engine matches an expression only with values that the expression may
yield.

* `Outcome.All` — the value of an outcome has a property, if there is one.
* `Memo.Honest` — every match in the memory has a value that its rule may yield.
* `Run.Keeps` — a computation that keeps the memory honest and answers what has a property.
* `Matcher.eval_keeps`, `Matcher.invoke_keeps` — expressions and rules.
-/

set_option autoImplicit false

namespace Packrat

variable {σ α β : Type} {rules : List Rule}

/-- The value of the outcome, if there is one, has a property. -/
def Outcome.All (P : Value → Prop) : Outcome → Prop
  | .matched _ v => P v
  | .failed => True

theorem Outcome.All.imp {P Q : Value → Prop} {o : Outcome} (h : ∀ v, P v → Q v) (ho : o.All P) :
    o.All Q := by
  cases o with
  | matched stop v => exact h v ho
  | failed => trivial

/-- The values that the rule of a name may have. -/
def RuleMayYield (rules : List Rule) (name : String) (v : Value) : Prop :=
  ∃ r, rules.find? (·.name.name == name) = some r ∧ r.expr.MayYield rules v

/-- Every match in the memory has a value that its rule may yield. -/
def Memo.Honest (rules : List Rule) (memo : Memo) : Prop :=
  ∀ name p o, memo.find? name p = some (.done o) → o.All (RuleMayYield rules name)

namespace Memo.Honest

variable {memo : Memo}

theorem empty (rules : List Rule) : Memo.empty.Honest rules := by
  intro name p o h
  rw [find?_empty] at h
  cases h

theorem inProgress (h : memo.Honest rules) (name : String) (p : Nat) :
    (memo.insert name p .inProgress).Honest rules := by
  intro name' p' o ho
  rw [find?_insert] at ho
  split at ho
  · cases ho
  · exact h name' p' o ho

theorem done (h : memo.Honest rules) {name : String} {o : Outcome}
    (ho : o.All (RuleMayYield rules name)) (p : Nat) :
    (memo.insert name p (.done o)).Honest rules := by
  intro name' p' o' ho'
  rw [find?_insert] at ho'
  split at ho'
  · rename_i heq
    cases ho'
    rw [heq.1]
    exact ho
  · exact h name' p' o' ho'

end Memo.Honest

/-! ## Computations that keep the memory honest -/

namespace Run

variable {P : α → Prop} {Q : β → Prop}

/-- If the memory is honest before, it is honest afterwards, and the answer has a property. -/
def Keeps (rules : List Rule) (P : α → Prop) (x : Run σ α) : Prop :=
  ∀ s a s', s.memo.Honest rules → x s = .ok a s' → P a ∧ s'.memo.Honest rules

theorem Keeps.pure {a : α} (h : P a) : Keeps rules P (Pure.pure a : Run σ α) := by
  intro s b s' hs heq
  cases heq
  exact ⟨h, hs⟩

theorem Keeps.throw (f : Fault) : Keeps rules P (throw f : Run σ α) := fun _ _ _ _ heq => by cases heq

theorem Keeps.bind {x : Run σ α} {f : α → Run σ β} (hx : Keeps rules P x)
    (hf : ∀ a, P a → Keeps rules Q (f a)) : Keeps rules Q (x >>= f) := by
  intro s b s' hs heq
  obtain ⟨a, t, hxa, hfa⟩ := bind_eq_ok heq
  obtain ⟨ha, ht⟩ := hx s a t hs hxa
  exact hf a ha t b s' ht hfa

/-- What does not touch the memory keeps it honest. -/
theorem Keeps.of_memo_eq {x : Run σ α} (h : ∀ s a s', x s = .ok a s' → s'.memo = s.memo) :
    Keeps rules (fun _ => True) x := by
  intro s a s' hs heq
  rw [h s a s' heq]
  exact ⟨trivial, hs⟩

theorem Keeps.imp {P' : α → Prop} {x : Run σ α} (hx : Keeps rules P x) (h : ∀ a, P a → P' a) :
    Keeps rules P' x := by
  intro s a s' hs heq
  obtain ⟨ha, hs'⟩ := hx s a s' hs heq
  exact ⟨h a ha, hs'⟩

theorem keeps_height : Keeps (σ := σ) rules (fun _ => True) height :=
  .of_memo_eq fun _ _ _ heq => by cases heq; rfl

theorem keeps_cut (mark : Nat) : Keeps (σ := σ) rules (fun _ => True) (cut mark) :=
  .of_memo_eq fun _ _ _ heq => by cases heq; rfl

theorem keeps_bindLabel (label : String) (v : Value) :
    Keeps (σ := σ) rules (fun _ => True) (bindLabel label v) :=
  .of_memo_eq fun _ _ _ heq => by cases heq; rfl

theorem keeps_mute : Keeps (σ := σ) rules (fun _ => True) mute :=
  .of_memo_eq fun _ _ _ heq => by cases heq; rfl

theorem keeps_unmute : Keeps (σ := σ) rules (fun _ => True) unmute :=
  .of_memo_eq fun _ _ _ heq => by cases heq; rfl

theorem keeps_tell (e : Event) : Keeps (σ := σ) rules (fun _ => True) (tell e) :=
  .of_memo_eq fun _ _ _ heq => by cases heq; rfl

theorem keeps_enter (name : String) : Keeps (σ := σ) rules (fun _ => True) (enter name) :=
  .of_memo_eq fun _ _ _ heq => by cases heq; rfl

theorem keeps_leave (caller : String × Nat) :
    Keeps (σ := σ) rules (fun _ => True) (leave caller) :=
  .of_memo_eq fun _ _ _ heq => by cases heq; rfl

theorem keeps_failAt {P : Value → Prop} (p : Nat) (t : Terminal) :
    Keeps (σ := σ) rules (Outcome.All P) (failAt p t) := by
  intro s o s' hs heq
  cases heq
  exact ⟨trivial, hs⟩

theorem keeps_inProgress (name : String) (p : Nat) :
    Keeps (σ := σ) rules (fun _ => True) (remember name p .inProgress) := by
  intro s u s' hs heq
  cases heq
  exact ⟨trivial, hs.inProgress name p⟩

theorem keeps_done {name : String} {o : Outcome} (ho : o.All (RuleMayYield rules name)) (p : Nat) :
    Keeps (σ := σ) rules (fun _ => True) (remember name p (.done o)) := by
  intro s u s' hs heq
  cases heq
  exact ⟨trivial, hs.done ho p⟩

theorem keeps_ask (hint : Option String) (code : String)
    (handler : Call → Bindings → σ → Response σ α) :
    Keeps rules (fun _ => True) (ask hint code handler) := by
  refine .of_memo_eq fun s a s' heq => ?_
  unfold ask at heq
  split at heq
  · cases heq
  · simp only at heq
    split at heq
    · cases heq
      rfl
    · cases heq

end Run

/-! ## Matching -/

namespace Matcher

open Run

variable {m : Matcher σ} {call : String → Nat → Run σ Outcome}

theorem keeps_literal (m : Matcher σ) (span : Span) (text : String) (p : Nat) :
    Keeps rules (Outcome.All ((Expr.literal span text).MayYield rules)) (m.literal text p) := by
  unfold literal
  split
  · exact .pure .literal
  · exact keeps_failAt p _

theorem keeps_oneChar (m : Matcher σ) (t : Terminal) (test : Char → Bool) (p : Nat) {e : Expr}
    (he : ∀ c, e.MayYield rules (.text (String.singleton c))) :
    Keeps rules (Outcome.All (e.MayYield rules)) (m.oneChar t test p) := by
  unfold oneChar
  split
  · exact .throw _
  · exact keeps_failAt p t
  · split
    · exact .pure (he _)
    · exact keeps_failAt p t

theorem verdict_all {P : Value → Prop} (h : P (.bool true)) (holds : Bool) (p : Nat) :
    (verdict holds p).All P := by
  cases holds with
  | true => exact h
  | false => trivial

theorem repeatFrom_keeps {body : Nat → Run σ Outcome} {P : Value → Prop}
    (hbody : ∀ p, Keeps rules (Outcome.All P) (body p)) (bound : Nat) : ∀ p,
      Keeps rules (fun r => ∀ v ∈ r.2, P v) (repeatFrom body bound p) := by
  induction bound with
  | zero => exact fun _ => .throw _
  | succ bound ih =>
    intro p
    refine keeps_height.bind fun mark _ => (hbody p).bind fun o ho => ?_
    cases o with
    | failed => exact (keeps_cut mark).bind fun _ _ => .pure fun v hv => absurd hv List.not_mem_nil
    | matched next v =>
      simp only
      split
      · exact .pure (List.forall_mem_singleton.2 ho)
      · exact (ih next).bind fun r hr => .pure (List.forall_mem_cons.2 ⟨ho, hr⟩)

mutual

/-- **An expression is matched only with values that it may yield**, if this holds of the rules that
are called. -/
theorem eval_keeps (hcall : ∀ name p, Keeps rules (Outcome.All (RuleMayYield rules name)) (call name p))
    (e : Expr) (p : Nat) : Keeps rules (Outcome.All (e.MayYield rules)) (m.eval call e p) := by
  cases e with
  | literal span text => exact keeps_literal m span text p
  | charClass span k => exact keeps_oneChar m _ _ p .charClass
  | anyChar span => exact keeps_oneChar m _ _ p .anyChar
  | ref reference =>
    refine (hcall reference.name.name p).imp fun o ho => ho.imp fun v hv => ?_
    obtain ⟨r, hr, hbody⟩ := hv
    exact .ref hr hbody
  | seq span elements =>
    refine keeps_height.bind fun mark _ => (evalSeq_keeps hcall elements p).bind fun o ho => ?_
    cases o with
    | none => exact (keeps_cut mark).bind fun _ _ => .pure trivial
    | some r => exact .pure (.seq (ho r rfl))
  | choice span branches =>
    refine (evalChoice_keeps hcall branches p).imp fun o ho => ho.imp fun v hv => ?_
    obtain ⟨e, he, hbranch⟩ := hv
    exact .choice he hbranch
  | star span body =>
    refine (repeatFrom_keeps (fun q => eval_keeps hcall body q) _ p).bind fun r hr => ?_
    obtain ⟨stop, vs⟩ := r
    cases vs with
    | nil => exact .pure .starNone
    | cons v vs => exact .pure (.star hr)
  | plus span body =>
    refine (repeatFrom_keeps (fun q => eval_keeps hcall body q) _ p).bind fun r hr => ?_
    obtain ⟨stop, vs⟩ := r
    cases vs with
    | nil => exact .pure trivial
    | cons v vs => exact .pure (.plus hr)
  | opt span body =>
    refine (eval_keeps hcall body p).bind fun o ho => ?_
    cases o with
    | failed => exact .pure .optNone
    | matched stop v => exact .pure (.opt ho)
  | lookahead span polarity body =>
    refine keeps_height.bind fun mark _ => keeps_mute.bind fun _ _ => ?_
    refine (eval_keeps hcall body p).bind fun o _ => keeps_unmute.bind fun _ _ => ?_
    exact (keeps_cut mark).bind fun _ _ => .pure (verdict_all .lookahead _ _)
  | codePredicate span polarity code =>
    exact (keeps_ask _ _ _).bind fun holds _ => .pure (verdict_all .codePredicate _ _)
  | label span name body =>
    refine (eval_keeps hcall body p).bind fun o ho => ?_
    cases o with
    | failed => exact .pure trivial
    | matched stop v => exact (keeps_bindLabel _ v).bind fun _ _ => .pure (.label ho)
  | action span hint code body =>
    refine (eval_keeps hcall body p).bind fun o _ => ?_
    cases o with
    | failed => exact .pure trivial
    | matched stop v => exact (keeps_ask _ _ _).bind fun w _ => .pure (.action w)
  | bareAction span hint code =>
    exact (keeps_ask _ _ _).bind fun w _ => .pure (.bareAction w)
  | group span body =>
    exact (eval_keeps hcall body p).imp fun o ho => ho.imp fun v hv => .group hv

theorem evalSeq_keeps
    (hcall : ∀ name p, Keeps rules (Outcome.All (RuleMayYield rules name)) (call name p))
    (es : List Expr) (p : Nat) :
    Keeps rules (fun o => ∀ r, o = some r → List.Forall₂ (Expr.MayYield rules) es r.2)
      (m.evalSeq call es p) := by
  cases es with
  | nil =>
    refine .pure fun r hr => ?_
    cases hr
    exact .nil
  | cons e rest =>
    refine (eval_keeps hcall e p).bind fun o ho => ?_
    cases o with
    | failed => exact .pure fun r hr => by cases hr
    | matched next v =>
      refine (evalSeq_keeps hcall rest next).bind fun o' ho' => ?_
      cases o' with
      | none => exact .pure fun r hr => by cases hr
      | some r' =>
        refine .pure fun r hr => ?_
        cases hr
        exact .cons ho (ho' r' rfl)

theorem evalChoice_keeps
    (hcall : ∀ name p, Keeps rules (Outcome.All (RuleMayYield rules name)) (call name p))
    (es : List Expr) (p : Nat) :
    Keeps rules (Outcome.All fun v => ∃ e ∈ es, e.MayYield rules v) (m.evalChoice call es p) := by
  cases es with
  | nil => exact .pure trivial
  | cons e rest =>
    refine keeps_height.bind fun mark _ => (eval_keeps hcall e p).bind fun o ho => ?_
    cases o with
    | matched stop v => exact .pure ⟨e, List.mem_cons_self .., ho⟩
    | failed =>
      refine (keeps_cut mark).bind fun _ _ => (evalChoice_keeps hcall rest p).imp fun o ho => ?_
      refine ho.imp fun v hv => ?_
      obtain ⟨e', he', hbranch⟩ := hv
      exact ⟨e', List.mem_cons_of_mem _ he', hbranch⟩

end

/-- **A rule is matched only with values that it may yield**, be it now or from the memory. -/
theorem invoke_keeps (m : Matcher σ) (fuel : Nat) : ∀ name p,
    Keeps m.rules (Outcome.All (RuleMayYield m.rules name)) (m.invoke fuel name p) := by
  induction fuel with
  | zero => exact fun _ _ => .throw _
  | succ fuel ih =>
    intro name p
    rw [invoke]
    cases hrule : m.rule? name with
    | none => exact .throw _
    | some r =>
      simp only
      -- what the memory tells is honest in the very state in which it is asked
      intro s o s' hs heq
      obtain ⟨s₁, s₂, hget, heq⟩ := bind_eq_ok heq
      cases hget
      cases hfind : s.memo.find? name p with
      | none =>
        rw [hfind] at heq
        have hbody : Keeps m.rules (Outcome.All (RuleMayYield m.rules name))
            (m.eval (m.invoke fuel) r.expr p) :=
          (eval_keeps ih r.expr p).imp fun o ho => ho.imp fun v hv => ⟨r, hrule, hv⟩
        refine Keeps.bind (keeps_inProgress name p) (fun _ _ => (keeps_tell _).bind fun _ _ =>
          (keeps_enter name).bind fun caller _ => hbody.bind fun o ho => ?_) s o s' hs heq
        exact (keeps_leave caller).bind fun _ _ => (keeps_tell _).bind fun _ _ =>
          (keeps_done ho p).bind fun _ _ => .pure ho
      | some entry =>
        rw [hfind] at heq
        cases entry with
        | inProgress => cases heq
        | done known =>
          exact Keeps.bind (keeps_tell _) (fun _ _ => .pure (hs name p known hfind)) s o s' hs heq

/-- A pass ends with a value that its rule may yield. -/
theorem wholeMatch_keeps (m : Matcher σ) (start : String) :
    Keeps m.rules (fun v? => ∀ v, v? = some v → RuleMayYield m.rules start v)
      (m.wholeMatch start) := by
  refine (m.invoke_keeps m.fuel start 0).bind fun o ho => ?_
  cases o with
  | failed => exact .pure fun v hv => by cases hv
  | matched stop v =>
    simp only
    split
    · exact .pure fun w hw => by cases hw; exact ho
    · exact Keeps.bind (keeps_failAt (P := fun _ => True) stop .endOfInput) fun _ _ =>
        .pure fun w hw => by cases hw

theorem mismatch_keeps (m : Matcher σ) :
    Keeps m.rules (fun _ => True) m.mismatch := by
  refine .of_memo_eq fun s e s' heq => ?_
  obtain ⟨t, u, hget, heq⟩ := bind_eq_ok heq
  cases hget
  cases hf : s.failures.error m.input.text with
  | ok e' =>
    rw [hf] at heq
    cases heq
    rfl
  | error f =>
    rw [hf] at heq
    cases heq

/-- A parse ends with a value that its rule may yield. -/
theorem parse_keeps (m : Matcher σ) (start : String) :
    Keeps m.rules (fun r => ∀ v, r = .ok v → RuleMayYield m.rules start v) (m.parse start) := by
  refine (m.wholeMatch_keeps start).bind fun first hfirst => ?_
  cases first with
  | some v => exact .pure fun w hw => by cases hw; exact hfirst v rfl
  | none =>
    have hsecond : Keeps m.rules (fun _ => True)
        (modify RunState.secondPass : Run σ Unit) := by
      intro s u s' _ heq
      cases heq
      exact ⟨trivial, .empty m.rules⟩
    refine hsecond.bind fun _ _ => (m.wholeMatch_keeps start).bind fun again hagain => ?_
    cases again with
    | some v =>
      exact (keeps_tell _).bind fun _ _ => .pure fun w hw => by cases hw; exact hagain v rfl
    | none =>
      exact m.mismatch_keeps.bind fun e _ => .pure fun w hw => by cases hw

end Matcher

end Packrat

import Packrat.Proofs.Engine.Moves

/-!
# What an evaluation leaves as it was

All evaluations of a pass share one state.  An evaluation that ends gives most of it back: the frame
and the name of the current rule, the depth of lookaheads and the pass; where nothing matched, and after
a rule or a lookahead, the labels; and within a lookahead the record of failures.

* `Failures.Framed` — how an evaluation may change the record of failures.
* `RunState.Framed` — how it may change everything but the labels, the memory and what is told.
* `Matcher.eval_stacks` — an expression puts labels on top of the others, and none if it fails.
* `Matcher.evaluations_framed` — the two together, of expressions and of rules.
-/

set_option autoImplicit false

namespace Packrat

variable {σ : Type}

/-! ## Frame, rule and failures -/

namespace Failures

/-- How the record of failures may change while something is evaluated. -/
structure Framed (f f' : Failures) : Prop where
  /-- All lookaheads that were entered are left again. -/
  muted : f'.muted = f.muted
  /-- The pass stays the same. -/
  collecting : f'.collecting = f.collecting
  /-- Within a lookahead nothing is recorded. -/
  quiet : 0 < f.muted → f'.furthest = f.furthest ∧ f'.expected = f.expected
  /-- The first pass moves the furthest offset on and expects nothing. -/
  searches : f.collecting = false → f.furthest ≤ f'.furthest ∧ f'.expected = f.expected
  /-- The second pass keeps the furthest offset and expects more. -/
  gathers : f.collecting = true →
    f'.furthest = f.furthest ∧ f.expected.tokens ⊆ f'.expected.tokens

theorem Framed.refl (f : Failures) : f.Framed f where
  muted := rfl
  collecting := rfl
  quiet _ := ⟨rfl, rfl⟩
  searches _ := ⟨Nat.le_refl _, rfl⟩
  gathers _ := ⟨rfl, List.Subset.refl _⟩

theorem Framed.trans {f f' f'' : Failures} (h : f.Framed f') (h' : f'.Framed f'') :
    f.Framed f'' where
  muted := h'.muted.trans h.muted
  collecting := h'.collecting.trans h.collecting
  quiet hf := by
    obtain ⟨hfurthest, hexpected⟩ := h.quiet hf
    obtain ⟨hfurthest', hexpected'⟩ := h'.quiet (h.muted.symm ▸ hf)
    exact ⟨hfurthest'.trans hfurthest, hexpected'.trans hexpected⟩
  searches hf := by
    obtain ⟨hfurthest, hexpected⟩ := h.searches hf
    obtain ⟨hfurthest', hexpected'⟩ := h'.searches (h.collecting.trans hf)
    exact ⟨Nat.le_trans hfurthest hfurthest', hexpected'.trans hexpected⟩
  gathers hf := by
    obtain ⟨hfurthest, hexpected⟩ := h.gathers hf
    obtain ⟨hfurthest', hexpected'⟩ := h'.gathers (h.collecting.trans hf)
    exact ⟨hfurthest'.trans hfurthest, fun _ ht => hexpected' (hexpected ht)⟩

theorem framed_mark (f : Failures) (p : Nat) (token : String) : f.Framed (f.mark p token) := by
  unfold mark
  split
  · exact .refl f
  · rename_i hmuted
    -- outside lookaheads, so that there is nothing to keep quiet about
    have hloud : ¬ 0 < f.muted := by omega
    split
    · rename_i hcollecting
      split
      · refine { Framed.refl f with
          quiet := fun h => absurd h hloud
          searches := fun h => by rw [hcollecting] at h; cases h
          gathers := fun _ => ⟨rfl, fun t ht => ?_⟩ }
        exact ExpectedSet.mem_insert.2 (.inr ht)
      · exact .refl f
    · rename_i hcollecting
      split
      · rename_i hlt
        exact { Framed.refl f with
          quiet := fun h => absurd h hloud
          searches := fun _ => ⟨Nat.le_of_lt hlt, rfl⟩
          gathers := fun h => absurd h hcollecting }
      · exact .refl f

/-- A lookahead leaves the record as it was, whatever fails in it. -/
theorem Framed.lookahead {f f' : Failures} (h : f.mute.Framed f') : f.Framed f'.unmute := by
  obtain ⟨hfurthest, hexpected⟩ := h.quiet (Nat.succ_pos f.muted)
  have hmuted : f'.muted - 1 = f.muted := by
    rw [h.muted]
    exact Nat.add_sub_cancel f.muted 1
  have hsame : f'.unmute = f := by
    have hcollecting := h.collecting
    cases f
    cases f'
    simp only [unmute, mute, mk.injEq] at *
    exact ⟨hfurthest, hmuted, hcollecting, hexpected⟩
  rw [hsame]
  exact .refl f

end Failures

namespace RunState

/-- How the state may change while something is evaluated: the current rule and its frame stay as they
are, and the record of failures changes only as it may. -/
structure Framed (s t : RunState σ) : Prop where
  frame : t.frame = s.frame
  rule : t.rule = s.rule
  failures : s.failures.Framed t.failures

/-- Every operation changes the state only so, and a rule gives the frame back to its caller. -/
theorem carries_framed (h : Handlers σ) : Carries h Framed where
  refl s := ⟨rfl, rfl, .refl s.failures⟩
  trans h h' := ⟨h'.frame.trans h.frame, h'.rule.trans h.rule, h.failures.trans h'.failures⟩
  labels s _ := ⟨rfl, rfl, .refl s.failures⟩
  mark s p token := ⟨rfl, rfl, s.failures.framed_mark p token⟩
  lookahead h := ⟨h.frame, h.rule, h.failures.lookahead⟩
  asked s _ _ _ _ _ := ⟨rfl, rfl, .refl s.failures⟩
  known _ := ⟨rfl, rfl, .refl _⟩
  tried _ h := ⟨rfl, rfl, h.failures⟩

end RunState

namespace Run

variable {α : Type} {x : Run σ α} {s : RunState σ} {P : α → RunState σ → Bool}

/-- Whether a computation ends with a result and a state that pass a test. -/
def endsIn (x : Run σ α) (s : RunState σ) (P : α → RunState σ → Bool) : Bool :=
  match x s with
  | .ok a t => P a t
  | .error _ _ => false

theorem exists_of_endsIn (h : endsIn x s P = true) : ∃ a t, x s = .ok a t ∧ P a t = true := by
  unfold endsIn at h
  split at h
  · rename_i a t heq
    exact ⟨a, t, heq, h⟩
  · cases h

end Run

/-! ## Labels -/

/-- Giving back what was put on top of a stack. -/
theorem LabelStack.cut_of_grown {s t : LabelStack} (h : s.toList <+: t.toList) :
    t.cut s.height = s := by
  obtain ⟨more, hmore⟩ := h
  apply ext_toList
  rw [toList_cut, ← hmore, ← length_toList, List.take_left]

/-- The labels of a state are still there, below others, and there are no others if `back` holds. -/
structure RunState.Stacks (s t : RunState σ) (back : Prop) : Prop where
  grown : s.labels.toList <+: t.labels.toList
  restored : back → t.labels = s.labels

namespace RunState.Stacks

variable {s t u : RunState σ} {back back' : Prop}

theorem of_eq (h : t.labels = s.labels) : s.Stacks t back :=
  ⟨h ▸ List.prefix_refl _, fun _ => h⟩

theorem imp (h : s.Stacks t back) (hback : back' → back) : s.Stacks t back' :=
  ⟨h.grown, fun hb => h.restored (hback hb)⟩

theorem then_eq (h : s.Stacks t back) (hu : u.labels = t.labels) : s.Stacks u back :=
  ⟨hu ▸ h.grown, fun hb => hu.trans (h.restored hb)⟩

theorem of_grown (h : s.labels.toList <+: t.labels.toList) (hback : ¬ back) : s.Stacks t back :=
  ⟨h, fun hb => absurd hb hback⟩

/-- Labels that were put on top of others are given back. -/
theorem cut (h : s.labels.toList <+: t.labels.toList) :
    s.Stacks { t with labels := t.labels.cut s.labels.height } back :=
  .of_eq (LabelStack.cut_of_grown h)

end RunState.Stacks

namespace Matcher

open Run RunState

variable {m : Matcher σ} {call : String → Nat → Run σ Outcome} {s t : RunState σ} {o : Outcome}
  {p : Nat}

theorem literal_labels {text : String} (h : m.literal text p s = .ok o t) : t.labels = s.labels := by
  unfold literal at h
  by_cases hholds : m.input.holdsAt p text.toList = true
  · rw [if_pos hholds] at h
    cases h
    rfl
  · rw [if_neg hholds] at h
    cases h
    rfl

theorem oneChar_labels {terminal : Terminal} {test : Char → Bool}
    (h : m.oneChar terminal test p s = .ok o t) : t.labels = s.labels := by
  unfold oneChar at h
  generalize m.input.charAt? p = read at h
  rcases read with _ | _ | c
  · cases h
  · cases h
    rfl
  · by_cases htest : test c = true
    · simp only [if_pos htest] at h
      cases h
      rfl
    · simp only [if_neg htest] at h
      cases h
      rfl

theorem ask_labels {α : Type} {hint : Option String} {code : String}
    {handler : Call → Bindings → σ → Response σ α} {a : α} (h : ask hint code handler s = .ok a t) :
    t.labels = s.labels := by
  obtain ⟨-, -, rfl⟩ := ask_eq_ok h
  rfl

/-- A lookahead gives back the labels of its body. -/
theorem lookahead_labels {span : Span} {polarity : Polarity} {body : Expr}
    (hbody : ∀ o u, m.eval call body p s.muted = .ok o u → s.labels.toList <+: u.labels.toList)
    (h : m.eval call (.lookahead span polarity body) p s = .ok o t) : t.labels = s.labels := by
  obtain ⟨mark, s₁, hmark, h⟩ := bind_eq_ok h
  cases hmark
  obtain ⟨_, s₂, hmute, h⟩ := bind_eq_ok h
  cases hmute
  obtain ⟨inner, u, hinner, h⟩ := bind_eq_ok h
  cases h
  exact LabelStack.cut_of_grown (hbody inner u hinner)

/-- A repetition puts the labels of its rounds on top of one another; the round that fails adds none. -/
theorem repeatFrom_stacks {body : Nat → Run σ Outcome}
    (hbody : ∀ q s o t, body q s = .ok o t → s.Stacks t (o = .failed)) (bound : Nat) :
    ∀ p s r t, repeatFrom body bound p s = .ok r t → s.Stacks t (r.2 = []) := by
  induction bound with
  | zero =>
    intro p s r t h
    cases h
  | succ bound ih =>
    intro p s r t h
    obtain ⟨mark, s₁, hmark, h⟩ := bind_eq_ok h
    cases hmark
    obtain ⟨o, u, hround, h⟩ := bind_eq_ok h
    have hfirst := hbody p s o u hround
    cases o with
    | failed =>
      cases h
      exact .cut hfirst.grown
    | matched next v =>
      simp only at h
      split at h
      · cases h
        exact .of_grown hfirst.grown (List.cons_ne_nil v [])
      · obtain ⟨r', u', hrest, h⟩ := bind_eq_ok h
        cases h
        exact .of_grown (hfirst.grown.trans (ih next u r' t hrest).grown) (List.cons_ne_nil v r'.2)

/-- Calling a rule leaves the labels as they are. -/
def CallsRestore (call : String → Nat → Run σ Outcome) : Prop :=
  ∀ name p s o t, call name p s = .ok o t → t.labels = s.labels

mutual

/-- **An expression puts its labels on top of the others, and none if it fails**, if the rules that are
called leave the labels as they are. -/
theorem eval_stacks (hcall : CallsRestore call) (e : Expr) (p : Nat) (s : RunState σ) (o : Outcome)
    (t : RunState σ) (h : m.eval call e p s = .ok o t) : s.Stacks t (o = .failed) := by
  cases e with
  | literal span text => exact .of_eq (literal_labels h)
  | charClass span k => exact .of_eq (oneChar_labels h)
  | anyChar span => exact .of_eq (oneChar_labels h)
  | ref reference => exact .of_eq (hcall _ p s o t h)
  | seq span elements =>
    obtain ⟨mark, s₁, hmark, h⟩ := bind_eq_ok h
    cases hmark
    obtain ⟨r, u, helements, h⟩ := bind_eq_ok h
    have hgrown := evalSeq_stacks hcall elements p s r u helements
    cases r with
    | none =>
      cases h
      exact .cut hgrown
    | some r =>
      cases h
      exact .of_grown hgrown Outcome.noConfusion
  | choice span branches => exact evalChoice_stacks hcall branches p s o t h
  | star span body =>
    obtain ⟨⟨stop, vs⟩, u, hrounds, h⟩ := bind_eq_ok h
    have hstacks := repeatFrom_stacks (eval_stacks hcall body) _ p s _ u hrounds
    cases vs <;> cases h <;> exact .of_grown hstacks.grown Outcome.noConfusion
  | plus span body =>
    obtain ⟨⟨stop, vs⟩, u, hrounds, h⟩ := bind_eq_ok h
    have hstacks := repeatFrom_stacks (eval_stacks hcall body) _ p s _ u hrounds
    cases vs with
    | nil =>
      cases h
      exact hstacks.imp fun _ => rfl
    | cons v vs =>
      cases h
      exact .of_grown hstacks.grown Outcome.noConfusion
  | opt span body =>
    obtain ⟨inner, u, hbody, h⟩ := bind_eq_ok h
    have hstacks := eval_stacks hcall body p s inner u hbody
    cases inner <;> cases h <;> exact .of_grown hstacks.grown Outcome.noConfusion
  | lookahead span polarity body =>
    exact .of_eq (lookahead_labels (fun o u hbody => (eval_stacks hcall body p _ o u hbody).grown) h)
  | codePredicate span polarity code =>
    obtain ⟨holds, u, hask, h⟩ := bind_eq_ok h
    cases h
    exact .of_eq (ask_labels hask)
  | label span name body =>
    obtain ⟨inner, u, hbody, h⟩ := bind_eq_ok h
    have hstacks := eval_stacks hcall body p s inner u hbody
    cases inner with
    | failed =>
      cases h
      exact hstacks
    | matched stop v =>
      cases h
      refine .of_grown (hstacks.grown.trans ?_) Outcome.noConfusion
      rw [LabelStack.toList_push]
      exact List.prefix_append _ _
  | action span hint code body =>
    obtain ⟨inner, u, hbody, h⟩ := bind_eq_ok h
    have hstacks := eval_stacks hcall body p s inner u hbody
    cases inner with
    | failed =>
      cases h
      exact hstacks
    | matched stop v =>
      obtain ⟨a, u', hask, h⟩ := bind_eq_ok h
      cases h
      exact .of_grown (hstacks.then_eq (ask_labels hask)).grown Outcome.noConfusion
  | bareAction span hint code =>
    obtain ⟨a, u, hask, h⟩ := bind_eq_ok h
    cases h
    exact .of_eq (ask_labels hask)
  | group span body => exact eval_stacks hcall body p s o t h

theorem evalSeq_stacks (hcall : CallsRestore call) (es : List Expr) (p : Nat) (s : RunState σ)
    (r : Option (Nat × List Value)) (t : RunState σ) (h : m.evalSeq call es p s = .ok r t) :
    s.labels.toList <+: t.labels.toList := by
  cases es with
  | nil =>
    cases h
    exact List.prefix_refl _
  | cons e rest =>
    obtain ⟨o, u, hfirst, h⟩ := bind_eq_ok h
    have hgrown := (eval_stacks hcall e p s o u hfirst).grown
    cases o with
    | failed =>
      cases h
      exact hgrown
    | matched next v =>
      obtain ⟨r', u', hrest, h⟩ := bind_eq_ok h
      have hgrown' := hgrown.trans (evalSeq_stacks hcall rest next u r' u' hrest)
      cases r' <;> cases h <;> exact hgrown'

theorem evalChoice_stacks (hcall : CallsRestore call) (es : List Expr) (p : Nat) (s : RunState σ)
    (o : Outcome) (t : RunState σ) (h : m.evalChoice call es p s = .ok o t) : s.Stacks t (o = .failed) := by
  cases es with
  | nil =>
    cases h
    exact .of_eq rfl
  | cons e rest =>
    obtain ⟨mark, s₁, hmark, h⟩ := bind_eq_ok h
    cases hmark
    obtain ⟨inner, u, hbranch, h⟩ := bind_eq_ok h
    have hstacks := eval_stacks hcall e p s inner u hbranch
    cases inner with
    | matched stop v =>
      cases h
      exact hstacks
    | failed =>
      -- the next branch begins with the labels with which this one began
      obtain ⟨_, u', hcut, h⟩ := bind_eq_ok h
      cases hcut
      have hrest := evalChoice_stacks hcall rest p _ o t h
      have hsame : u.labels.cut s.labels.height = s.labels := LabelStack.cut_of_grown hstacks.grown
      exact ⟨hsame ▸ hrest.grown, fun hb => (hrest.restored hb).trans hsame⟩

end

/-- **A rule leaves the labels as they are**, whether it is known or tried. -/
theorem invoke_restores (m : Matcher σ) (fuel : Nat) : CallsRestore (m.invoke fuel) := by
  induction fuel with
  | zero =>
    intro name p s o t h
    cases h
  | succ fuel ih =>
    intro name p s o t h
    obtain ⟨n, r, hn, -, ⟨-, rfl⟩ | ⟨-, u, hbody, rfl⟩⟩ := invoke_cases h
    · rfl
    · cases hn
      -- the frame of the body is the height of the labels before it
      have hframed := eval_moves (carries_framed m.handlers).toStable
        (invoke_moves (carries_framed m.handlers) fuel) r.expr p _ _ _ hbody
      have hgrown := (eval_stacks ih r.expr p _ _ _ hbody).grown
      show u.labels.cut u.frame = s.labels
      rw [hframed.frame]
      exact LabelStack.cut_of_grown hgrown

/-- **An evaluation leaves the state as it must.**  Whatever the grammar, the handlers, the input and the
state are, also in the midst of lookaheads, in the second pass or with a frame above the labels: after an
expression or a rule that ends with an outcome, the current rule, its frame, the depth of lookaheads
and the pass are as before, and the record of failures has changed only as it may.  The labels from before
are still there, below others; there are no others if nothing matched, and none after a reference, a
lookahead or a rule. -/
theorem evaluations_framed (m : Matcher σ) (fuel : Nat) :
    (∀ e p s o t, m.eval (m.invoke fuel) e p s = .ok o t →
      s.Framed t ∧ s.labels.toList <+: t.labels.toList ∧
        (o = .failed → t.labels = s.labels) ∧
        (∀ reference, e = .ref reference → t.labels = s.labels) ∧
        ∀ span polarity body, e = .lookahead span polarity body → t.labels = s.labels) ∧
      ∀ name p s o t, m.invoke fuel name p s = .ok o t → s.Framed t ∧ t.labels = s.labels := by
  have hcall := invoke_moves (carries_framed m.handlers) fuel
  refine ⟨fun e p s o t h => ?_, fun name p s o t h =>
    ⟨hcall name p s o t h, m.invoke_restores fuel name p s o t h⟩⟩
  have hstacks := eval_stacks (m.invoke_restores fuel) e p s o t h
  refine ⟨eval_moves (carries_framed m.handlers).toStable hcall e p s o t h, hstacks.grown,
    hstacks.restored, ?_, ?_⟩
  · rintro reference rfl
    exact m.invoke_restores fuel _ p s o t h
  · rintro span polarity body rfl
    exact lookahead_labels
      (fun o u hbody => (eval_stacks (m.invoke_restores fuel) body p _ o u hbody).grown) h

/-- The rule `A <- y:'a' 'b' / 'a'` on an input. -/
def letterThenRest : Matcher Unit :=
  ⟨[⟨⟨0, 0⟩, ⟨"A", ⟨0, 0⟩⟩, .choice ⟨0, 0⟩
      [.seq ⟨0, 0⟩ [.label ⟨0, 0⟩ ⟨"y", ⟨0, 0⟩⟩ (.literal ⟨0, 0⟩ "a"), .literal ⟨0, 0⟩ "b"],
        .literal ⟨0, 0⟩ "a"]⟩],
    .none Unit, .ofText "addc".toList⟩

/-- `x:A !(z:'c') (w:'d')*`. -/
def labelledRest : Expr :=
  .seq ⟨0, 0⟩
    [.label ⟨0, 0⟩ ⟨"x", ⟨0, 0⟩⟩ (.ref (.mk ⟨0, 0⟩ ⟨"A", ⟨0, 0⟩⟩ [])),
      .lookahead ⟨0, 0⟩ .negative (.label ⟨0, 0⟩ ⟨"z", ⟨0, 0⟩⟩ (.literal ⟨0, 0⟩ "c")),
      .star ⟨0, 0⟩ (.label ⟨0, 0⟩ ⟨"w", ⟨0, 0⟩⟩ (.literal ⟨0, 0⟩ "d"))]

/-- In the second pass, with a label of the caller below the frame. -/
def withinCaller : RunState Unit :=
  { RunState.init () with
    labels := LabelStack.empty.push "k" .absent
    frame := 1
    rule := "S"
    failures := ⟨3, 0, true, ⟨["EOF"]⟩⟩ }

/-- Labels of a branch that fails and of a lookahead are gone, and what fails at the furthest offset is
expected, too. -/
theorem evaluations_framed_rest : ∃ o t,
    letterThenRest.eval (letterThenRest.invoke 2) labelledRest 0 withinCaller = .ok o t ∧
      withinCaller.Framed t ∧ withinCaller.labels.toList <+: t.labels.toList ∧
      t.labels.toList.map (·.1) = ["k", "x", "w", "w"] ∧
      t.failures.expected.tokens = ["\"d\"", "EOF"] := by
  obtain ⟨o, t, h, hend⟩ := Run.exists_of_endsIn (show Run.endsIn
    (letterThenRest.eval (letterThenRest.invoke 2) labelledRest 0) withinCaller (fun _ t =>
      t.labels.toList.map (·.1) == ["k", "x", "w", "w"] &&
        t.failures.expected.tokens == ["\"d\"", "EOF"]) = true by decide +kernel)
  rw [Bool.and_eq_true, beq_iff_eq, beq_iff_eq] at hend
  obtain ⟨hframed, hgrown, -⟩ := (letterThenRest.evaluations_framed 2).1 labelledRest 0 withinCaller o t h
  exact ⟨o, t, h, hframed, hgrown, hend⟩

end Matcher

end Packrat

import Packrat.Proofs.Engine.Blind
import Packrat.Proofs.Engine.Furthest
import Packrat.Proofs.Engine.Transcript

/-!
# The two passes of a parse

The second pass of a parse does what the first one has done, in a state that matching cannot tell
from that of the first; so no terminal that counts fails further on than in the first pass.

* `Failures.Leads` — how the record of failures changes: the furthest offset grows in the first pass
  and stays in the second one.
* `Matcher.Comes.ends` — what a pass that ends comes to has ended before, with a record that leads
  to the record of the pass.
* `Matcher.Misses` — a parse that fails, with its two passes.
* `compile_passes_agree` — a parse has the value of a run that matches all of the input; otherwise
  its two passes agree.
-/

set_option autoImplicit false

namespace Packrat

variable {σ : Type}

/-! ## How the record of failures changes -/

namespace Failures

/-- A record may become another one: in the same pass, with a furthest offset that is not smaller,
and in the second pass the same. -/
structure Leads (f f' : Failures) : Prop where
  collecting : f'.collecting = f.collecting
  furthest : f.furthest ≤ f'.furthest
  stays : f.collecting = true → f'.furthest = f.furthest

theorem Leads.refl (f : Failures) : f.Leads f := ⟨rfl, Nat.le_refl _, fun _ => rfl⟩

theorem Leads.trans {f f' f'' : Failures} (h : f.Leads f') (h' : f'.Leads f'') : f.Leads f'' where
  collecting := h'.collecting.trans h.collecting
  furthest := Nat.le_trans h.furthest h'.furthest
  stays hf := (h'.stays (h.collecting.trans hf)).trans (h.stays hf)

theorem leads_mark (f : Failures) (p : Nat) (token : String) : f.Leads (f.mark p token) := by
  unfold mark
  split
  · exact .refl f
  · split
    · split
      · exact ⟨rfl, Nat.le_refl _, fun _ => rfl⟩
      · exact .refl f
    · split
      · rename_i hcollecting hlt
        exact ⟨rfl, Nat.le_of_lt hlt, fun h => absurd h hcollecting⟩
      · exact .refl f

/-- What fails outside lookaheads in the first pass does not lie beyond the furthest offset. -/
theorem le_furthest_mark {f : Failures} (hmuted : f.muted = 0) (hcollecting : f.collecting = false)
    (p : Nat) (token : String) : p ≤ (f.mark p token).furthest := by
  unfold mark
  rw [if_neg (by omega), hcollecting, if_neg Bool.false_ne_true]
  split
  · exact Nat.le_refl p
  · rename_i hle
    exact Nat.not_lt.1 hle

/-- An error is at the furthest offset, and this is a boundary of the text. -/
theorem offset_of_error {f : Failures} {cs : List Char} {e : ParseError} (h : f.error cs = .ok e) :
    e.location.offset = f.furthest ∧ Boundary cs f.furthest := by
  unfold error at h
  split at h
  · rename_i location hlocation
    cases h
    exact ⟨LineCol.offset_of_at? hlocation, boundary_iff_at?.2 ⟨location, hlocation⟩⟩
  · cases h

end Failures

/-- Between two states the record of failures becomes another one. -/
def RunState.Leads (s t : RunState σ) : Prop := s.failures.Leads t.failures

theorem RunState.carries_leads (h : Handlers σ) : Carries h RunState.Leads where
  refl s := .refl s.failures
  trans := Failures.Leads.trans
  labels s _ := .refl s.failures
  mark s := s.failures.leads_mark
  lookahead h := ⟨h.collecting, h.furthest, h.stays⟩
  asked s _ _ _ _ _ := .refl s.failures
  known _ := .refl _
  tried _ h := ⟨h.collecting, h.furthest, h.stays⟩

/-- All that is told is told about rules or by a handler. -/
theorem RunState.carries_told (h : Handlers σ) : Carries h fun s t =>
    ∀ e ∈ t.events.toList, e ∈ s.events.toList ∨ e.level = .trace ∨ h.Tells e where
  refl _ _ he := .inl he
  trans h h' e he := (h' e he).elim (h e) .inr
  labels _ _ _ he := .inl he
  mark _ _ _ _ he := .inl he
  lookahead h := h
  asked s hint code events user hevents e he := by
    rw [RunState.asked, Array.toList_append, List.mem_append] at he
    exact he.imp_right fun he => .inr (hevents e he)
  known := by
    intro s name p o _ e he
    rw [told, Array.toList_push, List.mem_append, List.mem_singleton] at he
    exact he.imp_right fun he => .inl (by simp [he])
  tried := by
    intro s t name p o _ h e he
    rw [closed, Array.toList_push, List.mem_append, List.mem_singleton] at he
    rcases he with he | rfl
    · have hinside := h e he
      rw [opened, Array.toList_push, List.mem_append, List.mem_singleton] at hinside
      rcases hinside with (hbefore | rfl) | hrest
      · exact .inl hbefore
      · exact .inr (.inl rfl)
      · exact .inr hrest
    · exact .inr (.inl (by simp))

/-! ## What a pass comes to has an end -/

namespace Matcher

variable {m : Matcher σ} {call : String → Nat → Run σ Outcome} {s t u : RunState σ} {p q : Nat}
  {e : Expr} {es : List Expr}

theorem evalSeq_cons_cases {r : Option (Nat × List Value)}
    (h : m.evalSeq call (e :: es) p s = .ok r t) :
    (m.eval call e p s = .ok .failed t ∧ r = none) ∨ ∃ next v u r',
      m.eval call e p s = .ok (.matched next v) u ∧ m.evalSeq call es next u = .ok r' t ∧
        r = r'.map fun x => (x.1, v :: x.2) := by
  obtain ⟨o, u, he, h⟩ := Run.bind_eq_ok h
  cases o with
  | failed =>
    cases h
    exact .inl ⟨he, rfl⟩
  | matched next v =>
    obtain ⟨r', u', hes, h⟩ := Run.bind_eq_ok h
    refine .inr ⟨next, v, u, r', he, ?_, ?_⟩ <;> cases r' <;> cases h
    · exact hes
    · exact hes
    · rfl
    · rfl

theorem evalChoice_cons_cases {o : Outcome} (h : m.evalChoice call (e :: es) p s = .ok o t) :
    (∃ stop v, m.eval call e p s = .ok (.matched stop v) t ∧ o = .matched stop v) ∨
      ∃ u, m.eval call e p s = .ok .failed u ∧
        m.evalChoice call es p { u with labels := u.labels.cut s.labels.height } = .ok o t := by
  obtain ⟨mark, u, hmark, h⟩ := Run.bind_eq_ok h
  cases hmark
  obtain ⟨o', u, he, h⟩ := Run.bind_eq_ok h
  cases o' with
  | matched stop v =>
    cases h
    exact .inl ⟨stop, v, he, rfl⟩
  | failed => exact .inr ⟨u, he, h⟩

variable (hcall : ∀ name p, Run.Moves RunState.Leads (call name p))

include hcall

theorem evalSeq_part_ends {r : Option (Nat × List Value)} {k : Nat} {vs : List Value}
    (part : es[k]? = some e) (before : m.evalSeq call (es.take k) p s = .ok (some (q, vs)) u)
    (h : m.evalSeq call es p s = .ok r t) :
    ∃ o t', m.eval call e q u = .ok o t' ∧ t'.Leads t := by
  have hstable := (RunState.carries_leads m.handlers).toStable
  induction es generalizing k p s r vs with
  | nil => cases part
  | cons e₀ rest ih =>
    cases k with
    | zero =>
      cases part
      cases before
      rcases evalSeq_cons_cases h with ⟨he, -⟩ | ⟨next, v, u', r', he, hrest, -⟩
      · exact ⟨_, t, he, hstable.refl t⟩
      · exact ⟨_, u', he, evalSeq_moves hstable hcall rest next u' r' t hrest⟩
    | succ k =>
      rw [List.take_succ_cons] at before
      rcases evalSeq_cons_cases before with ⟨-, hnone⟩ | ⟨next, v, u', r', he, hbefore, hr⟩
      · cases hnone
      · obtain ⟨⟨q', vs'⟩, rfl, hq⟩ := Option.map_eq_some_iff.1 hr.symm
        cases hq
        rcases evalSeq_cons_cases h with ⟨he', -⟩ | ⟨next', v', w, r'', he', hrest, -⟩
        · rw [he] at he'
          cases he'
        · rw [he] at he'
          cases he'
          exact ih part hbefore hrest

theorem evalChoice_part_ends {o : Outcome} {k : Nat} (part : es[k]? = some e)
    (before : m.evalChoice call (es.take k) p s = .ok .failed u)
    (h : m.evalChoice call es p s = .ok o t) :
    ∃ o' t', m.eval call e p u = .ok o' t' ∧ t'.Leads t := by
  have hstable := (RunState.carries_leads m.handlers).toStable
  induction es generalizing k s o with
  | nil => cases part
  | cons e₀ rest ih =>
    cases k with
    | zero =>
      cases part
      cases before
      rcases evalChoice_cons_cases h with ⟨stop, v, he, -⟩ | ⟨u', he, hrest⟩
      · exact ⟨_, t, he, hstable.refl t⟩
      · exact ⟨_, u', he, hstable.trans (hstable.labels u' _)
          (evalChoice_moves hstable hcall rest p _ o t hrest)⟩
    | succ k =>
      rw [List.take_succ_cons] at before
      rcases evalChoice_cons_cases before with ⟨stop, v, -, hfailed⟩ | ⟨u', he, hbefore⟩
      · cases hfailed
      · rcases evalChoice_cons_cases h with ⟨stop, v, he', -⟩ | ⟨w, he', hrest⟩
        · rw [he] at he'
          cases he'
        · rw [he] at he'
          cases he'
          exact ih part hbefore hrest

omit hcall in
/-- Each round of a repetition that ends has ended. -/
theorem Iterates.ends {body : Nat → Run σ Outcome} (hbody : ∀ p, Run.Moves RunState.Leads (body p))
    (hstable : RunState.Stable m.handlers RunState.Leads) {bound : Nat} {r : Nat × List Value}
    (hround : Iterates body p s q u) (h : repeatFrom body bound p s = .ok r t) :
    ∃ o t', body q u = .ok o t' ∧ t'.Leads t := by
  -- where a round begins, the rest of the repetition begins, too
  suffices hrest : ∃ bound r, repeatFrom body bound q u = .ok r t by
    obtain ⟨bound, r, h⟩ := hrest
    cases bound with
    | zero => cases h
    | succ bound =>
      obtain ⟨mark, u', hmark, h⟩ := Run.bind_eq_ok h
      cases hmark
      obtain ⟨o, t', hq, h⟩ := Run.bind_eq_ok h
      refine ⟨o, t', hq, ?_⟩
      cases o with
      | failed =>
        cases h
        exact hstable.labels t' _
      | matched next v =>
        simp only at h
        split at h
        · cases h
          exact hstable.refl _
        · obtain ⟨r', t'', hnext, h⟩ := Run.bind_eq_ok h
          cases h
          exact repeatFrom_moves hstable hbody bound next t' r' t hnext
  induction hround with
  | first => exact ⟨bound, r, h⟩
  | @again q next u w v before match_ moves ih =>
    obtain ⟨bound, r, h⟩ := ih
    cases bound with
    | zero => cases h
    | succ bound =>
      obtain ⟨mark, u', hmark, h⟩ := Run.bind_eq_ok h
      cases hmark
      obtain ⟨o, t', hq, h⟩ := Run.bind_eq_ok h
      rw [match_] at hq
      cases hq
      simp only [if_neg moves] at h
      obtain ⟨r', t'', hnext, h⟩ := Run.bind_eq_ok h
      cases h
      exact ⟨bound, r', hnext⟩

/-- A part that is begun in an evaluation that ends has ended. -/
theorem Begins.ends {e' : Expr} {k : Nat} {o : Outcome} (hbegins : m.Begins call e p s k e' q u)
    (h : m.eval call e p s = .ok o t) : ∃ o' t', m.eval call e' q u = .ok o' t' ∧ t'.Leads t := by
  have hstable := (RunState.carries_leads m.handlers).toStable
  cases hbegins with
  | seq part before =>
    obtain ⟨mark, u', hmark, h⟩ := Run.bind_eq_ok h
    cases hmark
    obtain ⟨r, t', hes, h⟩ := Run.bind_eq_ok h
    obtain ⟨o', w, hw, hleads⟩ := evalSeq_part_ends hcall part before hes
    refine ⟨o', w, hw, hstable.trans hleads ?_⟩
    cases r with
    | none =>
      cases h
      exact hstable.labels t' _
    | some r =>
      cases h
      exact hstable.refl _
  | choice part before => exact evalChoice_part_ends hcall part before h
  | star before | plus before =>
    obtain ⟨⟨stop, vs⟩, t', hrepeat, h⟩ := Run.bind_eq_ok h
    obtain ⟨o', w, hw, hleads⟩ := before.ends (eval_moves hstable hcall e') hstable hrepeat
    cases vs <;> cases h <;> exact ⟨o', w, hw, hleads⟩
  | opt =>
    obtain ⟨o', t', hbody, h⟩ := Run.bind_eq_ok h
    cases o' <;> cases h <;> exact ⟨_, t, hbody, hstable.refl t⟩
  | lookahead mute =>
    cases mute
    obtain ⟨mark, u', hmark, h⟩ := Run.bind_eq_ok h
    cases hmark
    obtain ⟨_, u', hmute, h⟩ := Run.bind_eq_ok h
    cases hmute
    obtain ⟨o', t', hbody, h⟩ := Run.bind_eq_ok h
    cases h
    exact ⟨_, t', hbody, rfl, Nat.le_refl _, fun _ => rfl⟩
  | label =>
    obtain ⟨o', t', hbody, h⟩ := Run.bind_eq_ok h
    cases o' with
    | failed =>
      cases h
      exact ⟨_, t, hbody, hstable.refl t⟩
    | matched stop v =>
      cases h
      exact ⟨_, t', hbody, hstable.labels t' _⟩
  | action =>
    obtain ⟨o', t', hbody, h⟩ := Run.bind_eq_ok h
    cases o' with
    | failed =>
      cases h
      exact ⟨_, t, hbody, hstable.refl t⟩
    | matched stop v =>
      obtain ⟨a, t'', hask, h⟩ := Run.bind_eq_ok h
      cases h
      exact ⟨_, t', hbody, Run.moves_askAction hstable _ _ _ _ _ hask⟩
  | group => exact ⟨o, t, h, hstable.refl t⟩

omit hcall

/-- The body of a rule that is tried has ended if the rule has. -/
theorem Opens.ends {n : Nat} {name : String} {r : Rule} {o : Outcome}
    (hopens : m.Opens name p s r u) (h : m.invoke (n + 1) name p s = .ok o t) :
    ∃ o' t', m.eval (m.invoke n) r.expr p u = .ok o' t' ∧ t'.Leads t := by
  rw [invoke_of_none hopens.named hopens.unknown, ← hopens.eq_opened] at h
  split at h
  · rename_i o' t' hbody
    cases h
    exact ⟨o, t', hbody, .refl t'.failures⟩
  · cases h

/-- **What a pass that ends comes to has ended**, with a record that leads to that of the pass. -/
theorem Comes.ends {start : String} {s₀ : RunState σ} {n : Nat} {r : Rule} {path : List Nat}
    {o : Outcome} (hcomes : m.Comes start s₀ n r path e p s) (h : m.fromStart start s₀ = .ok o t) :
    ∃ o' t', m.eval (m.invoke n) e p s = .ok o' t' ∧ t'.Leads t := by
  induction hcomes with
  | start enough opens =>
    rw [fromStart, enough] at h
    exact opens.ends h
  | part whole begins ih =>
    obtain ⟨o', u, hu, hleads⟩ := ih
    obtain ⟨o'', u', hu', hleads'⟩ :=
      begins.ends (invoke_moves (RunState.carries_leads m.handlers) _) hu
    exact ⟨o'', u', hu', hleads'.trans hleads⟩
  | body caller opens ih =>
    obtain ⟨o', u, hu, hleads⟩ := ih
    obtain ⟨o'', u', hu', hleads'⟩ := opens.ends hu
    exact ⟨o'', u', hu', hleads'.trans hleads⟩

/-! ## What fails in the second pass -/

end Matcher

/-- What an expression is if it can fail by itself. -/
def Expr.terminal? : Expr → Option Terminal
  | .literal _ text => some (.literal text)
  | .charClass _ k => some (.charClass k)
  | .anyChar _ => some .anyChar
  | _ => none

namespace Matcher

variable {m : Matcher σ} {f : Meaning} {start : String} {s₀ t₀ s t : RunState σ}

/-- A terminal that fails leaves a mark. -/
theorem eval_terminal_failed {call : String → Nat → Run σ Outcome} {e : Expr} {terminal : Terminal}
    {p : Nat} (he : e.terminal? = some terminal) (h : m.eval call e p s = .ok .failed t) :
    t = { s with failures := s.failures.mark p terminal.display } := by
  have hone : ∀ test, m.oneChar terminal test p s = .ok .failed t →
      t = { s with failures := s.failures.mark p terminal.display } := by
    intro test h
    rw [oneChar] at h
    cases hchar : m.input.charAt? p with
    | none =>
      rw [hchar] at h
      cases h
    | some next =>
      rw [hchar] at h
      cases next with
      | none =>
        cases h
        rfl
      | some x =>
        simp only at h
        split at h <;> cases h
        rfl
  cases e <;> cases he
  · rename_i span text
    change m.literal text p s = _ at h
    unfold literal at h
    split at h <;> cases h
    rfl
  · exact hone _ h
  · exact hone _ h

/-- **No terminal fails outside lookaheads further on than in a pass before**, that has begun in a
twin state and has found out where the furthest failure is. -/
theorem terminal_within (hm : m.handlers.Pure f) {o : Outcome}
    (hfirst : m.fromStart start s₀ = .ok o s) (hcollecting : s₀.failures.collecting = false)
    (htwin : RunState.Twin t₀ s₀ t₀ s₀) {n : Nat}
    {r : Rule} {path : List Nat} {e : Expr} {p : Nat} {terminal : Terminal} {u u' : RunState σ}
    (hcomes : m.Comes start t₀ n r path e p u) (he : e.terminal? = some terminal)
    (hmuted : u.failures.muted = 0) (hfails : m.eval (m.invoke n) e p u = .ok .failed u') :
    p ≤ s.failures.furthest := by
  -- the first pass came to the same occurrence, and the terminal failed there, too
  obtain ⟨v, hv, huv⟩ := hcomes.twin hm htwin
  obtain ⟨v', hv', -⟩ := (eval_blind hm (invoke_blind hm n) e p).of_ok huv hfails
  obtain ⟨o', v'', hends, hleads⟩ := hv.ends hfirst
  rw [hv'] at hends
  cases hends
  have hpass := invoke_moves (RunState.carries_leads m.handlers) m.fuel start 0 _ _ _ hfirst
  have hcollecting' : v'.failures.collecting = false := by
    rw [← hleads.collecting, hpass.collecting, hcollecting]
  rw [eval_terminal_failed he hv'] at hcollecting' hleads
  refine Nat.le_trans (Failures.le_furthest_mark ?_ ?_ p terminal.display) hleads.furthest
  · rw [← huv.muted, hmuted]
  · rw [← hcollecting', (v.failures.leads_mark p terminal.display).collecting]

/-- A parse that fails, with the states `s` and `t` after its two passes.  The outcome of a run
would have been `o`. -/
structure Misses (m : Matcher σ) (start : String) (user : σ) (o : Outcome) (e : ParseError)
    (s t : RunState σ) : Prop where
  first : m.wholeMatch start (.init user) = .ok none s
  second : m.wholeMatch start s.secondPass = .ok none t
  /-- Both passes end with the outcome of the run. -/
  outcomes : ∃ u v, m.fromStart start (.init user) = .ok o u ∧
    m.fromStart start s.secondPass = .ok o v
  /-- The second pass makes the calls of the first one again. -/
  calls : t.calls = s.calls ++ s.calls
  /-- The error is where the first pass has found the furthest failure. -/
  offset : e.location.offset = s.failures.furthest
  /-- No terminal that fails in the second pass outside lookaheads is further on. -/
  within : ∀ n r path e' p terminal u u', m.Comes start s.secondPass n r path e' p u →
    e'.terminal? = some terminal → u.failures.muted = 0 →
      m.eval (m.invoke n) e' p u = .ok .failed u' → p ≤ e.location.offset
  inside : e.location.offset ≤ byteLength m.input.text
  /-- What a run matches ends before the error. -/
  reaches : ∀ stop v, o = .matched stop v → stop ≤ e.location.offset
  expected : 0 < e.location.offset → e.expected.tokens ≠ []

/-- A pass over the whole input has tried its start rule. -/
theorem wholeMatch_fromStart {r : Option Value} (h : m.wholeMatch start s = .ok r t) :
    ∃ o u, m.fromStart start s = .ok o u ∧ u.Leads t := by
  have hstable := (RunState.carries_leads m.handlers).toStable
  obtain ⟨o, u, hu, h⟩ := Run.bind_eq_ok h
  refine ⟨o, u, hu, ?_⟩
  cases o with
  | failed =>
    cases h
    exact hstable.refl _
  | matched stop v =>
    simp only at h
    split at h
    · cases h
      exact hstable.refl _
    · obtain ⟨o', t', hfail, h⟩ := Run.bind_eq_ok h
      cases h
      exact Run.moves_failAt hstable stop _ _ _ _ hfail

/-- The calls of a pass are made again in a pass from a twin state. -/
theorem calls_twice (hm : m.handlers.Pure f) {user : σ} {a b : Option Value}
    (hfirst : m.wholeMatch start (.init user) = .ok a s)
    (hsecond : m.wholeMatch start s.secondPass = .ok b t) : t.calls = s.calls ++ s.calls := by
  obtain ⟨t', ht', htwins⟩ := (wholeMatch_blind hm start).of_ok (.passes user s) hfirst
  rw [hsecond] at ht'
  cases ht'
  obtain ⟨made, hs, ht⟩ := htwins.calls
  have hinit : (RunState.init user).calls = #[] := rfl
  have hsecondPass : s.secondPass.calls = s.calls := rfl
  rw [hinit, Array.empty_append] at hs
  rw [ht, hsecondPass, hs]

end Matcher

section

variable {g : Grammar} {h : Handlers σ} {f : Meaning} {start : String}

/-- A parse of a safe grammar that fails has two passes that agree. -/
theorem Grammar.misses (hg : g.Safe) (hf : h.Pure f) (user : σ) (input : List Char)
    {steps : List Step} (hwhole : (g.plain f input).whole start = some (none, steps))
    {e : ParseError} (he : (Step.performTwice h steps (.init user)).failures.error input = .ok e) :
    ∃ o inside, (g.plain f input).Holds ⟨start, 0, o, inside⟩ ∧
      (g.matcher h input).Misses start user o e
        ((Step.performAll h steps (.init user)).state [] [] "")
        ((Step.performTwice h steps (.init user)).state [] [] "") := by
  obtain ⟨rank, hranked⟩ := hg.ranked f input
  have hplays := g.matcher_plays hf input
  obtain ⟨o, inside, hv, hcases⟩ := Plain.whole_cases hwhole
  have htells := Step.performTwice_tells steps user he
  have hstart := fun l hl => Matcher.fromStart_eq (l := l) hplays hranked hv hl
  have hfirst := Matcher.wholeMatch_eq hplays hranked hwhole (Ledger.fresh_init user)
  have hsecond := Matcher.wholeMatch_eq hplays hranked hwhole
    (Ledger.fresh_secondPass (Step.performAll h steps (.init user)))
  obtain ⟨herror, hboundary⟩ := Failures.offset_of_error he
  -- the second pass keeps the furthest offset, and the error tells it
  have hoffset : e.location.offset = (Step.performAll h steps (.init user)).failures.furthest :=
    herror.trans
      ((Matcher.wholeMatch_moves (RunState.carries_leads h) start _ _ _ hsecond).stays rfl)
  refine ⟨o, inside, hv, {
    first := hfirst
    second := hsecond
    outcomes := ⟨_, _, hstart _ (Ledger.fresh_init user), hstart _ (Ledger.fresh_secondPass _)⟩
    calls := Matcher.calls_twice hf hfirst hsecond
    offset := hoffset
    within := ?_
    inside := herror ▸ hboundary.le_byteLength
    reaches := ?_
    expected := ?_ }⟩
  · intro n r path e' p terminal u u' hcomes hterminal hmuted hfails
    obtain ⟨o', v, hv, hleads⟩ := Matcher.wholeMatch_fromStart hfirst
    have hle := Matcher.terminal_within hf hv rfl (RunState.Twin.passes user _).symm hcomes
      hterminal hmuted hfails
    rw [hoffset]
    exact Nat.le_trans hle hleads.furthest
  · rintro stop v rfl
    obtain ⟨hfailed, -⟩ | ⟨stop', v', hmatched, ⟨-, hnone, -⟩ | ⟨-, -, rfl⟩⟩ := hcases
    · cases hfailed
    · cases hnone
    · cases hmatched
      refine htells.furthest (stop, .endOfInput) ?_
      simp [Step.heard, Step.pruneAll, Step.prune, Step.failuresAll, Step.failures]
  · intro hpos hempty
    rcases htells.reached with hzero | ⟨terminal, hmem⟩
    · omega
    · have htoken := (htells.expected terminal.display).2 ⟨terminal, hmem, rfl⟩
      rw [hempty] at htoken
      cases htoken

/-- **The two passes of a parse agree.**  A parse has a value exactly if a run matches all of the
input with this value.  Otherwise its second pass ends like the first one and makes the same calls,
so that it tells nothing of a difference unless a handler does. -/
theorem compile_passes_agree {depth : Nat} {source : String} {cs : List Char}
    (hg : (compileWithin depth source cs).answer = .ok (.ok g)) (hf : h.Pure f) (hstart : start ∈ g.ruleNames)
    (user : σ) (input : List Char) : ∃ o, (g.run h user start input).answer = .ok (.ok o) ∧
      (∀ v, (g.parse h user start input).answer = .ok (.ok v) ↔ o = .matched (byteLength input) v) ∧
      ((∀ v, o ≠ .matched (byteLength input) v) → ∃ e s t,
        (g.matcher h input).Misses start user o e s t ∧
        g.parse h user start input =
          ⟨.ok (.error (.mismatch e)), t.events.toList, t.calls.toList, t.user⟩ ∧
        (Event.nondeterministic ∈ t.events.toList → h.Tells .nondeterministic)) := by
  have hsafe := compile_safe hg
  obtain ⟨rank, hranked⟩ := hsafe.ranked f input
  obtain ⟨o, inside, hv, hrun⟩ := Grammar.run_eq hsafe hf hstart user input
  obtain ⟨r, steps, hwhole, hparse⟩ := Grammar.parse_eq hsafe hf hstart user input
  refine ⟨o, by rw [hrun]; rfl, ?_⟩
  obtain ⟨o', inside', hv', hcases⟩ := Plain.whole_cases hwhole
  cases (Option.some.inj (hv'.symm.trans hv) : (o', inside') = (o, inside))
  cases r with
  | some v =>
    obtain ⟨-, hnone, -⟩ | ⟨stop, w, rfl, ⟨hle, hw, -⟩ | ⟨-, hnone, -⟩⟩ := hcases
    · cases hnone
    · cases hw
      -- a match ends within the input
      have hend := (Plain.rule_advances hranked.nullable hv (.zero input) stop v rfl).boundary
      obtain rfl : stop = byteLength input := Nat.le_antisymm hend.le_byteLength hle
      simp only at hparse
      rw [hparse]
      refine ⟨fun w => ⟨?_, ?_⟩, fun hnot => absurd rfl (hnot v)⟩
      · rintro ⟨⟩
        rfl
      · rintro ⟨⟩
        rfl
    · cases hnone
  | none =>
    obtain ⟨e, he, hparse⟩ := hparse
    obtain ⟨o', inside', hv', hmisses⟩ := Grammar.misses hsafe hf user input hwhole he
    cases (Option.some.inj (hv'.symm.trans hv) : (o', inside') = (o, inside))
    have hnot : ∀ v, o ≠ .matched (byteLength input) v := by
      rintro v rfl
      obtain ⟨hfailed, -⟩ | ⟨stop, w, hmatched, ⟨-, hsome, -⟩ | ⟨hlt, -, -⟩⟩ := hcases
      · cases hfailed
      · cases hsome
      · cases hmatched
        exact hlt (Nat.le_refl _)
    refine ⟨fun v => ⟨fun hanswer => ?_, fun ho => absurd ho (hnot v)⟩, fun _ =>
      ⟨e, _, _, hmisses, hparse, fun hmem => ?_⟩⟩
    · rw [hparse] at hanswer
      cases hanswer
    · -- neither pass tells it of itself
      have hmoves :=
        Matcher.wholeMatch_moves (m := g.matcher h input) (RunState.carries_told h) start
      rcases hmoves _ _ _ hmisses.second _ hmem with hfirst | hlevel | htells
      · rcases hmoves _ _ _ hmisses.first _ hfirst with hinit | hlevel | htells
        · cases hinit
        · cases hlevel
        · exact htells
      · cases hlevel
      · exact htells

/-- A prefix of two digits that are tried in a lookahead first, with calls in both passes. -/
theorem compile_passes_agree_prefix : ∃ g, (compile "prefix.peg"
      "S <- &A A 'x' / A\nA <- (d:[0-9] Digit: { d })* Number: { n }".toList).answer = .ok (.ok g) ∧
        "S" ∈ g.ruleNames ∧
      ∃ v, (g.run (Handlers.none Unit) () "S" "12é".toList).answer = .ok (.ok (.matched 2 v)) ∧
        (∀ w, (g.parse (Handlers.none Unit) () "S" "12é".toList).answer ≠ .ok (.ok w)) ∧
        ∃ e s t,
          (g.matcher (Handlers.none Unit) "12é".toList).Misses "S" () (.matched 2 v) e s t := by
  obtain ⟨g, hg, hstart, hmatch⟩ := exists_of_acceptedWith? (show (acceptedWith? "prefix.peg"
    "S <- &A A 'x' / A\nA <- (d:[0-9] Digit: { d })* Number: { n }".toList "S").any
      (fun g => (g.run (Handlers.none Unit) () "S" "12é".toList).stop? == some 2) = true
        by decide +kernel)
  obtain ⟨v, hv⟩ := Report.exists_of_stop? (eq_of_beq hmatch)
  obtain ⟨o, hrun, hvalue, hmisses⟩ :=
    compile_passes_agree hg (Handlers.none_pure Unit) hstart () "12é".toList
  rw [hv] at hrun
  cases hrun
  have hshort : ∀ w, Outcome.matched 2 v ≠ .matched (byteLength "12é".toList) w := by
    intro w h
    injection h with hstop
    revert hstop
    decide
  obtain ⟨e, s, t, h, -⟩ := hmisses hshort
  exact ⟨g, hg, hstart, v, hv, fun w hw => hshort w ((hvalue w).1 hw), e, s, t, h⟩

end

end Packrat

import Packrat.Engine.Run
import Packrat.Proofs.Engine.Agreement
import Packrat.Proofs.Plain.Whole

/-!
# Runs of safe grammars

A run of a safe grammar with pure handlers performs the steps of the plain evaluation, one pass after
the other.

* `Ledger.report` — a result with what a ledger tells.
* `Matcher.fromStart_eq`, `Matcher.wholeMatch_eq` — one pass.
* `Ledger.Bounded` — all offsets in a ledger are boundaries; steps with such offsets keep it so.
* `Grammar.run_eq`, `Grammar.parse_eq` — what a run reports.
-/

set_option autoImplicit false

namespace Packrat

variable {σ : Type}

/-! ## One pass -/

namespace Ledger

/-- Nothing is known: a ledger before a pass. -/
def Fresh (l : Ledger σ) : Prop := l.memo = .empty

theorem Fresh.ready {l : Ledger σ} (h : l.Fresh) (c : Plain) (weight : String → Nat → Nat)
    (bound : Nat) : l.Ready c weight bound := by
  refine ⟨fun name p o hf => ?_, fun name p hf => ?_⟩ <;> rw [h, Memo.find?_empty] at hf <;> cases hf

/-- The ledger before the second pass. -/
def secondPass (l : Ledger σ) : Ledger σ :=
  { l with memo := .empty, failures := l.failures.collect }

theorem fresh_init (user : σ) : (init user).Fresh := rfl

theorem fresh_secondPass (l : Ledger σ) : l.secondPass.Fresh := rfl

theorem state_init (user : σ) : RunState.init user = (init user).state [] [] "" := rfl

/-- A result with all that happened on the way. -/
def report {α : Type} (l : Ledger σ) (a : α) : Report σ α :=
  ⟨.ok a, l.events.toList, l.calls.toList, l.user⟩

end Ledger

theorem Run.report_of_ok {α : Type} {r : Run σ α} {user : σ} {a : α} {l : Ledger σ}
    (h : r (.init user) = .ok a (l.state [] [] "")) : r.report user = l.report a := by
  rw [Run.report, h]
  rfl

theorem Run.eq_ok_of_report {α : Type} {r : Run σ α} {user : σ} {a : α}
    (h : (r.report user).answer = .ok a) : ∃ s, r (.init user) = .ok a s := by
  unfold report at h
  split at h
  · rename_i b s hr
    cases h
    exact ⟨s, hr⟩
  · cases h

/-- What the steps of a pass do to a ledger if the pass is made twice. -/
def Step.performTwice (h : Handlers σ) (steps : List Step) (l : Ledger σ) : Ledger σ :=
  Step.performAll h steps (Step.performAll h steps l).secondPass

namespace Matcher

open Step

variable {m : Matcher σ} {c : Plain} {known : List String} {rank : String → Nat} {start : String}
  {l : Ledger σ}

/-- A pass performs the visit of the start rule. -/
theorem fromStart_eq (hm : m.Plays c) (hranked : c.Ranked known rank) {o : Outcome}
    {inside : List Step} (hv : c.Holds ⟨start, 0, o, inside⟩) (hl : l.Fresh) :
    m.fromStart start (l.state [] [] "") =
      .ok o (((Step.rule start 0 o inside).perform m.handlers l).state [] [] "") := by
  obtain ⟨r, -, hr, -⟩ := Plain.rule_cases hv
  have hweight : c.weight rank start 0 < c.rules.length * (byteLength c.text + 1) :=
    Plain.weight_lt hranked ⟨r, hr⟩ 0
  have hfuel : c.weight rank start 0 < m.fuel := by
    rw [fuel, hm.rules, m.input.size_eq, hm.text]
    omega
  exact invoke_performs hm hranked m.fuel ⟨start, 0, o, inside⟩ hv (.zero c.text) hfuel l
    (c.weight rank start 0 + 1) [] [] "" (Nat.lt_succ_self _) (hl.ready c _ _)

/-- A pass over the whole text performs the steps of its plain evaluation. -/
theorem wholeMatch_eq (hm : m.Plays c) (hranked : c.Ranked known rank) {r : Option Value}
    {steps : List Step} (h : c.whole start = some (r, steps)) (hl : l.Fresh) :
    m.wholeMatch start (l.state [] [] "") =
      .ok r ((performAll m.handlers steps l).state [] [] "") := by
  obtain ⟨o, inside, hv, hcases⟩ := Plain.whole_cases h
  have hend : ∀ stop, m.input.isEnd stop = decide (byteLength c.text ≤ stop) := by
    intro stop
    rw [Input.isEnd, m.input.size_eq, hm.text]
  rw [wholeMatch, Run.bind_ok (fromStart_eq hm hranked hv hl)]
  obtain ⟨rfl, rfl, rfl⟩ | ⟨stop, v, rfl, hcases⟩ := hcases
  · rw [performAll_cons, performAll_nil]
    rfl
  · simp only [hend, decide_eq_true_eq]
    obtain ⟨hle, rfl, rfl⟩ | ⟨hlt, rfl, rfl⟩ := hcases
    · rw [if_pos hle, performAll_cons, performAll_nil]
      rfl
    · rw [if_neg hlt, Run.bind_ok (Run.failAt_state stop .endOfInput), performAll_cons,
        performAll_cons, performAll_nil]
      rfl

theorem parse_of_some (hm : m.Plays c) (hranked : c.Ranked known rank) {v : Value}
    {steps : List Step} (h : c.whole start = some (some v, steps)) (hl : l.Fresh) :
    m.parse start (l.state [] [] "") =
      .ok (.ok v) ((performAll m.handlers steps l).state [] [] "") := by
  rw [parse, Run.bind_ok (wholeMatch_eq hm hranked h hl)]
  rfl

theorem mismatch_state {e : ParseError} (h : l.failures.error m.input.text = .ok e) :
    m.mismatch (l.state [] [] "") = .ok e (l.state [] [] "") := by
  have hfailures : (l.state [] [] "").failures = l.failures := rfl
  rw [mismatch, Run.get_bind, hfailures, h]
  rfl

/-- The second pass fares like the first. -/
theorem parse_of_none (hm : m.Plays c) (hranked : c.Ranked known rank) {steps : List Step}
    (h : c.whole start = some (none, steps)) (hl : l.Fresh) {e : ParseError}
    (he : (performTwice m.handlers steps l).failures.error m.input.text = .ok e) :
    m.parse start (l.state [] [] "") =
      .ok (.error e) ((performTwice m.handlers steps l).state [] [] "") := by
  have hmodify : (modify RunState.secondPass : Run σ Unit)
      ((performAll m.handlers steps l).state [] [] "") =
        .ok () ((performAll m.handlers steps l).secondPass.state [] [] "") := rfl
  rw [parse, Run.bind_ok (wholeMatch_eq hm hranked h hl)]
  simp only
  rw [Run.bind_ok hmodify,
    Run.bind_ok (wholeMatch_eq hm hranked h (Ledger.fresh_secondPass _))]
  exact Run.bind_ok (mismatch_state he) _

end Matcher

/-! ## Offsets -/

/-- The offsets that an event tells. -/
def Event.offsets : Event → List Nat
  | .attempt _ start => [start]
  | .matched _ start stop => [start, stop]
  | .failed _ start => [start]
  | .cachedMatch _ start stop => [start, stop]
  | .cachedFail _ start => [start]
  | .parsedGrammar .. | .checkedGrammar .. | .expandedTemplates .. | .compiledGrammar ..
  | .inferredShape .. | .noHandler .. | .noTable .. | .nondeterministic => []

theorem Event.offsets_eq_nil {e : Event} (h : e.level ≠ .trace) : e.offsets = [] := by
  cases e <;> first | rfl | exact absurd rfl h

theorem Matcher.offsets_cachedEvent (name : String) (p : Nat) (o : Outcome) :
    (cachedEvent name p o).offsets = p :: o.offsets := by cases o <;> rfl

theorem Matcher.offsets_outcomeEvent (name : String) (p : Nat) (o : Outcome) :
    (outcomeEvent name p o).offsets = p :: o.offsets := by cases o <;> rfl

namespace Ledger

variable {cs : List Char} {l : Ledger σ}

/-- All offsets in a ledger are boundaries. -/
structure Bounded (l : Ledger σ) (cs : List Char) : Prop where
  events : ∀ e ∈ l.events.toList, ∀ q ∈ e.offsets, Boundary cs q
  furthest : Boundary cs l.failures.furthest

theorem Bounded.init (user : σ) (cs : List Char) : (Ledger.init user).Bounded cs :=
  ⟨fun _ h => absurd h List.not_mem_nil, .zero cs⟩

theorem Bounded.secondPass (h : l.Bounded cs) : l.secondPass.Bounded cs := ⟨h.events, h.furthest⟩

theorem Bounded.tell (h : l.Bounded cs) {e : Event} (he : ∀ q ∈ e.offsets, Boundary cs q) :
    (l.tell e).Bounded cs := by
  refine ⟨?_, h.furthest⟩
  rw [Ledger.tell, Array.toList_push, List.forall_mem_append]
  exact ⟨h.events, List.forall_mem_singleton.2 he⟩

theorem furthest_mark (f : Failures) (p : Nat) (token : String) :
    (f.mark p token).furthest = f.furthest ∨ (f.mark p token).furthest = p := by
  unfold Failures.mark
  split
  · exact .inl rfl
  · split
    · split <;> exact .inl rfl
    · split
      · exact .inr rfl
      · exact .inl rfl

theorem Bounded.mark (h : l.Bounded cs) {p : Nat} (hp : Boundary cs p) (t : Terminal) :
    (l.mark p t).Bounded cs := by
  refine ⟨h.events, ?_⟩
  show Boundary cs (l.failures.mark p t.display).furthest
  rcases furthest_mark l.failures p t.display with hf | hf
  · rw [hf]
    exact h.furthest
  · rw [hf]
    exact hp

theorem level_of_mem_answer {h : Handlers σ} {f : Meaning} (hf : h.Pure f) (r : CallRecord)
    (user : σ) : ∀ e ∈ (answer h r user).2, e.level ≠ .trace := by
  unfold answer
  split
  · exact hf.actionTells r.call r.bindings user
  · exact hf.predicateTells r.call r.bindings user

theorem Bounded.hear {h : Handlers σ} {f : Meaning} (hf : h.Pure f) (hl : l.Bounded cs)
    (r : CallRecord) : (l.hear h r).Bounded cs := by
  refine ⟨?_, hl.furthest⟩
  rw [Ledger.hear, Array.toList_append, List.forall_mem_append]
  refine ⟨hl.events, fun e he q hq => ?_⟩
  rw [Event.offsets_eq_nil (level_of_mem_answer hf r l.user e he)] at hq
  cases hq

end Ledger

namespace Step

variable {h : Handlers σ} {f : Meaning} {cs : List Char}

mutual

/-- **Performing steps at boundaries keeps all offsets boundaries.** -/
theorem bounded_perform (hf : h.Pure f) (s : Step) (l : Ledger σ) (hl : l.Bounded cs)
    (hs : ∀ q ∈ s.offsets, Boundary cs q) : (s.perform h l).Bounded cs := by
  cases s with
  | failure p t =>
    rw [offsets] at hs
    exact hl.mark (List.forall_mem_singleton.1 hs) t
  | asked r => exact hl.hear hf r
  | lookahead inside =>
    rw [offsets] at hs
    rw [perform]
    have hinside := bounded_performAll hf inside l.mute ⟨hl.events, hl.furthest⟩ hs
    exact ⟨hinside.events, hinside.furthest⟩
  | rule name p o inside =>
    rw [offsets, ← List.cons_append, List.forall_mem_append] at hs
    obtain ⟨hown, hinside⟩ := hs
    cases hfind : l.memo.find? name p with
    | some entry =>
      rw [perform_rule_of_some hfind]
      exact hl.tell (by rw [Matcher.offsets_cachedEvent]; exact hown)
    | none =>
      rw [perform_rule_of_none hfind]
      have hattempt : ((l.remember name p .inProgress).tell (.attempt name p)).Bounded cs :=
        Ledger.Bounded.tell (l := l.remember name p .inProgress) ⟨hl.events, hl.furthest⟩
          (List.forall_mem_singleton.2 (hown p (List.mem_cons_self ..)))
      have hbody := bounded_performAll hf inside _ hattempt hinside
      have htold := hbody.tell (e := Matcher.outcomeEvent name p o)
        (by rw [Matcher.offsets_outcomeEvent]; exact hown)
      exact ⟨htold.events, htold.furthest⟩
  | known name p o => exact hl

theorem bounded_performAll (hf : h.Pure f) (steps : List Step) (l : Ledger σ) (hl : l.Bounded cs)
    (hs : ∀ q ∈ offsetsAll steps, Boundary cs q) : (performAll h steps l).Bounded cs := by
  cases steps with
  | nil =>
    rw [performAll_nil]
    exact hl
  | cons s rest =>
    rw [offsetsAll, List.forall_mem_append] at hs
    rw [performAll_cons]
    exact bounded_performAll hf rest _ (bounded_perform hf s l hl hs.1) hs.2

end

end Step

/-! ## Runs -/

namespace Grammar

open Step

variable {g : Grammar} {h : Handlers σ} {f : Meaning} {start : String}

theorem matcher_plays (g : Grammar) (hf : h.Pure f) (input : List Char) :
    (g.matcher h input).Plays (g.plain f input) := ⟨rfl, rfl, hf⟩

theorem isNone_rule?_of_mem (hstart : start ∈ g.ruleNames) : ¬ (g.rule? start).isNone = true := by
  obtain ⟨r, hr⟩ := exists_rule?_iff.2 hstart
  rw [hr]
  exact Bool.false_ne_true

/-- **A run reports what the steps of the plain evaluation do.** -/
theorem run_eq (hg : g.Safe) (hf : h.Pure f) (hstart : start ∈ g.ruleNames) (user : σ)
    (input : List Char) : ∃ o inside, (g.plain f input).Holds ⟨start, 0, o, inside⟩ ∧
      g.run h user start input =
        ((Step.rule start 0 o inside).perform h (.init user)).report (.ok o) := by
  obtain ⟨rank, hranked⟩ := hg.ranked f input
  obtain ⟨⟨o, inside⟩, hv⟩ := Plain.rule_total hranked (defines_iff.2 hstart) (.zero input)
  refine ⟨o, inside, hv, ?_⟩
  rw [run, if_neg (isNone_rule?_of_mem hstart)]
  refine Run.report_of_ok ?_
  rw [Ledger.state_init, map_eq_pure_bind, Run.bind_ok (Matcher.fromStart_eq
    (g.matcher_plays hf input) hranked hv (Ledger.fresh_init user))]
  rfl

/-- **A parse reports what the steps of the plain evaluation on the whole text do**, in one pass if
it matches, else in two. -/
theorem parse_eq (hg : g.Safe) (hf : h.Pure f) (hstart : start ∈ g.ruleNames) (user : σ)
    (input : List Char) : ∃ r steps, (g.plain f input).whole start = some (r, steps) ∧
      match r with
      | some v => g.parse h user start input = (performAll h steps (.init user)).report (.ok v)
      | none => ∃ e, (performTwice h steps (.init user)).failures.error input = .ok e ∧
          g.parse h user start input =
            (performTwice h steps (.init user)).report (.error (.mismatch e)) := by
  obtain ⟨rank, hranked⟩ := hg.ranked f input
  obtain ⟨r, steps, hwhole⟩ := Plain.whole_total hranked (defines_iff.2 hstart)
  refine ⟨r, steps, hwhole, ?_⟩
  have hplays := g.matcher_plays hf input
  have hparse : g.parse h user start input =
      (Except.mapError RunError.mismatch <$> (g.matcher h input).parse start).report user := by
    rw [parse, if_neg (isNone_rule?_of_mem hstart)]
  cases r with
  | some v =>
    rw [hparse]
    refine Run.report_of_ok ?_
    rw [Ledger.state_init, map_eq_pure_bind,
      Run.bind_ok (Matcher.parse_of_some hplays hranked hwhole (Ledger.fresh_init user))]
    rfl
  | none =>
    -- the furthest failure of the second pass is at a boundary, so it has a place
    have hoffsets := Plain.whole_offsets_boundary hranked hwhole
    have hbounded : (performTwice h steps (.init user)).Bounded input :=
      bounded_performAll hf steps _
        (bounded_performAll hf steps _ (.init user input) hoffsets).secondPass hoffsets
    obtain ⟨location, hlocation⟩ := boundary_iff_at?.1 hbounded.furthest
    have herror : (performTwice h steps (.init user)).failures.error input =
        .ok ⟨location, (performTwice h steps (.init user)).failures.expected⟩ := by
      rw [Failures.error, hlocation]
    refine ⟨_, herror, ?_⟩
    rw [hparse]
    refine Run.report_of_ok ?_
    rw [Ledger.state_init, map_eq_pure_bind,
      Run.bind_ok (Matcher.parse_of_none hplays hranked hwhole (Ledger.fresh_init user) herror)]
    rfl

end Grammar

end Packrat

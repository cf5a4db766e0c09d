import Packrat.Proofs.Engine.Fuel
import Packrat.Proofs.Grammar.Refs
import Packrat.Proofs.Grammar.Unplaced

/-!
# Matching depends only on the rules that it can reach

Two grammars whose rules are the same as far as they can be reached from the start rule do the same
on every input: they give the same answers, tell the same and call the same handlers in the same
order.  Where the rules stand and which other rules there are makes no difference.

* `Grammar.AgreeFrom` — the rules that can be reached are the same.
* `Matcher.eval_unplaced` — spans and other rules do not matter to an expression.
* `Grammar.invoke_agree` — with the same fuel rules that can be reached fare the same.
* `Grammar.reports_agree` — and so do runs and parses.
-/

set_option autoImplicit false

namespace Packrat

variable {σ α β : Type}

namespace Grammar

/-- The rules that matching `start` may call are the same in both grammars up to their spans,
wherever they stand. -/
def AgreeFrom (g g' : Grammar) (start : String) : Prop :=
  ∀ name, g.Needs start name → (g.rule? name).map Rule.unplaced = (g'.rule? name).map Rule.unplaced

/-- Grammars agree if they have the same rules of certain names, which refer to no others. -/
theorem AgreeFrom.of_names {g g' : Grammar} {start : String} (names : List String)
    (hstart : start ∈ names)
    (hrefs : ∀ name ∈ names, ∀ r ∈ g.rule? name, ∀ reference ∈ r.expr.refs,
      reference.name.name ∈ names)
    (hsame : ∀ name ∈ names,
      (g.rule? name).map Rule.unplaced = (g'.rule? name).map Rule.unplaced) :
    g.AgreeFrom g' start := by
  intro name hname
  apply hsame
  induction hname with
  | start => exact hstart
  | ref _ defined refers ih => exact hrefs _ ih _ defined _ refers

end Grammar

namespace Matcher

variable {m : Matcher σ} {call call' : String → Nat → Run σ Outcome}

mutual

/-- **An expression fares without its spans and among other rules as it does with them**, if the rules
that it refers to are tried in the same way. -/
theorem eval_unplaced (rules : List Rule) (e : Expr)
    (hcall : ∀ reference ∈ e.refs, call reference.name.name = call' reference.name.name) (p : Nat) :
    m.eval call e p = eval ⟨rules, m.handlers, m.input⟩ call' e.unplaced p := by
  cases e with
  | literal | charClass | anyChar | codePredicate | bareAction => rfl
  | ref reference =>
    rw [Expr.unplaced, eval, eval, Reference.name_unplaced]
    exact congrFun (hcall reference (List.mem_singleton_self _)) p
  | seq span elements =>
    rw [Expr.unplaced, eval, eval, evalSeq_unplaced rules elements hcall]
  | choice span branches =>
    rw [Expr.unplaced, eval, eval, evalChoice_unplaced rules branches hcall]
  | star span body =>
    rw [Expr.unplaced, eval, eval, funext (eval_unplaced rules body hcall)]
  | plus span body =>
    rw [Expr.unplaced, eval, eval, funext (eval_unplaced rules body hcall)]
  | opt span body => rw [Expr.unplaced, eval, eval, eval_unplaced rules body hcall]
  | lookahead span polarity body => rw [Expr.unplaced, eval, eval, eval_unplaced rules body hcall]
  | label span name body =>
    rw [Expr.unplaced, eval, eval, eval_unplaced rules body hcall]
    rfl
  | action span hint code body =>
    rw [Expr.unplaced, eval, eval, eval_unplaced rules body hcall]
    rfl
  | group span body => rw [Expr.unplaced, eval, eval, eval_unplaced rules body hcall]

theorem evalSeq_unplaced (rules : List Rule) (es : List Expr)
    (hcall : ∀ reference ∈ Expr.refsAll es,
      call reference.name.name = call' reference.name.name) (p : Nat) :
    m.evalSeq call es p =
      evalSeq ⟨rules, m.handlers, m.input⟩ call' (Expr.unplacedAll es) p := by
  cases es with
  | nil => rfl
  | cons e rest =>
    rw [Expr.refsAll, List.forall_mem_append] at hcall
    rw [Expr.unplacedAll, evalSeq, evalSeq, eval_unplaced rules e hcall.1]
    congr 1
    funext o
    cases o with
    | failed => rfl
    | matched next v => simp only [evalSeq_unplaced rules rest hcall.2]

theorem evalChoice_unplaced (rules : List Rule) (es : List Expr)
    (hcall : ∀ reference ∈ Expr.refsAll es,
      call reference.name.name = call' reference.name.name) (p : Nat) :
    m.evalChoice call es p =
      evalChoice ⟨rules, m.handlers, m.input⟩ call' (Expr.unplacedAll es) p := by
  cases es with
  | nil => rfl
  | cons e rest =>
    rw [Expr.refsAll, List.forall_mem_append] at hcall
    rw [Expr.unplacedAll, evalChoice, evalChoice, eval_unplaced rules e hcall.1,
      evalChoice_unplaced rules rest hcall.2]

end

end Matcher

namespace Run

/-- One computation after another, from one state. -/
theorem bind_eq_bind {x y : Run σ α} {f g : α → Run σ β} {s : RunState σ} (h : x s = y s)
    (hf : ∀ a t, x s = .ok a t → f a t = g a t) : (x >>= f) s = (y >>= g) s := by
  cases hx : x s with
  | ok a t => rw [bind_ok hx, bind_ok (h.symm.trans hx), hf a t hx]
  | error e t => rw [bind_error hx, bind_error (h.symm.trans hx)]

/-- A report depends on what a computation does from the state before the first pass. -/
theorem report_congr {x y : Run σ α} {user : σ} (h : x (.init user) = y (.init user)) :
    x.report user = y.report user := by
  rw [report, report, h]

end Run

namespace Grammar

open Matcher

variable {g g' : Grammar} {start : String} {h : Handlers σ} {input : List Char}

/-- **With the same fuel, rules that can be reached fare the same.** -/
theorem invoke_agree (hg : g.AgreeFrom g' start) (fuel : Nat) : ∀ name, g.Needs start name →
    (g.matcher h input).invoke fuel name = (g'.matcher h input).invoke fuel name := by
  induction fuel with
  | zero => exact fun _ _ => rfl
  | succ fuel ih =>
    intro name hname
    funext p
    have hsame : ((g.matcher h input).rule? name).map Rule.unplaced =
        ((g'.matcher h input).rule? name).map Rule.unplaced := hg name hname
    cases hr : (g.matcher h input).rule? name with
    | none =>
      rw [hr, Option.map_none] at hsame
      rw [invoke, invoke, hr, Option.map_eq_none_iff.1 hsame.symm]
    | some r =>
      rw [hr, Option.map_some] at hsame
      obtain ⟨r', hr', heq⟩ := Option.map_eq_some_iff.1 hsame.symm
      have hexpr : r'.expr.unplaced = r.expr.unplaced := congrArg Rule.expr heq
      -- both bodies fare as the body without spans does among the rules of the second grammar
      have hbody : (g.matcher h input).eval ((g.matcher h input).invoke fuel) r.expr p =
          (g'.matcher h input).eval ((g'.matcher h input).invoke fuel) r'.expr p := by
        have hleft : (g.matcher h input).eval ((g.matcher h input).invoke fuel) r.expr p =
            (g'.matcher h input).eval ((g'.matcher h input).invoke fuel) r.expr.unplaced p :=
          eval_unplaced g'.rules r.expr (fun reference hreference => ih _ (.ref hname hr hreference)) p
        have hright : (g'.matcher h input).eval ((g'.matcher h input).invoke fuel) r'.expr p =
            (g'.matcher h input).eval ((g'.matcher h input).invoke fuel) r'.expr.unplaced p :=
          eval_unplaced g'.rules r'.expr (fun _ _ => rfl) p
        rw [hleft, hright, hexpr]
      rw [invoke, invoke, hr, hr']
      simp only [hbody]

/-- A pass begins in the same way, as the fuel suffices in both grammars. -/
theorem fromStart_agree (hg : g.AgreeFrom g' start) {s : RunState σ} (hs : s.memo = .empty) :
    (g.matcher h input).fromStart start s = (g'.matcher h input).fromStart start s := by
  let fuel := max (g.matcher h input).fuel (g'.matcher h input).fuel
  calc (g.matcher h input).fromStart start s
      = (g.matcher h input).invoke fuel start 0 s := fromStart_eq_invoke (Nat.le_max_left _ _) start hs
    _ = (g'.matcher h input).invoke fuel start 0 s := by rw [invoke_agree hg fuel start .start]
    _ = (g'.matcher h input).fromStart start s :=
      (fromStart_eq_invoke (Nat.le_max_right _ _) start hs).symm

theorem wholeMatch_agree (hg : g.AgreeFrom g' start) {s : RunState σ} (hs : s.memo = .empty) :
    (g.matcher h input).wholeMatch start s = (g'.matcher h input).wholeMatch start s := by
  unfold wholeMatch
  exact Run.bind_eq_bind (fromStart_agree hg hs) fun _ _ _ => rfl

/-- Both passes of a parse do the same. -/
theorem parse_agree (hg : g.AgreeFrom g' start) (user : σ) :
    (g.matcher h input).parse start (.init user) = (g'.matcher h input).parse start (.init user) := by
  unfold Matcher.parse
  refine Run.bind_eq_bind (wholeMatch_agree hg rfl) fun first s _ => ?_
  cases first with
  | some v => rfl
  | none =>
    -- the second pass begins with an empty memory again
    refine Run.bind_eq_bind rfl fun _ t ht => ?_
    cases ht
    exact Run.bind_eq_bind (wholeMatch_agree hg rfl) fun _ _ _ => rfl

theorem isNone_rule?_agree (hg : g.AgreeFrom g' start) :
    (g.rule? start).isNone = (g'.rule? start).isNone := by
  have hsame := congrArg Option.isNone (hg start .start)
  rwa [Option.isNone_map, Option.isNone_map] at hsame

/-- **Runs and parses depend only on the rules that can be reached from the start rule.**  If these
are the same in two grammars up to their spans, however the rules are ordered and whatever other
rules there are, the reports are the same with all handlers and on every input: the answer, which is a
match with its end and value, an error with its offset and what was expected there, or a fault, all
that was told, and all calls in their order. -/
theorem reports_agree (hg : g.AgreeFrom g' start) (h : Handlers σ) (user : σ) (input : List Char) :
    g.run h user start input = g'.run h user start input ∧
      g.parse h user start input = g'.parse h user start input := by
  have hrun : (Except.ok (ε := RunError) <$> (g.matcher h input).fromStart start) (.init user) =
      (Except.ok (ε := RunError) <$> (g'.matcher h input).fromStart start) (.init user) := by
    rw [map_eq_pure_bind, map_eq_pure_bind]
    exact Run.bind_eq_bind (fromStart_agree hg rfl) fun _ _ _ => rfl
  have hparse : (Except.mapError RunError.mismatch <$> (g.matcher h input).parse start)
        (.init user) =
      (Except.mapError RunError.mismatch <$> (g'.matcher h input).parse start) (.init user) := by
    rw [map_eq_pure_bind, map_eq_pure_bind]
    exact Run.bind_eq_bind (parse_agree hg user) fun _ _ _ => rfl
  unfold Grammar.run Grammar.parse
  rw [isNone_rule?_agree hg]
  constructor
  · split
    · rfl
    · exact Run.report_congr hrun
  · split
    · rfl
    · exact Run.report_congr hparse

/-- Letters `a` with a `b` behind them, or without. -/
def letters : Grammar where
  preamble := none
  items :=
    [.rule ⟨⟨0, 14⟩, ⟨"S", ⟨0, 1⟩⟩, .choice ⟨5, 14⟩
      [.seq ⟨5, 10⟩ [.ref (.mk ⟨5, 6⟩ ⟨"A", ⟨5, 6⟩⟩ []), .literal ⟨7, 10⟩ "b"],
        .ref (.mk ⟨13, 14⟩ ⟨"A", ⟨13, 14⟩⟩ [])]⟩,
     .rule ⟨⟨15, 24⟩, ⟨"A", ⟨15, 16⟩⟩, .star ⟨20, 24⟩ (.literal ⟨20, 23⟩ "a")⟩]

/-- The same rules in another order, behind a rule that is left recursive. -/
def lettersLast : Grammar where
  preamble := none
  items :=
    [.rule ⟨⟨0, 6⟩, ⟨"B", ⟨0, 1⟩⟩, .ref (.mk ⟨5, 6⟩ ⟨"B", ⟨5, 6⟩⟩ [])⟩,
     .rule ⟨⟨7, 16⟩, ⟨"A", ⟨7, 8⟩⟩, .star ⟨12, 16⟩ (.literal ⟨12, 15⟩ "a")⟩,
     .rule ⟨⟨17, 31⟩, ⟨"S", ⟨17, 18⟩⟩, .choice ⟨22, 31⟩
      [.seq ⟨22, 27⟩ [.ref (.mk ⟨22, 23⟩ ⟨"A", ⟨22, 23⟩⟩ []), .literal ⟨24, 27⟩ "b"],
        .ref (.mk ⟨30, 31⟩ ⟨"A", ⟨30, 31⟩⟩ [])]⟩]

theorem letters_agreeFrom : letters.AgreeFrom lettersLast "S" := by
  refine .of_names ["S", "A"] (by decide) (by decide) fun name hname => ?_
  simp only [List.mem_cons, List.not_mem_nil, or_false] at hname
  rcases hname with rfl | rfl <;> rfl

/-- A parse that fails, after a rule was known from before in both of its passes. -/
theorem reports_agree_letters : letters.AgreeFrom lettersLast "S" ∧
    letters.run (Handlers.none Unit) () "S" "aac".toList =
      lettersLast.run (Handlers.none Unit) () "S" "aac".toList ∧
    letters.parse (Handlers.none Unit) () "S" "aac".toList =
      lettersLast.parse (Handlers.none Unit) () "S" "aac".toList :=
  ⟨letters_agreeFrom, reports_agree letters_agreeFrom (Handlers.none Unit) () "aac".toList⟩

end Grammar

end Packrat

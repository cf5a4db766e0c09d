import Packrat.Engine.Run
import Packrat.Proofs.Engine.Simulation
import Packrat.Proofs.Grammar.RuleIndex

/-!
# Rules by number, and a table for each rule

Matching finds rules by name and has one memory for all of them.  A parser can number its rules
instead: an index gives the number of a name, and each rule has a table of its own.

* `RuleTables` — the tables; `RuleTables.Mirrors` — they know what a memory knows.
* `Matcher.invokeNumbered` — how a rule fares, by its number and its table.
* `Matcher.invoke_simulates` — as it fares by its name and the memory.
* `Grammar.runNumbered_eq`, `Grammar.parseNumbered_eq` — **runs and parses by number give the same
  reports as those by name.**  So no report depends on the numbers that rules have.
-/

set_option autoImplicit false

namespace Packrat

variable {σ α β : Type}

/-! ## The tables -/

/-- For each rule, by its number, the offsets at which it was tried, the latest entry first. -/
structure RuleTables where
  tables : Array (List (Nat × MemoEntry))

namespace RuleTables

/-- Tables of which nothing is known, for a number of rules. -/
def empty (rules : Nat) : RuleTables := ⟨Array.replicate rules []⟩

/-- The entry of a rule at an offset. -/
def find? (t : RuleTables) (number offset : Nat) : Option MemoEntry :=
  (t.tables.getD number []).lookup offset

/-- Set the entry of a rule at an offset. -/
def insert (t : RuleTables) (number offset : Nat) (entry : MemoEntry) : RuleTables :=
  ⟨t.tables.modify number ((offset, entry) :: ·)⟩

theorem find?_empty (rules number offset : Nat) : (empty rules).find? number offset = none := by
  simp only [find?, empty, Array.getD_eq_getD_getElem?, Array.getElem?_replicate]
  split <;> rfl

/-- Setting an entry changes this one and nothing else. -/
theorem find?_insert (t : RuleTables) {number : Nat} (h : number < t.tables.size)
    (other offset p : Nat) (entry : MemoEntry) :
    (t.insert number offset entry).find? other p =
      if other = number ∧ p = offset then some entry else t.find? other p := by
  simp only [find?, insert, Array.getD_eq_getD_getElem?, Array.getElem?_modify]
  by_cases hn : other = number
  · subst hn
    by_cases hp : p = offset
    · simp [hp, Array.getElem?_eq_getElem h]
    · have hne : (p == offset) = false := by simpa using hp
      simp [hp, Array.getElem?_eq_getElem h, List.lookup_cons, hne]
  · simp [hn, Ne.symm hn]

/-- **Tables know what a memory knows**: each rule has one, and what it has at an offset is what the
memory has for the name of the rule. -/
structure Mirrors (rules : List Rule) (t : RuleTables) (memo : Memo) : Prop where
  size : t.tables.size = rules.length
  agrees : ∀ name number, ruleIndex? rules name = some number →
    ∀ offset, t.find? number offset = memo.find? name offset

variable {rules : List Rule} {t : RuleTables} {memo : Memo}

theorem mirrors_empty (rules : List Rule) : Mirrors rules (.empty rules.length) .empty := by
  refine ⟨Array.size_replicate, fun name number _ offset => ?_⟩
  rw [find?_empty, Memo.find?_empty]

/-- An entry for a number is an entry for the name that has it, and for no other name. -/
theorem Mirrors.insert (h : Mirrors rules t memo) {name : String} {number : Nat}
    (hname : ruleIndex? rules name = some number) (offset : Nat) (entry : MemoEntry) :
    Mirrors rules (t.insert number offset entry) (memo.insert name offset entry) := by
  obtain ⟨r, hr⟩ := exists_rule_of_ruleIndex? hname
  have hlt : number < t.tables.size := h.size ▸ (List.getElem?_eq_some_iff.1 hr).1
  refine ⟨by rw [RuleTables.insert, Array.size_modify, h.size], fun other n hother p => ?_⟩
  have hsame : n = number ↔ other = name := by
    constructor
    · rintro rfl
      exact (name_of_ruleIndex? hother hr).symm.trans (name_of_ruleIndex? hname hr)
    · rintro rfl
      exact Option.some.inj (hother.symm.trans hname)
  rw [find?_insert t hlt, Memo.find?_insert, h.agrees other n hother p]
  simp only [hsame]

end RuleTables

/-! ## Matching by number -/

/-- The tables are kept beside the state of the handlers, which do not look at them. -/
def Response.beside (t : RuleTables) (r : Response σ α) : Response (σ × RuleTables) α :=
  ⟨r.answer, (r.state, t), r.events⟩

/-- Handlers that pass on tables. -/
def Handlers.besideTables (h : Handlers σ) : Handlers (σ × RuleTables) where
  action call b u := (h.action call b u.1).beside u.2
  predicate call b u := (h.predicate call b u.1).beside u.2

namespace Run

/-- What is known about the rule of a number at an offset. -/
def recallNumber (number offset : Nat) : Run (σ × RuleTables) (Option MemoEntry) :=
  return (← get).user.2.find? number offset

theorem recallNumber_bind (number offset : Nat) (f : Option MemoEntry → Run (σ × RuleTables) α)
    (s : RunState (σ × RuleTables)) :
    (recallNumber number offset >>= f) s = f (s.user.2.find? number offset) s := rfl

/-- Set what is known about the rule of a number at an offset. -/
def rememberNumber (number offset : Nat) (entry : MemoEntry) : Run (σ × RuleTables) Unit :=
  modify fun s => { s with user := (s.user.1, s.user.2.insert number offset entry) }

end Run

namespace Matcher

/-- The same matcher, beside tables. -/
def besideTables (m : Matcher σ) : Matcher (σ × RuleTables) :=
  ⟨m.rules, m.handlers.besideTables, m.input⟩

/-- How a rule fares at an offset: what its table has, or else how its body fares. -/
def invokeNumbered (m : Matcher σ) :
    (fuel : Nat) → (name : String) → (offset : Nat) → Run (σ × RuleTables) Outcome
  | 0, _, _ => throw .exhausted
  | fuel + 1, name, offset =>
    match (ruleNumbers m.rules).lookup name with
    | none => throw (.undefinedRule name)
    | some number =>
      match m.rules[number]? with
      | none => throw (.undefinedRule name)
      | some rule => do
        match ← Run.recallNumber number offset with
        | some (.done outcome) => do
          Run.tell (cachedEvent rule.name.name offset outcome)
          return outcome
        | some .inProgress => throw (.leftRecursion rule.name.name offset)
        | none => do
          Run.rememberNumber number offset .inProgress
          Run.tell (.attempt rule.name.name offset)
          let caller ← Run.enter rule.name.name
          let outcome ← m.besideTables.eval (invokeNumbered m fuel) rule.expr offset
          Run.leave caller
          Run.tell (outcomeEvent rule.name.name offset outcome)
          Run.rememberNumber number offset (.done outcome)
          return outcome

/-- The value of a rule that matches the whole input. -/
def wholeNumbered (m : Matcher σ) (start : String) : Run (σ × RuleTables) (Option Value) := do
  match ← m.invokeNumbered m.fuel start 0 with
  | .failed => return none
  | .matched stop v =>
    if m.input.isEnd stop then return some v
    else do
      let _ ← Run.failAt stop .endOfInput
      return none

/-- The state before the second pass, with new tables. -/
def secondPassNumbered (m : Matcher σ) (s : RunState (σ × RuleTables)) :
    RunState (σ × RuleTables) :=
  { s.secondPass with user := (s.user.1, .empty m.rules.length) }

/-- Match the whole input; if this fails, match it again to learn what would have matched. -/
def parseNumbered (m : Matcher σ) (start : String) :
    Run (σ × RuleTables) (Except ParseError Value) := do
  match ← m.wholeNumbered start with
  | some v => return .ok v
  | none => do
    modify m.secondPassNumbered
    match ← m.wholeNumbered start with
    | some v => do
      Run.tell .nondeterministic
      return .ok v
    | none => return .error (← m.besideTables.mismatch)

end Matcher

/-! ## The same by name -/

open RuleTables

/-- The tables beside a state know what its memory knows, and all else is the same. -/
structure RunState.Beside (rules : List Rule) (s : RunState σ) (t : RunState (σ × RuleTables)) :
    Prop where
  memory : Mirrors rules t.user.2 s.memo
  labels : s.labels = t.labels
  frame : s.frame = t.frame
  rule : s.rule = t.rule
  failures : s.failures = t.failures
  events : s.events = t.events
  calls : s.calls = t.calls
  user : s.user = t.user.1

namespace RunState.Beside

variable {rules : List Rule} {s : RunState σ} {t : RunState (σ × RuleTables)}

theorem visible (h : Beside rules s t) : s.visible = t.visible := by
  rw [RunState.visible, RunState.visible, h.labels, h.frame]

theorem asked (h : Beside rules s t) (hint : Option String) (code : String) (events : List Event)
    (user : σ) :
    Beside rules (s.asked hint code events user) (t.asked hint code events (user, t.user.2)) :=
  { h with
    calls := by simp only [RunState.asked, h.calls, h.rule, h.visible]
    events := by simp only [RunState.asked, h.events]
    user := rfl }

end RunState.Beside

namespace Matcher

open Run RunState

variable {rules : List Rule}

/-- Handlers are called alike, and they pass on the tables. -/
theorem ask_simulates (hint : Option String) (code : String)
    (handler : Call → Bindings → σ → Response σ α) :
    Simulates (Beside rules) (ask hint code handler)
      (ask hint code fun call b u => (handler call b u.1).beside u.2) := by
  refine Simulates.ask (fun s t h => ⟨congrArg LabelStack.height h.labels, h.frame⟩) fun s t h => ?_
  have hcall : handler ⟨t.rule, hint, code⟩ t.visible t.user.1 =
      handler ⟨s.rule, hint, code⟩ s.visible s.user := by rw [h.rule, h.visible, h.user]
  simp only [Response.beside, hcall]
  exact ⟨trivial, h.asked hint code _ _⟩

theorem beside_lockstep (m : Matcher σ) : Lockstep (Beside m.rules) m m.besideTables where
  input := rfl
  height h := congrArg LabelStack.height h.labels
  relabel h f := { h with labels := congrArg f h.labels }
  mark h p token := { h with failures := congrArg (·.mark p token) h.failures }
  mute h := { h with failures := congrArg Failures.mute h.failures }
  unmute h := { h with failures := congrArg Failures.unmute h.failures }
  predicate code := ask_simulates none code m.handlers.predicate
  action hint code := ask_simulates (some hint) code m.handlers.action

theorem tell_simulates (e : Event) : Simulates (σ := σ) (Beside rules) (tell e) (tell e) :=
  fun _ _ h => ⟨rfl, { h with events := congrArg (·.push e) h.events }⟩

theorem enter_simulates (name : String) :
    Simulates (σ := σ) (Beside rules) (enter name) (enter name) := fun _ _ h =>
  ⟨by rw [h.rule, h.frame], { h with rule := rfl, frame := congrArg LabelStack.height h.labels }⟩

theorem leave_simulates (caller : String × Nat) :
    Simulates (σ := σ) (Beside rules) (leave caller) (leave caller) := fun _ _ h =>
  ⟨rfl, { h with labels := by simp only [h.labels, h.frame], rule := rfl, frame := rfl }⟩

/-- What is set for the number of a rule is set for its name. -/
theorem remember_simulates {name : String} {number : Nat}
    (hname : ruleIndex? rules name = some number) (p : Nat) (entry : MemoEntry) :
    Simulates (σ := σ) (Beside rules) (remember name p entry) (rememberNumber number p entry) :=
  fun _ _ h => ⟨rfl, { h with memory := h.memory.insert hname p entry }⟩

/-- **A rule fares by its number and its table as it fares by its name and the memory.** -/
theorem invoke_simulates (m : Matcher σ) (fuel : Nat) : ∀ name p,
    Simulates (Beside m.rules) (m.invoke fuel name p) (m.invokeNumbered fuel name p) := by
  induction fuel with
  | zero => exact fun _ _ => .throw _
  | succ fuel ih =>
    intro name p
    rw [invoke, invokeNumbered, lookup_ruleNumbers]
    cases hnumber : ruleIndex? m.rules name with
    | none =>
      have hnone : m.rule? name = none := by
        rw [← Option.isNone_iff_eq_none, rule?, ← isNone_ruleIndex?, hnumber]
        rfl
      rw [hnone]
      exact .throw _
    | some number =>
      -- the rule that has the number is the first one of the name, which matching by name finds
      obtain ⟨r, hr⟩ := exists_rule_of_ruleIndex? hnumber
      have hrule : m.rule? name = some r := (getElem?_of_ruleIndex? hnumber).symm.trans hr
      obtain rfl : r.name.name = name := name_of_ruleIndex? hnumber hr
      simp only [hrule, hr]
      intro s t h
      have hknown : t.user.2.find? number p = s.memo.find? r.name.name p :=
        h.memory.agrees _ number hnumber p
      rw [get_bind, recallNumber_bind, hknown]
      cases s.memo.find? r.name.name p with
      | none =>
        have hbody := (beside_lockstep m).eval ih r.expr p
        exact ((remember_simulates hnumber p .inProgress).bind fun _ =>
          (tell_simulates _).bind fun _ => (enter_simulates _).bind fun caller =>
            hbody.bind fun o => (leave_simulates caller).bind fun _ =>
              (tell_simulates _).bind fun _ =>
                (remember_simulates hnumber p (.done o)).bind fun _ => .pure o) s t h
      | some entry =>
        cases entry with
        | inProgress => exact ⟨rfl, h⟩
        | done o => exact ((tell_simulates _).bind fun _ => .pure o) s t h

theorem whole_simulates (m : Matcher σ) (start : String) :
    Simulates (Beside m.rules) (m.wholeMatch start) (m.wholeNumbered start) := by
  refine (invoke_simulates m m.fuel start 0).bind fun o => ?_
  cases o with
  | failed => exact .pure _
  | matched stop v =>
    simp only
    split
    · exact .pure _
    · exact ((beside_lockstep m).failAt_simulates stop _).bind fun _ => .pure _

theorem mismatch_simulates (m : Matcher σ) :
    Simulates (Beside m.rules) m.mismatch m.besideTables.mismatch := by
  intro s t h
  rw [mismatch, mismatch, get_bind, get_bind, h.failures]
  have hinput : m.besideTables.input = m.input := rfl
  rw [hinput]
  cases t.failures.error m.input.text with
  | ok e => exact ⟨rfl, h⟩
  | error f => exact ⟨rfl, h⟩

/-- Both passes do the same, each with new tables. -/
theorem parse_simulates (m : Matcher σ) (start : String) :
    Simulates (Beside m.rules) (m.parse start) (m.parseNumbered start) := by
  refine (whole_simulates m start).bind fun first => ?_
  cases first with
  | some v => exact .pure _
  | none =>
    have hsecond : Simulates (Beside m.rules) (modify RunState.secondPass)
        (modify m.secondPassNumbered) := fun s t h =>
      ⟨rfl, mirrors_empty m.rules, rfl, rfl, rfl, congrArg Failures.collect h.failures, h.events,
        h.calls, h.user⟩
    refine hsecond.bind fun _ => (whole_simulates m start).bind fun second => ?_
    cases second with
    | some v => exact (tell_simulates _).bind fun _ => .pure _
    | none => exact (mismatch_simulates m).bind fun _ => .pure _

end Matcher

/-! ## Reports -/

/-- A report about which the tables are forgotten. -/
def Report.withoutTables (r : Report (σ × RuleTables) α) : Report σ α :=
  ⟨r.answer, r.events, r.calls, r.user.1⟩

/-- What ends alike is reported alike. -/
theorem Run.withoutTables_report {rules : List Rule} {x : Run σ α} {y : Run (σ × RuleTables) α}
    (h : Simulates (RunState.Beside rules) x y) (user : σ) :
    (y.report (user, .empty rules.length)).withoutTables = x.report user := by
  have hstart : RunState.Beside rules (.init user) (.init (user, .empty rules.length)) :=
    ⟨mirrors_empty rules, rfl, rfl, rfl, rfl, rfl, rfl, rfl⟩
  rw [report, report]
  cases hx : x (.init user) with
  | ok a s =>
    obtain ⟨t, hy, hst⟩ := h.of_ok hstart hx
    rw [hy]
    simp only [Report.withoutTables, hst.events, hst.calls, hst.user]
  | error f s =>
    obtain ⟨t, hy, hst⟩ := h.of_error hstart hx
    rw [hy]
    simp only [Report.withoutTables, hst.events, hst.calls, hst.user]

namespace Grammar

/-- Match a rule against a beginning of the input, by number. -/
def runNumbered (g : Grammar) (handlers : Handlers σ) (user : σ) (start : String)
    (input : List Char) : Report σ (Except RunError Outcome) :=
  let m := g.matcher handlers input
  if ((ruleNumbers g.rules).lookup start).isNone then unknownRule start user
  else ((Except.ok <$> m.invokeNumbered m.fuel start 0).report
    (user, .empty g.rules.length)).withoutTables

/-- Match a rule against the whole input, by number. -/
def parseNumbered (g : Grammar) (handlers : Handlers σ) (user : σ) (start : String)
    (input : List Char) : Report σ (Except RunError Value) :=
  let m := g.matcher handlers input
  if ((ruleNumbers g.rules).lookup start).isNone then unknownRule start user
  else ((Except.mapError RunError.mismatch <$> m.parseNumbered start).report
    (user, .empty g.rules.length)).withoutTables

variable (g : Grammar) (handlers : Handlers σ) (user : σ) (start : String) (input : List Char)

theorem isNone_lookup_ruleNumbers :
    ((ruleNumbers g.rules).lookup start).isNone = (g.rule? start).isNone := by
  rw [lookup_ruleNumbers, isNone_ruleIndex?, rule?]

/-- **A run by number gives the report of the run by name.** -/
theorem runNumbered_eq :
    g.runNumbered handlers user start input = g.run handlers user start input := by
  rw [runNumbered, run, isNone_lookup_ruleNumbers]
  have hsame := (Matcher.invoke_simulates (g.matcher handlers input)
    (g.matcher handlers input).fuel start 0).map (Except.ok (ε := RunError))
  simp only [Matcher.fromStart]
  split
  · rfl
  · exact Run.withoutTables_report hsame user

/-- **A parse by number gives the report of the parse by name.** -/
theorem parseNumbered_eq :
    g.parseNumbered handlers user start input = g.parse handlers user start input := by
  rw [parseNumbered, parse, isNone_lookup_ruleNumbers]
  have hsame := (Matcher.parse_simulates (g.matcher handlers input) start).map
    (Except.mapError RunError.mismatch)
  split
  · rfl
  · exact Run.withoutTables_report hsame user

end Grammar

end Packrat

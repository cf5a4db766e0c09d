import Packrat.Engine.Eval
import Packrat.Proofs.Plain.Visits

/-!
# The ledger of a run

What a run keeps besides its labels, and how the steps of a plain evaluation change it if rules are
remembered.

* `Ledger` — the state of a run without the labels and the current rule; `Ledger.state` adds them.
* `Step.perform`, `Step.performAll` — what steps do to a ledger.  A rule that is known is told of and
  nothing else.
* `Ledger.Ready` — what is known is true, and the rules that are being tried weigh enough.
* `Ledger.Ready.performAll` — performing true steps keeps a ledger ready.
-/

set_option autoImplicit false

namespace Packrat

variable {σ : Type}

/-- What a run keeps besides its labels. -/
structure Ledger (σ : Type) where
  memo : Memo
  failures : Failures
  events : Array Event
  calls : Array CallRecord
  user : σ

namespace Ledger

/-- The state of a run with the labels `visible` of the current rule above the labels `below` of the
rules that wait for it. -/
def state (l : Ledger σ) (below visible : Bindings) (rule : String) : RunState σ where
  memo := l.memo
  labels := ⟨(below ++ visible).toArray⟩
  frame := below.length
  rule := rule
  failures := l.failures
  events := l.events
  calls := l.calls
  user := l.user

/-- The ledger before the first pass. -/
def init (user : σ) : Ledger σ := ⟨.empty, .init 0, #[], #[], user⟩

def tell (l : Ledger σ) (e : Event) : Ledger σ := { l with events := l.events.push e }

def mark (l : Ledger σ) (offset : Nat) (t : Terminal) : Ledger σ :=
  { l with failures := l.failures.mark offset t.display }

def mute (l : Ledger σ) : Ledger σ := { l with failures := l.failures.mute }

def unmute (l : Ledger σ) : Ledger σ := { l with failures := l.failures.unmute }

def remember (l : Ledger σ) (rule : String) (offset : Nat) (entry : MemoEntry) : Ledger σ :=
  { l with memo := l.memo.insert rule offset entry }

/-- The state of the handlers after a call, and what they told. -/
def answer (h : Handlers σ) (r : CallRecord) (user : σ) : σ × List Event :=
  match r.call.hint with
  | some _ =>
    let response := h.action r.call r.bindings user
    (response.state, response.events)
  | none =>
    let response := h.predicate r.call r.bindings user
    (response.state, response.events)

/-- A call. -/
def hear (h : Handlers σ) (l : Ledger σ) (r : CallRecord) : Ledger σ :=
  { l with
    calls := l.calls.push r
    events := l.events ++ (answer h r l.user).2.toArray
    user := (answer h r l.user).1 }

@[simp] theorem memo_tell (l : Ledger σ) (e : Event) : (l.tell e).memo = l.memo := rfl

@[simp] theorem memo_remember (l : Ledger σ) (rule : String) (p : Nat) (entry : MemoEntry) :
    (l.remember rule p entry).memo = l.memo.insert rule p entry := rfl

end Ledger

mutual

/-- What a step does to a ledger. -/
def Step.perform (h : Handlers σ) : Step → Ledger σ → Ledger σ
  | .failure offset t, l => l.mark offset t
  | .asked record, l => l.hear h record
  | .lookahead inside, l => (Step.performAll h inside l.mute).unmute
  | .rule name offset outcome inside, l =>
    match l.memo.find? name offset with
    | some _ => l.tell (Matcher.cachedEvent name offset outcome)
    | none =>
      ((Step.performAll h inside ((l.remember name offset .inProgress).tell
        (.attempt name offset))).tell (Matcher.outcomeEvent name offset outcome)).remember name
          offset (.done outcome)
  | .known _ _ _, l => l

/-- What several steps do to a ledger. -/
def Step.performAll (h : Handlers σ) : List Step → Ledger σ → Ledger σ
  | [], l => l
  | s :: rest, l => Step.performAll h rest (s.perform h l)

end

namespace Step

variable {h : Handlers σ}

@[simp]
theorem performAll_nil (l : Ledger σ) : performAll h [] l = l := by rw [performAll]

@[simp]
theorem performAll_cons (s : Step) (rest : List Step) (l : Ledger σ) :
    performAll h (s :: rest) l = performAll h rest (s.perform h l) := by rw [performAll]

@[simp]
theorem performAll_append (before after : List Step) (l : Ledger σ) :
    performAll h (before ++ after) l = performAll h after (performAll h before l) := by
  induction before generalizing l with
  | nil => rw [List.nil_append, performAll_nil]
  | cons s before ih => rw [List.cons_append, performAll_cons, performAll_cons, ih]

/-- A rule that is known is told of. -/
theorem perform_rule_of_some {name : String} {p : Nat} {o : Outcome} {inside : List Step}
    {l : Ledger σ} {entry : MemoEntry} (hf : l.memo.find? name p = some entry) :
    (rule name p o inside).perform h l = l.tell (Matcher.cachedEvent name p o) := by
  rw [perform, hf]

/-- A rule that is not known is tried, and then it is known. -/
theorem perform_rule_of_none {name : String} {p : Nat} {o : Outcome} {inside : List Step}
    {l : Ledger σ} (hf : l.memo.find? name p = none) :
    (rule name p o inside).perform h l =
      ((performAll h inside ((l.remember name p .inProgress).tell (.attempt name p))).tell
        (Matcher.outcomeEvent name p o)).remember name p (.done o) := by
  rw [perform, hf]

mutual

/-- No rule is being tried that was not before. -/
theorem inProgress_of_perform {name : String} {p : Nat} (s : Step) (l : Ledger σ)
    (hf : (s.perform h l).memo.find? name p = some .inProgress) :
    l.memo.find? name p = some .inProgress := by
  cases s with
  | failure q t => exact hf
  | asked r => exact hf
  | lookahead inside =>
    rw [perform] at hf
    exact inProgress_of_performAll inside l.mute hf
  | rule other q o inside =>
    cases hother : l.memo.find? other q with
    | some entry =>
      rw [perform_rule_of_some hother] at hf
      exact hf
    | none =>
      rw [perform_rule_of_none hother, Ledger.memo_remember, Memo.find?_insert] at hf
      split at hf
      · cases hf
      · rename_i hne
        have hinside := inProgress_of_performAll inside _ hf
        rw [Ledger.memo_tell, Ledger.memo_remember, Memo.find?_insert, if_neg hne] at hinside
        exact hinside
  | known other q o => exact hf

theorem inProgress_of_performAll {name : String} {p : Nat} (steps : List Step) (l : Ledger σ)
    (hf : (performAll h steps l).memo.find? name p = some .inProgress) :
    l.memo.find? name p = some .inProgress := by
  cases steps with
  | nil =>
    rw [performAll_nil] at hf
    exact hf
  | cons s rest =>
    rw [performAll_cons] at hf
    exact inProgress_of_perform s l (inProgress_of_performAll rest (s.perform h l) hf)

end

end Step

namespace Ledger

/-- What is known of rules is how they fare. -/
def Knows (l : Ledger σ) (c : Plain) : Prop :=
  ∀ name p o, l.memo.find? name p = some (.done o) → ∃ inside, c.Holds ⟨name, p, o, inside⟩

/-- Only what holds is known, and no rule is being tried that weighs less than a bound. -/
structure Ready (l : Ledger σ) (c : Plain) (weight : String → Nat → Nat) (bound : Nat) : Prop where
  knows : l.Knows c
  waits : ∀ name p, l.memo.find? name p = some .inProgress → bound ≤ weight name p

theorem Knows.remember_inProgress {l : Ledger σ} {c : Plain} (hl : l.Knows c) (name : String)
    (p : Nat) : (l.remember name p .inProgress).Knows c := by
  intro other q o hf
  rw [memo_remember, Memo.find?_insert] at hf
  split at hf
  · cases hf
  · exact hl other q o hf

theorem Knows.remember_done {l : Ledger σ} {c : Plain} (hl : l.Knows c) {name : String} {p : Nat}
    {o : Outcome} {inside : List Step} (hv : c.Holds ⟨name, p, o, inside⟩) :
    (l.remember name p (.done o)).Knows c := by
  intro other q o' hf
  rw [memo_remember, Memo.find?_insert] at hf
  split at hf
  · rename_i heq
    cases hf
    rw [heq.1, heq.2]
    exact ⟨inside, hv⟩
  · exact hl other q o' hf

end Ledger

namespace Step

variable {h : Handlers σ} {c : Plain}

mutual

/-- Performing a step whose visits hold keeps what is known true. -/
theorem knows_perform (s : Step) (l : Ledger σ) (hl : l.Knows c) (hv : ∀ v ∈ s.visits, c.Holds v) :
    (s.perform h l).Knows c := by
  cases s with
  | failure q t => exact hl
  | asked r => exact hl
  | lookahead inside =>
    rw [perform]
    exact knows_performAll inside l.mute hl (by simpa using hv)
  | rule name p o inside =>
    cases hf : l.memo.find? name p with
    | some entry =>
      rw [perform_rule_of_some hf]
      exact hl
    | none =>
      rw [perform_rule_of_none hf]
      have hhold : c.Holds ⟨name, p, o, inside⟩ := hv _ (by simp)
      refine Ledger.Knows.remember_done ?_ hhold
      exact knows_performAll inside _ (hl.remember_inProgress name p) hhold.inside
  | known name p o => exact hl

theorem knows_performAll (steps : List Step) (l : Ledger σ) (hl : l.Knows c)
    (hv : ∀ v ∈ visitsAll steps, c.Holds v) : (performAll h steps l).Knows c := by
  cases steps with
  | nil =>
    rw [performAll_nil]
    exact hl
  | cons s rest =>
    rw [visitsAll_cons] at hv
    rw [performAll_cons]
    exact knows_performAll rest _
      (knows_perform s l hl fun v hs => hv v (List.mem_append_left _ hs))
      fun v hs => hv v (List.mem_append_right _ hs)

end

end Step

/-- **Performing steps whose visits hold keeps a ledger ready.** -/
theorem Ledger.Ready.performAll {h : Handlers σ} {c : Plain} {weight : String → Nat → Nat}
    {bound : Nat} {l : Ledger σ} {steps : List Step} (hl : l.Ready c weight bound)
    (hv : ∀ v ∈ Step.visitsAll steps, c.Holds v) :
    (Step.performAll h steps l).Ready c weight bound :=
  ⟨Step.knows_performAll steps l hl.knows hv,
    fun name p hf => hl.waits name p (Step.inProgress_of_performAll steps l hf)⟩

end Packrat

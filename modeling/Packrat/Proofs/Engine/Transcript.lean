import Mathlib.Data.List.Nodup
import Packrat.Proofs.Engine.Moves
import Packrat.Proofs.Engine.Safety

/-!
# What happens in a pass, as a tree

A pass tells events and makes calls one after the other.  Both come from one tree, whose nodes are
the rules that are tried.

* `Step.trace`, `Step.calls`, `Step.everyVisit` — the events about rules, the calls, and the rules
  that are tried, of a step.
* `Event.Nested`, `Event.completion?` — properly nested events, and the event that an answer from
  the memory repeats.
* `Happens` — steps that take one memory to another: a rule is tried only if nothing is known of it,
  and it is known from its outcome on.
* `RunState.Transcribes` — a tree of steps for all that happens between two states;
  `RunState.carries_transcribes` says that there always is one.
* `Matcher.TriesOnce`, `compile_tries_once` — a pass tries each rule at most once at each offset.
-/

set_option autoImplicit false

namespace Packrat

variable {σ : Type}

/-! ## Events about rules -/

namespace Event

/-- The rule and the offset of an attempt. -/
def attempt? : Event → Option (String × Nat)
  | .attempt rule start => some (rule, start)
  | _ => none

/-- What an answer from the memory repeats: the end of a match or the failure. -/
def completion? : Event → Option Event
  | .cachedMatch rule start stop => some (.matched rule start stop)
  | .cachedFail rule start => some (.failed rule start)
  | _ => none

/-- Events about rules in which each attempt is followed by the outcome of the same rule at the same
offset, with such events between the two. -/
inductive Nested : List Event → Prop where
  | nil : Nested []
  | known {name : String} {p : Nat} {o : Outcome} {rest : List Event} (after : Nested rest) :
      Nested (Matcher.cachedEvent name p o :: rest)
  | tried {name : String} {p : Nat} {o : Outcome} {inside rest : List Event}
      (within : Nested inside) (after : Nested rest) :
      Nested (.attempt name p :: (inside ++ Matcher.outcomeEvent name p o :: rest))

theorem Nested.append {before after : List Event} (hb : Nested before) (ha : Nested after) :
    Nested (before ++ after) := by
  induction hb with
  | nil => exact ha
  | known _ ih => exact .known ih
  | tried within _ _ ih => simpa using Nested.tried within ih

@[simp]
theorem attempt?_attempt (name : String) (p : Nat) :
    (attempt name p).attempt? = some (name, p) := rfl

@[simp]
theorem attempt?_outcomeEvent (name : String) (p : Nat) (o : Outcome) :
    (Matcher.outcomeEvent name p o).attempt? = none := by cases o <;> rfl

@[simp]
theorem attempt?_cachedEvent (name : String) (p : Nat) (o : Outcome) :
    (Matcher.cachedEvent name p o).attempt? = none := by cases o <;> rfl

@[simp]
theorem completion?_outcomeEvent (name : String) (p : Nat) (o : Outcome) :
    (Matcher.outcomeEvent name p o).completion? = none := by cases o <;> rfl

@[simp]
theorem completion?_cachedEvent (name : String) (p : Nat) (o : Outcome) :
    (Matcher.cachedEvent name p o).completion? = some (Matcher.outcomeEvent name p o) := by
  cases o <;> rfl

@[simp]
theorem level_outcomeEvent (name : String) (p : Nat) (o : Outcome) :
    (Matcher.outcomeEvent name p o).level = .trace := by cases o <;> rfl

@[simp]
theorem level_cachedEvent (name : String) (p : Nat) (o : Outcome) :
    (Matcher.cachedEvent name p o).level = .trace := by cases o <;> rfl

end Event

/-- The events about rules that were told so far. -/
def RunState.traced (s : RunState σ) : List Event :=
  s.events.toList.filter fun e => decide (e.level = .trace)

/-! ## Trees of steps -/

/-- The rule and the offset of a visit. -/
def Visit.key (v : Visit) : String × Nat := (v.name, v.offset)

namespace Step

mutual

/-- What a step tells about rules. -/
def trace : Step → List Event
  | .failure _ _ => []
  | .asked _ => []
  | .lookahead inside => traceAll inside
  | .rule name p o inside => .attempt name p :: (traceAll inside ++ [Matcher.outcomeEvent name p o])
  | .known name p o => [Matcher.cachedEvent name p o]

def traceAll : List Step → List Event
  | [] => []
  | s :: rest => s.trace ++ traceAll rest

end

mutual

/-- The calls in a step, those within rules too. -/
def calls : Step → List CallRecord
  | .failure _ _ => []
  | .asked record => [record]
  | .lookahead inside => callsAll inside
  | .rule _ _ _ inside => callsAll inside
  | .known _ _ _ => []

def callsAll : List Step → List CallRecord
  | [] => []
  | s :: rest => s.calls ++ callsAll rest

end

mutual

/-- The calls in a step but for those within rules. -/
def own : Step → List CallRecord
  | .failure _ _ => []
  | .asked record => [record]
  | .lookahead inside => ownAll inside
  | .rule _ _ _ _ => []
  | .known _ _ _ => []

def ownAll : List Step → List CallRecord
  | [] => []
  | s :: rest => s.own ++ ownAll rest

end

mutual

/-- The rules that are tried in a step, those within one another too, in the order of the
attempts. -/
def everyVisit : Step → List Visit
  | .failure _ _ => []
  | .asked _ => []
  | .lookahead inside => everyVisitAll inside
  | .rule name p o inside => ⟨name, p, o, inside⟩ :: everyVisitAll inside
  | .known _ _ _ => []

def everyVisitAll : List Step → List Visit
  | [] => []
  | s :: rest => s.everyVisit ++ everyVisitAll rest

end

@[simp]
theorem traceAll_append (xs ys : List Step) : traceAll (xs ++ ys) = traceAll xs ++ traceAll ys := by
  induction xs with
  | nil => rfl
  | cons s xs ih => simp [traceAll, ih]

@[simp]
theorem callsAll_append (xs ys : List Step) : callsAll (xs ++ ys) = callsAll xs ++ callsAll ys := by
  induction xs with
  | nil => rfl
  | cons s xs ih => simp [callsAll, ih]

mutual

theorem nested_trace (s : Step) : Event.Nested s.trace := by
  cases s with
  | failure q t => exact .nil
  | asked record => exact .nil
  | lookahead inside => exact nested_traceAll inside
  | rule name p o inside => exact .tried (nested_traceAll inside) .nil
  | known name p o => exact .known .nil

/-- The events of steps are properly nested. -/
theorem nested_traceAll (steps : List Step) : Event.Nested (traceAll steps) := by
  cases steps with
  | nil => exact .nil
  | cons s rest => exact (nested_trace s).append (nested_traceAll rest)

end

mutual

theorem attempts_trace (s : Step) :
    s.trace.filterMap Event.attempt? = s.everyVisit.map Visit.key := by
  cases s with
  | failure q t => rfl
  | asked record => rfl
  | lookahead inside => exact attempts_traceAll inside
  | rule name p o inside =>
    simp [trace, everyVisit, Visit.key, attempts_traceAll inside]
  | known name p o => simp [trace, everyVisit]

/-- The attempts that are told are those of the rules that are tried. -/
theorem attempts_traceAll (steps : List Step) :
    (traceAll steps).filterMap Event.attempt? = (everyVisitAll steps).map Visit.key := by
  cases steps with
  | nil => rfl
  | cons s rest =>
    simp [traceAll, everyVisitAll, attempts_trace s, attempts_traceAll rest]

end

mutual

theorem calls_perm (s : Step) :
    s.calls.Perm (s.own ++ s.everyVisit.flatMap fun v => ownAll v.inside) := by
  cases s with
  | failure q t => exact .refl _
  | asked record => exact .refl _
  | lookahead inside => exact callsAll_perm inside
  | rule name p o inside => simpa [calls, own, everyVisit] using callsAll_perm inside
  | known name p o => exact .refl _

/-- Each call is made in one of the rules that are tried, or outside of them all. -/
theorem callsAll_perm (steps : List Step) : (callsAll steps).Perm
    (ownAll steps ++ (everyVisitAll steps).flatMap fun v => ownAll v.inside) := by
  cases steps with
  | nil => exact .refl _
  | cons s rest =>
    simp only [callsAll, ownAll, everyVisitAll, List.flatMap_append]
    refine ((calls_perm s).append (callsAll_perm rest)).trans ?_
    rw [List.append_assoc, List.append_assoc]
    refine List.Perm.append_left _ ?_
    rw [← List.append_assoc, ← List.append_assoc]
    exact List.Perm.append_right _ List.perm_append_comm

end

end Step

/-! ## Steps between two memories -/

open Step

/-- Steps that are made while `current` is the current rule take a memory to another one. -/
inductive Happens : String → Memo → List Step → Memo → Prop where
  | nil {current : String} {M : Memo} : Happens current M [] M
  | asked {current : String} {M M' : Memo} {record : CallRecord} {rest : List Step}
      (owner : record.call.rule = current) (after : Happens current M rest M') :
      Happens current M (.asked record :: rest) M'
  | known {current : String} {M M' : Memo} {name : String} {p : Nat} {o : Outcome}
      {rest : List Step} (found : M.find? name p = some (.done o))
      (after : Happens current M rest M') :
      Happens current M (.known name p o :: rest) M'
  | tried {current : String} {M M₁ M' : Memo} {name : String} {p : Nat} {o : Outcome}
      {inside rest : List Step} (fresh : M.find? name p = none)
      (within : Happens name (M.insert name p .inProgress) inside M₁)
      (after : Happens current (M₁.insert name p (.done o)) rest M') :
      Happens current M (.rule name p o inside :: rest) M'

namespace Happens

variable {current : String} {M M₁ M' : Memo} {steps : List Step}

theorem append {more : List Step} (h : Happens current M steps M₁)
    (hmore : Happens current M₁ more M') : Happens current M (steps ++ more) M' := by
  induction h with
  | nil => exact hmore
  | asked owner _ ih => exact .asked owner (ih hmore)
  | known found _ ih => exact .known found (ih hmore)
  | tried fresh within _ _ ih => exact .tried fresh within (ih hmore)

/-- What is known of a rule stays as it is. -/
theorem keeps (h : Happens current M steps M') {name : String} {p : Nat} {entry : MemoEntry}
    (hf : M.find? name p = some entry) : M'.find? name p = some entry := by
  induction h with
  | nil => exact hf
  | asked owner _ ih => exact ih hf
  | known found _ ih => exact ih hf
  | @tried current M M₁ M' other q o inside rest fresh within _ ihin ih =>
    have hne : ¬ (name = other ∧ p = q) := by
      rintro ⟨rfl, rfl⟩
      rw [fresh] at hf
      cases hf
    refine ih ?_
    rw [Memo.find?_insert, if_neg hne]
    refine ihin ?_
    rw [Memo.find?_insert, if_neg hne]
    exact hf

/-- What is known afterwards was known before, or it is the outcome of a rule that has been
tried. -/
theorem known_or_tried (h : Happens current M steps M') {name : String} {p : Nat}
    {entry : MemoEntry} (hf : M'.find? name p = some entry) : M.find? name p = some entry ∨
      ∃ o, entry = .done o ∧ Matcher.outcomeEvent name p o ∈ traceAll steps := by
  induction h with
  | nil => exact .inl hf
  | asked owner _ ih =>
    exact (ih hf).imp_right fun ⟨o, he, hmem⟩ => ⟨o, he, by simpa [traceAll, trace]⟩
  | known found _ ih =>
    exact (ih hf).imp_right fun ⟨o, he, hmem⟩ => ⟨o, he, by simp [traceAll, hmem]⟩
  | @tried current M M₁ M' other q o inside rest fresh within _ ihin ih =>
    rcases ih hf with hf | ⟨o', he, hmem⟩
    · rw [Memo.find?_insert] at hf
      split at hf
      · rename_i heq
        obtain ⟨rfl, rfl⟩ := heq
        cases hf
        exact .inr ⟨o, rfl, by simp [traceAll, trace]⟩
      · rename_i hne
        rcases ihin hf with hf | ⟨o', he, hmem⟩
        · rw [Memo.find?_insert, if_neg hne] at hf
          exact .inl hf
        · exact .inr ⟨o', he, by simp [traceAll, trace, hmem]⟩
    · exact .inr ⟨o', he, by simp [traceAll, hmem]⟩

/-- A rule that is tried was not known before, and it is afterwards. -/
theorem of_mem_everyVisit (h : Happens current M steps M') {v : Visit}
    (hv : v ∈ everyVisitAll steps) :
    M.find? v.name v.offset = none ∧ M'.find? v.name v.offset = some (.done v.outcome) := by
  induction h with
  | nil => cases hv
  | asked owner _ ih => exact ih (by simpa [everyVisitAll, everyVisit] using hv)
  | known found _ ih => exact ih (by simpa [everyVisitAll, everyVisit] using hv)
  | @tried current M M₁ M' other q o inside rest fresh within after ihin ih =>
    simp only [everyVisitAll, everyVisit, List.cons_append, List.mem_cons, List.mem_append] at hv
    have hgone : ∀ {N : Memo} {e : MemoEntry}, (N.insert other q e).find? v.name v.offset = none →
        ¬ (v.name = other ∧ v.offset = q) := by
      intro N e hnone heq
      rw [Memo.find?_insert, if_pos heq] at hnone
      cases hnone
    rcases hv with rfl | hv | hv
    · exact ⟨fresh, after.keeps (by rw [Memo.find?_insert, if_pos ⟨rfl, rfl⟩])⟩
    · obtain ⟨hnone, hdone⟩ := ihin hv
      have hne := hgone hnone
      rw [Memo.find?_insert, if_neg hne] at hnone
      exact ⟨hnone, after.keeps (by rw [Memo.find?_insert, if_neg hne]; exact hdone)⟩
    · obtain ⟨hnone, hdone⟩ := ih hv
      have hne := hgone hnone
      rw [Memo.find?_insert, if_neg hne] at hnone
      refine ⟨?_, hdone⟩
      cases hf : M.find? v.name v.offset with
      | none => rfl
      | some entry =>
        have hstays := within.keeps
          (show (M.insert other q .inProgress).find? v.name v.offset = some entry by
            rw [Memo.find?_insert, if_neg hne, hf])
        rw [hnone] at hstays
        cases hstays

/-- **No rule is tried twice at the same offset.** -/
theorem nodup (h : Happens current M steps M') : ((everyVisitAll steps).map Visit.key).Nodup := by
  induction h with
  | nil => exact List.nodup_nil
  | asked owner _ ih => simpa [everyVisitAll, everyVisit] using ih
  | known found _ ih => simpa [everyVisitAll, everyVisit] using ih
  | @tried current M M₁ M' other q o inside rest fresh within after ihin ih =>
    simp only [everyVisitAll, everyVisit, List.cons_append, List.map_cons, List.map_append,
      List.nodup_cons, List.mem_append, not_or]
    have hwithin : ∀ v ∈ everyVisitAll inside, v.key ≠ (other, q) := by
      intro v hv heq
      have hnone := (within.of_mem_everyVisit hv).1
      rw [Memo.find?_insert, if_pos (Prod.mk.inj heq)] at hnone
      cases hnone
    have hafter : ∀ v ∈ everyVisitAll rest, v.key ≠ (other, q) := by
      intro v hv heq
      have hnone := (after.of_mem_everyVisit hv).1
      rw [Memo.find?_insert, if_pos (Prod.mk.inj heq)] at hnone
      cases hnone
    refine ⟨⟨?_, ?_⟩, List.nodup_append'.2 ⟨ihin, ih, ?_⟩⟩
    · rintro hmem
      obtain ⟨v, hv, heq⟩ := List.mem_map.1 hmem
      exact hwithin v hv heq
    · rintro hmem
      obtain ⟨v, hv, heq⟩ := List.mem_map.1 hmem
      exact hafter v hv heq
    · -- what is tried within is known from then on
      intro key hin hout
      obtain ⟨v, hv, rfl⟩ := List.mem_map.1 hin
      obtain ⟨w, hw, heq⟩ := List.mem_map.1 hout
      obtain ⟨hname, hoffset⟩ := Prod.mk.inj heq
      have hdone := (within.of_mem_everyVisit hv).2
      have hnone := (after.of_mem_everyVisit hw).1
      rw [Memo.find?_insert, if_neg fun h => hafter w hw (by rw [Visit.key, h.1, h.2]), hname,
        hoffset, hdone] at hnone
      cases hnone

/-- Each call in a rule that is tried is a call of this rule, and the others are calls of the
current rule. -/
theorem owned (h : Happens current M steps M') :
    (∀ record ∈ ownAll steps, record.call.rule = current) ∧
      ∀ v ∈ everyVisitAll steps, ∀ record ∈ ownAll v.inside, record.call.rule = v.name := by
  induction h with
  | nil => exact ⟨fun _ h => absurd h List.not_mem_nil, fun _ h => absurd h List.not_mem_nil⟩
  | asked owner _ ih =>
    simp only [ownAll, own, everyVisitAll, everyVisit, List.singleton_append, List.nil_append,
      List.forall_mem_cons]
    exact ⟨⟨owner, ih.1⟩, ih.2⟩
  | known found _ ih => simpa [ownAll, own, everyVisitAll, everyVisit] using ih
  | tried fresh within _ ihin ih =>
    simp only [ownAll, own, everyVisitAll, everyVisit, List.cons_append, List.nil_append,
      List.forall_mem_cons, List.forall_mem_append]
    exact ⟨ih.1, ihin.1, ihin.2, ih.2⟩

end Happens

/-- An element of two lists one after the other lies in the first or in the second. -/
theorem exists_of_append_eq {α : Type} {xs ys before after : List α} {a : α}
    (h : xs ++ ys = before ++ a :: after) : (∃ after', xs = before ++ a :: after') ∨
      ∃ before', before = xs ++ before' ∧ ys = before' ++ a :: after := by
  rcases List.append_eq_append_iff.1 h with ⟨zs, hb, hy⟩ | ⟨zs, hx, ha⟩
  · exact .inr ⟨zs, hb, hy⟩
  · cases zs with
    | nil => exact .inr ⟨[], by simpa using hx.symm, by simpa using ha.symm⟩
    | cons b zs =>
      obtain ⟨rfl, -⟩ := List.cons.inj ha
      exact .inl ⟨zs, hx⟩

/-- **An answer from the memory repeats what was told before**, or what the memory was given. -/
theorem Happens.backed {current : String} {M M' : Memo} {steps : List Step}
    (h : Happens current M steps M') {before after : List Event} {e told : Event}
    (hsplit : traceAll steps = before ++ e :: after) (htold : e.completion? = some told) :
    told ∈ before ∨ ∃ name p o, M.find? name p = some (.done o) ∧
      told = Matcher.outcomeEvent name p o := by
  induction h generalizing before after with
  | nil => cases before <;> cases hsplit
  | asked owner _ ih => exact ih hsplit
  | @known current M M' name p o rest found _ ih =>
    rw [traceAll, trace] at hsplit
    rcases exists_of_append_eq hsplit with ⟨after', hhere⟩ | ⟨before', rfl, hrest⟩
    · cases before with
      | nil =>
        obtain ⟨rfl, -⟩ := List.cons.inj hhere
        exact .inr ⟨name, p, o, found, by simpa using htold.symm⟩
      | cons b before => simp at hhere
    · exact (ih hrest).imp_left fun hmem => List.mem_append_right _ hmem
  | @tried current M M₁ M' name p o inside rest fresh within _ ihin ih =>
    -- the event lies within the rule or after it: the two events of the rule itself repeat nothing
    have hne : e ≠ .attempt name p := by
      rintro rfl
      cases htold
    have hne' : e ≠ Matcher.outcomeEvent name p o := by
      rintro rfl
      simp at htold
    rw [traceAll, trace, ← List.singleton_append] at hsplit
    rcases exists_of_append_eq hsplit with ⟨after', hhere⟩ | ⟨before', rfl, hrest⟩
    · rcases exists_of_append_eq hhere with ⟨_, hfirst⟩ | ⟨b, rfl, hrest⟩
      · exact absurd
          (List.mem_singleton.1 (hfirst ▸ List.mem_append_right _ (List.mem_cons_self ..))) hne
      rcases exists_of_append_eq hrest with ⟨_, hin⟩ | ⟨_, _, hlast⟩
      · rcases ihin hin with hmem | ⟨name', p', o', hf, rfl⟩
        · exact .inl (List.mem_append_right _ hmem)
        · rw [Memo.find?_insert] at hf
          split at hf
          · cases hf
          · exact .inr ⟨name', p', o', hf, rfl⟩
      · exact absurd
          (List.mem_singleton.1 (hlast ▸ List.mem_append_right _ (List.mem_cons_self ..))) hne'
    · rcases ih hrest with hmem | ⟨name', p', o', hf, rfl⟩
      · exact .inl (List.mem_append_right _ hmem)
      · -- known after the rule: its own outcome, one from within, or known before
        rw [Memo.find?_insert] at hf
        split at hf
        · rename_i heq
          obtain ⟨rfl, rfl⟩ := heq
          cases hf
          exact .inl (by simp)
        · rename_i hne
          rcases within.known_or_tried hf with hf | ⟨o'', he, hmem⟩
          · rw [Memo.find?_insert, if_neg hne] at hf
            exact .inr ⟨name', p', o', hf, rfl⟩
          · cases he
            exact .inl (by simp [hmem])

/-! ## The transcript of an evaluation -/

/-- The steps tell all that happens between two states: what is told about rules, the calls, and how
the memory changes. -/
structure RunState.Transcribes (s t : RunState σ) (steps : List Step) : Prop where
  rule : t.rule = s.rule
  happens : Happens s.rule s.memo steps t.memo
  traced : t.traced = s.traced ++ traceAll steps
  calls : t.calls.toList = s.calls.toList ++ callsAll steps

/-- Handlers that tell nothing about rules. -/
def Handlers.Discreet (h : Handlers σ) : Prop := ∀ e, h.Tells e → e.level ≠ .trace

theorem Handlers.Pure.discreet {h : Handlers σ} {f : Meaning} (hf : h.Pure f) : h.Discreet := by
  rintro e (⟨call, b, u, he⟩ | ⟨call, b, u, he⟩)
  · exact hf.actionTells call b u e he
  · exact hf.predicateTells call b u e he

namespace RunState

theorem traced_push (s : RunState σ) {e : Event} (he : e.level = .trace) :
    (s.told e).traced = s.traced ++ [e] := by simp [told, traced, he]

/-- What happens in the body of a rule that is tried happens between the attempt and the outcome. -/
theorem Transcribes.tried {s t : RunState σ} {name : String} {p : Nat} {inside : List Step}
    (hf : s.memo.find? name p = none) (h : (s.opened name p).Transcribes t inside) (o : Outcome) :
    s.Transcribes (s.closed t name p o) [.rule name p o inside] := by
  refine ⟨rfl, .tried hf h.happens .nil, ?_, ?_⟩
  · have hopened : (s.opened name p).traced = s.traced ++ [.attempt name p] :=
      s.traced_push (e := .attempt name p) rfl
    have hclosed : (s.closed t name p o).traced = t.traced ++ [Matcher.outcomeEvent name p o] :=
      t.traced_push (by simp)
    rw [hclosed, h.traced, hopened]
    simp [traceAll, trace]
  · have hcalls : t.calls.toList = s.calls.toList ++ callsAll inside := h.calls
    simpa [closed, callsAll, Step.calls] using hcalls

theorem traced_asked {h : Handlers σ} (hh : h.Discreet) (s : RunState σ) (hint : Option String)
    (code : String) {events : List Event} (user : σ) (he : ∀ e ∈ events, h.Tells e) :
    (s.asked hint code events user).traced = s.traced := by
  have hnone : events.filter (fun e => decide (e.level = .trace)) = [] :=
    List.filter_eq_nil_iff.2 fun e hmem => by simpa using hh e (he e hmem)
  simp [asked, traced, hnone]

/-- **All that happens in an evaluation is transcribed.** -/
theorem carries_transcribes {h : Handlers σ} (hh : h.Discreet) :
    Carries h fun s t => ∃ steps, s.Transcribes t steps where
  refl s := ⟨[], rfl, .nil, by simp [traceAll], by simp [callsAll]⟩
  trans := by
    rintro s t u ⟨before, hb⟩ ⟨after, ha⟩
    refine ⟨before ++ after, ha.rule.trans hb.rule, hb.happens.append (hb.rule ▸ ha.happens), ?_,
      ?_⟩
    · rw [ha.traced, hb.traced, traceAll_append, List.append_assoc]
    · rw [ha.calls, hb.calls, callsAll_append, List.append_assoc]
  labels s labels := ⟨[], rfl, .nil, by simp [traceAll, traced], by simp [callsAll]⟩
  mark s p token := ⟨[], rfl, .nil, by simp [traceAll, traced], by simp [callsAll]⟩
  lookahead := by
    rintro s t ⟨steps, hrule, hhappens, htraced, hcalls⟩
    exact ⟨steps, hrule, hhappens, htraced, hcalls⟩
  asked s hint code events user he :=
    ⟨[.asked ⟨⟨s.rule, hint, code⟩, s.visible⟩], rfl, .asked rfl .nil,
      by simp [traced_asked hh s hint code user he, traceAll, trace],
      by simp [asked, callsAll, Step.calls]⟩
  known := by
    intro s name p o hf
    exact ⟨[.known name p o], rfl, .known hf .nil,
      by simp [traced_push, traceAll, trace], by simp [told, callsAll, Step.calls]⟩
  tried := by
    rintro s t name p o hf ⟨inside, hin⟩
    exact ⟨_, hin.tried hf o⟩

end RunState

namespace Matcher

variable {m : Matcher σ} {start : String}

/-- A pass that ends is the one visit of its start rule. -/
theorem fromStart_transcribes (hh : m.handlers.Discreet) {s t : RunState σ} {o : Outcome}
    (hfresh : s.memo = .empty) (h : m.fromStart start s = .ok o t) :
    ∃ inside, s.Transcribes t [.rule start 0 o inside] := by
  obtain ⟨n, r, -, -, ⟨hf, -⟩ | ⟨hf, u, hbody, rfl⟩⟩ := invoke_cases h
  · rw [hfresh, Memo.find?_empty] at hf
    cases hf
  · have hcarries := RunState.carries_transcribes hh
    obtain ⟨inside, hin⟩ :=
      eval_moves hcarries.toStable (invoke_moves hcarries n) r.expr 0 _ _ _ hbody
    exact ⟨inside, hin.tried hf o⟩

/-- Between two states happen the `steps`, in which each rule is tried at most once at each
offset. -/
structure TriesOnce (s t : RunState σ) (steps : List Step) : Prop where
  traced : t.traced = s.traced ++ traceAll steps
  calls : t.calls.toList = s.calls.toList ++ callsAll steps
  attempts : (traceAll steps).filterMap Event.attempt? = (everyVisitAll steps).map Visit.key
  once : ((everyVisitAll steps).map Visit.key).Nodup
  /-- Every call is made in one of the rules that are tried. -/
  shared : (callsAll steps).Perm ((everyVisitAll steps).flatMap fun v => ownAll v.inside)
  /-- The calls made in a rule are those of its own code. -/
  owned : ∀ v ∈ everyVisitAll steps, ∀ record ∈ ownAll v.inside, record.call.rule = v.name
  nested : Event.Nested (traceAll steps)
  /-- An answer from the memory repeats an outcome that was told before, in the same pass. -/
  backed : ∀ before e after told, traceAll steps = before ++ e :: after →
    e.completion? = some told → told ∈ before
  /-- All that the memory has in the end are outcomes that were told. -/
  settled : ∀ name p entry, t.memo.find? name p = some entry →
    ∃ o, entry = .done o ∧ outcomeEvent name p o ∈ traceAll steps
  /-- And it has the outcomes of all rules that were tried. -/
  kept : ∀ v ∈ everyVisitAll steps, t.memo.find? v.name v.offset = some (.done v.outcome)

/-- A pass that ends has tried each rule at most once at each offset. -/
theorem fromStart_triesOnce (hh : m.handlers.Discreet) {s t : RunState σ} {o : Outcome}
    (hfresh : s.memo = .empty) (h : m.fromStart start s = .ok o t) :
    ∃ inside, TriesOnce s t [.rule start 0 o inside] := by
  obtain ⟨inside, htranscript⟩ := fromStart_transcribes hh hfresh h
  have hhappens := htranscript.happens
  rw [hfresh] at hhappens
  refine ⟨inside, {
    traced := htranscript.traced
    calls := htranscript.calls
    attempts := attempts_traceAll _
    once := hhappens.nodup
    shared := callsAll_perm _
    owned := hhappens.owned.2
    nested := nested_traceAll _
    backed := ?_
    settled := ?_
    kept := fun v hv => (hhappens.of_mem_everyVisit hv).2 }⟩
  · intro before e after told hsplit htold
    refine (hhappens.backed hsplit htold).resolve_right ?_
    rintro ⟨name, p, o, hf, -⟩
    rw [Memo.find?_empty] at hf
    cases hf
  · intro name p entry hf
    refine (hhappens.known_or_tried hf).resolve_left fun hf => ?_
    rw [Memo.find?_empty] at hf
    cases hf

end Matcher

/-! ## The passes of runs -/

section

variable {g : Grammar} {h : Handlers σ} {f : Meaning} {start : String} {user : σ}
  {input : List Char} {s : RunState σ}

theorem Matcher.Starts.memo_eq {m : Matcher σ} (hs : m.Starts start user s) : s.memo = .empty := by
  cases hs <;> rfl

/-- The passes of a safe grammar end. -/
theorem Grammar.pass_ends (hg : g.Safe) (hf : h.Pure f) (hstart : start ∈ g.ruleNames)
    (hs : (g.matcher h input).Starts start user s) :
    ∃ o t, (g.matcher h input).fromStart start s = .ok o t := by
  obtain ⟨rank, hranked⟩ := hg.ranked f input
  have hplays := g.matcher_plays hf input
  obtain ⟨⟨o, inside⟩, hv⟩ := Plain.rule_total hranked (defines_iff.2 hstart) (.zero input)
  have hends : ∀ l : Ledger σ, l.Fresh →
      ∃ o t, (g.matcher h input).fromStart start (l.state [] [] "") = .ok o t :=
    fun l hl => ⟨_, _, Matcher.fromStart_eq hplays hranked hv hl⟩
  cases hs with
  | first => exact hends _ (Ledger.fresh_init user)
  | second missed =>
    obtain ⟨r, steps, hwhole⟩ := Plain.whole_total hranked (defines_iff.2 hstart)
    rw [Ledger.state_init, Matcher.wholeMatch_eq hplays hranked hwhole (Ledger.fresh_init user)]
      at missed
    cases missed
    exact hends _ (Ledger.fresh_secondPass _)

/-- **In a pass each rule is tried at most once at each offset**, be it the one pass of a run or
either pass of a parse. -/
theorem compile_tries_once {depth : Nat} {source : String} {cs : List Char}
    (hg : (compileWithin depth source cs).answer = .ok (.ok g)) (hf : h.Pure f) (hstart : start ∈ g.ruleNames)
    (hs : (g.matcher h input).Starts start user s) :
    ∃ o t inside, (g.matcher h input).fromStart start s = .ok o t ∧
      Matcher.TriesOnce s t [.rule start 0 o inside] := by
  obtain ⟨o, t, hends⟩ := Grammar.pass_ends (compile_safe hg) hf hstart hs
  obtain ⟨inside, honce⟩ := Matcher.fromStart_triesOnce hf.discreet hs.memo_eq hends
  exact ⟨o, t, inside, hends, honce⟩

/-- A rule that is met in a lookahead, again after it, and once more in the second branch, with an
action in a repetition; and both passes of a parse that fails. -/
theorem compile_tries_once_shared : ∃ g s, (compile "shared.peg"
      "S <- &A A 'x' / A\nA <- (d:[0-9] Digit: { d })* Number: { n }".toList).answer = .ok (.ok g) ∧
        "S" ∈ g.ruleNames ∧
      (g.matcher (Handlers.none Unit) "12?".toList).wholeMatch "S" (.init ()) = .ok none s ∧
      ∀ s₀ ∈ [.init (), s.secondPass], ∃ o t inside,
        (g.matcher (Handlers.none Unit) "12?".toList).fromStart "S" s₀ = .ok o t ∧
          Matcher.TriesOnce s₀ t [.rule "S" 0 o inside] := by
  obtain ⟨g, hg, hstart, hmissed⟩ := exists_of_acceptedWith? (show (acceptedWith? "shared.peg"
    "S <- &A A 'x' / A\nA <- (d:[0-9] Digit: { d })* Number: { n }".toList "S").any
      (fun g => match (g.matcher (Handlers.none Unit) "12?".toList).wholeMatch "S" (.init ()) with
        | .ok none _ => true
        | .ok (some _) _ => false
        | .error _ _ => false) = true by decide +kernel)
  split at hmissed
  · rename_i s hs
    refine ⟨g, s, hg, hstart, hs, fun s₀ hmem => ?_⟩
    rcases List.mem_cons.1 hmem with rfl | hmem
    · exact compile_tries_once hg (Handlers.none_pure Unit) hstart .first
    · cases List.mem_singleton.1 hmem
      exact compile_tries_once hg (Handlers.none_pure Unit) hstart (.second hs)
  · cases hmissed
  · cases hmissed

end

end Packrat

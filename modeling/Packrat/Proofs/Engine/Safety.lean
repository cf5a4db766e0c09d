import Packrat.Proofs.Engine.Runs

/-!
# Compiled grammars run safely and mean what they say

* `Report.Safe` — a report without a fault, all of whose offsets are boundaries of the input.
* `compile_runs_safely` — the grammars that are accepted run safely.
* `compile_runs_plainly` — and they fare as the plain evaluation of their rules says.
-/

set_option autoImplicit false

namespace Packrat

variable {σ : Type}

/-- An answer about the input, and no offset that is told lies within a character or past the end.
None of the causes of `Fault` has come up: no rule met itself at the same offset, no rule is missing,
no frame lies above the stack of labels, the text was cut at boundaries only, and the evaluation has
ended. -/
structure Report.Safe {α : Type} (r : Report σ (Except RunError α)) (input : List Char) : Prop where
  answers : ∃ a, r.answer = .ok a ∧ ∀ name, a ≠ .error (.unknownRule name)
  boundaries : ∀ e ∈ r.events, ∀ q ∈ e.offsets, Boundary input q

/-- The grammar of a text, if it is accepted and has a rule of a name. -/
def acceptedWith? (source : String) (cs : List Char) (start : String) : Option Grammar :=
  match (compile source cs).answer with
  | .ok (.ok g) => if start ∈ g.ruleNames then some g else none
  | _ => none

theorem exists_of_acceptedWith? {source : String} {cs : List Char} {start : String}
    {P : Grammar → Bool} (h : (acceptedWith? source cs start).any P = true) :
    ∃ g, (compile source cs).answer = .ok (.ok g) ∧ start ∈ g.ruleNames ∧ P g = true := by
  unfold acceptedWith? at h
  split at h
  · rename_i g hg
    split at h
    · rename_i hstart
      exact ⟨g, hg, hstart, h⟩
    · cases h
  · cases h

/-- Where the match of a run ends. -/
def Report.stop? (r : Report σ (Except RunError Outcome)) : Option Nat :=
  match r.answer with
  | .ok (.ok (.matched stop _)) => some stop
  | _ => none

theorem Report.exists_of_stop? {r : Report σ (Except RunError Outcome)} {stop : Nat}
    (h : r.stop? = some stop) : ∃ v, r.answer = .ok (.ok (.matched stop v)) := by
  unfold stop? at h
  split at h
  · rename_i v hr
    cases h
    exact ⟨v, hr⟩
  · cases h

section

variable {depth : Nat} {source : String} {cs : List Char} {g : Grammar} {h : Handlers σ} {f : Meaning}
  {start : String}

namespace Grammar

theorem run_safe (hg : g.Safe) (hf : h.Pure f) (hstart : start ∈ g.ruleNames) (user : σ)
    (input : List Char) : (g.run h user start input).Safe input := by
  obtain ⟨rank, hranked⟩ := hg.ranked f input
  obtain ⟨o, inside, hv, hrun⟩ := run_eq hg hf hstart user input
  rw [hrun]
  refine ⟨⟨.ok o, rfl, fun name he => by cases he⟩, ?_⟩
  exact (Step.bounded_perform hf _ _ (.init user input)
    (hv.offsets_boundary hranked (.zero input))).events

theorem parse_safe (hg : g.Safe) (hf : h.Pure f) (hstart : start ∈ g.ruleNames) (user : σ)
    (input : List Char) : (g.parse h user start input).Safe input := by
  obtain ⟨rank, hranked⟩ := hg.ranked f input
  obtain ⟨r, steps, hwhole, hparse⟩ := parse_eq hg hf hstart user input
  have hoffsets := Plain.whole_offsets_boundary hranked hwhole
  have hfirst := Step.bounded_performAll hf steps _ (.init user input) hoffsets
  cases r with
  | some v =>
    simp only at hparse
    rw [hparse]
    exact ⟨⟨.ok v, rfl, fun name he => by cases he⟩, hfirst.events⟩
  | none =>
    obtain ⟨e, -, hparse⟩ := hparse
    rw [hparse]
    refine ⟨⟨.error (.mismatch e), rfl, fun name he => ?_⟩,
      (Step.bounded_performAll hf steps _ hfirst.secondPass hoffsets).events⟩
    cases he

end Grammar

/-- **Every grammar that is accepted, at whatever depth, runs safely**: from each of its rules, on
every input and with all pure handlers, both a run and a parse end with an answer. -/
theorem compile_runs_safely (hg : (compileWithin depth source cs).answer = .ok (.ok g)) (hf : h.Pure f)
    (hstart : start ∈ g.ruleNames) (user : σ) (input : List Char) :
    (g.run h user start input).Safe input ∧ (g.parse h user start input).Safe input :=
  ⟨Grammar.run_safe (compile_safe hg) hf hstart user input,
    Grammar.parse_safe (compile_safe hg) hf hstart user input⟩

/-- A grammar with a template, a label, an action, a lookahead and a repetition that may match
nothing. -/
theorem compile_runs_safely_list : ∃ g, (compile "list.peg"
      "S <- l:List<Item> !. Str: { keep }\nItem <- 'a'*\nList<X> <- X (',' X)*".toList).answer =
        .ok (.ok g) ∧ "S" ∈ g.ruleNames ∧
      (g.run (Handlers.none Unit) () "S" "a,é".toList).Safe "a,é".toList ∧
        (g.parse (Handlers.none Unit) () "S" "a,é".toList).Safe "a,é".toList := by
  obtain ⟨g, hg, hstart, -⟩ := exists_of_acceptedWith? (show (acceptedWith? "list.peg"
    "S <- l:List<Item> !. Str: { keep }\nItem <- 'a'*\nList<X> <- X (',' X)*".toList
      "S").any (fun _ => true) = true by decide +kernel)
  exact ⟨g, hg, hstart, compile_runs_safely hg (Handlers.none_pure Unit) hstart () _⟩

/-- **A run of a compiled grammar fares as the plain evaluation says**, which has no memory, no record
of failures and no labels but those of the current rule. -/
theorem compile_runs_plainly (hg : (compileWithin depth source cs).answer = .ok (.ok g)) (hf : h.Pure f)
    (hstart : start ∈ g.ruleNames) (user : σ) (input : List Char) :
    ∃ o steps, (g.plain f input).rule start 0 = some (o, steps) ∧
      (g.run h user start input).answer = .ok (.ok o) := by
  obtain ⟨o, inside, hv, hrun⟩ := Grammar.run_eq (compile_safe hg) hf hstart user input
  exact ⟨o, inside, hv, by rw [hrun]; rfl⟩

/-- Two alternatives that begin with the same rule, whose labels and action are its own. -/
theorem compile_runs_plainly_pair : ∃ g, (compile "pair.peg"
      "S <- x:A y:A Pair: { both } / x:A &{ one } One: { x }\nA <- d:[0-9] Digit: { d }".toList).answer =
        .ok (.ok g) ∧ "S" ∈ g.ruleNames ∧
      ∃ o steps, (g.plain ⟨fun _ b => .list (b.map (·.2)), fun _ b => !b.isEmpty⟩ "4é".toList).rule
          "S" 0 = some (o, steps) ∧
        (g.run (.ofFunctions (fun _ b => .list (b.map (·.2))) fun _ b => !b.isEmpty) () "S"
          "4é".toList).answer = .ok (.ok o) := by
  obtain ⟨g, hg, hstart, -⟩ := exists_of_acceptedWith? (show (acceptedWith? "pair.peg"
    "S <- x:A y:A Pair: { both } / x:A &{ one } One: { x }\nA <- d:[0-9] Digit: { d }".toList
      "S").any (fun _ => true) = true by decide +kernel)
  exact ⟨g, hg, hstart, compile_runs_plainly hg (Handlers.ofFunctions_pure _) hstart () _⟩

end

end Packrat

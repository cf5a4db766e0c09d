import Packrat.Proofs.Engine.Runs
import Packrat.Proofs.Template.Unfolding

/-!
# Expansion keeps the meaning of a grammar

* `Grammar.Complete.unfolds` — the rules of the expansion stand for the targets.
* `Grammar.Complete.run_direct` — a run of the expansion fares as the grammar itself says.
* `Grammar.expansion_keeps_meaning` — so does every run of what a checked grammar expands to.
-/

set_option autoImplicit false

namespace Packrat.Grammar

open GrammarText

variable {g : Grammar} {is : List Instance}

namespace Complete

variable (hg : g.Complete is)

include hg

/-- **The rules of the expansion stand for the targets.** -/
theorem unfolds (f : Meaning) (input : List Char) :
    (g.direct f input).Unfolds ((g.withInstances is).plain f input) :=
  ⟨rfl, rfl, fun _ htarget => hg.rule?_of_reached htarget⟩

theorem mem_ruleNames {start : String} (h : start ∈ g.ruleNames) :
    start ∈ (g.withInstances is).ruleNames := hg.name_mem (.rule h)

/-- **A run of the expansion fares as the grammar itself says.** -/
theorem run_direct (hleft : (g.withInstances is).leftRecursion = []) {σ : Type} {h : Handlers σ}
    {f : Meaning} (hf : h.Pure f) {start : String} (hstart : start ∈ g.ruleNames) (user : σ)
    (input : List Char) : ∃ o steps, (g.direct f input).target (.rule start) 0 = some (o, steps) ∧
      ((g.withInstances is).run h user start input).answer = .ok (.ok o) := by
  obtain ⟨o, steps, hv, hrun⟩ :=
    run_eq ⟨hg.closed, hleft⟩ hf (hg.mem_ruleNames hstart) user input
  refine ⟨o, steps, ?_, by rw [hrun]; rfl⟩
  exact Direct.target_of_holds (hg.unfolds f input) hv (.rule start) (.rule hstart) rfl

end Complete

/-- **Expansion keeps the meaning of a grammar**: with pure handlers, each plain rule of a checked
grammar matches in the expansion where it does in the grammar itself, up to the same offset and with
the same value, and fails where it does. -/
theorem expansion_keeps_meaning {cs : List Char} (hread : readGrammar cs = .ok g)
    (hcheck : check g = []) (hfinite : {i | g.Asks i}.Finite) :
    ∃ expanded n, g.Expands expanded n ∧ (expanded.leftRecursion = [] →
      ∀ {σ : Type} (h : Handlers σ) (f : Meaning), h.Pure f → ∀ start ∈ g.ruleNames,
        ∀ (user : σ) (input : List Char), ∃ o steps,
          (g.direct f input).target (.rule start) 0 = some (o, steps) ∧
            (expanded.run h user start input).answer = .ok (.ok o)) := by
  obtain ⟨is, hcomplete, hexpands⟩ := exists_expands (.of_read hread hcheck) hfinite
  exact ⟨_, _, hexpands, fun hleft σ h f hf start hstart user input =>
    hcomplete.run_direct hleft hf hstart user input⟩

/-- A template whose parameters have the names of a template and of a rule, and stand for a rule and for
an instance of that template. -/
theorem expansion_keeps_meaning_swap : ∃ g expanded n, readGrammar
    ("S <- Pair<Item, List<Item>>\nItem <- d:[0-9] Digit: { d }\nList<X> <- l:X ',' r:List<X> / X\n" ++
      "Pair<List, Item> <- a:List ';' b:Item Both: { a b }").toList =
      .ok g ∧ check g = [] ∧ {i | g.Asks i}.Finite ∧ g.Expands expanded n ∧
        expanded.leftRecursion = [] ∧ "S" ∈ g.ruleNames ∧ ∃ o steps,
          (g.direct ⟨fun c b => .list (.text c.rule :: b.map (·.2)), fun _ b => !b.isEmpty⟩
            "1;2,3".toList).target (.rule "S") 0 = some (o, steps) ∧
          (expanded.run (.ofFunctions (fun c b => .list (.text c.rule :: b.map (·.2)))
            fun _ b => !b.isEmpty) () "S" "1;2,3".toList).answer = .ok (.ok o) := by
  obtain ⟨g, hread, hcheck, hfinite, htest⟩ := exists_checked_of_readsAs (show readsAs
    ("S <- Pair<Item, List<Item>>\nItem <- d:[0-9] Digit: { d }\nList<X> <- l:X ',' r:List<X> / X\n" ++
      "Pair<List, Item> <- a:List ';' b:Item Both: { a b }").toList
      (fun g => (check g).isEmpty && (g.allInstances 5).isOk && (decide ("S" ∈ g.ruleNames) &&
        match g.expandWithin 5 with
        | .ok (expanded, _) => expanded.leftRecursion.isEmpty
        | .error _ => false)) = true by decide +kernel)
  obtain ⟨expanded, n, hexpands, hmeaning⟩ := expansion_keeps_meaning hread hcheck hfinite
  rw [Bool.and_eq_true, decide_eq_true_eq] at htest
  have hleft : expanded.leftRecursion = [] := by
    rcases hexpands.only 5 with h | h <;> rw [h] at htest
    · exact List.isEmpty_iff.1 htest.2
    · exact absurd htest.2 Bool.false_ne_true
  exact ⟨g, expanded, n, hread, hcheck, hfinite, hexpands, hleft, htest.1,
    hmeaning hleft _ _ (Handlers.ofFunctions_pure _) "S" htest.1 () _⟩

end Packrat.Grammar

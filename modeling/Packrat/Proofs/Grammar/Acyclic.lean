import Mathlib.Data.Finset.Card
import Mathlib.Data.Finset.Filter
import Packrat.Proofs.Grammar.LeftWalk

/-!
# Grammars without left recursion

If the walk reports nothing, no rule comes back to itself along references at the left edge.

* `Grammar.not_transGen_leads` — a grammar for which nothing is reported has no cycle.
* `Grammar.exists_rank` — its rules can be numbered so that the numbers fall along the edges.
-/

set_option autoImplicit false

namespace Packrat

namespace Grammar

variable {g : Grammar}

/-- **If nothing is reported, no rule comes back to itself before input is consumed.** -/
theorem not_transGen_leads (h : g.leftRecursion = []) (a : String) :
    ¬ Relation.TransGen g.Leads a a := by
  intro hcycle
  obtain ⟨between, span, hmem⟩ := exists_leftRecursion_of_cycle hcycle
  rw [h] at hmem
  cases hmem

/-- **The rules of a grammar without left recursion can be numbered so that the numbers fall along
the edges.**  The number of a rule is how many rules it leads to. -/
theorem exists_rank (h : g.leftRecursion = []) : ∃ rank : String → Nat,
    (∀ a b, g.Leads a b → b ∈ g.ruleNames → rank b < rank a) ∧
      ∀ a ∈ g.ruleNames, rank a < g.rules.length := by
  classical
  let below (a : String) : Finset String :=
    g.ruleNames.toFinset.filter fun b => Relation.TransGen g.Leads a b
  have hcard : g.ruleNames.toFinset.card ≤ g.rules.length := by
    have hle := List.toFinset_card_le g.ruleNames
    rwa [ruleNames, List.length_map] at hle
  refine ⟨fun a => (below a).card, fun a b hab hb => ?_, fun a ha => ?_⟩
  · refine Finset.card_lt_card (Finset.ssubset_iff_of_subset ?_ |>.2 ⟨b, ?_, ?_⟩)
    · intro c hc
      rw [Finset.mem_filter] at hc ⊢
      exact ⟨hc.1, Relation.TransGen.head hab hc.2⟩
    · exact Finset.mem_filter.2 ⟨List.mem_toFinset.2 hb, .single hab⟩
    · exact fun hc => not_transGen_leads h b (Finset.mem_filter.1 hc).2
  · refine Nat.lt_of_lt_of_le (Finset.card_lt_card ?_) hcard
    refine Finset.ssubset_iff_of_subset (Finset.filter_subset _ _) |>.2 ⟨a, ?_, ?_⟩
    · exact List.mem_toFinset.2 ha
    · exact fun hc => not_transGen_leads h a (Finset.mem_filter.1 hc).2

end Grammar

end Packrat

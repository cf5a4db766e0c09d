import Packrat.Compile
import Packrat.Proofs.Template.Expansion

/-!
# Grammars whose references are all defined

* `Grammar.Closed` — every reference names a rule.
* `Grammar.expandWithin_closed` — a grammar that is expanded after a check without findings is closed.
* `compileWithin_of_le` — more depth changes nothing but that fewer texts are too deep.
* `compile_closed`, `compile_nodup_ruleNames`, `compile_leftRecursion` — what is accepted, at whatever
  depth, is closed, its rules have names that differ, and it is free of left recursion.
-/

set_option autoImplicit false

namespace Packrat

namespace Grammar

/-- Every reference names a rule. -/
def Closed (g : Grammar) : Prop :=
  ∀ r ∈ g.rules, ∀ reference ∈ r.expr.refs, reference.name.name ∈ g.ruleNames

variable {g : Grammar} {is : List Instance}

theorem Complete.closed (h : g.Complete is) : (g.withInstances is).Closed :=
  fun _ hr _ href => (h.refs_plain hr href).2

/-- **A grammar that is expanded after a check without findings is closed.** -/
theorem expandWithin_closed (hg : g.Checked) {depth n : Nat} {expanded : Grammar}
    (h : g.expandWithin depth = .ok (expanded, n)) : expanded.Closed := by
  obtain ⟨is, his, rfl, -⟩ := expandWithin_ok.1 h
  exact (Complete.of_allInstances hg his).closed

/-- **More depth gives the same expansion** of a checked grammar, unless there was too little. -/
theorem expandWithin_of_le (hg : g.Checked) {depth depth' : Nat} (hle : depth ≤ depth')
    (h : g.expandWithin depth ≠ .error .exhausted) : g.expandWithin depth' = g.expandWithin depth := by
  cases hd : g.allInstances depth with
  | error e =>
    rw [allInstances_error (fun i hi => exists_template_of_asks hg hi) hd] at hd
    exact absurd (expandWithin_error hd) h
  | ok is =>
    have hd' := expandWithin_ok.2 ⟨is, allInstances_mono hle hd, rfl, rfl⟩
    rw [hd', expandWithin_ok.2 ⟨is, hd, rfl, rfl⟩]

end Grammar

section

variable {depth : Nat} {source : String} {cs : List Char} {g : Grammar}

theorem refuse_ne_ok (source : String) (cs : List Char) (ds : List Diagnostic) (g : Grammar) :
    refuse source cs ds ≠ .ok (.ok g) := by
  intro h
  unfold refuse at h
  cases hr : Diagnostic.renderAll source cs ds with
  | error f =>
    rw [hr] at h
    cases h
  | ok rendered =>
    rw [hr] at h
    cases h

/-- **More depth changes nothing but that fewer texts are too deep.** -/
theorem compileWithin_of_le {depth' : Nat} (hle : depth ≤ depth')
    (h : (compileWithin depth source cs).answer ≠ .error .exhausted) :
    compileWithin depth' source cs = compileWithin depth source cs := by
  unfold compileWithin at h ⊢
  cases hread : GrammarText.readGrammar cs with
  | error e => rfl
  | ok read =>
    rw [hread] at h
    simp only at h ⊢
    by_cases hcheck : check read = []
    · rw [Grammar.expandWithin_of_le (.of_read hread hcheck) hle]
      -- otherwise the answer would be the one that is excluded
      intro hdeep
      rw [hcheck, hdeep] at h
      exact h rfl
    · have hfound : (!(check read).isEmpty) = true := by simpa using hcheck
      rw [if_pos hfound, if_pos hfound]

/-- What is accepted is the expansion of a grammar that was read and checked. -/
theorem compile_cases (h : (compileWithin depth source cs).answer = .ok (.ok g)) :
    (∃ read instances, GrammarText.readGrammar cs = .ok read ∧ check read = [] ∧
      read.expandWithin depth = .ok (g, instances)) ∧ g.leftRecursion = [] := by
  unfold compileWithin at h
  split at h
  · cases h
  · rename_i read hread
    simp only at h
    split at h
    · exact absurd h (refuse_ne_ok source cs _ g)
    · rename_i hcheck
      split at h
      · cases h
      · rename_i expanded instances hexpand
        split at h
        · exact absurd h (refuse_ne_ok source cs _ g)
        · rename_i hleft
          cases h
          refine ⟨⟨read, instances, hread, by simpa using hcheck, hexpand⟩, by simpa using hleft⟩

/-- **Every reference of a grammar that is accepted names a rule.** -/
theorem compile_closed (h : (compileWithin depth source cs).answer = .ok (.ok g)) : g.Closed := by
  obtain ⟨⟨read, instances, hread, hcheck, hexpand⟩, -⟩ := compile_cases h
  exact Grammar.expandWithin_closed (.of_read hread hcheck) hexpand

/-- The names of its rules differ. -/
theorem compile_nodup_ruleNames (hg : (compileWithin depth source cs).answer = .ok (.ok g)) :
    g.ruleNames.Nodup := by
  obtain ⟨⟨read, instances, hread, hcheck, hexpand⟩, -⟩ := compile_cases hg
  obtain ⟨is, his, rfl, -⟩ := Grammar.expandWithin_ok.1 hexpand
  exact (Grammar.Complete.of_allInstances (.of_read hread hcheck) his).nodup_ruleNames

/-- No rule of it is left recursive. -/
theorem compile_leftRecursion (h : (compileWithin depth source cs).answer = .ok (.ok g)) :
    g.leftRecursion = [] := (compile_cases h).2

end

end Packrat

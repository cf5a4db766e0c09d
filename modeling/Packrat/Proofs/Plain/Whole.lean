import Packrat.Engine.Run
import Packrat.Proofs.Grammar.Acyclic
import Packrat.Proofs.Grammar.Closed
import Packrat.Proofs.Grammar.Nullable
import Packrat.Proofs.Plain.Offsets

/-!
# Plain evaluation of a grammar on a whole text

* `Grammar.plain` — the plain evaluation of the rules of a grammar.
* `Grammar.Safe` — a closed grammar without left recursion, as `compile` makes them.
* `Grammar.Safe.ranked` — its rules are numbered so that every evaluation ends.
* `Plain.whole` — a rule on the whole text, with the check that nothing is left.
* `Plain.whole_total` — it has an answer for every rule of a safe grammar.
-/

set_option autoImplicit false

namespace Packrat

namespace Grammar

variable {g : Grammar}

/-- The plain evaluation of the rules of a grammar. -/
def plain (g : Grammar) (f : Meaning) (input : List Char) : Plain := ⟨g.rules, f, input⟩

/-- Every reference names a rule, and no rule is left recursive. -/
structure Safe (g : Grammar) : Prop where
  closed : g.Closed
  acyclic : g.leftRecursion = []

theorem defines_iff {f : Meaning} {input : List Char} {name : String} :
    (g.plain f input).Defines name ↔ name ∈ g.ruleNames := exists_rule?_iff

theorem knowsNullable (g : Grammar) (f : Meaning) (input : List Char) :
    (g.plain f input).KnowsNullable g.nullableRules := by
  intro name r hr hnullable
  have hname : r.name.name = name := name_of_rule? hr
  have hdef : r ∈ g.definitions := mem_definitions_iff.2 (hname ▸ hr)
  rw [← hname]
  exact g.nullableRules_settled r hdef hnullable

/-- **The rules of a safe grammar are numbered so that every evaluation ends.** -/
theorem Safe.ranked (hg : g.Safe) (f : Meaning) (input : List Char) :
    ∃ rank, (g.plain f input).Ranked g.nullableRules rank := by
  obtain ⟨rank, hfalls, hbounded⟩ := exists_rank hg.acyclic
  have hclosed : ∀ name r, (g.plain f input).rules.find? (·.name.name == name) = some r →
      ∀ reference ∈ r.expr.refs, reference.name.name ∈ g.ruleNames :=
    fun name r hr => hg.closed r (List.mem_of_find?_eq_some hr)
  refine ⟨rank, fun name r hr reference href => defines_iff.2 (hclosed name r hr reference href),
    fun name r hr reference href => ?_, fun name hname => hbounded name (defines_iff.1 hname),
    g.knowsNullable f input⟩
  refine hfalls name reference.name.name ⟨r, ?_, reference, href, rfl⟩ ?_
  · rw [find?_definitions]
    exact hr
  · exact hclosed name r hr reference (Expr.leftmost_subset _ r.expr href)

end Grammar

/-- A grammar that is accepted is safe. -/
theorem compile_safe {depth : Nat} {source : String} {cs : List Char} {g : Grammar}
    (h : (compileWithin depth source cs).answer = .ok (.ok g)) : g.Safe :=
  ⟨compile_closed h, compile_leftRecursion h⟩

namespace Plain

open Step

variable {c : Plain} {known : List String} {rank : String → Nat} {start : String}

/-- A rule on the whole text: its value if it matches up to the end, and the steps.  The end of the
text is a terminal that can fail, too. -/
def whole (c : Plain) (start : String) : Option (Option Value × List Step) := do
  let (outcome, inside) ← c.rule start 0
  let visit := Step.rule start 0 outcome inside
  match outcome with
  | .failed => return (none, [visit])
  | .matched stop v =>
    if byteLength c.text ≤ stop then return (some v, [visit])
    else return (none, [visit, .failure stop .endOfInput])

theorem whole_cases {r : Option Value} {steps : List Step} (h : c.whole start = some (r, steps)) :
    ∃ o inside, c.Holds ⟨start, 0, o, inside⟩ ∧
      ((o = .failed ∧ r = none ∧ steps = [.rule start 0 o inside]) ∨
        ∃ stop v, o = .matched stop v ∧
          ((byteLength c.text ≤ stop ∧ r = some v ∧ steps = [.rule start 0 o inside]) ∨
            (¬ byteLength c.text ≤ stop ∧ r = none ∧
              steps = [.rule start 0 o inside, .failure stop .endOfInput]))) := by
  obtain ⟨⟨o, inside⟩, hv, hrest⟩ := Option.bind_eq_some_iff.1 h
  refine ⟨o, inside, hv, ?_⟩
  cases o with
  | failed =>
    cases hrest
    exact .inl ⟨rfl, rfl, rfl⟩
  | matched stop v =>
    refine .inr ⟨stop, v, rfl, ?_⟩
    simp only at hrest
    split at hrest
    · rename_i hle
      cases hrest
      exact .inl ⟨hle, rfl, rfl⟩
    · rename_i hlt
      cases hrest
      exact .inr ⟨hlt, rfl, rfl⟩

/-- **Every rule has an answer on the whole text.** -/
theorem whole_total (hranked : c.Ranked known rank) (hstart : c.Defines start) :
    ∃ r steps, c.whole start = some (r, steps) := by
  obtain ⟨⟨o, inside⟩, hr⟩ := rule_total hranked hstart (.zero c.text)
  rw [whole, hr]
  cases o with
  | failed => exact ⟨_, _, rfl⟩
  | matched stop v =>
    show ∃ r steps, (if byteLength c.text ≤ stop then _ else _) = some (r, steps)
    split
    · exact ⟨_, _, rfl⟩
    · exact ⟨_, _, rfl⟩

/-- The visit of the start rule is the only one. -/
theorem whole_visits {r : Option Value} {steps : List Step} (h : c.whole start = some (r, steps)) :
    ∀ v ∈ visitsAll steps, c.Holds v ∧ v.name = start ∧ v.offset = 0 := by
  obtain ⟨o, inside, hv, hcases⟩ := whole_cases h
  obtain ⟨-, -, rfl⟩ | ⟨stop, value, -, ⟨-, -, rfl⟩ | ⟨-, -, rfl⟩⟩ := hcases <;> simpa using hv

/-- All offsets of an evaluation on the whole text are boundaries. -/
theorem whole_offsets_boundary (hranked : c.Ranked known rank) {r : Option Value}
    {steps : List Step} (h : c.whole start = some (r, steps)) :
    ∀ q ∈ offsetsAll steps, Boundary c.text q := by
  obtain ⟨o, inside, hv, hcases⟩ := whole_cases h
  have hvisit := hv.offsets_boundary hranked (.zero c.text)
  obtain ⟨-, -, rfl⟩ | ⟨stop, value, ho, ⟨-, -, rfl⟩ | ⟨-, -, rfl⟩⟩ := hcases
  · exact forall_offsetsAll.2 (List.forall_mem_singleton.2 hvisit)
  · exact forall_offsetsAll.2 (List.forall_mem_singleton.2 hvisit)
  · have hstop := rule_advances hranked.nullable hv (.zero c.text) stop value ho
    refine forall_offsetsAll.2 (List.forall_mem_cons.2 ⟨hvisit, List.forall_mem_singleton.2 ?_⟩)
    rw [Step.offsets]
    exact List.forall_mem_singleton.2 hstop.boundary

end Plain

end Packrat

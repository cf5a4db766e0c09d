import Mathlib.Data.List.Nodup
import Packrat.Grammar.LeftRecursion

/-!
# The definitions that count

Of several rules with one name the first counts.  `Grammar.definitions` keeps exactly those.

* `Grammar.find?_definitions` — looking up a name among them is looking it up among all rules.
* `Grammar.nodup_definitions` — their names all differ.
* `Grammar.mem_definitions_iff` — a rule counts if it is what its name stands for.
-/

set_option autoImplicit false

namespace Packrat

/-- Whether two rules have one name. -/
abbrev Rule.sameName (r s : Rule) : Bool := r.name.name == s.name.name

/-- Rules without repeated names give the same rule for each name. -/
theorem find?_eraseDupsBy_sameName (n : Nat) :
    ∀ (rules : List Rule) (name : String), rules.length ≤ n →
      (rules.eraseDupsBy Rule.sameName).find? (·.name.name == name) =
        rules.find? (·.name.name == name) := by
  induction n with
  | zero =>
    intro rules name hn
    rw [List.length_eq_zero_iff.1 (Nat.le_zero.1 hn)]
    rfl
  | succ n ih =>
    intro rules name hn
    cases rules with
    | nil => rfl
    | cons r rest =>
      simp only [List.length_cons] at hn
      have hle := List.length_filter_le (fun b : Rule => b.sameName r = false) rest
      rw [List.eraseDupsBy_cons, List.find?_cons, List.find?_cons]
      cases hr : r.name.name == name with
      | true => rfl
      | false =>
        simp only
        rw [ih _ name (by omega), List.find?_filter]
        -- what is left out has the name of `r`, which is not the one looked for
        congr 1
        funext s
        by_cases hs : s.name.name = name
        · rw [beq_eq_false_iff_ne] at hr
          simp [Rule.sameName, hs, Ne.symm hr]
        · simp [hs]

theorem mem_of_mem_eraseDupsBy_sameName (n : Nat) :
    ∀ (rules : List Rule) {r : Rule}, rules.length ≤ n →
      r ∈ rules.eraseDupsBy Rule.sameName → r ∈ rules := by
  induction n with
  | zero =>
    intro rules r hn
    rw [List.length_eq_zero_iff.1 (Nat.le_zero.1 hn)]
    exact id
  | succ n ih =>
    intro rules r hn hr
    cases rules with
    | nil => exact hr
    | cons s rest =>
      rw [List.eraseDupsBy_cons] at hr
      simp only [List.length_cons] at hn
      have hle := List.length_filter_le (fun b : Rule => b.sameName s = false) rest
      rcases List.mem_cons.1 hr with rfl | hr
      · exact List.mem_cons_self ..
      · exact List.mem_cons_of_mem _ (List.mem_of_mem_filter (ih _ (by omega) hr))

theorem nodup_eraseDupsBy_sameName (n : Nat) :
    ∀ rules : List Rule, rules.length ≤ n →
      ((rules.eraseDupsBy Rule.sameName).map (·.name.name)).Nodup := by
  induction n with
  | zero =>
    intro rules hn
    rw [List.length_eq_zero_iff.1 (Nat.le_zero.1 hn)]
    exact List.nodup_nil
  | succ n ih =>
    intro rules hn
    cases rules with
    | nil => exact List.nodup_nil
    | cons r rest =>
      rw [List.eraseDupsBy_cons, List.map_cons]
      simp only [List.length_cons] at hn
      have hle := List.length_filter_le (fun b : Rule => b.sameName r = false) rest
      refine List.nodup_cons.2 ⟨?_, ih _ (by omega)⟩
      intro hmem
      obtain ⟨s, hs, hname⟩ := List.mem_map.1 hmem
      have hs' := mem_of_mem_eraseDupsBy_sameName n _ (by omega) hs
      simp [List.mem_filter, Rule.sameName, hname] at hs'

namespace Grammar

variable {g : Grammar} {name : String} {r : Rule}

/-- Looking up a name among the definitions that count is looking it up among all rules. -/
theorem find?_definitions (g : Grammar) (name : String) :
    g.definitions.find? (·.name.name == name) = g.rule? name :=
  find?_eraseDupsBy_sameName g.rules.length g.rules name (Nat.le_refl _)

theorem nodup_definitions (g : Grammar) : (g.definitions.map (·.name.name)).Nodup :=
  nodup_eraseDupsBy_sameName g.rules.length g.rules (Nat.le_refl _)

theorem name_of_rule? (h : g.rule? name = some r) : r.name.name = name := by
  simpa using List.find?_some h

/-- Where the names of the rules differ, a name stands for the rule that has it. -/
theorem rule?_of_nodup (hnames : g.ruleNames.Nodup) (hr : r ∈ g.rules) :
    g.rule? r.name.name = some r := by
  cases hf : g.rule? r.name.name with
  | none => exact absurd (beq_self_eq_true _) (List.find?_eq_none.1 hf r hr)
  | some s =>
    rw [List.inj_on_of_nodup_map hnames (List.mem_of_find?_eq_some hf) hr (name_of_rule? hf)]

/-- A rule counts if it is what its name stands for. -/
theorem mem_definitions_iff : r ∈ g.definitions ↔ g.rule? r.name.name = some r := by
  constructor
  · intro hr
    rw [← find?_definitions]
    cases hf : g.definitions.find? (·.name.name == r.name.name) with
    | none =>
      rw [List.find?_eq_none] at hf
      exact absurd (beq_self_eq_true _) (hf r hr)
    | some s =>
      have hs := List.mem_of_find?_eq_some hf
      have hname : s.name.name = r.name.name := by simpa using List.find?_some hf
      rw [List.inj_on_of_nodup_map g.nodup_definitions hs hr hname]
  · intro h
    rw [← find?_definitions] at h
    exact List.mem_of_find?_eq_some h

/-- A name stands for a rule exactly when it is the name of one. -/
theorem exists_rule?_iff : (∃ r, g.rule? name = some r) ↔ name ∈ g.ruleNames := by
  rw [← Option.isSome_iff_exists, rule?, List.find?_isSome, ruleNames, List.mem_map]
  simp only [beq_iff_eq]

end Grammar

end Packrat

import Mathlib.Data.List.Nodup
import Packrat.Proofs.Grammar.Errors

/-!
# What a check that finds nothing guarantees

* `nodup_names_of_check`, `nodup_paramNames_of_check` — the names of the items differ, and so do those
  of the parameters of a template.
* `refErrors_of_check` — no reference in the body of an item has an error.
* `Grammar.item?_of_mem`, `Grammar.rule?_of_mem`, `Grammar.lastTemplate?_of_mem` — where the names of
  the items differ, what is defined is what its name stands for.
-/

set_option autoImplicit false

namespace Packrat

variable {g : Grammar}

/-- The three kinds of errors one by one. -/
theorem check_eq_nil_iff_errors : check g = [] ↔ redefinitions [] g.items = [] ∧
    (∀ t ∈ g.templates, paramRedefinitions [] t.params = []) ∧
      ∀ i ∈ g.items, i.bodyErrors g = [] := by
  rw [check, List.append_assoc, List.append_eq_nil_iff, List.append_eq_nil_iff,
    List.flatMap_eq_nil_iff, List.flatMap_eq_nil_iff]

theorem nodup_names_of_check (h : check g = []) : (g.items.map (·.name.name)).Nodup :=
  ((redefinitions_eq_nil_iff [] g.items).1 (check_eq_nil_iff_errors.1 h).1).1

theorem nodup_paramNames_of_check (h : check g = []) {t : Template} (ht : t ∈ g.templates) :
    t.paramNames.Nodup :=
  ((paramRedefinitions_eq_nil_iff [] t.params).1 ((check_eq_nil_iff_errors.1 h).2.1 t ht)).1

theorem refErrors_of_check (h : check g = []) {i : Item} (hi : i ∈ g.items) {r : Reference}
    (hr : r ∈ i.expr.refs) : refErrors g (i.params.map (·.name)) r = [] :=
  ((exprErrors_eq_nil_iff i.expr []).1 ((check_eq_nil_iff_errors.1 h).2.2 i hi)).refs r hr

namespace Grammar

variable {name : String}

theorem mem_rules {r : Rule} : r ∈ g.rules ↔ .rule r ∈ g.items := by
  rw [rules, List.mem_filterMap]
  constructor
  · rintro ⟨i, hi, hr⟩
    cases i with
    | rule s =>
      cases hr
      exact hi
    | template t => cases hr
  · exact fun h => ⟨_, h, rfl⟩

theorem mem_templates {t : Template} : t ∈ g.templates ↔ .template t ∈ g.items := by
  rw [templates, List.mem_filterMap]
  constructor
  · rintro ⟨i, hi, ht⟩
    cases i with
    | rule r => cases ht
    | template u =>
      cases ht
      exact hi
  · exact fun h => ⟨_, h, rfl⟩

theorem mem_of_item? {i : Item} (h : g.item? name = some i) : i ∈ g.items ∧ i.name.name = name :=
  ⟨List.mem_of_find?_eq_some h, by simpa using List.find?_some h⟩

theorem mem_of_lastTemplate? {t : Template} (h : g.lastTemplate? name = some t) :
    t ∈ g.templates ∧ t.name.name = name :=
  ⟨List.mem_reverse.1 (List.mem_of_find?_eq_some h), by simpa using List.find?_some h⟩

/-- What alone in a list has its name is found by its name. -/
theorem find?_of_unique {α : Type} {f : α → String} {l : List α} {a : α} (ha : a ∈ l)
    (hunique : ∀ b ∈ l, f b = f a → b = a) : l.find? (f · == f a) = some a := by
  cases hf : l.find? (f · == f a) with
  | none =>
    rw [List.find?_eq_none] at hf
    exact absurd (beq_self_eq_true _) (hf a ha)
  | some b =>
    have hname : f b = f a := by simpa using List.find?_some hf
    rw [hunique b (List.mem_of_find?_eq_some hf) hname]

section

variable (h : (g.items.map (·.name.name)).Nodup)

include h

/-- Where the names of the items differ, an item is what its name stands for. -/
theorem item?_of_mem {i : Item} (hi : i ∈ g.items) : g.item? i.name.name = some i :=
  find?_of_unique hi fun _ hj hname => List.inj_on_of_nodup_map h hj hi hname

theorem nodup_ruleNames : g.ruleNames.Nodup := by
  rw [ruleNames, List.Nodup, List.pairwise_map, rules, List.pairwise_filterMap]
  refine (List.pairwise_map.1 h).imp fun {i j} hne r hr s hs => ?_
  cases i with
  | template t => cases hr
  | rule r' =>
    cases j with
    | template t => cases hs
    | rule s' =>
      cases hr
      cases hs
      exact hne

theorem rule?_of_mem {r : Rule} (hr : r ∈ g.rules) : g.rule? r.name.name = some r :=
  find?_of_unique (f := fun r : Rule => r.name.name) hr fun _ hs hname =>
    Item.rule.inj (List.inj_on_of_nodup_map h (mem_rules.1 hs) (mem_rules.1 hr) hname)

theorem template_unique {t u : Template} (ht : t ∈ g.templates) (hu : u ∈ g.templates)
    (hname : u.name.name = t.name.name) : u = t :=
  Item.template.inj (List.inj_on_of_nodup_map h (mem_templates.1 hu) (mem_templates.1 ht) hname)

theorem template?_of_mem {t : Template} (ht : t ∈ g.templates) :
    g.template? t.name.name = some t :=
  find?_of_unique (f := fun t : Template => t.name.name) ht fun _ hu hname =>
    template_unique h ht hu hname

theorem lastTemplate?_of_mem {t : Template} (ht : t ∈ g.templates) :
    g.lastTemplate? t.name.name = some t :=
  find?_of_unique (f := fun t : Template => t.name.name) (List.mem_reverse.2 ht) fun _ hu hname =>
    template_unique h ht (List.mem_reverse.1 hu) hname

end

end Grammar

end Packrat

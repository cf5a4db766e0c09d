import Packrat.Grammar.References

/-!
# The numbers of rules

Rules are numbered by their places.  Of several rules with one name the first has its number.

* `getElem?_of_ruleIndex?`, `name_of_ruleIndex?` — the rule that has the number of a name.
* `ruleNumbers` — an index of all names, filled rule by rule; it has the number of each name.
-/

set_option autoImplicit false

namespace Packrat

/-! ## Places of rules -/

theorem getElem?_of_ruleIndex? {rules : List Rule} {name : String} {i : Nat}
    (h : ruleIndex? rules name = some i) : rules[i]? = rules.find? (·.name.name == name) := by
  unfold ruleIndex? at h
  induction rules generalizing i with
  | nil => cases h
  | cons r rest ih =>
    rw [List.findIdx?_cons] at h
    rw [List.find?_cons]
    split at h
    · rename_i hr
      cases h
      rw [hr]
      rfl
    · rename_i hr
      rw [Option.map_eq_some_iff] at h
      obtain ⟨j, hj, rfl⟩ := h
      rw [eq_false_of_ne_true hr]
      exact ih hj

theorem exists_ruleIndex? {rules : List Rule} {name : String}
    (h : name ∈ rules.map (·.name.name)) : ∃ i, ruleIndex? rules name = some i := by
  obtain ⟨r, hr, rfl⟩ := List.mem_map.1 h
  rw [← Option.isSome_iff_exists, ruleIndex?, List.findIdx?_isSome, List.any_eq_true]
  exact ⟨r, hr, beq_self_eq_true _⟩

theorem exists_rule_of_ruleIndex? {rules : List Rule} {name : String} {i : Nat}
    (h : ruleIndex? rules name = some i) : ∃ r, rules[i]? = some r := by
  obtain ⟨hlt, -⟩ := List.findIdx?_eq_some_iff_getElem.1 h
  exact ⟨rules[i], List.getElem?_eq_getElem hlt⟩

theorem name_of_ruleIndex? {rules : List Rule} {name : String} {i : Nat} {r : Rule}
    (h : ruleIndex? rules name = some i) (hr : rules[i]? = some r) : r.name.name = name := by
  rw [getElem?_of_ruleIndex? h] at hr
  simpa using List.find?_some hr

/-- A name has a number if and only if a rule has the name. -/
theorem isNone_ruleIndex? (rules : List Rule) (name : String) :
    (ruleIndex? rules name).isNone = (rules.find? (·.name.name == name)).isNone := by
  rw [ruleIndex?, Bool.eq_iff_iff, Option.isNone_iff_eq_none, Option.isNone_iff_eq_none,
    List.findIdx?_eq_none_iff, List.find?_eq_none]
  simp only [Bool.not_eq_true]

theorem ruleIndex?_cons (r : Rule) (rules : List Rule) (name : String) :
    ruleIndex? (r :: rules) name =
      if r.name.name == name then some 0 else (ruleIndex? rules name).map (· + 1) :=
  List.findIdx?_cons

/-! ## The index -/

/-- Number a rule, unless its name is in the index. -/
def addNumber (index : List (String × Nat)) (r : Rule × Nat) : List (String × Nat) :=
  if (index.lookup r.1.name.name).isSome then index else (r.1.name.name, r.2) :: index

/-- The numbers of the rules, by their names. -/
def ruleNumbers (rules : List Rule) : List (String × Nat) := rules.zipIdx.foldl addNumber []

theorem lookup_addNumber (index : List (String × Nat)) (r : Rule × Nat) (name : String) :
    (addNumber index r).lookup name =
      (index.lookup name).or (if r.1.name.name == name then some r.2 else none) := by
  unfold addNumber
  by_cases hname : r.1.name.name = name
  · subst hname
    cases h : index.lookup r.1.name.name <;> simp [h]
  · have hne : (name == r.1.name.name) = false := by simpa using Ne.symm hname
    split <;> simp [List.lookup_cons, hne, hname]

theorem lookup_foldl_addNumber (rules : List Rule) (name : String) : ∀ (n : Nat)
    (index : List (String × Nat)), ((rules.zipIdx n).foldl addNumber index).lookup name =
      (index.lookup name).or ((ruleIndex? rules name).map (n + ·)) := by
  induction rules with
  | nil => simp [ruleIndex?]
  | cons r rules ih =>
    intro n index
    rw [List.zipIdx_cons, List.foldl_cons, ih, lookup_addNumber, ruleIndex?_cons]
    by_cases hname : r.name.name == name
    · simp [hname]
    · simp [hname, Function.comp_def, Nat.add_assoc, Nat.add_comm 1]

/-- **The index has the number of each name.** -/
theorem lookup_ruleNumbers (rules : List Rule) (name : String) :
    (ruleNumbers rules).lookup name = ruleIndex? rules name := by
  rw [ruleNumbers, lookup_foldl_addNumber]
  simp

end Packrat

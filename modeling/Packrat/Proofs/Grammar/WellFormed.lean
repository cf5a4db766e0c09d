import Packrat.Proofs.Grammar.Checked

/-!
# Well-formed grammars

* `Grammar.Suits` — a name with so many arguments fits a parameter or a definition.
* `Grammar.WellFormed` — names differ, references fit, and no label is bound again where it is still
  bound.
* `check_eq_nil_iff` — the grammars for which `check` finds nothing are those that are well formed.
* `check_hidingGrammar` — a parameter hides a template of its name even where it has arguments.
-/

set_option autoImplicit false

namespace Packrat

/-- A name with `count` arguments names a parameter or a rule, which take none, or a template, which
takes as many as it has parameters.  In its template, a parameter hides what else has its name. -/
inductive Grammar.Suits (g : Grammar) (params : List String) (name : String) (count : Nat) :
    Prop where
  | parameter (bound : name ∈ params) (none : count = 0)
  | rule {r : Rule} (mem : r ∈ g.rules) (named : r.name.name = name) (none : count = 0)
  | template {t : Template} (mem : t ∈ g.templates) (named : t.name.name = name)
      (free : name ∉ params) (arity : t.params.length = count)

/-- **A well-formed grammar.** -/
structure Grammar.WellFormed (g : Grammar) : Prop where
  /-- No two items have one name. -/
  names : (g.items.map (·.name.name)).Nodup
  /-- No two parameters of a template have one name. -/
  params : ∀ t ∈ g.templates, t.paramNames.Nodup
  /-- Every reference in a body, and every argument in it however deep, fits. -/
  references : ∀ i ∈ g.items, ∀ r ∈ i.expr.refs, ∀ s, r.Part s →
    g.Suits (i.params.map (·.name)) s.name.name s.args.length
  /-- No label occurs again as long as every branch around its first occurrence lasts. -/
  labels : ∀ i ∈ g.items, ∀ name p q, ¬ i.expr.Rebinds name p q

variable {g : Grammar} {params : List String}

theorem suits_of_nameError {name : Ident} {count : Nat} {span : Span}
    (h : nameError g params name count span = []) : g.Suits params name.name count := by
  unfold nameError at h
  split at h
  · rename_i hbound
    split at h
    · rename_i hnone
      exact .parameter hbound hnone
    · cases h
  · rename_i hfree
    split at h
    · cases h
    · rename_i r hr
      obtain ⟨hmem, hname⟩ := Grammar.mem_of_item? hr
      split at h
      · rename_i hnone
        exact .rule (Grammar.mem_rules.2 hmem) hname hnone
      · cases h
    · rename_i t ht
      obtain ⟨hmem, hname⟩ := Grammar.mem_of_item? ht
      split at h
      · rename_i harity
        exact .template (Grammar.mem_templates.2 hmem) hname hfree harity
      · cases h

/-- Where the names of the items differ, what fits is no error. -/
theorem nameError_of_suits (hnames : (g.items.map (·.name.name)).Nodup) {name : Ident} {count : Nat}
    (span : Span) (h : g.Suits params name.name count) :
    nameError g params name count span = [] := by
  unfold nameError
  cases h with
  | parameter bound none => rw [if_pos bound, if_pos none]
  | @rule r mem named none =>
    have hitem := Grammar.item?_of_mem hnames (Grammar.mem_rules.1 mem)
    rw [show (Item.rule r).name.name = name.name from named] at hitem
    simp [hitem, none]
  | @template t mem named free arity =>
    have hitem := Grammar.item?_of_mem hnames (Grammar.mem_templates.1 mem)
    rw [show (Item.template t).name.name = name.name from named] at hitem
    simp [hitem, free, arity]

/-- **The check accepts exactly the well-formed grammars.** -/
theorem check_eq_nil_iff (g : Grammar) : check g = [] ↔ g.WellFormed := by
  constructor
  · intro h
    refine ⟨nodup_names_of_check h, fun t ht => nodup_paramNames_of_check h ht,
      fun i hi r hr s hs => ?_, fun i hi name p q hclash => ?_⟩
    · exact suits_of_nameError ((refErrors_eq_nil_iff r).1 (refErrors_of_check h hi hr) s hs)
    · exact ((exprErrors_eq_nil_iff i.expr []).1 ((check_eq_nil_iff_errors.1 h).2.2 i hi)).apart
        ⟨name, p, q, hclash⟩
  · intro h
    refine check_eq_nil_iff_errors.2 ⟨?_, fun t ht => ?_, fun i hi => ?_⟩
    · exact (redefinitions_eq_nil_iff [] g.items).2 ⟨h.names, fun _ _ => List.not_mem_nil⟩
    · exact (paramRedefinitions_eq_nil_iff [] t.params).2 ⟨h.params t ht, fun _ _ => List.not_mem_nil⟩
    · refine (exprErrors_eq_nil_iff i.expr []).2 ⟨fun r hr => ?_, fun _ hn => absurd hn List.not_mem_nil,
        fun ⟨name, p, q, hclash⟩ => h.labels i hi name p q hclash⟩
      exact (refErrors_eq_nil_iff r).2 fun s hs =>
        nameError_of_suits h.names s.span (h.references i hi r hr s hs)

/-- A template `Twice<X>`, and a template `Pair<Twice>` with the body `Twice<Twice>`. -/
def hidingGrammar : Grammar :=
  let ident (name : String) : Ident := ⟨name, ⟨0, 0⟩⟩
  let ref (name : String) (args : List Reference) : Reference := .mk ⟨0, 0⟩ (ident name) args
  ⟨none, [.template ⟨⟨0, 0⟩, ident "Twice", [ident "X"], .ref (ref "X" [])⟩,
    .template ⟨⟨0, 0⟩, ident "Pair", [ident "Twice"], .ref (ref "Twice" [ref "Twice" []])⟩]⟩

/-- **A parameter hides a template of its name even where it has arguments.**  Every reference of this
grammar is a parameter without arguments or has the name of a template that takes as many, and still
it is not well formed. -/
theorem check_hidingGrammar : (hidingGrammar.items.map (·.name.name)).Nodup ∧
    (∀ t ∈ hidingGrammar.templates, t.paramNames.Nodup) ∧
    (∀ i ∈ hidingGrammar.items, ∀ r ∈ i.expr.refs, ∀ s, r.Part s →
      (s.name.name ∈ i.params.map (·.name) ∧ s.args.length = 0) ∨
        (∃ r ∈ hidingGrammar.rules, r.name.name = s.name.name ∧ s.args.length = 0) ∨
        ∃ t ∈ hidingGrammar.templates, t.name.name = s.name.name ∧ t.params.length = s.args.length) ∧
    (∀ i ∈ hidingGrammar.items, ∀ name p q, ¬ i.expr.Rebinds name p q) ∧
    check hidingGrammar = [.paramWithArgs "Twice" ⟨0, 0⟩] := by
  refine ⟨by decide, by decide, fun i hi r hr s hs => ?_, fun i hi name p q h => ?_, by rfl⟩
  · rcases List.mem_pair.1 hi with rfl | rfl <;> cases List.mem_singleton.1 hr
    · cases hs with
      | self => exact .inl ⟨List.mem_singleton_self _, rfl⟩
      | arg mem _ => cases mem
    · cases hs with
      | self => exact .inr (.inr ⟨_, List.mem_cons_self .., rfl, rfl⟩)
      | arg mem part =>
        cases List.mem_singleton.1 mem
        cases part with
        | self => exact .inl ⟨List.mem_singleton_self _, rfl⟩
        | arg mem _ => cases mem
  · -- neither body has a part, or is a label itself
    have hlabel := h.earlier
    rcases List.mem_pair.1 hi with rfl | rfl <;> cases p <;> cases hlabel

end Packrat

import Packrat.Proofs.Template.Collecting
import Packrat.Proofs.Template.Resolve

/-!
# The expansion of a checked grammar

* `Grammar.withInstances` — the plain rules with the rules of some instances.
* `Grammar.Expands` — a grammar expands to another one, whatever depth is allowed, unless it is too
  small.
* `Grammar.Complete` — all instances that a checked grammar asks for, each once.
* `Grammar.Complete.rule?_of_reached` — the rule of a target is its body with the references linked.
* `Grammar.Complete.nodup_ruleNames` — the names of the rules differ.
* `Grammar.expands_closed` — what a checked grammar with finitely many instances expands to.
-/

set_option autoImplicit false

namespace Packrat

namespace Grammar

open GrammarText

variable {g expanded : Grammar} {depth n : Nat} {is : List Instance}

/-! ## The result -/

/-- The plain rules with the rules of some instances. -/
def withInstances (g : Grammar) (is : List Instance) : Grammar :=
  ⟨g.preamble, (g.rules.map plainRule ++ g.instanceRules is).map .rule⟩

theorem rules_withInstances (g : Grammar) (is : List Instance) :
    (g.withInstances is).rules = g.rules.map plainRule ++ g.instanceRules is := by
  rw [rules, withInstances, List.filterMap_map]
  exact List.filterMap_some

theorem templates_withInstances (g : Grammar) (is : List Instance) :
    (g.withInstances is).templates = [] := by
  rw [templates, withInstances, List.filterMap_map]
  exact List.filterMap_eq_nil_iff.2 fun _ _ => rfl

theorem expandWithin_ok : g.expandWithin depth = .ok (expanded, n) ↔
    ∃ is, g.allInstances depth = .ok is ∧ g.withInstances is = expanded ∧ is.length = n := by
  rw [expandWithin]
  cases h : g.allInstances depth with
  | error e =>
    constructor
    · intro he
      cases he
    · rintro ⟨is, he, -⟩
      cases he
  | ok is =>
    constructor
    · intro he
      cases he
      exact ⟨is, rfl, rfl, rfl⟩
    · rintro ⟨is', he, rfl, rfl⟩
      cases he
      rfl

theorem expandWithin_error {e : Fault} (h : g.allInstances depth = .error e) :
    g.expandWithin depth = .error e := by
  rw [expandWithin, h]
  rfl

/-- A grammar expands to another one with so many instances: with enough depth that is the answer,
and with less there is either the same answer or none. -/
structure Expands (g expanded : Grammar) (n : Nat) : Prop where
  enough : ∃ bound, ∀ depth, bound ≤ depth → g.expandWithin depth = .ok (expanded, n)
  only : ∀ depth, g.expandWithin depth = .ok (expanded, n) ∨
    g.expandWithin depth = .error .exhausted

theorem mem_instanceRules {r : Rule} : r ∈ g.instanceRules is ↔
    ∃ i ∈ is, ∃ t, g.lastTemplate? i.template = some t ∧ instanceRule t i = r := by
  simp only [instanceRules, List.mem_filterMap, Option.map_eq_some_iff]

theorem names_instanceRules (hdefined : ∀ i ∈ is, ∃ t, g.lastTemplate? i.template = some t) :
    (g.instanceRules is).map (·.name.name) = is.map Instance.name := by
  induction is with
  | nil => rfl
  | cons i is ih =>
    obtain ⟨⟨t, ht⟩, hrest⟩ := List.forall_mem_cons.1 hdefined
    rw [instanceRules, List.filterMap_cons, ht, Option.map_some, List.map_cons, List.map_cons,
      ← ih hrest]
    rfl

/-! ## The rules and the targets -/

theorem exists_template_of_asks (hg : g.Checked) {i : Instance} (hi : g.Asks i) :
    ∃ t, g.lastTemplate? i.template = some t := by
  obtain ⟨args, hreached, -⟩ := exists_reached_of_asks hg hi
  obtain ⟨t, ht, hname, -⟩ := hreached.applied_cases
  exact ⟨t, hname ▸ lastTemplate?_of_mem hg.nodup ht⟩

/-- **All instances that a checked grammar asks for, each once.** -/
structure Complete (g : Grammar) (is : List Instance) : Prop where
  checked : g.Checked
  mem_iff : ∀ i, i ∈ is ↔ g.Asks i
  nodup : is.Nodup

theorem Complete.of_allInstances (hg : g.Checked) (h : g.allInstances depth = .ok is) :
    g.Complete is := ⟨hg, mem_allInstances_iff h, allInstances_nodup h⟩

namespace Complete

variable (h : g.Complete is)

include h

/-- Each instance is a target, with the name of its rule. -/
theorem exists_reached {i : Instance} (hi : i ∈ is) : ∃ template args,
    g.Reached (.applied template args) ∧ i = ⟨template, Target.names args⟩ := by
  obtain ⟨args, hreached, hargs⟩ := exists_reached_of_asks h.checked ((h.mem_iff i).1 hi)
  exact ⟨i.template, args, hreached, by rw [← hargs]⟩

theorem ruleNames_eq : (g.withInstances is).ruleNames = g.ruleNames ++ is.map Instance.name := by
  rw [ruleNames, rules_withInstances, List.map_append, List.map_map,
    names_instanceRules fun i hi =>
      exists_template_of_asks h.checked ((h.mem_iff i).1 hi)]
  rfl

/-- **The names of the rules differ**: those of the targets do. -/
theorem nodup_ruleNames : (g.withInstances is).ruleNames.Nodup := by
  rw [h.ruleNames_eq]
  -- names of two instances, or of a rule and an instance, are names of two targets
  refine List.nodup_append.2 ⟨Grammar.nodup_ruleNames h.checked.nodup,
    List.Nodup.map_on ?_ h.nodup, ?_⟩
  · intro i hi j hj hname
    obtain ⟨T, as, has, rfl⟩ := h.exists_reached hi
    obtain ⟨U, bs, hbs, rfl⟩ := h.exists_reached hj
    cases (has.spelled h.checked).name_inj (hbs.spelled h.checked) hname
    rfl
  · rintro name hname _ hother rfl
    obtain ⟨i, hi, hsame⟩ := List.mem_map.1 hother
    obtain ⟨T, as, has, rfl⟩ := h.exists_reached hi
    have hrule : g.Reached (.rule name) := .rule hname
    cases (has.spelled h.checked).name_inj (hrule.spelled h.checked) hsame

/-- Each target has a rule, which is its body with the references linked. -/
theorem exists_rule {target : Target} (htarget : g.Reached target) : ∃ env e r,
    g.body? target = some (env, e) ∧ r ∈ (g.withInstances is).rules ∧
      r.name.name = target.name ∧ r.expr = env.scope.link e := by
  have hnames := h.checked.nodup
  rw [rules_withInstances]
  cases htarget with
  | rule hmem =>
    obtain ⟨r, hr, rfl⟩ := List.mem_map.1 hmem
    exact ⟨[], r.expr, plainRule r, by rw [body?, rule?_of_mem hnames hr, Option.map_some],
      List.mem_append_left _ (List.mem_map_of_mem hr), rfl, rfl⟩
  | @applied t args ht hlen hargs hasks =>
    refine ⟨t.environment args, t.expr, instanceRule t ⟨t.name.name, Target.names args⟩,
      by rw [body?, template?_of_mem hnames ht, Option.map_some], List.mem_append_right _ ?_, rfl, ?_⟩
    · exact mem_instanceRules.2 ⟨_, (h.mem_iff _).2 hasks, t, lastTemplate?_of_mem hnames ht, rfl⟩
    · rw [t.scope_environment (i := ⟨t.name.name, Target.names args⟩) rfl]
      rfl

/-- Each rule is the body of a target with the references linked. -/
theorem exists_target {r : Rule} (hr : r ∈ (g.withInstances is).rules) : ∃ target env e,
    g.Reached target ∧ g.body? target = some (env, e) ∧ r.expr = env.scope.link e := by
  have hnames := h.checked.nodup
  rw [rules_withInstances] at hr
  rcases List.mem_append.1 hr with hr | hr
  · obtain ⟨s, hs, rfl⟩ := List.mem_map.1 hr
    exact ⟨.rule s.name.name, [], s.expr, .rule (List.mem_map_of_mem hs),
      by rw [body?, rule?_of_mem hnames hs, Option.map_some], rfl⟩
  · obtain ⟨i, hi, t, ht, rfl⟩ := mem_instanceRules.1 hr
    obtain ⟨template, args, hreached, rfl⟩ := h.exists_reached hi
    obtain ⟨hmem, rfl⟩ := mem_of_lastTemplate? ht
    refine ⟨.applied t.name.name args, t.environment args, t.expr, hreached, ?_, ?_⟩
    · rw [body?, template?_of_mem hnames hmem, Option.map_some]
    · rw [t.scope_environment (i := ⟨t.name.name, Target.names args⟩) rfl]
      rfl

theorem name_mem {target : Target} (htarget : g.Reached target) :
    target.name ∈ (g.withInstances is).ruleNames := by
  obtain ⟨env, e, r, -, hr, hname, -⟩ := h.exists_rule htarget
  exact hname ▸ List.mem_map_of_mem hr

/-- **Every reference is plain and names a rule.** -/
theorem refs_plain {r : Rule} (hr : r ∈ (g.withInstances is).rules) {reference : Reference}
    (href : reference ∈ r.expr.refs) :
    reference.args = [] ∧ reference.name.name ∈ (g.withInstances is).ruleNames := by
  obtain ⟨target, env, e, htarget, hbody, hexpr⟩ := h.exists_target hr
  rw [hexpr, Scope.refs_link] at href
  obtain ⟨written, hw, rfl⟩ := List.mem_map.1 href
  have hlink := linked_of_body? h.checked htarget hbody written hw
  refine ⟨rfl, ?_⟩
  show env.scope.resolve written ∈ _
  rw [hlink.name]
  exact h.name_mem hlink.reached

/-- **The rule of a target is its body with the references linked.** -/
theorem rule?_of_reached {target : Target} (htarget : g.Reached target) : ∃ env e r,
    g.body? target = some (env, e) ∧ (∀ reference ∈ e.refs, g.Linked env reference) ∧
      (g.withInstances is).rule? target.name = some r ∧ r.expr = env.scope.link e := by
  obtain ⟨env, e, r, hbody, hr, hname, hexpr⟩ := h.exists_rule htarget
  refine ⟨env, e, r, hbody, linked_of_body? h.checked htarget hbody, ?_, hexpr⟩
  rw [← hname]
  exact find?_of_unique (f := fun r : Rule => r.name.name) hr fun s hs hsame =>
    List.inj_on_of_nodup_map h.nodup_ruleNames hs hr hsame

end Complete

/-- **A checked grammar with finitely many instances expands**: to the grammar with all of them. -/
theorem exists_expands (hg : g.Checked) (hfinite : {i | g.Asks i}.Finite) :
    ∃ is, g.Complete is ∧ g.Expands (g.withInstances is) is.length := by
  have hdefined : ∀ i, g.Asks i → ∃ t, g.lastTemplate? i.template = some t :=
    fun i hi => exists_template_of_asks hg hi
  obtain ⟨is, his⟩ := exists_allInstances hdefined hfinite
  have hcomplete : g.Complete is := .of_allInstances hg (his _ (Nat.lt_succ_self _))
  refine ⟨is, hcomplete, ⟨_, fun depth hdepth => expandWithin_ok.2 ⟨is, his depth hdepth, rfl, rfl⟩⟩,
    fun depth => ?_⟩
  cases hd : g.allInstances depth with
  | error e =>
    rw [allInstances_error hdefined hd] at hd
    exact .inr (expandWithin_error hd)
  | ok is' =>
    -- with more depth the answer is the same, and there it is known
    have hsame := allInstances_mono (Nat.le_max_left depth (hfinite.toFinset.card + 1)) hd
    rw [his _ (Nat.lt_of_succ_le (Nat.le_max_right ..))] at hsame
    cases hsame
    exact .inl (expandWithin_ok.2 ⟨is, hd, rfl, rfl⟩)

/-- **Checked grammars expand to closed grammars without templates**: each reference names a rule, the
names of the rules differ, and the plain rules come first, in order and with their names. -/
theorem expands_closed {cs : List Char} (hread : readGrammar cs = .ok g) (hcheck : check g = [])
    (hfinite : {i | g.Asks i}.Finite) : ∃ expanded n, g.Expands expanded n ∧
      expanded.templates = [] ∧
      (∀ r ∈ expanded.rules, ∀ reference ∈ r.expr.refs,
        reference.args = [] ∧ reference.name.name ∈ expanded.ruleNames) ∧
      expanded.ruleNames.Nodup ∧
      g.rules.map (·.name) <+: expanded.rules.map (·.name) := by
  obtain ⟨is, hcomplete, hexpands⟩ := exists_expands (.of_read hread hcheck) hfinite
  refine ⟨_, _, hexpands, templates_withInstances g is,
    fun r hr reference href => hcomplete.refs_plain hr href, hcomplete.nodup_ruleNames, ?_⟩
  rw [rules_withInstances, List.map_append, List.map_map]
  exact List.prefix_append _ _

/-- A text is read as a grammar that passes the checks and asks for finitely many instances. -/
theorem exists_checked_of_readsAs {cs : List Char} {test : Grammar → Bool} {depth : Nat}
    (h : readsAs cs (fun g => (check g).isEmpty && (g.allInstances depth).isOk && test g) = true) :
    ∃ g, readGrammar cs = .ok g ∧ check g = [] ∧ {i | g.Asks i}.Finite ∧ test g = true := by
  obtain ⟨g, hg, htest⟩ := exists_of_readsAs h
  rw [Bool.and_eq_true, Bool.and_eq_true, List.isEmpty_iff] at htest
  refine ⟨g, hg, htest.1.1, ?_, htest.2⟩
  cases hi : g.allInstances depth with
  | error e =>
    rw [hi] at htest
    exact absurd htest.1.2 Bool.false_ne_true
  | ok is => exact finite_of_allInstances hi

/-- A parameter with the name of a rule, and a template that is applied to its own instance. -/
theorem expands_closed_pair : ∃ g, readGrammar
    ("S <- Pair<Item, List<Item>>\nItem <- 'a'\n" ++
      "List<X> <- X List<X> / X\nPair<Item, B> <- List<B> Item").toList =
      .ok g ∧ check g = [] ∧ {i | g.Asks i}.Finite ∧ ∃ expanded n, g.Expands expanded n ∧
        expanded.templates = [] ∧
        (∀ r ∈ expanded.rules, ∀ reference ∈ r.expr.refs,
          reference.args = [] ∧ reference.name.name ∈ expanded.ruleNames) ∧
        expanded.ruleNames.Nodup ∧
        g.rules.map (·.name) <+: expanded.rules.map (·.name) := by
  obtain ⟨g, hread, hcheck, hfinite, -⟩ := exists_checked_of_readsAs (show readsAs
    ("S <- Pair<Item, List<Item>>\nItem <- 'a'\n" ++
      "List<X> <- X List<X> / X\nPair<Item, B> <- List<B> Item").toList
      (fun g => (check g).isEmpty && (g.allInstances 5).isOk && true) = true by decide +kernel)
  exact ⟨g, hread, hcheck, hfinite, expands_closed hread hcheck hfinite⟩

end Grammar

end Packrat

import Packrat.Proofs.Grammar.Checked
import Packrat.Proofs.Grammar.Instances
import Packrat.Proofs.Template.Target

/-!
# What the references of a checked grammar stand for

* `Grammar.Checked` — a grammar that was read and checked.
* `Environment`, `Environment.resolve` — what the parameters in force stand for, and what a reference
  then stands for.
* `Environment.scope_resolve` — expansion resolves a reference to the name of that.
* `Grammar.Reached` — the targets of a grammar: its rules, and the instances that it asks for.
* `Grammar.exists_reached_of_asks` — every instance that a checked grammar asks for is one.
* `Grammar.body?`, `Grammar.linked_of_body?` — the body of a target, and that its references stand for
  targets again.
-/

set_option autoImplicit false

namespace Packrat

open GrammarText

/-- **A grammar as the checks let it pass**: they find nothing, every template has a parameter, and every
item has a name as it is read. -/
structure Grammar.Checked (g : Grammar) : Prop where
  clean : check g = []
  params : ∀ t ∈ g.templates, t.params ≠ []
  names : ∀ i ∈ g.items, IsName i.name.name

/-- What is read and checked is such a grammar. -/
theorem Grammar.Checked.of_read {g : Grammar} {cs : List Char} (hread : readGrammar cs = .ok g)
    (hcheck : check g = []) : g.Checked :=
  ⟨hcheck, fun _ ht => readGrammar_params_ne_nil hread ht, fun _ hi => readGrammar_isName hread hi⟩

theorem Grammar.Checked.nodup {g : Grammar} (hg : g.Checked) :
    (g.items.map (·.name.name)).Nodup := nodup_names_of_check hg.clean

/-- What the parameters in force stand for. -/
abbrev Environment := List (String × Target)

namespace Environment

mutual

/-- What a reference stands for.  A name without arguments is a parameter, or else a rule; a name with
arguments is a template, and its arguments stand for what they stand for here. -/
def resolve (env : Environment) : Reference → Target
  | .mk _ name args =>
    if args.isEmpty then (env.lookup name.name).getD (.rule name.name)
    else .applied name.name (resolveAll env args)

/-- What several references stand for. -/
def resolveAll (env : Environment) : List Reference → List Target
  | [] => []
  | r :: rest => resolve env r :: resolveAll env rest

end

theorem resolveAll_eq (env : Environment) (rs : List Reference) :
    env.resolveAll rs = rs.map env.resolve := by
  induction rs with
  | nil => rfl
  | cons r rest ih => rw [resolveAll, List.map_cons, ih]

/-- The names of what the parameters stand for. -/
def scope (env : Environment) : Scope := env.map fun p => (p.1, p.2.name)

/-- Where no parameter comes twice, the last one of a name is the first. -/
theorem get?_scope {env : Environment} (hdistinct : (env.map (·.1)).Nodup) (p : String) :
    env.scope.get? p = (env.lookup p).map Target.name := by
  induction env with
  | nil => rfl
  | cons q rest ih =>
    rw [List.map_cons, List.nodup_cons] at hdistinct
    rw [Scope.get?, scope, List.map_cons, List.reverse_cons, List.lookup_append]
    have hrest : (rest.map fun p => (p.1, p.2.name)).reverse.lookup p =
        (rest.lookup p).map Target.name := ih hdistinct.2
    rw [hrest, List.lookup_cons, List.lookup_cons]
    by_cases hp : p = q.1
    · subst hp
      have hnone : rest.lookup q.1 = none := by
        refine List.lookup_eq_none_iff.2 fun x hx => ?_
        rw [bne_iff_ne]
        exact fun he => hdistinct.1 (he ▸ List.mem_map_of_mem hx)
      simp [hnone]
    · rw [beq_eq_false_iff_ne.2 hp]
      simp

mutual

/-- **Expansion resolves a reference to the name of what it stands for.** -/
theorem scope_resolve {env : Environment} (hdistinct : (env.map (·.1)).Nodup) (r : Reference) :
    env.scope.resolve r = (env.resolve r).name := by
  obtain ⟨span, name, args⟩ := r
  rw [Scope.resolve, resolve]
  split
  · rw [get?_scope hdistinct]
    cases env.lookup name.name <;> rfl
  · rw [Target.name, scope_resolveAll hdistinct args]

theorem scope_resolveAll {env : Environment} (hdistinct : (env.map (·.1)).Nodup)
    (rs : List Reference) : env.scope.resolveAll rs = Target.names (env.resolveAll rs) := by
  cases rs with
  | nil => rfl
  | cons r rest =>
    rw [Scope.resolveAll, resolveAll, Target.names, scope_resolve hdistinct r,
      scope_resolveAll hdistinct rest]

end

end Environment

/-- What the parameters stand for in the body of an instance of a template. -/
def Template.environment (t : Template) (args : List Target) : Environment := t.paramNames.zip args

theorem Template.scope_environment (t : Template) {args : List Target} {i : Instance}
    (h : i.args = Target.names args) : (t.environment args).scope = Grammar.scopeOf t i := by
  rw [Environment.scope, environment, Grammar.scopeOf, h, Target.names_eq, List.zip_map_right]
  rfl

namespace Grammar

/-- The targets of a grammar: its rules, and those instances it asks for that have an argument for each
parameter, which is a target itself. -/
inductive Reached (g : Grammar) : Target → Prop
  | rule {name : String} : name ∈ g.ruleNames → g.Reached (.rule name)
  | applied {t : Template} {args : List Target} : t ∈ g.templates →
      t.params.length = args.length → (∀ a ∈ args, g.Reached a) →
      g.Asks ⟨t.name.name, Target.names args⟩ → g.Reached (.applied t.name.name args)

end Grammar

/-- Each parameter in force, and no other name, stands for a target. -/
structure Environment.Fits (g : Grammar) (params : List String) (env : Environment) : Prop where
  distinct : (env.map (·.1)).Nodup
  inside : ∀ p ∈ params, ∃ t, env.lookup p = some t ∧ g.Reached t
  outside : ∀ p, p ∉ params → env.lookup p = none

theorem Environment.Fits.nil (g : Grammar) : Environment.Fits g [] [] :=
  ⟨List.nodup_nil, fun _ hp => absurd hp List.not_mem_nil, fun _ _ => rfl⟩

section

variable {g : Grammar} {params : List String} {env : Environment}

/-- A name without arguments and without error stands for a target. -/
theorem reached_of_nameError (hg : g.Checked) (hfits : env.Fits g params)
    {name : Ident} {span : Span} (h : nameError g params name 0 span = []) :
    g.Reached ((env.lookup name.name).getD (.rule name.name)) := by
  unfold nameError at h
  by_cases hp : name.name ∈ params
  · obtain ⟨target, htarget, hreached⟩ := hfits.inside _ hp
    rw [htarget]
    exact hreached
  · rw [if_neg hp] at h
    rw [hfits.outside _ hp]
    cases hi : g.item? name.name with
    | none =>
      rw [hi] at h
      cases h
    | some i =>
      obtain ⟨hmem, hname⟩ := Grammar.mem_of_item? hi
      cases i with
      | rule r => exact .rule (List.mem_map.2 ⟨r, Grammar.mem_rules.2 hmem, hname⟩)
      | template t =>
        rw [hi] at h
        simp only [List.length_eq_zero_iff] at h
        split at h
        · rename_i hnil
          exact absurd hnil (hg.params t (Grammar.mem_templates.2 hmem))
        · cases h

/-- A name with arguments and without error is a template that takes as many. -/
theorem arity_of_nameError {name : Ident} {span : Span} {count : Nat} (hcount : count ≠ 0)
    (h : nameError g params name count span = []) :
    ∃ t ∈ g.templates, t.name.name = name.name ∧ t.params.length = count := by
  unfold nameError at h
  split at h
  · cases h
  · split at h
    · cases h
    · cases h
    · rename_i t ht
      obtain ⟨hmem, hname⟩ := Grammar.mem_of_item? ht
      split at h
      · rename_i hlen
        exact ⟨t, Grammar.mem_templates.2 hmem, hname, hlen⟩
      · cases h

mutual

/-- **A reference without errors stands for a target**, and each instance that it asks for is one. -/
theorem Environment.resolve_reached (hg : g.Checked) (hfits : env.Fits g params) (r : Reference)
    (herr : refErrors g params r = [])
    (hasks : ∀ i ∈ env.scope.refInstances r, g.Asks i) :
    g.Reached (env.resolve r) ∧ ∀ i ∈ env.scope.refInstances r,
      ∃ args, g.Reached (.applied i.template args) ∧ i.args = Target.names args := by
  obtain ⟨span, name, args⟩ := r
  obtain ⟨hname, hargs⟩ := List.append_eq_nil_iff.1 herr
  cases args with
  | nil => exact ⟨reached_of_nameError hg hfits hname, fun i hi => by cases hi⟩
  | cons first rest =>
    -- the instances of the arguments come first, and last the one that takes them
    have hlast : g.Asks ⟨name.name, Target.names (env.resolveAll (first :: rest))⟩ := by
      rw [← Environment.scope_resolveAll hfits.distinct]
      exact hasks _ (List.mem_append_right _ (List.mem_singleton_self _))
    obtain ⟨hall, hinner⟩ := Environment.resolveAll_reached hg hfits (first :: rest) hargs
      fun i hi => hasks i (List.mem_append_left _ hi)
    obtain ⟨t, ht, htname, hlen⟩ := arity_of_nameError (Nat.succ_ne_zero _) hname
    have hlen : t.params.length = (env.resolveAll (first :: rest)).length := by
      rw [Environment.resolveAll_eq, List.length_map]
      exact hlen
    have hreached : g.Reached (.applied name.name (env.resolveAll (first :: rest))) :=
      htname ▸ .applied ht hlen hall (htname ▸ hlast)
    refine ⟨hreached, fun i hi => ?_⟩
    rcases List.mem_append.1 hi with hi | hi
    · exact hinner i hi
    · rw [List.mem_singleton.1 hi]
      exact ⟨_, hreached, Environment.scope_resolveAll hfits.distinct _⟩

theorem Environment.resolveAll_reached (hg : g.Checked) (hfits : env.Fits g params)
    (rs : List Reference) (herr : argErrors g params rs = [])
    (hasks : ∀ i ∈ env.scope.argInstances rs, g.Asks i) :
    (∀ a ∈ env.resolveAll rs, g.Reached a) ∧ ∀ i ∈ env.scope.argInstances rs,
      ∃ args, g.Reached (.applied i.template args) ∧ i.args = Target.names args := by
  cases rs with
  | nil => exact ⟨fun a ha => absurd ha List.not_mem_nil, fun i hi => absurd hi List.not_mem_nil⟩
  | cons r rest =>
    obtain ⟨hr, hrest⟩ := List.append_eq_nil_iff.1 herr
    obtain ⟨hfirst, hinner⟩ := Environment.resolve_reached hg hfits r hr
      fun i hi => hasks i (List.mem_append_left _ hi)
    obtain ⟨hall, hinners⟩ := Environment.resolveAll_reached hg hfits rest hrest
      fun i hi => hasks i (List.mem_append_right _ hi)
    refine ⟨List.forall_mem_cons.2 ⟨hfirst, hall⟩, fun i hi => ?_⟩
    exact (List.mem_append.1 hi).elim (hinner i) (hinners i)

end

end

namespace Grammar

variable {g : Grammar}

theorem Reached.applied_cases {template : String} {args : List Target}
    (h : g.Reached (.applied template args)) : ∃ t ∈ g.templates, t.name.name = template ∧
      t.params.length = args.length ∧ (∀ a ∈ args, g.Reached a) ∧
        g.Asks ⟨template, Target.names args⟩ := by
  cases h with
  | applied ht hlen hargs hasks => exact ⟨_, ht, rfl, hlen, hargs, hasks⟩

/-- A target of a checked grammar is made of names as they are read. -/
theorem Reached.spelled (hg : g.Checked) {target : Target} (h : g.Reached target) :
    target.Spelled := by
  induction h with
  | rule hmem =>
    obtain ⟨r, hr, rfl⟩ := List.mem_map.1 hmem
    exact .rule (hg.names _ (mem_rules.1 hr))
  | @applied t args ht hlen _ _ ih =>
    refine .applied (hg.names _ (mem_templates.1 ht)) ?_ ih
    rintro rfl
    exact hg.params t ht (List.length_eq_zero_iff.1 hlen)

/-- The arguments of an instance stand for the parameters of its template. -/
theorem environment_fits {t : Template} {args : List Target} (hdistinct : t.paramNames.Nodup)
    (hlen : t.params.length = args.length) (hargs : ∀ a ∈ args, g.Reached a) :
    (t.environment args).Fits g t.paramNames := by
  have hkeys : (t.environment args).map (·.1) = t.paramNames := by
    refine List.map_fst_zip (Nat.le_of_eq ?_)
    rw [Template.paramNames, List.length_map, hlen]
  refine ⟨by rw [hkeys]; exact hdistinct, fun p hp => ?_, fun p hp => ?_⟩
  · rw [← hkeys, List.mem_map] at hp
    obtain ⟨⟨p', a⟩, hmem, rfl⟩ := hp
    obtain ⟨b, hb⟩ := Option.isSome_iff_exists.1
      (List.lookup_isSome_iff.2 ⟨(p', a), hmem, beq_self_eq_true _⟩)
    obtain ⟨l, l', hsplit, -⟩ := List.lookup_eq_some_iff.1 hb
    have hin : (p', b) ∈ t.environment args := hsplit ▸ List.mem_append_right _ (List.mem_cons_self ..)
    exact ⟨b, hb, hargs b (List.of_mem_zip hin).2⟩
  · refine List.lookup_eq_none_iff.2 fun q hq => ?_
    rw [bne_iff_ne]
    intro he
    exact hp (by rw [← hkeys, he]; exact List.mem_map_of_mem hq)

/-- What a target of a grammar is evaluated as: an expression, and what the parameters in it stand
for. -/
def body? (g : Grammar) : Target → Option (Environment × Expr)
  | .rule name => (g.rule? name).map fun r => ([], r.expr)
  | .applied template args => (g.template? template).map fun t => (t.environment args, t.expr)

/-- What expansion makes of a reference is what it stands for, and the instances that it asks for are
targets. -/
structure Linked (g : Grammar) (env : Environment) (reference : Reference) : Prop where
  reached : g.Reached (env.resolve reference)
  name : env.scope.resolve reference = (env.resolve reference).name
  instances : ∀ i ∈ env.scope.refInstances reference,
    ∃ args, g.Reached (.applied i.template args) ∧ i.args = Target.names args

section

variable (hg : g.Checked)

include hg

theorem linked_of_mem_item {i : Item} (hi : i ∈ g.items) {env : Environment}
    (hfits : env.Fits g (i.params.map (·.name)))
    (hasks : ∀ j ∈ env.scope.instances i.expr, g.Asks j) :
    ∀ reference ∈ i.expr.refs, g.Linked env reference := by
  intro reference href
  obtain ⟨hreached, hinstances⟩ := Environment.resolve_reached hg hfits reference
    (refErrors_of_check hg.clean hi href) fun j hj => hasks j (by
      rw [Scope.instances_eq]
      exact List.mem_flatMap.2 ⟨reference, href, hj⟩)
  exact ⟨hreached, Environment.scope_resolve hfits.distinct reference, hinstances⟩

/-- The references in a plain rule. -/
theorem linked_of_mem_rule {r : Rule} (hr : r ∈ g.rules) :
    ∀ reference ∈ r.expr.refs, g.Linked [] reference :=
  linked_of_mem_item hg (mem_rules.1 hr) (.nil g) fun _ hj => .plain hr hj

/-- The references in the body of an instance. -/
theorem linked_of_mem_template {t : Template} (ht : t ∈ g.templates) {args : List Target}
    (h : g.Reached (.applied t.name.name args)) :
    ∀ reference ∈ t.expr.refs, g.Linked (t.environment args) reference := by
  obtain ⟨u, hu, hname, hlen, hargs, hasks⟩ := h.applied_cases
  rw [template_unique hg.nodup ht hu hname] at hlen
  refine linked_of_mem_item hg (mem_templates.1 ht)
    (environment_fits (nodup_paramNames_of_check hg.clean ht) hlen hargs) fun j hj => ?_
  refine .body hasks (lastTemplate?_of_mem hg.nodup ht) ?_
  rw [← Template.scope_environment t rfl]
  exact hj

/-- **Every instance that a checked grammar asks for is a target.** -/
theorem exists_reached_of_asks {i : Instance} (hi : g.Asks i) :
    ∃ args, g.Reached (.applied i.template args) ∧ i.args = Target.names args := by
  induction hi with
  | @plain r i hr hi =>
    rw [Scope.instances_eq, List.mem_flatMap] at hi
    obtain ⟨reference, href, hi⟩ := hi
    exact (linked_of_mem_rule hg hr reference href).instances i hi
  | @body i j t _ ht hj ih =>
    obtain ⟨args, hreached, hargs⟩ := ih
    obtain ⟨hmem, hname⟩ := mem_of_lastTemplate? ht
    rw [← Template.scope_environment t hargs, Scope.instances_eq, List.mem_flatMap] at hj
    obtain ⟨reference, href, hj⟩ := hj
    rw [← hname] at hreached
    exact (linked_of_mem_template hg hmem hreached reference href).instances j hj

/-- **The references in the body of a target stand for targets again.** -/
theorem linked_of_body? {target : Target} {env : Environment} {e : Expr} (h : g.Reached target)
    (hbody : g.body? target = some (env, e)) : ∀ reference ∈ e.refs, g.Linked env reference := by
  cases h with
  | rule hmem =>
    obtain ⟨r, hr, rfl⟩ := List.mem_map.1 hmem
    rw [body?, rule?_of_mem hg.nodup hr, Option.map_some] at hbody
    cases hbody
    exact linked_of_mem_rule hg hr
  | @applied t args ht hlen hargs hasks =>
    rw [body?, template?_of_mem hg.nodup ht, Option.map_some] at hbody
    cases hbody
    exact linked_of_mem_template hg ht (.applied ht hlen hargs hasks)

end

end Grammar

end Packrat

import Packrat.Proofs.Template.Resolve

/-!
# What expansion should make of references

Which instances there should be and what becomes of a body, said of references as they are written and
without going through a grammar in any order.

* `Scope.Names` — the name of the rule that a reference stands for, with names for the parameters.
* `Expr.Instantiates` — the instances that are written in an expression, nested arguments included.
* `Grammar.Reachable` — the instances that are written in plain rules, and in the bodies of these.
* `Grammar.reachable_iff_asks` — these are the instances that a checked grammar asks for.
* `Expr.Replaces`, `Scope.Stands` — an expression in which each reference has become a plain one.
* `Scope.replaces_link` — what an expression becomes when its references are linked.
-/

set_option autoImplicit false

namespace Packrat

/-! ## Names -/

namespace Scope

variable {scope : Scope} {param a : String}

/-- **The name of the rule that a reference stands for**: without arguments what its parameter stands
for, or else its own name; with arguments the name of the instance. -/
inductive Names (scope : Scope) : Reference → String → Prop where
  | param {r : Reference} {a : String} (bare : r.args = []) (mem : (r.name.name, a) ∈ scope) :
      Names scope r a
  | rule {r : Reference} (bare : r.args = []) (free : ∀ a, (r.name.name, a) ∉ scope) :
      Names scope r r.name.name
  | applied {r : Reference} {names : List String} (applied : r.args ≠ [])
      (each : List.Forall₂ (Names scope) r.args names) :
      Names scope r (instanceName r.name.name names)

/-- No parameter comes twice. -/
def Distinct (scope : Scope) : Prop := (scope.map (·.1)).Nodup

theorem Distinct.nil : Distinct [] := List.nodup_nil

theorem get?_eq_none_iff : scope.get? param = none ↔ ∀ a, (param, a) ∉ scope := by
  rw [get?, List.lookup_eq_none_iff]
  constructor
  · intro h a ha
    exact absurd (h _ (List.mem_reverse.2 ha)) (by simp)
  · intro h p hp
    rw [bne_iff_ne]
    rintro rfl
    exact h p.2 (List.mem_reverse.1 hp)

theorem get?_eq_some_iff (h : scope.Distinct) : scope.get? param = some a ↔ (param, a) ∈ scope := by
  have hmem : ∀ {b}, scope.get? param = some b → (param, b) ∈ scope := by
    intro b hb
    obtain ⟨l, l', hsplit, -⟩ := List.lookup_eq_some_iff.1 hb
    rw [← List.mem_reverse, hsplit]
    exact List.mem_append_right _ (List.mem_cons_self ..)
  refine ⟨hmem, fun ha => ?_⟩
  cases hget : scope.get? param with
  | none => exact absurd ha (get?_eq_none_iff.1 hget a)
  | some b =>
    have hsame := List.inj_on_of_nodup_map h (hmem hget) ha rfl
    rw [(Prod.mk.inj hsame).2]

mutual

/-- Expansion finds this name. -/
theorem names_iff (h : scope.Distinct) (r : Reference) (name : String) :
    scope.Names r name ↔ name = scope.resolve r := by
  obtain ⟨span, ident, args⟩ := r
  cases args with
  | nil =>
    show _ ↔ name = (scope.get? ident.name).getD ident.name
    constructor
    · intro hnames
      cases hnames with
      | param bare mem =>
        have hget : scope.get? ident.name = some name := (get?_eq_some_iff h).2 mem
        rw [hget, Option.getD_some]
      | rule bare free =>
        have hget : scope.get? ident.name = none := get?_eq_none_iff.2 free
        rw [hget, Option.getD_none]
        rfl
      | applied applied each => exact absurd rfl applied
    · rintro rfl
      cases hget : scope.get? ident.name with
      | none => exact .rule rfl (get?_eq_none_iff.1 hget)
      | some a => exact .param rfl ((get?_eq_some_iff h).1 hget)
  | cons first rest =>
    show _ ↔ name = instanceName ident.name (scope.resolveAll (first :: rest))
    constructor
    · intro hnames
      cases hnames with
      | param bare mem => cases bare
      | rule bare free => cases bare
      | applied applied each =>
        rw [(forall₂_names_iff h (first :: rest) _).1 each]
        rfl
    · rintro rfl
      exact .applied (List.cons_ne_nil first rest) ((forall₂_names_iff h (first :: rest) _).2 rfl)

theorem forall₂_names_iff (h : scope.Distinct) (rs : List Reference) (names : List String) :
    List.Forall₂ scope.Names rs names ↔ names = scope.resolveAll rs := by
  cases rs with
  | nil => rw [List.forall₂_nil_left_iff, resolveAll]
  | cons r rest =>
    rw [List.forall₂_cons_left_iff, resolveAll]
    constructor
    · rintro ⟨name, names, hname, hnames, rfl⟩
      rw [(names_iff h r name).1 hname, (forall₂_names_iff h rest names).1 hnames]
    · rintro rfl
      exact ⟨_, _, (names_iff h r _).2 rfl, (forall₂_names_iff h rest _).2 rfl, rfl⟩

end

end Scope

/-! ## Instances -/

/-- A reference is written in another one: it is the other one, or written in an argument of it. -/
inductive Reference.Writes : Reference → Reference → Prop where
  | self (r : Reference) : Writes r r
  | arg {r a x : Reference} (mem : a ∈ r.args) (within : Writes a x) : Writes r x

/-- **The instances that are written in an expression**, with names for the parameters: those of all
references with arguments, also within the arguments of others. -/
def Expr.Instantiates (scope : Scope) (e : Expr) (i : Instance) : Prop :=
  ∃ r ∈ e.refs, ∃ x, r.Writes x ∧ x.args ≠ [] ∧ x.name.name = i.template ∧
    List.Forall₂ scope.Names x.args i.args

namespace Scope

variable {scope : Scope} {i : Instance}

mutual

theorem mem_refInstances_iff (r : Reference) : i ∈ scope.refInstances r ↔
    ∃ x, r.Writes x ∧ x.args ≠ [] ∧ i = ⟨x.name.name, scope.resolveAll x.args⟩ := by
  obtain ⟨span, name, args⟩ := r
  cases args with
  | nil =>
    show i ∈ [] ↔ _
    refine iff_of_false List.not_mem_nil ?_
    rintro ⟨x, hwrites, hne, -⟩
    cases hwrites with
    | self => exact hne rfl
    | arg mem within => cases mem
  | cons first rest =>
    show i ∈ scope.argInstances (first :: rest) ++ [_] ↔ _
    rw [List.mem_append, mem_argInstances_iff (first :: rest), List.mem_singleton]
    constructor
    · rintro (⟨a, ha, x, hwrites, hx⟩ | rfl)
      · exact ⟨x, .arg ha hwrites, hx⟩
      · exact ⟨_, .self _, List.cons_ne_nil first rest, rfl⟩
    · rintro ⟨x, hwrites, hx⟩
      cases hwrites with
      | self => exact .inr hx.2
      | arg mem within => exact .inl ⟨_, mem, x, within, hx⟩

theorem mem_argInstances_iff (rs : List Reference) : i ∈ scope.argInstances rs ↔
    ∃ a ∈ rs, ∃ x, a.Writes x ∧ x.args ≠ [] ∧ i = ⟨x.name.name, scope.resolveAll x.args⟩ := by
  cases rs with
  | nil => simp [argInstances]
  | cons r rest =>
    rw [argInstances, List.mem_append, mem_refInstances_iff r, mem_argInstances_iff rest]
    simp only [List.mem_cons, exists_eq_or_imp]

end

theorem argInstances_eq (scope : Scope) (rs : List Reference) :
    scope.argInstances rs = rs.flatMap scope.refInstances := by
  induction rs with
  | nil => rfl
  | cons r rest ih => rw [argInstances, List.flatMap_cons, ih]

/-- The instances of an expression are those of its references as of arguments. -/
theorem instances_eq_argInstances (scope : Scope) (e : Expr) :
    scope.instances e = scope.argInstances e.refs := by
  rw [instances_eq, argInstances_eq]

/-- Expansion finds these instances. -/
theorem mem_instances_iff (h : scope.Distinct) (e : Expr) :
    i ∈ scope.instances e ↔ e.Instantiates scope i := by
  rw [instances_eq_argInstances, mem_argInstances_iff]
  constructor
  · rintro ⟨r, hr, x, hwrites, hne, rfl⟩
    exact ⟨r, hr, x, hwrites, hne, rfl, (forall₂_names_iff h _ _).2 rfl⟩
  · rintro ⟨r, hr, x, hwrites, hne, hname, hargs⟩
    refine ⟨r, hr, x, hwrites, hne, ?_⟩
    rw [hname, ← (forall₂_names_iff h _ _).1 hargs]

end Scope

namespace Grammar

variable {g : Grammar}

/-- **The reachable instances**: the least set that has the instances that are written in plain rules,
and with an instance those that are written in the body of its template, its arguments being named for
the parameters. -/
inductive Reachable (g : Grammar) : Instance → Prop where
  | plain {r : Rule} {i : Instance} (rule : r ∈ g.rules) (written : r.expr.Instantiates [] i) :
      Reachable g i
  | body {i j : Instance} {t : Template} (of : Reachable g i) (template : t ∈ g.templates)
      (named : t.name.name = i.template) (written : t.expr.Instantiates (scopeOf t i) j) :
      Reachable g j

/-- The parameters of a template of a checked grammar differ. -/
theorem distinct_scopeOf (hg : g.Checked) {t : Template} (ht : t ∈ g.templates) (i : Instance) :
    (scopeOf t i).Distinct := by
  have hkeys : ∀ (params args : List String), ((params.zip args).map (·.1)).Sublist params := by
    intro params
    induction params with
    | nil => exact fun _ => List.Sublist.refl _
    | cons p params ih =>
      intro args
      cases args with
      | nil => exact List.nil_sublist _
      | cons a args => exact (ih args).cons_cons p
  exact (nodup_paramNames_of_check hg.clean ht).sublist (hkeys _ _)

/-- **The reachable instances are those that a checked grammar asks for.** -/
theorem reachable_iff_asks (hg : g.Checked) (i : Instance) : g.Reachable i ↔ g.Asks i := by
  constructor
  · intro h
    induction h with
    | plain rule written => exact .plain rule ((Scope.mem_instances_iff .nil _).2 written)
    | @body i j t of template named written ih =>
      refine .body ih (named ▸ lastTemplate?_of_mem hg.nodup template) ?_
      exact (Scope.mem_instances_iff (distinct_scopeOf hg template i) _).2 written
  · intro h
    induction h with
    | plain hr hi => exact .plain hr ((Scope.mem_instances_iff .nil _).1 hi)
    | @body i j t _ ht hj ih =>
      obtain ⟨hmem, hname⟩ := mem_of_lastTemplate? ht
      exact .body ih hmem hname ((Scope.mem_instances_iff (distinct_scopeOf hg hmem i) _).1 hj)

end Grammar

/-! ## Bodies -/

/-- **One expression is another one with its references replaced.** -/
inductive Expr.Replaces (R : Reference → Reference → Prop) : Expr → Expr → Prop where
  | same {e : Expr} (bare : e.refs = []) : Replaces R e e
  | ref {r r' : Reference} (by_ : R r r') : Replaces R (.ref r) (.ref r')
  | seq {span : Span} {es es' : List Expr} (each : List.Forall₂ (Replaces R) es es') :
      Replaces R (.seq span es) (.seq span es')
  | choice {span : Span} {es es' : List Expr} (each : List.Forall₂ (Replaces R) es es') :
      Replaces R (.choice span es) (.choice span es')
  | star {span : Span} {e e' : Expr} (of : Replaces R e e') : Replaces R (.star span e) (.star span e')
  | plus {span : Span} {e e' : Expr} (of : Replaces R e e') : Replaces R (.plus span e) (.plus span e')
  | opt {span : Span} {e e' : Expr} (of : Replaces R e e') : Replaces R (.opt span e) (.opt span e')
  | lookahead {span : Span} {polarity : Polarity} {e e' : Expr} (of : Replaces R e e') :
      Replaces R (.lookahead span polarity e) (.lookahead span polarity e')
  | label {span : Span} {name : Ident} {e e' : Expr} (of : Replaces R e e') :
      Replaces R (.label span name e) (.label span name e')
  | action {span : Span} {hint : String} {code : Code} {e e' : Expr} (of : Replaces R e e') :
      Replaces R (.action span hint code e) (.action span hint code e')
  | group {span : Span} {e e' : Expr} (of : Replaces R e e') :
      Replaces R (.group span e) (.group span e')

namespace Scope

variable {scope : Scope}

/-- A plain reference in the place of another one, to the rule that this one stands for. -/
structure Stands (scope : Scope) (r r' : Reference) : Prop where
  plain : r'.args = []
  span : r'.span = r.span
  nameSpan : r'.name.span = r.name.span
  names : scope.Names r r'.name.name

mutual

/-- **Linking an expression replaces each reference by one to the rule that it stands for.** -/
theorem replaces_link (h : scope.Distinct) (e : Expr) : e.Replaces scope.Stands (scope.link e) := by
  cases e with
  | literal | charClass | anyChar | codePredicate | bareAction => exact .same rfl
  | ref r => exact .ref ⟨rfl, rfl, rfl, (names_iff h r _).2 rfl⟩
  | seq span es => exact .seq (replaces_linkAll h es)
  | choice span es => exact .choice (replaces_linkAll h es)
  | star span body => exact .star (replaces_link h body)
  | plus span body => exact .plus (replaces_link h body)
  | opt span body => exact .opt (replaces_link h body)
  | lookahead span polarity body => exact .lookahead (replaces_link h body)
  | label span name body => exact .label (replaces_link h body)
  | action span hint code body => exact .action (replaces_link h body)
  | group span body => exact .group (replaces_link h body)

theorem replaces_linkAll (h : scope.Distinct) (es : List Expr) :
    List.Forall₂ (Expr.Replaces scope.Stands) es (scope.linkAll es) := by
  cases es with
  | nil => exact .nil
  | cons e rest => exact .cons (replaces_link h e) (replaces_linkAll h rest)

end

end Scope

end Packrat

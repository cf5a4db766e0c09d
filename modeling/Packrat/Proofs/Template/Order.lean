import Packrat.Proofs.Template.Expansion
import Packrat.Proofs.Template.Instantiations

/-!
# The order in which templates are instantiated

References are gone through from left to right, and their arguments before them; an instance that is
new is added at once, and then the references in its body are gone through before what is left.

* `Task`, `Grammar.Adds` — this way through a grammar, step by step, with what is left to do.
* `Grammar.adds_of_collect`, `Grammar.Adds.unique` — expansion goes this way, and there is no other.
* `Along`, `Grammar.Due` — what holds of each instance and those before it: its arguments name rules or
  instances that are there, and it is written in a rule or in the body of an instance that is there.
* `Grammar.collect_due` — whatever is added is due.
* `Grammar.Instantiated` — the expansion with all reachable instances in this order.
* `Grammar.expands_reachable` — a checked grammar with finitely many of them expands to it.
-/

set_option autoImplicit false

namespace Packrat

/-! ## Step by step -/

/-- What is left to do. -/
inductive Task where
  /-- Go through a reference, with names for the parameters. -/
  | visit (scope : Scope) (r : Reference)
  /-- Have an instance. -/
  | need (i : Instance)

namespace Grammar

open GrammarText

variable {g : Grammar} {depth : Nat} {seen is final : List Instance} {todo : List Task}

/-- **From the instances that there are to those that there will be** when nothing is left to do. -/
inductive Adds (g : Grammar) : (todo : List Task) → (seen is : List Instance) → Prop where
  | done {seen : List Instance} : Adds g [] seen seen
  | plain {scope : Scope} {r : Reference} {todo : List Task} {seen is : List Instance}
      (bare : r.args = []) (rest : Adds g todo seen is) : Adds g (.visit scope r :: todo) seen is
  /-- The arguments first, and then the instance that takes them. -/
  | applied {scope : Scope} {r : Reference} {names : List String} {todo : List Task}
      {seen is : List Instance} (applied : r.args ≠ [])
      (each : List.Forall₂ scope.Names r.args names)
      (rest : Adds g (r.args.map (.visit scope) ++ .need ⟨r.name.name, names⟩ :: todo) seen is) :
      Adds g (.visit scope r :: todo) seen is
  | again {i : Instance} {todo : List Task} {seen is : List Instance} (old : i ∈ seen)
      (rest : Adds g todo seen is) : Adds g (.need i :: todo) seen is
  /-- The instance first, and then those in its body. -/
  | first {i : Instance} {t : Template} {todo : List Task} {seen is : List Instance}
      (new : i ∉ seen) (template : t ∈ g.templates) (named : t.name.name = i.template)
      (rest : Adds g (t.expr.refs.map (.visit (scopeOf t i)) ++ todo) (seen ++ [i]) is) :
      Adds g (.need i :: todo) seen is

/-- What there is to do in the beginning: to go through the plain rules. -/
def tasks (g : Grammar) : List Task := (g.rules.flatMap fun r => r.expr.refs).map (.visit [])

theorem foldlM_append_ok {f : List Instance → Instance → Except Fault (List Instance)}
    {l l' : List Instance} : (l ++ l').foldlM f seen = .ok is ↔
      ∃ mid, l.foldlM f seen = .ok mid ∧ l'.foldlM f mid = .ok is := by
  induction l generalizing seen with
  | nil =>
    constructor
    · exact fun h => ⟨seen, rfl, h⟩
    · rintro ⟨mid, h, hrest⟩
      cases h
      exact hrest
  | cons i l ih =>
    rw [List.cons_append, foldlM_cons_ok]
    simp only [foldlM_cons_ok, ih]
    constructor
    · rintro ⟨next, hi, mid, hl, hrest⟩
      exact ⟨mid, ⟨next, hi, hl⟩, hrest⟩
    · rintro ⟨mid, ⟨next, hi, hl⟩, hrest⟩
      exact ⟨next, hi, mid, hl, hrest⟩

section

variable {scope : Scope} {f : List Instance → Instance → Except Fault (List Instance)}

/-- An addition takes the step of having the instance. -/
def TakesStep (g : Grammar) (f : List Instance → Instance → Except Fault (List Instance)) : Prop :=
  ∀ seen i is todo final, f seen i = .ok is → g.Adds todo is final → g.Adds (.need i :: todo) seen final

mutual

/-- To add the instances of a reference is to go through it. -/
theorem adds_refInstances (hscope : scope.Distinct) (hf : g.TakesStep f) (r : Reference)
    (seen is final : List Instance) (todo : List Task)
    (h : (scope.refInstances r).foldlM f seen = .ok is) (hrest : g.Adds todo is final) :
    g.Adds (.visit scope r :: todo) seen final := by
  obtain ⟨span, name, args⟩ := r
  cases args with
  | nil =>
    cases h
    exact .plain rfl hrest
  | cons first rest =>
    obtain ⟨mid, hargs, hlast⟩ := foldlM_append_ok.1
      (show (scope.argInstances (first :: rest) ++ [_]).foldlM f seen = .ok is from h)
    obtain ⟨next, hi, hnext⟩ := foldlM_cons_ok.1 hlast
    cases hnext
    refine .applied (List.cons_ne_nil first rest) ((Scope.forall₂_names_iff hscope _ _).2 rfl) ?_
    exact adds_argInstances hscope hf (first :: rest) seen mid final _ hargs
      (hf mid _ is todo final hi hrest)

theorem adds_argInstances (hscope : scope.Distinct) (hf : g.TakesStep f) (rs : List Reference)
    (seen is final : List Instance) (todo : List Task)
    (h : (scope.argInstances rs).foldlM f seen = .ok is) (hrest : g.Adds todo is final) :
    g.Adds (rs.map (.visit scope) ++ todo) seen final := by
  cases rs with
  | nil =>
    cases h
    exact hrest
  | cons r rest =>
    obtain ⟨mid, hr, hmid⟩ := foldlM_append_ok.1 h
    exact adds_refInstances hscope hf r seen mid final _ hr
      (adds_argInstances hscope hf rest mid is final todo hmid hrest)

end

end

theorem flatMap_instances (g : Grammar) : (g.rules.flatMap fun r => Scope.instances [] r.expr) =
    Scope.argInstances [] (g.rules.flatMap fun r => r.expr.refs) := by
  rw [Scope.argInstances_eq, List.flatMap_assoc]
  simp only [Scope.instances_eq]

/-- **Collecting an instance goes through its body as it should.** -/
theorem adds_of_collect (hg : g.Checked) (depth : Nat) : g.TakesStep (g.collect depth) := by
  induction depth with
  | zero =>
    intro seen i is todo final h
    cases h
  | succ depth ih =>
    intro seen i is todo final h hrest
    obtain ⟨hold, rfl⟩ | ⟨hnew, d, t, hd, ht, hbody⟩ := collect_cases h
    · exact .again hold hrest
    · cases hd
      obtain ⟨hmem, hname⟩ := mem_of_lastTemplate? ht
      rw [Scope.instances_eq_argInstances] at hbody
      exact .first hnew hmem hname
        (adds_argInstances (distinct_scopeOf hg hmem i) ih _ _ is final todo hbody hrest)

theorem adds_of_allInstances (hg : g.Checked) (h : g.allInstances depth = .ok is) :
    g.Adds g.tasks [] is := by
  unfold allInstances at h
  rw [flatMap_instances] at h
  have hadds := adds_argInstances .nil (adds_of_collect hg depth) _ [] is is [] h .done
  rwa [List.append_nil] at hadds

/-- **There is one way to go**, if no parameter comes twice in what is left to do. -/
theorem Adds.unique (hg : g.Checked) (h : g.Adds todo seen is) :
    ∀ {other : List Instance}, (∀ scope r, .visit scope r ∈ todo → scope.Distinct) →
      g.Adds todo seen other → is = other := by
  induction h with
  | done =>
    intro other _ h'
    cases h'
    rfl
  | plain bare _ ih =>
    intro other htodo h'
    cases h' with
    | plain _ rest => exact ih (fun scope r hr => htodo scope r (List.mem_cons_of_mem _ hr)) rest
    | applied applied _ _ => exact absurd bare applied
  | @applied scope r names todo seen is applied each _ ih =>
    intro other htodo h'
    have hscope := htodo scope r (List.mem_cons_self ..)
    cases h' with
    | plain bare _ => exact absurd bare applied
    | @applied _ _ names' _ _ _ _ each' rest =>
      obtain rfl := ((Scope.forall₂_names_iff hscope _ _).1 each).trans
        ((Scope.forall₂_names_iff hscope _ _).1 each').symm
      refine ih (fun scope' r' hr' => ?_) rest
      rcases List.mem_append.1 hr' with hr' | hr'
      · obtain ⟨a, -, ha⟩ := List.mem_map.1 hr'
        cases ha
        exact hscope
      · rcases List.mem_cons.1 hr' with hr' | hr'
        · cases hr'
        · exact htodo scope' r' (List.mem_cons_of_mem _ hr')
  | again old _ ih =>
    intro other htodo h'
    cases h' with
    | again _ rest => exact ih (fun scope r hr => htodo scope r (List.mem_cons_of_mem _ hr)) rest
    | first new _ _ _ => exact absurd old new
  | @first i t todo seen is new template named _ ih =>
    intro other htodo h'
    cases h' with
    | again old _ => exact absurd old new
    | @first _ t' _ _ _ _ template' named' rest =>
      obtain rfl := template_unique hg.nodup template template' (named'.trans named.symm)
      refine ih (fun scope r hr => ?_) rest
      rcases List.mem_append.1 hr with hr | hr
      · obtain ⟨a, -, ha⟩ := List.mem_map.1 hr
        cases ha
        exact distinct_scopeOf hg template i
      · exact htodo scope r (List.mem_cons_of_mem _ hr)

/-- What is collected is what comes of going through the plain rules, and nothing else does. -/
theorem adds_tasks_iff (hg : g.Checked) {depth : Nat} (h : g.allInstances depth = .ok is)
    (other : List Instance) : g.Adds g.tasks [] other ↔ other = is := by
  refine ⟨fun hadds => hadds.unique hg ?_ (adds_of_allInstances hg h),
    fun hsame => hsame ▸ adds_of_allInstances hg h⟩
  intro scope r hr
  obtain ⟨a, -, ha⟩ := List.mem_map.1 hr
  cases ha
  exact .nil

end Grammar

/-! ## What is there before -/

/-- Each element of a list is in a relation with those before it, some others coming before all. -/
def Along {α : Type} (P : List α → α → Prop) : List α → List α → Prop
  | _, [] => True
  | before, a :: rest => P before a ∧ Along P (before ++ [a]) rest

namespace Along

variable {α : Type} {P Q : List α → α → Prop} {before before' l l' : List α}

theorem append_iff : Along P before (l ++ l') ↔ Along P before l ∧ Along P (before ++ l) l' := by
  induction l generalizing before with
  | nil => simp [Along]
  | cons a l ih => rw [List.cons_append, Along, Along, ih, and_assoc, List.append_assoc, List.singleton_append]

theorem imp (h : Along P before l)
    (himp : ∀ later, before ⊆ later → ∀ a ∈ l, P later a → Q later a) : Along Q before l := by
  induction l generalizing before with
  | nil => trivial
  | cons a l ih =>
    refine ⟨himp before (List.Subset.refl _) a (List.mem_cons_self ..) h.1, ih h.2 ?_⟩
    intro later hlater b hb
    exact himp later (fun x hx => hlater (List.mem_append_left _ hx)) b (List.mem_cons_of_mem _ hb)

/-- With more before it, if the relation allows for more. -/
theorem mono (hP : ∀ {before before' a}, before ⊆ before' → P before a → P before' a)
    (h : Along P before l) (hsub : before ⊆ before') : Along P before' l := by
  induction l generalizing before before' with
  | nil => trivial
  | cons a l ih =>
    refine ⟨hP hsub h.1, ih h.2 ?_⟩
    exact List.append_subset.2 ⟨fun x hx => List.mem_append_left _ (hsub hx),
      fun x hx => List.mem_append_right _ hx⟩

theorem of_split {a : α} {after : List α} (h : Along P [] l) (hsplit : l = before ++ a :: after) :
    P before a := by
  rw [hsplit, append_iff, List.nil_append] at h
  exact h.2.1

end Along

namespace Grammar

open GrammarText

variable {g : Grammar} {depth : Nat} {seen is before before' : List Instance} {i : Instance}

/-- The name of a plain rule, or of one of several instances. -/
def Named (g : Grammar) (before : List Instance) (name : String) : Prop :=
  name ∈ g.ruleNames ∨ ∃ j ∈ before, j.name = name

theorem Named.mono {name : String} (hsub : before ⊆ before') (h : g.Named before name) :
    g.Named before' name := h.imp_right fun ⟨j, hj, hname⟩ => ⟨j, hsub hj, hname⟩

/-- **An instance is due after others**: its arguments name plain rules or some of these, and it is
written in a plain rule or in the body of one of these. -/
structure Due (g : Grammar) (before : List Instance) (i : Instance) : Prop where
  args : ∀ a ∈ i.args, g.Named before a
  written : (∃ r ∈ g.rules, r.expr.Instantiates [] i) ∨ ∃ k ∈ before, ∃ t ∈ g.templates,
    t.name.name = k.template ∧ t.expr.Instantiates (scopeOf t k) i

theorem Due.mono (hsub : before ⊆ before') (h : g.Due before i) : g.Due before' i :=
  ⟨fun a ha => (h.args a ha).mono hsub,
    h.written.imp_right fun ⟨k, hk, ht⟩ => ⟨k, hsub hk, ht⟩⟩

section

variable {env : Environment}

mutual

/-- When a reference that stands for a target has been gone through, its name is there, and the
arguments of each of its instances were there before. -/
theorem named_of_reached (hdistinct : (env.map (·.1)).Nodup) (r : Reference) (seen : List Instance)
    (henv : ∀ p ∈ env, g.Named seen p.2.name) (h : g.Reached (env.resolve r)) :
    g.Named (seen ++ env.scope.refInstances r) (env.scope.resolve r) ∧
      Along (fun before i => ∀ a ∈ i.args, g.Named before a) seen (env.scope.refInstances r) := by
  obtain ⟨span, name, args⟩ := r
  cases args with
  | nil =>
    refine ⟨?_, trivial⟩
    rw [Environment.scope_resolve hdistinct]
    show g.Named (seen ++ []) _
    rw [List.append_nil]
    change g.Reached ((env.lookup name.name).getD (.rule name.name)) at h
    show g.Named seen ((env.lookup name.name).getD (.rule name.name)).name
    cases hlookup : env.lookup name.name with
    | none =>
      rw [hlookup] at h
      cases h with
      | rule hname => exact .inl hname
    | some target =>
      obtain ⟨l, l', hsplit, -⟩ := List.lookup_eq_some_iff.1 hlookup
      exact henv (name.name, target) (hsplit ▸ List.mem_append_right _ (List.mem_cons_self ..))
  | cons first rest =>
    obtain ⟨-, -, -, -, hargs, -⟩ := Reached.applied_cases
      (show g.Reached (.applied name.name (env.resolveAll (first :: rest))) from h)
    obtain ⟨hnames, halong⟩ := named_of_reachedAll hdistinct (first :: rest) seen henv hargs
    exact ⟨.inr ⟨_, List.mem_append_right _ (List.mem_append_right _ (List.mem_singleton_self _)), rfl⟩,
      Along.append_iff.2 ⟨halong, hnames, trivial⟩⟩

theorem named_of_reachedAll (hdistinct : (env.map (·.1)).Nodup) (rs : List Reference)
    (seen : List Instance) (henv : ∀ p ∈ env, g.Named seen p.2.name)
    (h : ∀ target ∈ env.resolveAll rs, g.Reached target) :
    (∀ a ∈ env.scope.resolveAll rs, g.Named (seen ++ env.scope.argInstances rs) a) ∧
      Along (fun before i => ∀ a ∈ i.args, g.Named before a) seen (env.scope.argInstances rs) := by
  cases rs with
  | nil => exact ⟨fun a ha => absurd ha List.not_mem_nil, trivial⟩
  | cons r rest =>
    obtain ⟨hr, hrest⟩ := List.forall_mem_cons.1 h
    obtain ⟨hname, halong⟩ := named_of_reached hdistinct r seen henv hr
    obtain ⟨hnames, halongs⟩ := named_of_reachedAll hdistinct rest (seen ++ env.scope.refInstances r)
      (fun p hp => (henv p hp).mono (List.subset_append_left ..)) hrest
    rw [Scope.argInstances, Scope.resolveAll, ← List.append_assoc]
    refine ⟨List.forall_mem_cons.2 ⟨hname.mono (List.subset_append_left ..), hnames⟩, ?_⟩
    exact Along.append_iff.2 ⟨halong, halongs⟩

end

end

/-- Several instances that are due one after the other, once it is known of each. -/
theorem foldlM_due {f : List Instance → Instance → Except Fault (List Instance)}
    (hf : ∀ seen i is, g.Asks i → Along g.Due [] seen → g.Due seen i → f seen i = .ok is →
      Along g.Due [] is ∧ seen ⊆ is ∧ i ∈ is) (l : List Instance) :
    ∀ {seen is : List Instance}, (∀ i ∈ l, g.Asks i) → Along g.Due [] seen → Along g.Due seen l →
      l.foldlM f seen = .ok is → Along g.Due [] is := by
  induction l with
  | nil =>
    intro seen is _ hseen _ h
    cases h
    exact hseen
  | cons i l ih =>
    intro seen is hasks hseen hl h
    obtain ⟨next, hi, hnext⟩ := foldlM_cons_ok.1 h
    rw [List.forall_mem_cons] at hasks
    obtain ⟨hdue, hkept, hmem⟩ := hf seen i next hasks.1 hseen hl.1 hi
    refine ih hasks.2 hdue (hl.2.mono Due.mono ?_) hnext
    exact List.append_subset.2 ⟨hkept, fun x hx => List.mem_singleton.1 hx ▸ hmem⟩

section

variable (hg : g.Checked)

include hg

/-- The instances in a body are due one after the other, once that of the body is there. -/
theorem along_due_body {t : Template} (hi : g.Asks i) (ht : t ∈ g.templates)
    (hname : t.name.name = i.template) (hseen : i ∈ seen) (hargs : ∀ a ∈ i.args, g.Named seen a) :
    Along g.Due seen ((scopeOf t i).instances t.expr) := by
  obtain ⟨args, hreached, hnames⟩ := exists_reached_of_asks hg hi
  have hscope : (t.environment args).scope = scopeOf t i := t.scope_environment hnames
  have hdistinct : ((t.environment args).map (·.1)).Nodup := by
    have hkeys : (t.environment args).scope.Distinct := hscope ▸ distinct_scopeOf hg ht i
    rwa [Scope.Distinct, Environment.scope, List.map_map] at hkeys
  have henv : ∀ p ∈ t.environment args, g.Named seen p.2.name := by
    intro p hp
    refine hargs _ ?_
    rw [hnames, Target.names_eq]
    exact List.mem_map_of_mem (List.of_mem_zip hp).2
  have htargets : ∀ target ∈ (t.environment args).resolveAll t.expr.refs, g.Reached target := by
    rw [Environment.resolveAll_eq, List.forall_mem_map]
    exact fun r hr => (linked_of_mem_template hg ht (hname ▸ hreached) r hr).reached
  obtain ⟨-, halong⟩ := named_of_reachedAll hdistinct t.expr.refs seen henv htargets
  rw [hscope, ← Scope.instances_eq_argInstances] at halong
  refine halong.imp fun later hlater j hj hargs => ⟨hargs, .inr ⟨i, hlater hseen, t, ht, hname, ?_⟩⟩
  exact (Scope.mem_instances_iff (distinct_scopeOf hg ht i) _).1 hj

/-- Those in the plain rules are due one after the other from the beginning. -/
theorem along_due_rules : Along g.Due [] (g.rules.flatMap fun r => Scope.instances [] r.expr) := by
  have hreached : ∀ target ∈ Environment.resolveAll [] (g.rules.flatMap fun r => r.expr.refs),
      g.Reached target := by
    rw [Environment.resolveAll_eq, List.forall_mem_map]
    intro reference href
    obtain ⟨r, hr, href⟩ := List.mem_flatMap.1 href
    exact (linked_of_mem_rule hg hr reference href).reached
  have hnone : ∀ p ∈ ([] : Environment), g.Named [] p.2.name := fun p hp => absurd hp List.not_mem_nil
  have hdistinct : (([] : Environment).map (·.1)).Nodup := List.nodup_nil
  obtain ⟨-, halong⟩ := named_of_reachedAll hdistinct _ [] hnone hreached
  have hscope : Environment.scope [] = [] := rfl
  rw [hscope, ← flatMap_instances] at halong
  refine halong.imp fun later _ i hi hargs => ⟨hargs, .inl ?_⟩
  obtain ⟨r, hr, hi⟩ := List.mem_flatMap.1 hi
  exact ⟨r, hr, (Scope.mem_instances_iff .nil _).1 hi⟩

/-- **Whatever is added is due after what is there before it.** -/
theorem collect_due (depth : Nat) : ∀ (seen : List Instance) (i : Instance) (is : List Instance),
    g.Asks i → Along g.Due [] seen → g.Due seen i → g.collect depth seen i = .ok is →
      Along g.Due [] is ∧ seen ⊆ is ∧ i ∈ is := by
  induction depth with
  | zero => intro seen i is _ _ _ h; cases h
  | succ depth ih =>
    intro seen i is hi hseen hdue h
    obtain ⟨hcollected, hmem⟩ := collect_collected (depth + 1) seen i is hi h
    refine ⟨?_, hcollected.kept, hmem⟩
    obtain ⟨-, rfl⟩ | ⟨-, d, t, hd, ht, hbody⟩ := collect_cases h
    · exact hseen
    · cases hd
      obtain ⟨htemplate, hname⟩ := mem_of_lastTemplate? ht
      have hadded : Along g.Due [] (seen ++ [i]) := Along.append_iff.2 ⟨hseen, hdue, trivial⟩
      refine foldlM_due ih _ (fun j hj => .body hi ht hj) hadded ?_ hbody
      exact along_due_body hg hi htemplate hname (List.mem_append_right _ (List.mem_singleton_self i))
        fun a ha => (hdue.args a ha).mono (List.subset_append_left ..)

theorem allInstances_due (h : g.allInstances depth = .ok is) : Along g.Due [] is :=
  have hnone : Along g.Due [] [] := trivial
  foldlM_due (collect_due hg depth) _ (fun _ hi => asks_of_mem_flatMap hi) hnone
    (along_due_rules hg) h

end

/-! ## The expansion -/

/-- A plain rule in the expansion. -/
structure Keeps (r r' : Rule) : Prop where
  span : r'.span = r.span
  name : r'.name = r.name
  body : r.expr.Replaces (Scope.Stands []) r'.expr

/-- The rule of an instance: the body of its template, with the arguments for the parameters and with a
reference to its rule for each instantiation. -/
structure Specializes (g : Grammar) (i : Instance) (r : Rule) (t : Template) : Prop where
  template : t ∈ g.templates
  named : t.name.name = i.template
  arity : t.params.length = i.args.length
  span : r.span = t.span
  name : r.name = ⟨instanceName i.template i.args, t.name.span⟩
  body : t.expr.Replaces (scopeOf t i).Stands r.expr

/-- **The expansion with all reachable instances**, each once, in the order in which they are first
instantiated: the plain rules, and then the rules of the instances. -/
structure Instantiated (g : Grammar) (is : List Instance) (expanded : Grammar) : Prop where
  reachable : ∀ i, i ∈ is ↔ g.Reachable i
  once : is.Nodup
  order : ∀ other, g.Adds g.tasks [] other ↔ other = is
  due : ∀ before i after, is = before ++ i :: after → g.Due before i
  preamble : expanded.preamble = g.preamble
  templates : expanded.templates = []
  names : expanded.ruleNames.Nodup
  rules : ∃ plain specialized, expanded.rules = plain ++ specialized ∧
    List.Forall₂ Keeps g.rules plain ∧
    List.Forall₂ (fun i r => ∃ t, g.Specializes i r t) is specialized

theorem keeps_plainRules (rules : List Rule) : List.Forall₂ Keeps rules (rules.map plainRule) := by
  rw [List.forall₂_map_right_iff, List.forall₂_same]
  exact fun r _ => ⟨rfl, rfl, Scope.replaces_link .nil r.expr⟩

theorem specializes_instanceRules (hg : g.Checked) (his : ∀ i ∈ is, g.Asks i) :
    List.Forall₂ (fun i r => ∃ t, g.Specializes i r t) is (g.instanceRules is) := by
  induction is with
  | nil => exact .nil
  | cons i is ih =>
    obtain ⟨hi, hrest⟩ := List.forall_mem_cons.1 his
    obtain ⟨args, hreached, hargs⟩ := exists_reached_of_asks hg hi
    obtain ⟨t, ht, hname, hlen, -⟩ := hreached.applied_cases
    have hlast : g.lastTemplate? i.template = some t := hname ▸ lastTemplate?_of_mem hg.nodup ht
    rw [instanceRules, List.filterMap_cons, hlast, Option.map_some]
    refine .cons ⟨t, ht, hname, ?_, rfl, rfl, ?_⟩ (ih hrest)
    · rw [hlen, hargs, Target.names_eq, List.length_map]
    · exact Scope.replaces_link (distinct_scopeOf hg ht i) t.expr

theorem Complete.instantiated (h : g.Complete is) (his : g.allInstances depth = .ok is) :
    g.Instantiated is (g.withInstances is) where
  reachable i := (h.mem_iff i).trans (reachable_iff_asks h.checked i).symm
  once := h.nodup
  order := adds_tasks_iff h.checked his
  due _ _ _ hsplit := (allInstances_due h.checked his).of_split hsplit
  preamble := rfl
  templates := templates_withInstances g is
  names := h.nodup_ruleNames
  rules := ⟨_, _, rules_withInstances g is, keeps_plainRules g.rules,
    specializes_instanceRules h.checked fun i hi => (h.mem_iff i).1 hi⟩

/-- **Expansion instantiates what can be reached, once, and ends.**  For a grammar that is read and that
the checks pass, with finitely many reachable instances, a depth above their number is enough, and with
less there is the same expansion or none: the plain rules with their references replaced, and after
them, in the order of first instantiation, one rule for each reachable instance. -/
theorem expands_reachable {cs : List Char} (hread : readGrammar cs = .ok g) (hcheck : check g = [])
    (hfinite : {i | g.Reachable i}.Finite) : ∃ is expanded, g.Instantiated is expanded ∧
      (∀ depth, is.length < depth → g.expandWithin depth = .ok (expanded, is.length)) ∧
      ∀ depth, g.expandWithin depth = .ok (expanded, is.length) ∨
        g.expandWithin depth = .error .exhausted := by
  have hg : g.Checked := .of_read hread hcheck
  have hasks : {i | g.Asks i} = {i | g.Reachable i} :=
    Set.ext fun i => (reachable_iff_asks hg i).symm
  have hfinite' : {i | g.Asks i}.Finite := hasks ▸ hfinite
  obtain ⟨is, his⟩ := exists_allInstances (fun i hi => exists_template_of_asks hg hi) hfinite'
  have hcomplete : g.Complete is := .of_allInstances hg (his _ (Nat.lt_succ_self _))
  have hcard : hfinite'.toFinset.card = is.length := by
    have hsame : hfinite'.toFinset = is.toFinset := by
      ext i
      rw [Set.Finite.mem_toFinset, List.mem_toFinset]
      exact (hcomplete.mem_iff i).symm
    rw [hsame, List.toFinset_card_of_nodup hcomplete.nodup]
  have henough : ∀ depth, is.length < depth →
      g.expandWithin depth = .ok (g.withInstances is, is.length) := fun depth hdepth =>
    expandWithin_ok.2 ⟨is, his depth (hcard ▸ hdepth), rfl, rfl⟩
  refine ⟨is, _, hcomplete.instantiated (his _ (Nat.lt_succ_self _)), henough, fun depth => ?_⟩
  obtain ⟨is', -, ⟨bound, hbound⟩, honly⟩ := exists_expands hg hfinite'
  -- where both depths are enough there is one expansion
  have hsame := (hbound (max bound (is.length + 1)) (Nat.le_max_left ..)).symm.trans
    (henough _ (Nat.lt_of_succ_le (Nat.le_max_right ..)))
  have hdepth := honly depth
  rwa [Except.ok.inj hsame] at hdepth

/-- An argument that is an instance itself, and a body with an instance of it. -/
theorem expands_reachable_pair : ∃ g is expanded, readGrammar
    ("S <- Pair<Item, List<Item>> Item\nItem <- 'a'\n" ++
      "List<X> <- X List<X> / X\nPair<Item, B> <- List<B> Item").toList = .ok g ∧
      check g = [] ∧ {i | g.Reachable i}.Finite ∧ g.Instantiated is expanded ∧
      (∀ depth, is.length < depth → g.expandWithin depth = .ok (expanded, is.length)) ∧
      is.map Instance.name = ["List<Item>", "Pair<Item, List<Item>>", "List<List<Item>>"] := by
  obtain ⟨g, hread, hcheck, hfinite, htest⟩ := exists_checked_of_readsAs (show readsAs
    ("S <- Pair<Item, List<Item>> Item\nItem <- 'a'\n" ++
      "List<X> <- X List<X> / X\nPair<Item, B> <- List<B> Item").toList
      (fun g => (check g).isEmpty && (g.allInstances 5).isOk &&
        (g.allInstances 5).toOption.map (·.map Instance.name) ==
          some ["List<Item>", "Pair<Item, List<Item>>", "List<List<Item>>"]) = true by decide +kernel)
  have hg : g.Checked := .of_read hread hcheck
  have hfinite' : {i | g.Reachable i}.Finite := by
    have hasks : {i | g.Reachable i} = {i | g.Asks i} := Set.ext fun i => reachable_iff_asks hg i
    exact hasks ▸ hfinite
  obtain ⟨is, expanded, hinstantiated, henough, -⟩ := expands_reachable hread hcheck hfinite'
  refine ⟨g, is, expanded, hread, hcheck, hfinite', hinstantiated, henough, ?_⟩
  cases hall : g.allInstances 5 with
  | error e =>
    rw [hall] at htest
    cases htest
  | ok found =>
    rw [hall] at htest
    rw [← (hinstantiated.order found).1 (adds_of_allInstances hg hall)]
    exact Option.some.inj (eq_of_beq htest)

end Grammar

end Packrat

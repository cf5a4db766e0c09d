import Packrat.Proofs.Template.Collecting

/-!
# Expansion in one pass

`Grammar.expandWithin` collects the instances and then makes a rule of each.  One pass can do both: an
instance gets the next slot when it is first asked for, its body is built at once, which may ask for
further instances, and then the rule is put into the slot.

* `Slots` — the slot of each instance, and the rules in the slots, empty where a body is being built.
* `Building.expandExpr`, `Building.instantiate` — an expression with each reference replaced, and the
  name of an instance, after the instances that are asked for have been built.
* `Slots.Sound` — the instances with slots differ and have templates; some wait for their bodies.
* `Building.AsksFor` — a computation gives slots to the instances that collecting adds, in this order.
* `Building.instantiate_asksFor` — an instance is built as it is collected.
* `Grammar.expandInPlace_eq` — **one pass gives the same grammar**, and it fails where collecting does.
-/

set_option autoImplicit false

namespace Packrat

/-- What has been built so far. -/
structure Slots where
  numbers : List (Instance × Nat)
  rules : Array (Option Rule)

namespace Slots

/-- No instance has a slot. -/
def empty : Slots := ⟨[], #[]⟩

/-- An instance has a slot. -/
def has (s : Slots) (i : Instance) : Bool := s.numbers.any (·.1 == i)

/-- The next slot, which is empty, is that of an instance. -/
def reserve (s : Slots) (i : Instance) : Slots :=
  ⟨s.numbers ++ [(i, s.rules.size)], s.rules.push none⟩

/-- A rule is put into a slot. -/
def fill (s : Slots) (slot : Nat) (r : Rule) : Slots :=
  { s with rules := s.rules.setIfInBounds slot (some r) }

end Slots

/-- Computations that build rules. -/
abbrev Building := StateT Slots (Except Fault)

namespace Building

section

variable (instantiate : Instance → Building String) (scope : Scope)

mutual

/-- The name of the rule that a reference stands for; its arguments are resolved first. -/
def resolve : Reference → Building String
  | .mk _ name args =>
    if args.isEmpty then return (scope.get? name.name).getD name.name
    else do
      let names ← resolveAll args
      instantiate ⟨name.name, names⟩

/-- The names of the rules that several references stand for. -/
def resolveAll : List Reference → Building (List String)
  | [] => return []
  | r :: rest => do
    let name ← resolve r
    let names ← resolveAll rest
    return name :: names

end

mutual

/-- The expression with each reference replaced by one to the rule that it stands for. -/
def expandExpr : Expr → Building Expr
  | .literal span text => return .literal span text
  | .charClass span k => return .charClass span k
  | .anyChar span => return .anyChar span
  | .ref reference => do
    let name ← resolve instantiate scope reference
    return .ref (.mk reference.span ⟨name, reference.name.span⟩ [])
  | .seq span elements => return .seq span (← expandAll elements)
  | .choice span branches => return .choice span (← expandAll branches)
  | .star span body => return .star span (← expandExpr body)
  | .plus span body => return .plus span (← expandExpr body)
  | .opt span body => return .opt span (← expandExpr body)
  | .lookahead span polarity body => return .lookahead span polarity (← expandExpr body)
  | .codePredicate span polarity code => return .codePredicate span polarity code
  | .label span name body => return .label span name (← expandExpr body)
  | .action span hint code body => return .action span hint code (← expandExpr body)
  | .bareAction span hint code => return .bareAction span hint code
  | .group span body => return .group span (← expandExpr body)

/-- Several expressions, each with its references replaced. -/
def expandAll : List Expr → Building (List Expr)
  | [] => return []
  | e :: rest => do
    let e ← expandExpr e
    let rest ← expandAll rest
    return e :: rest

end

end

/-- The name of the rule of an instance, which is built unless it has a slot; instances ask for one
another at most `depth` deep. -/
def instantiate (g : Grammar) : (depth : Nat) → Instance → Building String
  | 0, _ => throw .exhausted
  | depth + 1, i =>
    match g.lastTemplate? i.template with
    | none => throw (.undefinedTemplate i.template)
    | some t => do
      let before ← get
      if before.has i then return i.name
      else
        set (before.reserve i)
        let e ← expandExpr (instantiate g depth) (Grammar.scopeOf t i) t.expr
        modify (·.fill before.rules.size ⟨t.span, ⟨i.name, t.name.span⟩, e⟩)
        return i.name

end Building

/-- The grammar without templates, and the number of instances, in one pass. -/
def Grammar.expandInPlace (g : Grammar) (depth : Nat) : Except Fault (Grammar × Nat) := do
  let plain := g.rules.mapM fun r => do
    let e ← Building.expandExpr (Building.instantiate g depth) [] r.expr
    return { r with expr := e }
  let (rules, slots) ← plain.run .empty
  let rules := rules ++ slots.rules.toList.filterMap id
  return (⟨g.preamble, rules.map .rule⟩, slots.rules.size)

variable {g : Grammar} {α β : Type}

/-! ## The slots of some instances -/

namespace Slots

variable {pending seen is : List Instance} {i : Instance}

/-- What is in the slot of an instance. -/
def content (g : Grammar) (pending : List Instance) (i : Instance) : Option Rule :=
  if i ∈ pending then none else (g.lastTemplate? i.template).map (Grammar.instanceRule · i)

/-- The slots after instances have been seen, while the bodies of those in `pending` are built. -/
def ofSeen (g : Grammar) (pending seen : List Instance) : Slots :=
  ⟨seen.zipIdx, (seen.map (content g pending)).toArray⟩

/-- The instances that have slots differ, they have templates, and the bodies that are being built
are theirs. -/
structure Sound (g : Grammar) (pending seen : List Instance) : Prop where
  nodup : seen.Nodup
  defined : ∀ i ∈ seen, ∃ t, g.lastTemplate? i.template = some t
  pending : pending ⊆ seen

theorem Sound.nil (g : Grammar) : Sound g [] [] :=
  ⟨List.nodup_nil, fun _ h => absurd h List.not_mem_nil, List.nil_subset _⟩

/-- A new instance gets a slot, and its body is begun. -/
theorem Sound.begin {t : Template} (h : Sound g pending seen) (hi : i ∉ seen)
    (ht : g.lastTemplate? i.template = some t) : Sound g (i :: pending) (seen ++ [i]) := by
  refine ⟨List.nodup_append.2 ⟨h.nodup, List.nodup_singleton i, fun a ha b hb he => ?_⟩,
    fun j hj => ?_, List.cons_subset.2 ⟨List.mem_append_right _ (List.mem_singleton_self i),
      fun j hj => List.mem_append_left _ (h.pending hj)⟩⟩
  · rw [he, List.mem_singleton.1 hb] at ha
    exact hi ha
  · rcases List.mem_append.1 hj with hj | hj
    · exact h.defined j hj
    · rw [List.mem_singleton.1 hj]
      exact ⟨t, ht⟩

theorem has_ofSeen : (ofSeen g pending seen).has i = true ↔ i ∈ seen := by
  have hkeys : seen.zipIdx.map (·.1) = seen := List.zipIdx_map_fst 0 seen
  calc (ofSeen g pending seen).has i = true
      ↔ i ∈ seen.zipIdx.map (·.1) := by
        simp only [has, ofSeen, List.any_eq_true, beq_iff_eq, List.mem_map]
    _ ↔ i ∈ seen := by rw [hkeys]

theorem size_ofSeen : (ofSeen g pending seen).rules.size = seen.length := by
  simp [ofSeen]

/-- When no body is being built any more, the slots hold the rules of the instances. -/
theorem rules_ofSeen (g : Grammar) (is : List Instance) :
    (ofSeen g [] is).rules.toList.filterMap id = g.instanceRules is := by
  have hcontent : content g [] = fun i => (g.lastTemplate? i.template).map (Grammar.instanceRule · i) :=
    funext fun _ => if_neg List.not_mem_nil
  calc (ofSeen g [] is).rules.toList.filterMap id
      = is.filterMap (id ∘ content g []) := List.filterMap_map
    _ = g.instanceRules is := by rw [Function.id_comp, hcontent, Grammar.instanceRules]

/-- Whether the body of an instance is being built is nothing to the slots of others. -/
theorem map_content (hi : i ∉ seen) :
    seen.map (content g (i :: pending)) = seen.map (content g pending) := by
  refine List.map_congr_left fun j hj => ?_
  have hne : j ≠ i := fun he => hi (he ▸ hj)
  simp [content, hne]

/-- An instance that gets a slot is one whose body is being built. -/
theorem reserve_ofSeen (hi : i ∉ seen) :
    (ofSeen g pending seen).reserve i = ofSeen g (i :: pending) (seen ++ [i]) := by
  have hown : content g (i :: pending) i = none := if_pos (List.mem_cons_self ..)
  simp [ofSeen, reserve, map_content hi, hown, List.zipIdx_append]

/-- When its rule is put into its slot, its body is built. -/
theorem fill_ofSeen {t : Template} (ht : g.lastTemplate? i.template = some t) (hi : i ∉ pending)
    (hnodup : is.Nodup) (hslot : seen ++ [i] <+: is) :
    (ofSeen g (i :: pending) is).fill seen.length (Grammar.instanceRule t i) =
      ofSeen g pending is := by
  obtain ⟨later, rfl⟩ := hslot
  rw [List.append_assoc, List.singleton_append] at hnodup ⊢
  obtain ⟨-, hlater, hbefore⟩ := List.nodup_append.1 hnodup
  have hseen : i ∉ seen := fun h => hbefore i h i (List.mem_cons_self ..) rfl
  have hown : content g pending i = some (Grammar.instanceRule t i) := by
    simp [content, hi, ht]
  simp [ofSeen, fill, map_content hseen, map_content (List.nodup_cons.1 hlater).1, hown]

end Slots

/-! ## Building is collecting -/

namespace Building

open Slots

variable {a : α} {b : β} {f : List Instance → Instance → Except Fault (List Instance)}
  {asked later : List Instance}

/-- **A computation asks for instances**: on the slots of some instances it has the answer `a`, with
the slots that there are after the instances `asked` have been collected; or it fails as collecting
them does. -/
def AsksFor (g : Grammar) (f : List Instance → Instance → Except Fault (List Instance))
    (asked : List Instance) (x : Building α) (a : α) : Prop :=
  ∀ pending seen, Sound g pending seen →
    x.run (ofSeen g pending seen) =
        (asked.foldlM f seen).map (fun is => (a, ofSeen g pending is)) ∧
      ∀ is, asked.foldlM f seen = .ok is → seen <+: is ∧ Sound g pending is

namespace AsksFor

theorem pure (a : α) : AsksFor g f [] (Pure.pure a) a := fun _ seen hsound =>
  ⟨rfl, fun _ h => by cases h; exact ⟨List.prefix_refl seen, hsound⟩⟩

theorem bind {x : Building α} {k : α → Building β} (hx : AsksFor g f asked x a)
    (hk : AsksFor g f later (k a) b) : AsksFor g f (asked ++ later) (x >>= k) b := by
  intro pending seen hsound
  obtain ⟨hrun, hasked⟩ := hx pending seen hsound
  rw [List.foldlM_append, StateT.run_bind, hrun]
  cases h : asked.foldlM f seen with
  | error e => exact ⟨rfl, fun _ h => by cases h⟩
  | ok is =>
    obtain ⟨hkept, his⟩ := hasked is h
    obtain ⟨hrest, hlater⟩ := hk pending is his
    refine ⟨hrest, fun is' h' => ?_⟩
    obtain ⟨hkept', his'⟩ := hlater is' h'
    exact ⟨hkept.trans hkept', his'⟩

theorem map {x : Building α} {k : α → β} (hx : AsksFor g f asked x a) :
    AsksFor g f asked (do return k (← x)) (k a) := by
  have h := hx.bind (k := fun a => Pure.pure (k a)) (.pure (k a))
  rwa [List.append_nil] at h

end AsksFor

section

variable {demand : Instance → Building String} {scope : Scope}

mutual

theorem resolve_asksFor (hdemand : ∀ i, AsksFor g f [i] (demand i) i.name) (r : Reference) :
    AsksFor g f (scope.refInstances r) (resolve demand scope r) (scope.resolve r) := by
  cases r with
  | mk span name args =>
    rw [Scope.refInstances, resolve, Scope.resolve]
    split
    · exact .pure _
    · exact (resolveAll_asksFor hdemand args).bind (hdemand _)

theorem resolveAll_asksFor (hdemand : ∀ i, AsksFor g f [i] (demand i) i.name)
    (rs : List Reference) :
    AsksFor g f (scope.argInstances rs) (resolveAll demand scope rs) (scope.resolveAll rs) := by
  cases rs with
  | nil => exact .pure _
  | cons r rest =>
    rw [Scope.argInstances, resolveAll, Scope.resolveAll]
    exact (resolve_asksFor hdemand r).bind (resolveAll_asksFor hdemand rest).map

end

mutual

/-- An expression asks for its instances and becomes the linked expression. -/
theorem expandExpr_asksFor (hdemand : ∀ i, AsksFor g f [i] (demand i) i.name) (e : Expr) :
    AsksFor g f (scope.instances e) (expandExpr demand scope e) (scope.link e) := by
  cases e with
  | literal | charClass | anyChar | codePredicate | bareAction => exact .pure _
  | ref reference => exact (resolve_asksFor hdemand reference).map
  | seq span elements => exact (expandAll_asksFor hdemand elements).map
  | choice span branches => exact (expandAll_asksFor hdemand branches).map
  | star _ body | plus _ body | opt _ body | lookahead _ _ body | label _ _ body
  | action _ _ _ body | group _ body => exact (expandExpr_asksFor hdemand body).map

theorem expandAll_asksFor (hdemand : ∀ i, AsksFor g f [i] (demand i) i.name) (es : List Expr) :
    AsksFor g f (scope.listInstances es) (expandAll demand scope es) (scope.linkAll es) := by
  cases es with
  | nil => exact .pure _
  | cons e rest =>
    rw [Scope.listInstances, expandAll, Scope.linkAll]
    exact (expandExpr_asksFor hdemand e).bind (expandAll_asksFor hdemand rest).map

end

end

section

variable {depth : Nat} {t : Template} {i : Instance} {s : Slots}

theorem run_instantiate_of_has (ht : g.lastTemplate? i.template = some t) (h : s.has i = true) :
    (instantiate g (depth + 1) i).run s = .ok (i.name, s) := by
  simp only [instantiate, ht, StateT.run_bind, StateT.run_get, pure_bind, h]
  rfl

theorem run_instantiate_of_not_has (ht : g.lastTemplate? i.template = some t)
    (h : s.has i = false) : (instantiate g (depth + 1) i).run s =
      ((expandExpr (instantiate g depth) (Grammar.scopeOf t i) t.expr).run (s.reserve i)).map
        fun (e, s') => (i.name, s'.fill s.rules.size ⟨t.span, ⟨i.name, t.name.span⟩, e⟩) := by
  simp only [instantiate, ht, StateT.run_bind, StateT.run_get, pure_bind, h]
  cases hrun : (expandExpr (instantiate g depth) (Grammar.scopeOf t i) t.expr).run (s.reserve i) with
  | error f => simp [hrun, Except.map]
  | ok p => simp [hrun, Except.map]

/-- A new instance gets the slot behind those of `seen`; until its body is built it is pending. -/
theorem run_instantiate_of_new {pending seen : List Instance} (hsound : Sound g pending seen)
    (hi : i ∉ seen) (ht : g.lastTemplate? i.template = some t)
    (hbody : AsksFor g (g.collect depth) ((Grammar.scopeOf t i).instances t.expr)
      (expandExpr (instantiate g depth) (Grammar.scopeOf t i) t.expr)
      ((Grammar.scopeOf t i).link t.expr)) :
    (instantiate g (depth + 1) i).run (ofSeen g pending seen) =
        (g.collect (depth + 1) seen i).map (fun is => (i.name, ofSeen g pending is)) ∧
      ∀ is, g.collect (depth + 1) seen i = .ok is → seen <+: is ∧ Sound g pending is := by
  have hnew : (ofSeen g pending seen).has i = false := Bool.eq_false_iff.2 (mt has_ofSeen.1 hi)
  have hpending : i ∉ pending := fun h => hi (hsound.pending h)
  obtain ⟨hrun, hcollected⟩ := hbody (i :: pending) (seen ++ [i]) (hsound.begin hi ht)
  rw [Grammar.collect_of_not_mem hi ht, run_instantiate_of_not_has ht hnew, reserve_ofSeen hi, hrun,
    size_ofSeen]
  cases h : ((Grammar.scopeOf t i).instances t.expr).foldlM (g.collect depth) (seen ++ [i]) with
  | error e => exact ⟨rfl, fun _ h => by cases h⟩
  | ok is =>
    obtain ⟨hkept, his⟩ := hcollected is h
    constructor
    -- the body has only added slots, so that of the instance is where it was
    · show Except.ok (i.name,
        (ofSeen g (i :: pending) is).fill seen.length (Grammar.instanceRule t i)) = _
      rw [fill_ofSeen ht hpending his.nodup hkept]
      rfl
    · intro is' h'
      cases h'
      exact ⟨(List.prefix_append seen [i]).trans hkept, his.nodup, his.defined,
        (List.cons_subset.1 his.pending).2⟩

end

theorem collect_singleton (depth : Nat) (seen : List Instance) (i : Instance) :
    [i].foldlM (g.collect depth) seen = g.collect depth seen i := by
  rw [List.foldlM_cons]
  exact bind_pure _

/-- **An instance is built as it is collected**: it gets the next slot, whatever its body asks for
gets slots after it, and then its rule is put into its slot. -/
theorem instantiate_asksFor (depth : Nat) :
    ∀ i, AsksFor g (g.collect depth) [i] (instantiate g depth i) i.name := by
  induction depth with
  | zero => exact fun i pending seen hsound => ⟨rfl, fun _ h => by cases h⟩
  | succ depth ih =>
    intro i pending seen hsound
    rw [collect_singleton]
    by_cases hi : i ∈ seen
    · obtain ⟨t, ht⟩ := hsound.defined i hi
      rw [Grammar.collect_of_mem depth hi, run_instantiate_of_has ht (has_ofSeen.2 hi)]
      refine ⟨rfl, fun is h => ?_⟩
      cases h
      exact ⟨List.prefix_refl seen, hsound⟩
    · cases ht : g.lastTemplate? i.template with
      | none =>
        rw [Grammar.collect, if_neg hi, instantiate, ht]
        exact ⟨rfl, fun _ h => by cases h⟩
      | some t => exact run_instantiate_of_new hsound hi ht (expandExpr_asksFor ih t.expr)

end Building

namespace Grammar

open Slots Building

/-- The plain rules ask for their instances and become the linked rules. -/
theorem plainRules_asksFor (depth : Nat) (rules : List Rule) :
    AsksFor g (g.collect depth) (rules.flatMap fun r => Scope.instances [] r.expr)
      (rules.mapM fun r => do
        let e ← expandExpr (instantiate g depth) [] r.expr
        return { r with expr := e }) (rules.map plainRule) := by
  induction rules with
  | nil => exact .pure _
  | cons r rules ih =>
    rw [List.mapM_cons, List.flatMap_cons, List.map_cons]
    exact (expandExpr_asksFor (instantiate_asksFor depth) r.expr).map.bind ih.map

/-- **One pass gives the grammar that collecting the instances first gives**, and it fails where
that fails. -/
theorem expandInPlace_eq (g : Grammar) (depth : Nat) :
    g.expandInPlace depth = g.expandWithin depth := by
  obtain ⟨hrun, -⟩ := plainRules_asksFor depth g.rules [] [] (.nil g)
  have hrun : _ = (g.allInstances depth).map fun is => (g.rules.map plainRule, ofSeen g [] is) := hrun
  have hstart : Slots.empty = ofSeen g [] [] := rfl
  rw [expandInPlace, hstart, expandWithin]
  simp only [hrun]
  cases g.allInstances depth with
  | error e => rfl
  | ok is =>
    show Except.ok (_, _) = Except.ok (_, _)
    simp only [rules_ofSeen, size_ofSeen]

end Grammar

end Packrat

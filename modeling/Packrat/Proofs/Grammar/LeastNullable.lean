import Packrat.Proofs.Grammar.LeftEdges

/-!
# The least set of nullable rules

A rule that is added in a round counts for the rules after it in the same round, so what a round adds
depends on the order of the rules.  What is there in the end does not.

* `nullable_mono` — with more known rules no fewer expressions can match nothing.
* `NullableLoop.subset` — going round finds nothing that is not in every list where none is missing.
* `Grammar.LeastNullable` — the least list of rules from which none is missing.
* `Grammar.leastNullable_nullableAmong` — the answer is this list, whatever the order is.
-/

set_option autoImplicit false

namespace Packrat

variable {rules : List Rule} {known other found : List String}

/-- With more known rules no fewer expressions can match nothing. -/
theorem nullable_mono (h : known ⊆ other) (e : Expr) (hn : nullable known e = true) :
    nullable other e = true := by
  induction e using Expr.parts_induction with
  | h e ih =>
    cases e with
    | literal => exact hn
    | charClass | anyChar => cases hn
    | ref reference =>
      rw [nullable, List.contains_iff_mem] at hn ⊢
      exact h hn
    | seq span es =>
      rw [nullable, allNullable_iff] at hn ⊢
      exact fun e he => ih e he (hn e he)
    | choice span es =>
      rw [nullable, anyNullable_iff] at hn ⊢
      obtain ⟨e, he, hbranch⟩ := hn
      exact ⟨e, he, ih e he hbranch⟩
    | star | opt | lookahead | codePredicate | bareAction => rfl
    | plus span body => exact ih body (List.mem_singleton_self body) hn
    | label span name body => exact ih body (List.mem_singleton_self body) hn
    | action span hint code body => exact ih body (List.mem_singleton_self body) hn
    | group span body => exact ih body (List.mem_singleton_self body) hn

/-! ## Rounds -/

/-- A round adds nothing that is not in a list from which no rule is missing. -/
theorem nullableRound_subset (h : known ⊆ other) (hother : Settled rules other) :
    nullableRound rules known ⊆ other := by
  induction rules generalizing known with
  | nil => exact h
  | cons r rules ih =>
    rw [nullableRound_cons]
    refine ih ?_ fun s hs => hother s (List.mem_cons_of_mem _ hs)
    unfold nullableStep
    split
    · rename_i hadds
      have hbody := nullable_mono h r.expr (Bool.and_eq_true_iff.1 hadds).2
      exact List.cons_subset.2 ⟨hother r (List.mem_cons_self ..) hbody, h⟩
    · exact h

namespace NullableLoop

/-- What is found is in every list from which no rule is missing. -/
theorem subset (h : NullableLoop rules known found) (hknown : known ⊆ other)
    (hother : Settled rules other) : found ⊆ other := by
  induction h with
  | stop _ => exact nullableRound_subset hknown hother
  | again _ _ ih => exact ih (nullableRound_subset hknown hother)

theorem names {names : List String} (hrules : ∀ r ∈ rules, r.name.name ∈ names)
    (h : NullableLoop rules known found) (hnd : known.Nodup) (hsub : known ⊆ names) :
    found.Nodup ∧ found ⊆ names := by
  induction h with
  | stop _ => exact nullableRound_names hrules hnd hsub
  | again _ _ ih =>
    obtain ⟨hnd', hsub'⟩ := nullableRound_names hrules hnd hsub
    exact ih hnd' hsub'

end NullableLoop

/-! ## The least list -/

namespace Grammar

variable {g : Grammar} {order : List Rule}

/-- **The least list of rules from which none is missing**: some rule is missing from any list that
has not all of them. -/
structure LeastNullable (g : Grammar) (known : List String) : Prop where
  named : known ⊆ g.ruleNames
  settled : Settled g.rules known
  least : ∀ other, Settled g.rules other → known ⊆ other

theorem LeastNullable.mem_iff (h : g.LeastNullable known) (h' : g.LeastNullable other) (name : String) :
    name ∈ known ↔ name ∈ other :=
  ⟨fun hn => h.least other h'.settled hn, fun hn => h'.least known h.settled hn⟩

theorem leastNullable_of_mem_iff (h : ∀ r, r ∈ order ↔ r ∈ g.rules) :
    g.LeastNullable (nullableAmong order) := by
  have hloop := (nullableLoop_iff order _).2 rfl
  refine ⟨(hloop.names (fun r hr => ?_) List.nodup_nil (List.nil_subset _)).2,
    fun r hr => hloop.settled r ((h r).2 hr),
    fun other hother => hloop.subset (List.nil_subset _) fun r hr => hother r ((h r).1 hr)⟩
  exact List.mem_map_of_mem ((h r).1 hr)

/-- **Whatever the order of the rules is, what is found is the least list.** -/
theorem leastNullable_nullableAmong (h : order.Perm g.rules) :
    g.LeastNullable (nullableAmong order) :=
  leastNullable_of_mem_iff fun _ => h.mem_iff

/-- Where the names of the rules differ, all of them count. -/
theorem leastNullable_nullableRules (hnames : g.ruleNames.Nodup) : g.LeastNullable g.nullableRules := by
  refine leastNullable_of_mem_iff fun r => ?_
  rw [List.mem_reverse, mem_definitions_iff]
  exact ⟨List.mem_of_find?_eq_some, rule?_of_nodup hnames⟩

end Grammar

end Packrat

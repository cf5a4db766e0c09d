import Mathlib.Data.List.Perm.Subperm
import Packrat.Proofs.Grammar.Definitions

/-!
# The rules that can match nothing

The rounds of `nullableAmong` stop where a round adds no rule.  There are enough of them, so the
answer is settled: a rule whose body can match without consuming input belongs to it.

* `Settled` — no rule is missing from a list of names.
* `NullableLoop` — to go round until a round adds nothing, however many rounds it takes.
* `NullableLoop.settled` — in the end no rule is missing.
* `nullableLoop_iff` — this ends, and with the answer of `nullableAmong`: with a round for each rule and
  one more, the last one adds nothing.
* `Grammar.nullableRules_settled` — no rule of a grammar is missing.
-/

set_option autoImplicit false

namespace Packrat

variable {rules : List Rule} {known found : List String}

/-- Every rule whose body can match nothing, given that those of `known` can, is one of `known`. -/
def Settled (rules : List Rule) (known : List String) : Prop :=
  ∀ r ∈ rules, nullable known r.expr = true → r.name.name ∈ known

/-- One rule of a round. -/
def nullableStep (known : List String) (r : Rule) : List String :=
  if !known.contains r.name.name && nullable known r.expr then r.name.name :: known else known

theorem nullableRound_cons (r : Rule) (rules : List Rule) (known : List String) :
    nullableRound (r :: rules) known = nullableRound rules (nullableStep known r) := rfl

/-- A rule of a round either adds its name, which is new, or has nothing to add. -/
theorem nullableStep_cases (known : List String) (r : Rule) :
    (nullableStep known r = r.name.name :: known ∧ r.name.name ∉ known) ∨
      (nullableStep known r = known ∧ (nullable known r.expr = true → r.name.name ∈ known)) := by
  unfold nullableStep
  split
  · rename_i h
    simp only [Bool.and_eq_true, Bool.not_eq_true', List.contains_eq_mem,
      decide_eq_false_iff_not] at h
    exact .inl ⟨rfl, h.1⟩
  · rename_i h
    refine .inr ⟨rfl, fun hn => ?_⟩
    simp only [hn, Bool.and_true, Bool.not_eq_true', List.contains_eq_mem,
      decide_eq_false_iff_not, not_not] at h
    exact h

theorem length_le_nullableRound (rules : List Rule) (known : List String) :
    known.length ≤ (nullableRound rules known).length := by
  induction rules generalizing known with
  | nil => exact Nat.le_refl _
  | cons r rules ih =>
    rw [nullableRound_cons]
    have hrest := ih (nullableStep known r)
    rcases nullableStep_cases known r with ⟨h, -⟩ | ⟨h, -⟩
    · rw [h, List.length_cons] at hrest
      rw [h]
      omega
    · rw [h] at hrest ⊢
      exact hrest

/-- Where a round adds nothing, its first rule has nothing to add, and the others add nothing. -/
theorem nullableStep_eq_self {r : Rule}
    (h : (nullableRound (r :: rules) known).length = known.length) :
    nullableStep known r = known ∧ (nullable known r.expr = true → r.name.name ∈ known) ∧
      (nullableRound rules known).length = known.length := by
  rw [nullableRound_cons] at h
  rcases nullableStep_cases known r with ⟨hstep, -⟩ | ⟨hstep, hr⟩
  · have hle := length_le_nullableRound rules (nullableStep known r)
    rw [hstep, List.length_cons] at hle
    rw [hstep] at h
    omega
  · rw [hstep] at h
    exact ⟨hstep, hr, h⟩

/-- A round that adds nothing has found all. -/
theorem nullableRound_settled (h : (nullableRound rules known).length = known.length) :
    Settled rules known := by
  induction rules with
  | nil => exact fun r hr => by cases hr
  | cons r rules ih =>
    obtain ⟨-, hr, hrest⟩ := nullableStep_eq_self h
    exact List.forall_mem_cons.2 ⟨hr, ih hrest⟩

/-- A round that adds nothing leaves the names as they are. -/
theorem nullableRound_eq_self (h : (nullableRound rules known).length = known.length) :
    nullableRound rules known = known := by
  induction rules with
  | nil => rfl
  | cons r rules ih =>
    obtain ⟨hstep, -, hrest⟩ := nullableStep_eq_self h
    rw [nullableRound_cons, hstep]
    exact ih hrest

/-- A round keeps the names apart and adds none that no rule has. -/
theorem nullableRound_names {names : List String} {rules : List Rule} {known : List String}
    (hrules : ∀ r ∈ rules, r.name.name ∈ names) (hnd : known.Nodup) (hsub : known ⊆ names) :
    (nullableRound rules known).Nodup ∧ nullableRound rules known ⊆ names := by
  induction rules generalizing known with
  | nil => exact ⟨hnd, hsub⟩
  | cons r rules ih =>
    rw [nullableRound_cons]
    have hrest : ∀ s ∈ rules, s.name.name ∈ names := fun s hs => hrules s (List.mem_cons_of_mem _ hs)
    rcases nullableStep_cases known r with ⟨h, hnew⟩ | ⟨h, -⟩
    · rw [h]
      refine ih hrest (List.nodup_cons.2 ⟨hnew, hnd⟩) (List.cons_subset.2 ⟨?_, hsub⟩)
      exact hrules r (List.mem_cons_self ..)
    · rw [h]
      exact ih hrest hnd hsub

/-- **Going round until a round adds nothing**, from the rules that are known. -/
inductive NullableLoop (rules : List Rule) : (known found : List String) → Prop where
  | stop {known : List String} (same : (nullableRound rules known).length = known.length) :
      NullableLoop rules known (nullableRound rules known)
  | again {known found : List String} (more : (nullableRound rules known).length ≠ known.length)
      (rest : NullableLoop rules (nullableRound rules known) found) : NullableLoop rules known found

namespace NullableLoop

theorem unique {found' : List String} (h : NullableLoop rules known found)
    (h' : NullableLoop rules known found') : found = found' := by
  induction h with
  | stop same =>
    cases h' with
    | stop _ => rfl
    | again more _ => exact absurd same more
  | again more _ ih =>
    cases h' with
    | stop same => exact absurd same more
    | again _ rest => exact ih rest

/-- In the end no rule is missing. -/
theorem settled (h : NullableLoop rules known found) : Settled rules found := by
  induction h with
  | stop same =>
    rw [nullableRound_eq_self same]
    exact nullableRound_settled same
  | again _ _ ih => exact ih

end NullableLoop

/-- Each round before the last one adds a rule, so that enough rounds come to the end. -/
theorem nullableRounds_loop {names : List String} (hrules : ∀ r ∈ rules, r.name.name ∈ names) :
    ∀ (rounds : Nat) (known : List String), known.Nodup → known ⊆ names →
      names.length < known.length + rounds →
        NullableLoop rules known (nullableRounds rules rounds known) := by
  intro rounds
  induction rounds with
  | zero =>
    intro known hnd hsub hlen
    have := (List.subperm_of_subset hnd hsub).length_le
    omega
  | succ rounds ih =>
    intro known hnd hsub hlen
    unfold nullableRounds
    simp only
    split
    · rename_i hsame
      have hstop := NullableLoop.stop hsame
      rwa [nullableRound_eq_self hsame] at hstop
    · rename_i hmore
      have hle := length_le_nullableRound rules known
      obtain ⟨hnd', hsub'⟩ := nullableRound_names hrules hnd hsub
      exact .again hmore (ih _ hnd' hsub' (by omega))

/-- **Going round ends**, and then what is found is the answer of `nullableAmong`. -/
theorem nullableLoop_iff (rules : List Rule) (found : List String) :
    NullableLoop rules [] found ↔ found = nullableAmong rules := by
  have hnames : ∀ r ∈ rules, r.name.name ∈ rules.map (·.name.name) :=
    fun _ hr => List.mem_map_of_mem hr
  have hends : NullableLoop rules [] (nullableAmong rules) :=
    nullableRounds_loop hnames _ [] List.nodup_nil (List.nil_subset _)
      (by simp only [List.length_map, List.length_nil]; omega)
  exact ⟨fun h => h.unique hends, fun h => h ▸ hends⟩

/-- **No rule of a grammar is missing from its nullable rules.** -/
theorem Grammar.nullableRules_settled (g : Grammar) :
    Settled g.definitions g.nullableRules := by
  have hloop : NullableLoop g.definitions.reverse [] g.nullableRules :=
    (nullableLoop_iff g.definitions.reverse g.nullableRules).2 rfl
  exact fun r hr => hloop.settled r (List.mem_reverse.2 hr)

end Packrat

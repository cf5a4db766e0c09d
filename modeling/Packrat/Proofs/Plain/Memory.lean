import Packrat.Proofs.Plain.Visits

/-!
# Steps with a memory

* `Step.prune` — a step with a memory: a rule that was met before at the same offset is known, and
  nothing happens within it.
* `Step.failures` — the terminals that fail in a step, but for those in lookaheads.
* `Step.failuresAll_pruneAll_subset` — with a memory no other terminals fail.
* `Step.outer`, `Step.again` — the rules that are met outside lookaheads, for the first time and again.
* `Step.failuresAll_subset_of_again_subset` — when no failure is lost.
-/

set_option autoImplicit false

namespace Packrat

/-- Rules with offsets. -/
abbrev Seen := List (String × Nat)

mutual

/-- A step with a memory of the rules and offsets that were met, and the memory after it.  A rule is
met before its body is evaluated. -/
def Step.prune (seen : Seen) : Step → Step × Seen
  | .failure p t => (.failure p t, seen)
  | .asked record => (.asked record, seen)
  | .lookahead inside =>
    let after := Step.pruneAll seen inside
    (.lookahead after.1, after.2)
  | .rule name p o inside =>
    if (name, p) ∈ seen then (.known name p o, seen)
    else
      let after := Step.pruneAll ((name, p) :: seen) inside
      (.rule name p o after.1, after.2)
  | .known name p o => (.known name p o, seen)

/-- The same for several steps. -/
def Step.pruneAll (seen : Seen) : List Step → List Step × Seen
  | [] => ([], seen)
  | s :: rest =>
    let first := s.prune seen
    let after := Step.pruneAll first.2 rest
    (first.1 :: after.1, after.2)

end

mutual

/-- The terminals that fail outside lookaheads, with their offsets. -/
def Step.failures : Step → List (Nat × Terminal)
  | .failure p t => [(p, t)]
  | .asked _ => []
  | .lookahead _ => []
  | .rule _ _ _ inside => Step.failuresAll inside
  | .known _ _ _ => []

/-- The same for several steps. -/
def Step.failuresAll : List Step → List (Nat × Terminal)
  | [] => []
  | s :: rest => s.failures ++ Step.failuresAll rest

end

namespace Step

mutual

theorem failures_prune_subset (seen : Seen) (s : Step) : (s.prune seen).1.failures ⊆ s.failures := by
  cases s with
  | failure p t =>
    rw [prune]
    exact List.Subset.refl _
  | asked record =>
    rw [prune]
    exact List.Subset.refl _
  | lookahead inside =>
    rw [prune]
    simp only
    rw [failures, failures]
    exact List.Subset.refl _
  | rule name p o inside =>
    rw [prune]
    split
    · rw [failures]
      exact List.nil_subset _
    · simp only
      rw [failures, failures]
      exact failuresAll_pruneAll_subset _ inside
  | known name p o =>
    rw [prune]
    exact List.Subset.refl _

/-- **With a memory no other terminals fail.** -/
theorem failuresAll_pruneAll_subset (seen : Seen) (steps : List Step) :
    failuresAll (pruneAll seen steps).1 ⊆ failuresAll steps := by
  cases steps with
  | nil => exact List.Subset.refl _
  | cons s rest =>
    rw [pruneAll]
    simp only
    rw [failuresAll, failuresAll]
    exact List.append_subset.2
      ⟨fun x hx => List.mem_append_left _ (failures_prune_subset seen s hx),
        fun x hx => List.mem_append_right _ (failuresAll_pruneAll_subset _ rest hx)⟩

end

/-! ## Which failures a memory hides -/

mutual

/-- The rules and offsets that are met outside lookaheads for the first time. -/
def outer : Step → Seen
  | .failure _ _ => []
  | .asked _ => []
  | .lookahead _ => []
  | .rule name p _ inside => (name, p) :: outerAll inside
  | .known _ _ _ => []

def outerAll : List Step → Seen
  | [] => []
  | s :: rest => s.outer ++ outerAll rest

end

mutual

/-- The rules and offsets that are met outside lookaheads and are known. -/
def again : Step → Seen
  | .failure _ _ => []
  | .asked _ => []
  | .lookahead _ => []
  | .rule _ _ _ inside => againAll inside
  | .known name p _ => [(name, p)]

def againAll : List Step → Seen
  | [] => []
  | s :: rest => s.again ++ againAll rest

end

variable {c : Plain} {x : Nat × Terminal}

mutual

theorem heard_or_again_step (seen : Seen) (s : Step) (hs : ∀ v ∈ s.visits, c.Holds v)
    (hx : x ∈ s.failures) : x ∈ (s.prune seen).1.failures ∨
      ∃ v : Visit, c.Holds v ∧ sizeOf v.inside < sizeOf s ∧ x ∈ failuresAll v.inside ∧
        (v.name, v.offset) ∈ (s.prune seen).1.again := by
  cases s with
  | failure p t =>
    rw [prune]
    exact .inl hx
  | asked record =>
    rw [failures] at hx
    cases hx
  | lookahead inside =>
    rw [failures] at hx
    cases hx
  | rule name p o inside =>
    have hv : c.Holds ⟨name, p, o, inside⟩ := hs _ (by simp)
    rw [failures] at hx
    rw [prune]
    split
    · refine .inr ⟨⟨name, p, o, inside⟩, hv, ?_, hx, ?_⟩
      · rw [rule.sizeOf_spec]
        show sizeOf inside < _
        omega
      · rw [again]
        exact List.mem_singleton_self _
    · rcases heard_or_again ((name, p) :: seen) inside hv.inside hx with hheard | hagain
      · exact .inl (by rw [failures]; exact hheard)
      · obtain ⟨v, hhold, hsize, hmem, hknown⟩ := hagain
        refine .inr ⟨v, hhold, ?_, hmem, by rw [again]; exact hknown⟩
        rw [rule.sizeOf_spec]
        omega
  | known name p o =>
    rw [failures] at hx
    cases hx

/-- A failure is heard, or it is one of a rule that is known where it is met. -/
theorem heard_or_again (seen : Seen) (steps : List Step) (hs : ∀ v ∈ visitsAll steps, c.Holds v)
    (hx : x ∈ failuresAll steps) : x ∈ failuresAll (pruneAll seen steps).1 ∨
      ∃ v : Visit, c.Holds v ∧ sizeOf v.inside < sizeOf steps ∧ x ∈ failuresAll v.inside ∧
        (v.name, v.offset) ∈ againAll (pruneAll seen steps).1 := by
  cases steps with
  | nil => cases hx
  | cons s rest =>
    rw [visitsAll_cons, List.forall_mem_append] at hs
    rw [failuresAll, List.mem_append] at hx
    rw [pruneAll, failuresAll, againAll, List.cons.sizeOf_spec]
    rcases hx with hx | hx
    · rcases heard_or_again_step seen s hs.1 hx with hheard | ⟨v, hhold, hsize, hmem, hknown⟩
      · exact .inl (List.mem_append_left _ hheard)
      · exact .inr ⟨v, hhold, by omega, hmem, List.mem_append_left _ hknown⟩
    · rcases heard_or_again (s.prune seen).2 rest hs.2 hx with
        hheard | ⟨v, hhold, hsize, hmem, hknown⟩
      · exact .inl (List.mem_append_right _ hheard)
      · exact .inr ⟨v, hhold, by omega, hmem, List.mem_append_right _ hknown⟩

end

/-- The steps with a memory that are within others. -/
structure Within (inner whole : List Step) : Prop where
  failures : failuresAll inner ⊆ failuresAll whole
  again : againAll inner ⊆ againAll whole

mutual

theorem exists_of_outer_step (seen : Seen) (s : Step) (hs : ∀ v ∈ s.visits, c.Holds v)
    {name : String} {p : Nat} (h : (name, p) ∈ (s.prune seen).1.outer) :
    ∃ o inside seen', c.Holds ⟨name, p, o, inside⟩ ∧
      Within (pruneAll seen' inside).1 [(s.prune seen).1] := by
  cases s with
  | failure q t =>
    rw [prune, outer] at h
    cases h
  | asked record =>
    rw [prune, outer] at h
    cases h
  | lookahead inside =>
    rw [prune, outer] at h
    cases h
  | rule other q o inside =>
    have hv : c.Holds ⟨other, q, o, inside⟩ := hs _ (by simp)
    rw [prune] at h ⊢
    split at h
    · rw [outer] at h
      cases h
    · rename_i hnew
      simp only [if_neg hnew] at h ⊢
      have hself : Within (pruneAll ((other, q) :: seen) inside).1
          [.rule other q o (pruneAll ((other, q) :: seen) inside).1] := by
        constructor
        · rw [failuresAll, failuresAll, Step.failures, List.append_nil]
          exact List.Subset.refl _
        · rw [againAll, againAll, Step.again, List.append_nil]
          exact List.Subset.refl _
      rw [outer, List.mem_cons] at h
      rcases h with h | h
      · cases h
        exact ⟨o, inside, _, hv, hself⟩
      · obtain ⟨o', inside', seen', hhold, hin⟩ :=
          exists_of_outer ((other, q) :: seen) inside hv.inside h
        exact ⟨o', inside', seen', hhold, fun y hy => hself.failures (hin.failures hy),
          fun y hy => hself.again (hin.again hy)⟩
  | known other q o =>
    rw [prune, outer] at h
    cases h

/-- What is met outside lookaheads for the first time is evaluated there. -/
theorem exists_of_outer (seen : Seen) (steps : List Step) (hs : ∀ v ∈ visitsAll steps, c.Holds v)
    {name : String} {p : Nat} (h : (name, p) ∈ outerAll (pruneAll seen steps).1) :
    ∃ o inside seen', c.Holds ⟨name, p, o, inside⟩ ∧
      Within (pruneAll seen' inside).1 (pruneAll seen steps).1 := by
  cases steps with
  | nil => cases h
  | cons s rest =>
    rw [visitsAll_cons, List.forall_mem_append] at hs
    rw [pruneAll, outerAll, List.mem_append] at h
    rw [pruneAll]
    rcases h with h | h
    · obtain ⟨o, inside, seen', hhold, hin⟩ := exists_of_outer_step seen s hs.1 h
      refine ⟨o, inside, seen', hhold, fun y hy => ?_, fun y hy => ?_⟩
      · have hmem := hin.failures hy
        rw [failuresAll, failuresAll, List.append_nil] at hmem
        rw [failuresAll]
        exact List.mem_append_left _ hmem
      · have hmem := hin.again hy
        rw [againAll, againAll, List.append_nil] at hmem
        rw [againAll]
        exact List.mem_append_left _ hmem
    · obtain ⟨o, inside, seen', hhold, hin⟩ := exists_of_outer (s.prune seen).2 rest hs.2 h
      refine ⟨o, inside, seen', hhold, fun y hy => ?_, fun y hy => ?_⟩
      · rw [failuresAll]
        exact List.mem_append_right _ (hin.failures hy)
      · rw [againAll]
        exact List.mem_append_right _ (hin.again hy)

end

/-- **A memory hides no failure if every rule that is met again outside lookaheads was first met
outside of them.** -/
theorem failuresAll_subset_of_again_subset {steps : List Step}
    (hs : ∀ v ∈ visitsAll steps, c.Holds v)
    (h : againAll (pruneAll [] steps).1 ⊆ outerAll (pruneAll [] steps).1) :
    failuresAll steps ⊆ failuresAll (pruneAll [] steps).1 := by
  intro x hx
  -- a failure within a rule that is evaluated outside lookaheads is heard
  suffices houter : ∀ v : Visit, c.Holds v → x ∈ failuresAll v.inside →
      (v.name, v.offset) ∈ outerAll (pruneAll [] steps).1 →
        x ∈ failuresAll (pruneAll [] steps).1 by
    rcases heard_or_again [] steps hs hx with hheard | ⟨v, hhold, -, hmem, hknown⟩
    · exact hheard
    · exact houter v hhold hmem (h hknown)
  intro v hv hmem hfirst
  induction hsize : sizeOf v.inside using Nat.strongRecOn generalizing v with
  | _ n ih =>
    obtain ⟨o, inside, seen', hhold, hin⟩ := exists_of_outer [] steps hs hfirst
    cases (Option.some.inj (hhold.symm.trans hv) : (o, inside) = (v.outcome, v.inside))
    rcases heard_or_again seen' v.inside hv.inside hmem with hheard | hagain
    · exact hin.failures hheard
    · obtain ⟨w, hhold', hless, hmem', hknown⟩ := hagain
      exact ih _ (by omega) w hhold' hmem' (h (hin.again hknown)) rfl

end Step

end Packrat

import Packrat.Proofs.Plain.Total

/-!
# The offsets of a plain evaluation

* `Step.offsets` — the offsets that appear in a step, however deep.
* `Plain.Holds.offsets_boundary` — they are boundaries if the visit begins at one.
-/

set_option autoImplicit false

namespace Packrat

/-- Where a match ends. -/
def Outcome.offsets : Outcome → List Nat
  | .matched stop _ => [stop]
  | .failed => []

mutual

/-- The offsets that appear in a step. -/
def Step.offsets : Step → List Nat
  | .failure p _ => [p]
  | .asked _ => []
  | .lookahead inside => Step.offsetsAll inside
  | .rule _ p o inside => p :: (o.offsets ++ Step.offsetsAll inside)
  | .known _ p o => p :: o.offsets

/-- The same for several steps. -/
def Step.offsetsAll : List Step → List Nat
  | [] => []
  | s :: rest => s.offsets ++ Step.offsetsAll rest

end

theorem Step.forall_offsetsAll {P : Nat → Prop} {steps : List Step} :
    (∀ q ∈ Step.offsetsAll steps, P q) ↔ ∀ s ∈ steps, ∀ q ∈ s.offsets, P q := by
  induction steps with
  | nil => simp [offsetsAll]
  | cons s rest ih => rw [offsetsAll, List.forall_mem_append, ih, List.forall_mem_cons]

namespace Plain

open Step

variable {c : Plain} {known : List String} {rank : String → Nat}

/-- **If a visit begins at a boundary, all its offsets are boundaries.** -/
theorem Holds.offsets_boundary (hranked : c.Ranked known rank) {v : Visit} (hv : c.Holds v)
    (hp : Boundary c.text v.offset) : ∀ q ∈ v.step.offsets, Boundary c.text q := by
  refine rule_induction (P := fun v => Boundary c.text v.offset →
    ∀ q ∈ v.step.offsets, Boundary c.text q) ?_ v hv hp
  intro v hv ih hp
  have hstop : ∀ q ∈ v.outcome.offsets, Boundary c.text q := by
    intro q hq
    cases ho : v.outcome with
    | failed =>
      rw [ho] at hq
      cases hq
    | matched stop value =>
      rw [ho] at hq
      rw [List.mem_singleton.1 hq]
      exact (rule_advances hranked.nullable hv hp stop value ho).boundary
  obtain ⟨r, t, -, ht, -, hsteps⟩ := rule_cases hv
  -- a step of the body has boundaries if the visits in it have
  have hinside : ∀ s ∈ v.inside, (∀ w ∈ s.visits, ∀ q ∈ w.step.offsets, Boundary c.text q) →
      ∀ q ∈ s.offsets, Boundary c.text q := by
    rw [← hsteps]
    refine expr_steps ⟨?_, ?_, ?_, ?_⟩ r.expr [] v.offset t ht
    · intro q terminal hq _
      rw [Step.offsets]
      exact List.forall_mem_singleton.2 hq
    · intro record _ _ q hq
      rw [Step.offsets] at hq
      cases hq
    · intro inside hall hvisits
      rw [visits_lookahead, forall_visitsAll] at hvisits
      rw [Step.offsets, forall_offsetsAll]
      exact fun s hs => hall s hs (hvisits s hs)
    · intro name q o inside _ hvisits
      exact (hvisits ⟨name, q, o, inside⟩ (by rw [visits_rule]; exact List.mem_singleton_self _))
  have hlight := rule_visits_light hranked hv hp
  have hvisits : ∀ s ∈ v.inside, ∀ w ∈ s.visits, ∀ q ∈ w.step.offsets, Boundary c.text q :=
    forall_visitsAll.1 fun w hw => ih w hw (hlight w hw).boundary
  rw [Visit.step, Step.offsets, List.forall_mem_cons, List.forall_mem_append]
  exact ⟨hp, hstop, forall_offsetsAll.2 fun s hs => hinside s hs (hvisits s hs)⟩

end Plain

end Packrat

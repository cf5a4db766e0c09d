/-!
# Sets of characters as ascending ranges of code points

* `Ranges` — closed, disjoint ranges in ascending order, as the standard's tables list them.
* `Ranges.holds` — membership; the walk stops at the first range that lies above the code point.
-/

namespace Packrat

/-- Closed ranges of code points, ascending and disjoint. -/
abbrev Ranges := List (Nat × Nat)

namespace Ranges

/-- Each range is in order and lies strictly above everything before it. -/
def Ascending (low : Nat) : Ranges → Prop
  | [] => True
  | (lo, hi) :: rest => low ≤ lo ∧ lo ≤ hi ∧ Ascending (hi + 1) rest

instance decidableAscending : (low : Nat) → (r : Ranges) → Decidable (Ascending low r)
  | _, [] => .isTrue trivial
  | low, (lo, hi) :: rest =>
      have := decidableAscending (hi + 1) rest
      inferInstanceAs (Decidable (low ≤ lo ∧ lo ≤ hi ∧ Ascending (hi + 1) rest))

/-- Whether a code point lies in one of the ranges. -/
def holds : Ranges → Nat → Bool
  | [], _ => false
  | (lo, hi) :: rest, n => if n < lo then false else if n ≤ hi then true else holds rest n

theorem holds_eq_false_of_lt {low n : Nat} {r : Ranges} (h : Ascending low r) (hn : n < low) :
    holds r n = false := by
  cases r with
  | nil => rfl
  | cons p rest =>
    obtain ⟨lo, hi⟩ := p
    simp only [Ascending] at h
    simp [holds, Nat.lt_of_lt_of_le hn h.1]

/-- In an ascending table the walk finds exactly the listed code points. -/
theorem holds_iff {low n : Nat} {r : Ranges} (h : Ascending low r) :
    holds r n = true ↔ ∃ p ∈ r, p.1 ≤ n ∧ n ≤ p.2 := by
  induction r generalizing low with
  | nil => simp [holds]
  | cons p rest ih =>
    obtain ⟨lo, hi⟩ := p
    obtain ⟨_, hlohi, hrest⟩ := h
    by_cases hn : n ≤ hi
    · by_cases hlo : n < lo
      · have hr := holds_eq_false_of_lt hrest (Nat.lt_succ_of_le hn)
        have hno : ¬ ∃ p ∈ rest, p.1 ≤ n ∧ n ≤ p.2 := by rw [← ih hrest, hr]; simp
        simp only [List.mem_cons, exists_eq_or_imp, holds, hlo, if_true]
        constructor
        · intro hf; exact absurd hf (by simp)
        · rintro (⟨h1, _⟩ | h2)
          · exact absurd h1 (Nat.not_le.mpr hlo)
          · exact absurd h2 hno
      · simp [holds, hlo, hn, Nat.le_of_not_lt hlo]
    · have hlo : ¬ n < lo := by omega
      simp [holds, hlo, hn, ih hrest]

end Ranges

end Packrat

import Packrat.Value

/-!
# What is known about rules at offsets

* `Outcome` — how an expression fared at an offset.
* `Memo` — for a rule and an offset, that it is being tried there or how it fared.
* `Memo.find?_insert` — inserting changes one pair and nothing else.
-/

set_option autoImplicit false

namespace Packrat

/-- How an expression fared at an offset. -/
inductive Outcome where
  /-- It matched the input up to `stop`. -/
  | matched (stop : Nat) (value : Value)
  | failed
  deriving Repr, Inhabited

/-- Whether there was a match. -/
def Outcome.isMatch : Outcome → Bool
  | .matched _ _ => true
  | .failed => false

/-- What is known about a rule at an offset. -/
inductive MemoEntry where
  /-- The rule is being tried there. -/
  | inProgress
  | done (outcome : Outcome)
  deriving Repr, Inhabited

/-- For each offset the rules that were tried there, the latest entry first. -/
structure Memo where
  rows : Array (List (String × MemoEntry))
  deriving Repr, Inhabited

namespace Memo

/-- Nothing is known. -/
def empty : Memo := ⟨#[]⟩

/-- The entry of a rule at an offset. -/
def find? (m : Memo) (rule : String) (offset : Nat) : Option MemoEntry :=
  (m.rows.getD offset []).lookup rule

/-- The rows, with further empty ones if there is none for an offset. -/
def rowsUpTo (m : Memo) (offset : Nat) : Array (List (String × MemoEntry)) :=
  if offset < m.rows.size then m.rows
  else m.rows ++ Array.replicate (offset + 1 - m.rows.size) []

/-- Set the entry of a rule at an offset. -/
def insert (m : Memo) (rule : String) (offset : Nat) (entry : MemoEntry) : Memo :=
  let row := m.rows.getD offset []
  ⟨(m.rowsUpTo offset).setIfInBounds offset ((rule, entry) :: row)⟩

@[simp]
theorem find?_empty (rule : String) (offset : Nat) : empty.find? rule offset = none := by
  simp [find?, empty]

theorem lt_size_rowsUpTo (m : Memo) (offset : Nat) : offset < (m.rowsUpTo offset).size := by
  unfold rowsUpTo
  split
  · assumption
  · simp; omega

theorem getD_rowsUpTo (m : Memo) (offset p : Nat) :
    (m.rowsUpTo offset).getD p [] = m.rows.getD p [] := by
  unfold rowsUpTo
  split
  · rfl
  · simp only [Array.getD_eq_getD_getElem?, Array.getElem?_append, Array.getElem?_replicate]
    split
    · rfl
    · rw [Array.getElem?_eq_none (by omega)]
      split <;> rfl

/-- Inserting changes one pair and nothing else. -/
theorem find?_insert (m : Memo) (rule name : String) (offset p : Nat) (entry : MemoEntry) :
    (m.insert rule offset entry).find? name p =
      if name = rule ∧ p = offset then some entry else m.find? name p := by
  have hrow := m.getD_rowsUpTo offset p
  simp only [Array.getD_eq_getD_getElem?] at hrow
  simp only [find?, insert, Array.getD_eq_getD_getElem?, Array.getElem?_setIfInBounds,
    m.lt_size_rowsUpTo offset, if_true]
  by_cases hp : offset = p
  · subst hp
    by_cases hn : name = rule
    · simp [hn]
    · have hb : (name == rule) = false := by simpa using hn
      simp [hn, List.lookup_cons, hb]
  · simp [hp, hrow, Ne.symm hp]

end Memo

end Packrat

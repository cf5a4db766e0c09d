import Packrat.Bindings

/-!
# The stack of labels

All rules that are being tried share one stack of labels.  A rule sees those above its frame; what
fails gives back the labels that it bound.

* `LabelStack` — the stack; `LabelStack.toList` lists it from the bottom.
* `LabelStack.push`, `LabelStack.cut`, `LabelStack.above` — bind a label, give back all above a
  height, and the labels above a height.
-/

set_option autoImplicit false

namespace Packrat

/-- Labels with their values, the latest on top. -/
structure LabelStack where
  entries : Array (String × Value)
  deriving Repr, Inhabited

namespace LabelStack

/-- No labels. -/
def empty : LabelStack := ⟨#[]⟩

/-- How many labels there are. -/
def height (s : LabelStack) : Nat := s.entries.size

/-- The labels from the bottom. -/
def toList (s : LabelStack) : Bindings := s.entries.toList

/-- Put a label on top. -/
def push (s : LabelStack) (label : String) (v : Value) : LabelStack := ⟨s.entries.push (label, v)⟩

/-- Take away all labels above a height. -/
def cut (s : LabelStack) (height : Nat) : LabelStack := ⟨s.entries.shrink height⟩

/-- The labels above a height. -/
def above (s : LabelStack) (height : Nat) : Bindings :=
  (s.entries.extract height s.entries.size).toList

@[simp]
theorem toList_empty : empty.toList = [] := rfl

@[simp]
theorem length_toList (s : LabelStack) : s.toList.length = s.height := by simp [toList, height]

@[simp]
theorem toList_push (s : LabelStack) (label : String) (v : Value) :
    (s.push label v).toList = s.toList ++ [(label, v)] := by simp [toList, push]

@[simp]
theorem toList_cut (s : LabelStack) (height : Nat) :
    (s.cut height).toList = s.toList.take height := by simp [toList, cut]

theorem above_eq (s : LabelStack) (height : Nat) : s.above height = s.toList.drop height := by
  simp [toList, above, List.take_of_length_le]

theorem ext_toList {s t : LabelStack} (h : s.toList = t.toList) : s = t := by
  cases s; cases t; simpa [toList, Array.toList_inj] using h

end LabelStack

end Packrat

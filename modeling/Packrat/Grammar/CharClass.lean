import Packrat.Text.Quoted

/-!
# Classes of characters

* `CharClass` — ranges of characters, or everything outside them.
* `CharClass.admits` — whether a character belongs to the class.
* `CharClass.display` — the class in grammar notation.
-/

set_option autoImplicit false

namespace Packrat

/-- The characters inside some ranges, or, if negated, those outside all of them. -/
structure CharClass where
  negated : Bool
  ranges : List (Char × Char)
  deriving DecidableEq, Repr

namespace CharClass

/-- Whether a character belongs to the class. -/
def admits (k : CharClass) (c : Char) : Bool :=
  k.ranges.any (fun r => decide (r.1 ≤ c ∧ c ≤ r.2)) != k.negated

/-- One range: a single character stands for itself. -/
def rangeChars (r : Char × Char) : List Char :=
  if r.1 = r.2 then Quoted.escape Quoted.character r.1
  else Quoted.escape Quoted.character r.1 ++ '-' :: Quoted.escape Quoted.character r.2

/-- The characters of the class in grammar notation. -/
def displayChars (k : CharClass) : List Char :=
  '[' :: ((if k.negated then ['^'] else []) ++ (k.ranges.flatMap rangeChars ++ [']']))

/-- The class in grammar notation. -/
def display (k : CharClass) : String := String.ofList k.displayChars

end CharClass

end Packrat

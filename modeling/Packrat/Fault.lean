/-!
# Why a computation cannot go on

* `Fault` — the causes.  None of them is an answer about the input: each says that a stage was
  handed a grammar, an offset or an action outside the domain on which it is defined.
* `Fault.message` — the wording of those causes that have one.
-/

set_option autoImplicit false

namespace Packrat

/-- The causes that stop a stage. -/
inductive Fault where
  /-- A rule met itself at the same offset before it had an answer there. -/
  | leftRecursion (rule : String) (offset : Nat)
  /-- A reference to a rule that the grammar does not define. -/
  | undefinedRule (rule : String)
  /-- An instantiation of a template that the grammar does not define. -/
  | undefinedTemplate (template : String)
  /-- An action asked for a label that is not bound. -/
  | unboundLabel (label : String)
  /-- An offset that is no boundary of the text. -/
  | offBoundary (offset : Nat)
  /-- The labels of a rule would begin above the top of the stack of labels. -/
  | frameAboveStack (frame : Nat)
  /-- The bound on the number of steps was reached. -/
  | exhausted
  deriving DecidableEq, Repr

/-- How a cause is worded that no checked grammar has. -/
def unreachable (what : String) : String := "internal error: entered unreachable code: " ++ what

/-- The wording of a cause. -/
def Fault.message : Fault → Option String
  | .leftRecursion rule offset =>
      some s!"rule `{rule}` re-entered at offset {offset} before completing: left recursion"
  | .undefinedRule rule => some (unreachable s!"reference to undefined rule `{rule}`")
  | .undefinedTemplate template =>
      some (unreachable s!"instantiation of undefined template `{template}`")
  | .unboundLabel label => some s!"label `{label}` is not bound"
  | .offBoundary _ => none
  | .frameAboveStack _ => none
  | .exhausted => none

end Packrat

import Packrat.Fault
import Packrat.Value

/-!
# Labels and their values

* `Bindings` — the labels that an action sees, in the order in which they were bound.
* `Bindings.get?` — the most recent value of a label.
* `Bindings.get` — the same, with a fault where the label is not bound.
-/

set_option autoImplicit false

namespace Packrat

/-- Labels with their values, the earliest first.  A label may occur more than once. -/
abbrev Bindings := List (String × Value)

namespace Bindings

/-- The most recent value bound to a label. -/
def get? (b : Bindings) (label : String) : Option Value := b.reverse.lookup label

/-- The most recent value bound to a label that has to be bound. -/
def get (b : Bindings) (label : String) : Except Fault Value :=
  match b.get? label with
  | some v => .ok v
  | none => .error (.unboundLabel label)

/-- The labels in order. -/
def labels (b : Bindings) : List String := b.map (·.1)

end Bindings

end Packrat

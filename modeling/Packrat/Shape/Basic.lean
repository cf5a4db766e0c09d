import Packrat.Value

/-!
# Shapes of values

* `Shape` — what is known about a value before any input is seen.
* `Shape.optionalOf` — optional, without nesting: absent is absent.
* `Shape.common` — the one shape of several, or `dynamic`.
* `Shape.admits` — whether a value has a shape.
-/

set_option autoImplicit false

namespace Packrat

/-- What is known about a value. -/
inductive Shape where
  /-- Matched text. -/
  | text
  | bool
  /-- A type named by an action; nothing is known about its values. -/
  | declared (type : String)
  | list (element : Shape)
  | optional (element : Shape)
  /-- Any value. -/
  | dynamic
  deriving DecidableEq, Repr, Inhabited

namespace Shape

/-- Made optional; what is optional already stays as it is. -/
def optionalOf : Shape → Shape
  | .optional s => .optional s
  | s => .optional s

/-- The shape that all of the shapes have, or `dynamic` if they differ or there are none. -/
def common : List Shape → Shape
  | [] => .dynamic
  | s :: rest => if rest.all (· == s) then s else .dynamic

/-- Whether a value has a shape. -/
def admits : Shape → Value → Bool
  | .dynamic, _ => true
  | .declared _, _ => true
  | .text, v => v.text?.isSome
  | .bool, v => v.bool?.isSome
  | .list element, .list items => items.all (admits element)
  | .list _, _ => false
  | .optional element, v => v.isAbsent || admits element v

/-- The written form. -/
def display : Shape → String
  | .text => "text"
  | .bool => "bool"
  | .declared type => type
  | .list element => "[" ++ element.display ++ "]"
  | .optional element => element.display ++ "?"
  | .dynamic => "dynamic"

end Shape

end Packrat

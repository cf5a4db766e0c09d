import Packrat.Fault
import Packrat.Grammar.Basic
import Packrat.Text.LineCol

/-!
# Diagnostics

* `Diagnostic` — what is wrong with a grammar, and where.
* `Diagnostic.message` — the wording.
* `Diagnostic.sortByPlace` — diagnostics by the line and column where they begin; those that begin
  at the same place stay in the order in which they were found.
* `Diagnostic.renderAll` — one line for each, with the name of the source and the place.
-/

set_option autoImplicit false

namespace Packrat

/-- What is wrong with a grammar. -/
inductive Diagnostic where
  | ruleRedefined (rule : String) (span : Span)
  | templateRedefined (signature : String) (span : Span)
  | undefinedRule (rule : String) (span : Span)
  | paramRedefined (param : String) (span : Span)
  | argCountMismatch (signature : String) (expected got : Nat) (span : Span)
  | notATemplate (rule : String) (span : Span)
  | paramWithArgs (param : String) (span : Span)
  | labelRedefined (label : String) (span : Span)
  /-- The names along a cycle, the first one again at the end. -/
  | leftRecursion (path : List String) (span : Span)
  deriving DecidableEq, Repr

namespace Diagnostic

/-- Where it is wrong. -/
def span : Diagnostic → Span
  | ruleRedefined _ span => span
  | templateRedefined _ span => span
  | undefinedRule _ span => span
  | paramRedefined _ span => span
  | argCountMismatch _ _ _ span => span
  | notATemplate _ span => span
  | paramWithArgs _ span => span
  | labelRedefined _ span => span
  | leftRecursion _ span => span

/-- The wording. -/
def message : Diagnostic → String
  | ruleRedefined rule _ => s!"rule {rule} redefined"
  | templateRedefined signature _ => s!"template {signature} redefined"
  | undefinedRule rule _ => s!"rule {rule} undefined"
  | paramRedefined param _ => s!"parameter {param} redefined"
  | argCountMismatch signature expected got _ =>
      s!"template {signature} argument count mismatch: got {got}, expected {expected}"
  | notATemplate rule _ => s!"rule {rule} is not a template"
  | paramWithArgs param _ => s!"parameter {param} does not take arguments"
  | labelRedefined label _ => s!"label {label} redefined"
  | leftRecursion path _ =>
      "left recursive rules create an infinite loop: " ++ String.intercalate " -> " path

/-- The place of an offset in grammar text. -/
def placeOf (cs : List Char) (offset : Nat) : Except Fault LineCol :=
  match LineCol.at? cs offset with
  | some p => .ok p
  | none => .error (.offBoundary offset)

/-- A diagnostic with the places where its span begins and ends. -/
structure Placed where
  diagnostic : Diagnostic
  first : LineCol
  last : LineCol
  deriving DecidableEq, Repr

/-- Look up the places of a diagnostic. -/
def place (cs : List Char) (d : Diagnostic) : Except Fault Placed := do
  return ⟨d, ← placeOf cs d.span.lo, ← placeOf cs d.span.hi⟩

/-- Whether one diagnostic begins no later than another. -/
def Placed.beginsBy (a b : Placed) : Bool :=
  a.first.line < b.first.line || (a.first.line == b.first.line && a.first.column ≤ b.first.column)

/-- The diagnostics with their places, in the order of the places where they begin. -/
def sortByPlace (cs : List Char) (ds : List Diagnostic) : Except Fault (List Placed) := do
  return (← ds.mapM (place cs)).mergeSort Placed.beginsBy

/-- The line of one diagnostic. -/
def Placed.line (source : String) (d : Placed) : String :=
  s!"{source}:{d.first.line}.{d.first.column},{d.last.line}.{d.last.column}: "
    ++ d.diagnostic.message

/-- The lines of all diagnostics about the text `cs` of `source`. -/
def renderAll (source : String) (cs : List Char) (ds : List Diagnostic) : Except Fault String := do
  return String.intercalate "\n" ((← sortByPlace cs ds).map (Placed.line source))

end Diagnostic

end Packrat

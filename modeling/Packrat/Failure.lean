import Packrat.Expected
import Packrat.Fault
import Packrat.Text.LineCol

/-!
# The furthest failure

A run that fails reports the furthest offset at which something failed, and what would have matched
there.  The offset is found by a first pass; a second pass over the same input collects the tokens.

* `Failures` — the record that both passes share.
* `Failures.mark` — a failure at an offset; nothing is recorded inside a lookahead.
* `Failures.mute`, `Failures.unmute` — entering and leaving a lookahead.
* `Failures.collect` — from the first pass to the second.
* `ParseError` — what is reported in the end.
-/

set_option autoImplicit false

namespace Packrat

/-- The furthest failure so far. -/
structure Failures where
  /-- The furthest offset at which something failed. -/
  furthest : Nat
  /-- How many lookaheads are open. -/
  muted : Nat
  /-- Whether this is the second pass. -/
  collecting : Bool
  /-- What would have matched at the furthest offset; filled by the second pass. -/
  expected : ExpectedSet
  deriving DecidableEq, Repr

namespace Failures

/-- The record at the start of a first pass from offset `start`. -/
def init (start : Nat) : Failures := ⟨start, 0, false, .empty⟩

/-- Enter a lookahead. -/
def mute (f : Failures) : Failures := { f with muted := f.muted + 1 }

/-- Leave a lookahead. -/
def unmute (f : Failures) : Failures := { f with muted := f.muted - 1 }

/-- Begin the second pass. -/
def collect (f : Failures) : Failures := { f with muted := 0, collecting := true }

/-- Something that would have matched `token` failed at `offset`. -/
def mark (f : Failures) (offset : Nat) (token : String) : Failures :=
  if f.muted ≠ 0 then f
  else if f.collecting then
    if offset = f.furthest then { f with expected := f.expected.insert token } else f
  else if f.furthest < offset then { f with furthest := offset }
  else f

end Failures

/-- A failed parse: where, and what would have matched there. -/
structure ParseError where
  location : LineCol
  expected : ExpectedSet
  deriving DecidableEq, Repr

/-- The wording of a failed parse. -/
def ParseError.message (e : ParseError) : String :=
  s!"error at {e.location.render}: expected {e.expected.render}"

/-- What is reported of a record about a text. -/
def Failures.error (f : Failures) (cs : List Char) : Except Fault ParseError :=
  match LineCol.at? cs f.furthest with
  | some location => .ok ⟨location, f.expected⟩
  | none => .error (.offBoundary f.furthest)

end Packrat

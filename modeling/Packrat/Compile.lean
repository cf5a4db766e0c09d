import Packrat.Event
import Packrat.Grammar.Check
import Packrat.Grammar.Expansion
import Packrat.Grammar.LeftRecursion
import Packrat.GrammarText.Read

/-!
# From grammar text to a grammar that can run

* `CompileError` — the text cannot be read, or what it says is not well formed.
* `compileWithin` — read, check, expand, check for left recursion; each stage runs only if the ones
  before it found nothing.  What the stages tell comes with the answer.
* `compile` — the same with the depth that expansions are allowed.
-/

set_option autoImplicit false

namespace Packrat

/-- Why grammar text is refused. -/
inductive CompileError where
  | unreadable (source : String) (error : ParseError)
  | illFormed (rendered : String) (diagnostics : List Diagnostic)
  deriving DecidableEq, Repr

/-- The wording of a refusal. -/
def CompileError.message : CompileError → String
  | .unreadable source error => s!"error parsing {source}: {error.message}"
  | .illFormed rendered _ => rendered

/-- Refuse a grammar for its diagnostics. -/
def refuse (source : String) (cs : List Char) (ds : List Diagnostic) :
    Except Fault (Except CompileError Grammar) := do
  return .error (.illFormed (← Diagnostic.renderAll source cs ds) ds)

/-- Compile grammar text; instances of templates may ask for one another at most `depth` deep. -/
def compileWithin (depth : Nat) (source : String) (cs : List Char) :
    Told (Except CompileError Grammar) :=
  match GrammarText.readGrammar cs with
  | .error e => ⟨.ok (.error (.unreadable source e)), []⟩
  | .ok g =>
    let events := [Event.parsedGrammar source g.items.length]
    let ds := check g
    let events := events ++ [.checkedGrammar ds.length]
    if !ds.isEmpty then ⟨refuse source cs ds, events⟩
    else
      match g.expandWithin depth with
      | .error f => ⟨.error f, events⟩
      | .ok (expanded, instances) =>
        let events := events ++ [.expandedTemplates instances]
        let ds := expanded.leftRecursion
        if !ds.isEmpty then ⟨refuse source cs ds, events⟩
        else ⟨.ok (.ok expanded), events ++ [.compiledGrammar expanded.items.length]⟩

/-- Compile grammar text. -/
def compile (source : String) (cs : List Char) : Told (Except CompileError Grammar) :=
  compileWithin Grammar.depthLimit source cs

end Packrat

import Packrat.Fault
import Packrat.Text.LineCol

/-!
# What the stages tell

* `Level` — how much an event matters; `Level.shows` says which events a reader of a level sees.
* `Event` — everything a stage may tell.
* `Event.line` — the wording, with the level in front.
* `Told` — an answer with what was told on the way to it.

Events of a run carry byte offsets into the input; their wording gives lines and columns.
-/

set_option autoImplicit false

namespace Packrat

/-- The levels, the most severe first. -/
inductive Level where
  | error
  | warn
  | info
  | debug
  | trace
  deriving DecidableEq, Repr

namespace Level

/-- The place of a level, zero for the most severe. -/
def rank : Level → Nat
  | error => 0
  | warn => 1
  | info => 2
  | debug => 3
  | trace => 4

/-- Whether a reader of level `self` sees events of level `l`. -/
def shows (self l : Level) : Bool := decide (l.rank ≤ self.rank)

/-- The level in capitals. -/
def tag : Level → String
  | error => "ERROR"
  | warn => "WARN"
  | info => "INFO"
  | debug => "DEBUG"
  | trace => "TRACE"

/-- The level of a lower-case name. -/
def ofName? : String → Option Level
  | "error" => some error
  | "warn" => some warn
  | "info" => some info
  | "debug" => some debug
  | "trace" => some trace
  | _ => none

end Level

/-- The two kinds of code in a grammar. -/
inductive CodeKind where
  | action
  | predicate
  deriving DecidableEq, Repr

/-- The name of a kind of code. -/
def CodeKind.name : CodeKind → String
  | .action => "action"
  | .predicate => "predicate"

/-- What a stage may tell. -/
inductive Event where
  | parsedGrammar (source : String) (items : Nat)
  | checkedGrammar (diagnostics : Nat)
  | expandedTemplates (instances : Nat)
  | compiledGrammar (rules : Nat)
  | inferredShape (rule : String) (shape : String)
  /-- The table of actions has no entry for a piece of code. -/
  | noHandler (kind : CodeKind) (rule : String) (code : String)
  /-- There is no table of actions at all. -/
  | noTable (kind : CodeKind) (rule : String) (code : String)
  /-- The second pass matched although the first had not. -/
  | nondeterministic
  | attempt (rule : String) (start : Nat)
  | matched (rule : String) (start stop : Nat)
  | failed (rule : String) (start : Nat)
  /-- A match that was known from before. -/
  | cachedMatch (rule : String) (start stop : Nat)
  /-- A failure that was known from before. -/
  | cachedFail (rule : String) (start : Nat)
  deriving DecidableEq, Repr

namespace Event

/-- How much an event matters. -/
def level : Event → Level
  | parsedGrammar .. | checkedGrammar .. | expandedTemplates .. | compiledGrammar ..
  | inferredShape .. => .debug
  | noHandler .. | noTable .. | nondeterministic => .warn
  | attempt .. | matched .. | failed .. | cachedMatch .. | cachedFail .. => .trace

/-- The wording of an event about the text `cs`. -/
def wording (cs : List Char) : Event → String
  | parsedGrammar source items => s!"parsed grammar source={source} items={items}"
  | checkedGrammar diagnostics => s!"checked grammar diagnostics={diagnostics}"
  | expandedTemplates instances => s!"expanded templates instantiations={instances}"
  | compiledGrammar rules => s!"compiled grammar rules={rules}"
  | inferredShape rule shape => s!"inferred rule shape rule={rule} shape={shape}"
  | noHandler kind rule code =>
      s!"no handler registered for {kind.name} rule={rule} code={code}"
  | noTable .action rule code => s!"no action table; action yields no value rule={rule} code={code}"
  | noTable .predicate rule code => s!"no action table; predicate fails rule={rule} code={code}"
  | nondeterministic =>
      "parser is nondeterministic: succeeded when reparsing for error position"
  | attempt rule start =>
      s!"[PEG_TRACE] Attempting to match rule `{rule}` at {LineCol.near cs start}"
  | matched rule start stop =>
      s!"[PEG_TRACE] Matched rule `{rule}` at {LineCol.near cs start} to {LineCol.near cs stop}"
  | failed rule start =>
      s!"[PEG_TRACE] Failed to match rule `{rule}` at {LineCol.near cs start}"
  | cachedMatch rule start _ =>
      s!"[PEG_TRACE] Cached match of rule {rule} at {LineCol.near cs start}"
  | cachedFail rule start =>
      s!"[PEG_TRACE] Cached fail of rule {rule} at {LineCol.near cs start}"

/-- The line of an event: its level and its wording. -/
def line (cs : List Char) (e : Event) : String := e.level.tag ++ " " ++ e.wording cs

end Event

/-- An answer of a stage, or a fault, with what the stage told on the way. -/
structure Told (α : Type) where
  answer : Except Fault α
  events : List Event
  deriving Repr

/-- The lines of those events that a reader of level `l` sees. -/
def eventLines (l : Level) (cs : List Char) (events : List Event) : List String :=
  (events.filter fun e => l.shows e.level).map (Event.line cs)

end Packrat

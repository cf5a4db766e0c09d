import Packrat.Bindings
import Packrat.Event
import Packrat.Text.Blank

/-!
# Actions and predicates

The code in a grammar is not looked into.  Whoever runs a grammar brings handlers, which are told
which piece of code is meant and which labels are bound.

* `Call` — the piece of code that is meant.
* `Handlers` — what answers calls; it may carry a state of its own from call to call.
* `Handlers.ofFunctions` — handlers that depend on nothing but the call and the labels.
* `Handlers.none` — no handlers: actions yield no value, predicates fail, and each call warns.
* `ActionTable` — handlers looked up by their code, without the blank characters at its ends.
-/

set_option autoImplicit false

namespace Packrat

/-- A call of an action or a predicate. -/
structure Call where
  /-- The rule that contains the code. -/
  rule : String
  /-- The type that an action names for its result; predicates have none. -/
  hint : Option String
  /-- The code between the braces, as it is written. -/
  code : String
  deriving DecidableEq, Repr

/-- The answer to a call, with the state after it and what the handler told. -/
structure Response (σ α : Type) where
  answer : Except Fault α
  state : σ
  events : List Event

/-- What answers calls. -/
structure Handlers (σ : Type) where
  action : Call → Bindings → σ → Response σ Value
  predicate : Call → Bindings → σ → Response σ Bool

namespace Handlers

/-- Handlers that depend on nothing but the call and the labels. -/
def ofFunctions (action : Call → Bindings → Value) (predicate : Call → Bindings → Bool) :
    Handlers Unit where
  action call b s := ⟨.ok (action call b), s, []⟩
  predicate call b s := ⟨.ok (predicate call b), s, []⟩

/-- No handlers at all. -/
def none (σ : Type) : Handlers σ where
  action call _ s := ⟨.ok .absent, s, [.noTable .action call.rule call.code]⟩
  predicate call _ s := ⟨.ok false, s, [.noTable .predicate call.rule call.code]⟩

end Handlers

/-- Handlers by their code; of two with the same code the first in the list counts. -/
structure ActionTable (σ : Type) where
  actions : List (String × (Bindings → σ → Except Fault Value × σ))
  predicates : List (String × (Bindings → σ → Except Fault Bool × σ))

namespace ActionTable

variable {σ : Type}

/-- The table without entries. -/
def empty : ActionTable σ := ⟨[], []⟩

/-- Register an action; it replaces one with the same code. -/
def onAction (t : ActionTable σ) (code : String) (f : Bindings → σ → Except Fault Value × σ) :
    ActionTable σ :=
  { t with actions := (trimBlank code, f) :: t.actions }

/-- Register a predicate; it replaces one with the same code. -/
def onPredicate (t : ActionTable σ) (code : String) (f : Bindings → σ → Except Fault Bool × σ) :
    ActionTable σ :=
  { t with predicates := (trimBlank code, f) :: t.predicates }

/-- The handlers of a table; a call without an entry warns. -/
def handlers (t : ActionTable σ) : Handlers σ where
  action call b s :=
    match t.actions.lookup (trimBlank call.code) with
    | some f => ⟨(f b s).1, (f b s).2, []⟩
    | none => ⟨.ok .absent, s, [.noHandler .action call.rule call.code]⟩
  predicate call b s :=
    match t.predicates.lookup (trimBlank call.code) with
    | some f => ⟨(f b s).1, (f b s).2, []⟩
    | none => ⟨.ok false, s, [.noHandler .predicate call.rule call.code]⟩

end ActionTable

end Packrat

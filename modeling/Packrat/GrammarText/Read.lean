import Packrat.GrammarText.Lexeme

/-!
# Reading grammars

The levels of the notation, from the outermost in: choices, actions, sequences, labels, predicates,
repetitions, operands.  An operand in parentheses goes back to the outermost level.

* `reference` — a rule name with optional arguments between angle brackets.
* `expr` — an expression.
* `item` — a rule or a template.
* `grammar` — optional leading code, then items.
* `readGrammar` — a whole text as a grammar, or the furthest failure.
-/

set_option autoImplicit false

namespace Packrat.GrammarText

open Reader

/-- Between two parts, with blanks around it. -/
def separator (mark : Char) : Reader Unit := do
  blanks
  exactly [mark]
  blanks

/-- A name with optional arguments, nested at most `fuel` deep.  The span ends with the last
argument, before the closing bracket. -/
def referenceWithin : (fuel : Nat) → Reader Reference
  | 0 => never
  | fuel + 1 => fun c =>
    let arguments : Reader (List Reference × Nat) := do
      exactly ['<']
      blanks
      let args ← sepBy1 (referenceWithin fuel) (separator ',')
      let hi ← position
      blanks
      exactly ['>']
      return (args, hi)
    let whole : Reader Reference := do
      let lo ← position
      let name ← ident
      let nameEnd ← position
      match ← optional arguments with
      | some (args, hi) => return .mk ⟨lo, hi⟩ name args
      | none => return .mk ⟨lo, nameEnd⟩ name []
    whole c

/-- A reference. -/
def reference : Reader Reference := fun c => referenceWithin (c.rest.length + 1) c

/-- The type named by an action: a name or a literal. -/
def actionType : Reader String := orElse (do return (← ident).name) stringLiteral

/-- A list of expressions as one: a single expression stays as it is. -/
def flatten (wrap : List Expr → Expr) : List Expr → Expr
  | [x] => x
  | xs => wrap xs

/-- A mark with a predicate's body after it. -/
def marked {α : Type} (mark : Char) (body : Reader α) : Reader α := do
  exactly [mark]
  blanks
  body

/-- Something with the offsets where it begins and ends. -/
def spanned {α : Type} (p : Reader α) : Reader (α × Span) := do
  let lo ← position
  let a ← p
  let hi ← position
  return (a, ⟨lo, hi⟩)

/-- A reference as an operand.  It does not stand before an arrow or a colon, where a name begins an
item, a label or an action. -/
def referenceOperand : Reader Expr := do
  let r ← reference
  absent (do
    blanks
    exactly ['<', '-'])
  absent (exactly [':'])
  return .ref r

/-- A literal that is not the type of an action. -/
def literalOperand : Reader Expr := do
  let lo ← position
  let s ← stringLiteral
  absent (exactly [':'])
  let hi ← position
  return .literal ⟨lo, hi⟩ s

/-- The innermost level. -/
def operand (inner : Reader Expr) : Reader Expr :=
  firstOf [
    do
      let (x, s) ← spanned (do
        exactly ['(']
        blanks
        let x ← inner
        blanks
        exactly [')']
        return x)
      return .group s x,
    do
      let (k, s) ← spanned (marked '&' code)
      return .codePredicate s .positive k,
    do
      let (k, s) ← spanned (marked '!' code)
      return .codePredicate s .negative k,
    referenceOperand,
    literalOperand,
    do
      let (k, s) ← spanned charClass
      return .charClass s k,
    do
      let (_, s) ← spanned (exactly ['.'])
      return .anyChar s]

/-- The three marks of repetition. -/
inductive Repetition where
  | star
  | plus
  | opt
  deriving DecidableEq, Repr

/-- An expression with a mark of repetition after it. -/
def Repetition.apply (s : Span) (x : Expr) : Repetition → Expr
  | star => .star s x
  | plus => .plus s x
  | opt => .opt s x

/-- A mark of repetition. -/
def repetition : Reader Repetition :=
  firstOf [
    do
      exactly ['*']
      return .star,
    do
      exactly ['+']
      return .plus,
    do
      exactly ['?']
      return .opt]

/-- An operand with any number of marks of repetition, each about all that stands before it. -/
def repeated (inner : Reader Expr) : Reader Expr := do
  let lo ← position
  let x ← operand inner
  let marks ← many (do
    let r ← repetition
    let hi ← position
    return (r, hi))
  return marks.foldl (fun x m => m.1.apply ⟨lo, m.2⟩ x) x

/-- A lookahead, or a repetition. -/
def predicate (inner : Reader Expr) : Reader Expr :=
  firstOf [
    do
      let (x, s) ← spanned (marked '&' (repeated inner))
      return .lookahead s .positive x,
    do
      let (x, s) ← spanned (marked '!' (repeated inner))
      return .lookahead s .negative x,
    repeated inner]

/-- A predicate, with or without a label.  A colon with code after it belongs to an action. -/
def labelled (inner : Reader Expr) : Reader Expr :=
  orElse
    (do
      let ((name, x), s) ← spanned (do
        let name ← ident
        exactly [':']
        absent (do
          blanks
          exactly ['\x7b'])
        blanks
        let x ← predicate inner
        return (name, x))
      return .label s name x)
    (predicate inner)

/-- Expressions one after the other. -/
def sequence (inner : Reader Expr) : Reader Expr := do
  let (xs, s) ← spanned (sepBy1 (labelled inner) blanks)
  return flatten (.seq s) xs

/-- The type of an action, a colon and its code. -/
def actionTail : Reader (String × Code) := do
  let hint ← actionType
  exactly [':']
  blanks
  let k ← code
  return (hint, k)

/-- A sequence with an action after it, a sequence, or an action on its own. -/
def acted (inner : Reader Expr) : Reader Expr :=
  orElse
    (do
      let ((x, tail), s) ← spanned (do
        let x ← sequence inner
        let tail ← optional (do
          blanks
          actionTail)
        return (x, tail))
      match tail with
      | some (hint, k) => return .action s hint k x
      | none => return x)
    (do
      let ((hint, k), s) ← spanned actionTail
      return .bareAction s hint k)

/-- Alternatives. -/
def alternatives (inner : Reader Expr) : Reader Expr := do
  let (xs, s) ← spanned (sepBy1 (acted inner) (separator '/'))
  return flatten (.choice s) xs

/-- An expression whose parentheses are nested less than `fuel` deep. -/
def exprWithin : (fuel : Nat) → Reader Expr
  | 0 => never
  | fuel + 1 => fun c => alternatives (exprWithin fuel) c

/-- An expression. -/
def expr : Reader Expr := fun c => exprWithin (c.rest.length + 1) c

/-- The parameters of a template. -/
def params : Reader (List Ident) := do
  blanks
  exactly ['<']
  blanks
  let names ← sepBy1 ident (separator ',')
  blanks
  exactly ['>']
  return names

/-- A definition. -/
def item : Reader Item := do
  let ((name, ps, x), s) ← spanned (do
    let name ← ident
    let ps ← optional params
    blanks
    exactly ['<', '-']
    blanks
    let x ← expr
    return (name, ps, x))
  match ps with
  | some ps => return .template ⟨s, name, ps, x⟩
  | none => return .rule ⟨s, name, x⟩

/-- Something with blanks after it. -/
def thenBlanks {α : Type} (p : Reader α) : Reader α := do
  let a ← p
  blanks
  return a

/-- Optional leading code, then definitions. -/
def grammar : Reader Grammar := do
  blanks
  let preamble ← optional (thenBlanks code)
  let items ← many (thenBlanks item)
  return ⟨preamble, items⟩

/-- Read all of a text: what is left over after a match is a failure at its end. -/
def readAll {α : Type} (p : Reader α) (cs : List Char) : Except Furthest α :=
  let reply := p ⟨0, cs⟩
  match reply.result with
  | some (a, ⟨_, []⟩) => .ok a
  | some (_, ⟨offset, _ :: _⟩) => .error (reply.furthest.merge (.one offset "EOF"))
  | none => .error reply.furthest

/-- The text of a grammar as a grammar. -/
def readGrammar (cs : List Char) : Except ParseError Grammar :=
  match readAll grammar cs with
  | .ok g => .ok g
  | .error f => .error ⟨LineCol.near cs f.offset, f.expected⟩

end Packrat.GrammarText

import Packrat.Grammar.Basic
import Packrat.GrammarText.Reader
import Packrat.Text.Numeric

/-!
# The small parts of grammar text

* `blanks` — white space and comments; what fails inside is not told.
* `ident` — a letter or underscore, then letters, digits and underscores.
* `code` — opaque code between braces; braces inside come in pairs.
* `stringLiteral` — text between double or single quotes.
* `charClass` — characters and ranges of characters between brackets.
* `escape` — what may follow a backslash.
-/

set_option autoImplicit false

namespace Packrat.GrammarText

open Reader

/-- Any character. -/
def anyCharacter : Reader Char := satisfy "[_]" fun _ => true

/-- A comment, up to the end of the line. -/
def comment : Reader Unit := do
  exactly ['#']
  let _ ← many (do
    absent (satisfy "" (· == '\n'))
    anyCharacter)

/-- Whether a character is white space between the parts of a grammar. -/
def isSpace (c : Char) : Bool := c == ' ' || c == '\t' || c == '\r' || c == '\n'

/-- White space and comments. -/
def blanks : Reader Unit :=
  quiet (do
    let _ ← many (orElse (do let _ ← satisfy "" isSpace) comment))

/-- Whether a name may begin with a character. -/
def startsName (c : Char) : Bool := isAlphabetic c || c == '_'

/-- Whether a name may go on with a character. -/
def continuesName (c : Char) : Bool := isAlphanumeric c || c == '_'

/-- A name. -/
def ident : Reader Ident := do
  let lo ← position
  let first ← satisfy "[c if c.is_alphabetic() || c == '_']" startsName
  let others ← many (satisfy "[c if c.is_alphanumeric() || c == '_']" continuesName)
  let hi ← position
  return ⟨String.ofList (first :: others), ⟨lo, hi⟩⟩

/-- Code with its braces in pairs, nested at most `fuel` deep.  It may be empty. -/
def codeBody : (fuel : Nat) → Reader (List Char)
  | 0 => never
  | fuel + 1 => fun c =>
    let nested : Reader (List Char) := do
      exactly ['\x7b']
      let inner ← codeBody fuel
      exactly ['\x7d']
      return '\x7b' :: (inner ++ ['\x7d'])
    let plain : Reader (List Char) := do
      let x ← satisfy "[^ '\x7b' | '\x7d']" fun x => x != '\x7b' && x != '\x7d'
      return [x]
    let body : Reader (List Char) := do
      let parts ← many (orElse nested plain)
      return parts.flatten
    body c

/-- Opaque code between braces. -/
def code : Reader Code := do
  let lo ← position
  exactly ['\x7b']
  let text ← fun c => codeBody (c.rest.length + 1) c
  exactly ['\x7d']
  let hi ← position
  return ⟨String.ofList text, ⟨lo, hi⟩⟩

/-- Whether a character is a hexadecimal digit. -/
def isHexDigit (c : Char) : Bool :=
  c.isDigit || decide ('a' ≤ c ∧ c ≤ 'f') || decide ('A' ≤ c ∧ c ≤ 'F')

/-- The value of a hexadecimal digit. -/
def hexDigitValue (c : Char) : Nat :=
  if c.isDigit then c.toNat - '0'.toNat
  else if 'a' ≤ c then c.toNat - 'a'.toNat + 10
  else c.toNat - 'A'.toNat + 10

/-- The value of hexadecimal digits, the first the most significant. -/
def hexValue (ds : List Char) : Nat := ds.foldl (fun n d => 16 * n + hexDigitValue d) 0

/-- The character with a code point, if there is one. -/
def charOfCode? (n : Nat) : Option Char :=
  if h : n.isValidChar then some (Char.ofNatAux n h) else none

/-- Up to `n` hexadecimal digits. -/
def hexDigits (n : Nat) : Reader (List Char) :=
  upTo n (satisfy "['0'..='9' | 'a'..='f' | 'A'..='F']" isHexDigit)

/-- The character that digits stand for. -/
def charOfDigits (ds : List Char) : Reader Char :=
  match charOfCode? (hexValue ds) with
  | some c => pure c
  | none => expecting "valid character code"

/-- A single character after the backslash, and the character that it stands for. -/
def shortEscape (written meant : Char) : Reader Char := do
  exactly [written]
  return meant

/-- Exactly two hexadecimal digits after an `x`. -/
def byteEscape : Reader Char := do
  exactly ['x']
  let ds ← hexDigits 2
  if ds.length = 2 then charOfDigits ds else never

/-- One to six hexadecimal digits between braces after a `u`. -/
def codePointEscape : Reader Char := do
  exactly ['u', '\x7b']
  let ds ← hexDigits 6
  if ds.isEmpty then never
  else do
    exactly ['\x7d']
    charOfDigits ds

/-- What may follow a backslash. -/
def escape : Reader Char :=
  firstOf [
    shortEscape 'n' '\n', shortEscape 't' '\t', shortEscape 'r' '\r', shortEscape '0' '\x00',
    shortEscape '\\' '\\', shortEscape '"' '"', shortEscape '\'' '\'',
    shortEscape ']' ']', shortEscape '-' '-', shortEscape '^' '^',
    byteEscape, codePointEscape]

/-- An escape, or any character but those at which the text stops; a backslash that begins no escape
stands for itself. -/
def escapedOr (stops : Char → Bool) : Reader Char :=
  orElse
    (do
      exactly ['\\']
      escape)
    (do
      absent (satisfy "" stops)
      anyCharacter)

/-- A character of a literal. -/
def literalChar : Reader Char := escapedOr (· == '\n')

/-- Text between two of the given quotes. -/
def quotedBy (q : Char) : Reader String := do
  exactly [q]
  let cs ← many (do
    absent (exactly [q])
    literalChar)
  exactly [q]
  return String.ofList cs

/-- Text between double or single quotes. -/
def stringLiteral : Reader String := orElse (quotedBy '"') (quotedBy '\'')

/-- A character of a class. -/
def classChar : Reader Char := escapedOr fun c => c == '\n' || c == ']'

/-- A range that ascends, or else a single character. -/
def classRange : Reader (Char × Char) :=
  orElse
    (do
      let lo ← classChar
      exactly ['-']
      let hi ← classChar
      if lo ≤ hi then return (lo, hi) else expecting "ascending character range")
    (do
      let c ← classChar
      return (c, c))

/-- A class of characters. -/
def charClass : Reader CharClass := do
  exactly ['[']
  let caret ← optional (exactly ['^'])
  let ranges ← many classRange
  exactly [']']
  return ⟨caret.isSome, ranges⟩

end Packrat.GrammarText

import Packrat.Text.GraphemeExtend
import Packrat.Text.Printable

/-!
# Text shown between quotes

* `Quoted.escape` — how one character is shown: `\0 \t \r \n \\` and the escaped quotes by a
  backslash, characters that cannot be shown on their own as `\u` with their code point in
  hexadecimal between braces, every other character as itself.
* `quote` — a text between double quotes.
-/

set_option autoImplicit false

namespace Packrat

namespace Quoted

/-- Which of the two quotes is written with a backslash. -/
structure Style where
  single : Bool
  double : Bool
  deriving DecidableEq, Repr

/-- Text between double quotes: only the double quote needs the backslash. -/
def text : Style := ⟨false, true⟩

/-- A character on its own: both quotes are written with a backslash. -/
def character : Style := ⟨true, true⟩

/-- The code point of a character, in lower-case hexadecimal between braces. -/
def byCode (c : Char) : List Char :=
  ['\\', 'u', '\x7b'] ++ Nat.toDigits 16 c.toNat ++ ['\x7d']

/-- How one character is shown. -/
def escape (style : Style) (c : Char) : List Char :=
  if c = '\x00' then ['\\', '0']
  else if c = '\t' then ['\\', 't']
  else if c = '\r' then ['\\', 'r']
  else if c = '\n' then ['\\', 'n']
  else if c = '\\' then ['\\', '\\']
  else if c = '"' ∧ style.double then ['\\', '"']
  else if c = '\'' ∧ style.single then ['\\', '\'']
  else if joinsPrevious c then byCode c
  else if isPrintable c then [c]
  else byCode c

end Quoted

/-- The characters of a text between double quotes. -/
def quoteChars (cs : List Char) : List Char :=
  '"' :: (cs.flatMap (Quoted.escape Quoted.text) ++ ['"'])

/-- A text between double quotes. -/
def quote (s : String) : String := String.ofList (quoteChars s.toList)

end Packrat

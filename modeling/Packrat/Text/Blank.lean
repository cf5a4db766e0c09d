import Packrat.Text.Ranges

/-!
# Blank characters

* `isBlank` — the property White_Space.
* `trimBlank` — a text without the blank characters at its two ends.
-/

namespace Packrat

/-- The code points with the property White_Space. -/
def blankRanges : Ranges :=
  [(0x9, 0xD), (0x20, 0x20), (0x85, 0x85), (0xA0, 0xA0), (0x1680, 0x1680), (0x2000, 0x200A),
   (0x2028, 0x2029), (0x202F, 0x202F), (0x205F, 0x205F), (0x3000, 0x3000)]

/-- The standard's property White_Space. -/
def isBlank (c : Char) : Bool := blankRanges.holds c.toNat

/-- The characters without the blank ones at either end. -/
def trimBlankChars (cs : List Char) : List Char :=
  ((cs.dropWhile isBlank).reverse.dropWhile isBlank).reverse

/-- The text without the blank characters at either end. -/
def trimBlank (s : String) : String := String.ofList (trimBlankChars s.toList)

end Packrat

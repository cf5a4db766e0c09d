import Packrat.Text.Offset

/-!
# Lines and columns

* `LineCol` — a place in a text: line and column from one, and the byte offset from zero.
* `LineCol.step` — a newline opens the next line; any other character is one column.
* `LineCol.at?` — the place of an offset, defined at the boundaries of the text.
* `LineCol.near` — the same at boundaries; inside a character, the place before that character.
-/

set_option autoImplicit false

namespace Packrat

/-- A place in a text. -/
structure LineCol where
  line : Nat
  column : Nat
  offset : Nat
  deriving DecidableEq, Repr

namespace LineCol

/-- The place before the first character. -/
def start : LineCol := ⟨1, 1, 0⟩

/-- The place after a character. -/
def step (p : LineCol) (c : Char) : LineCol :=
  if c = '\n' then ⟨p.line + 1, 1, p.offset + c.utf8Size⟩
  else ⟨p.line, p.column + 1, p.offset + c.utf8Size⟩

/-- The place after all of `before`. -/
def after (before : List Char) : LineCol := before.foldl step start

/-- The place at offset `n` of a text; `none` if `n` is no boundary. -/
def at? (cs : List Char) (n : Nat) : Option LineCol := (takeBytes? cs n).map after

/-- The place reached by walking at most `n` bytes from `p`. -/
def advance (p : LineCol) : List Char → Nat → LineCol
  | [], _ => p
  | c :: cs, n => if n = 0 ∨ n < c.utf8Size then p else advance (p.step c) cs (n - c.utf8Size)

/-- The last place that is no more than `n` bytes into the text. -/
def near (cs : List Char) (n : Nat) : LineCol := advance start cs n

/-- Line and column with a colon between. -/
def render (p : LineCol) : String := s!"{p.line}:{p.column}"

instance : ToString LineCol := ⟨render⟩

theorem advance_of_takeBytes? {cs before : List Char} {n : Nat} (p : LineCol)
    (h : takeBytes? cs n = some before) : advance p cs n = before.foldl step p := by
  obtain ⟨rest, rfl, rfl⟩ := takeBytes?_eq_some_iff.1 h
  clear h
  induction before generalizing p with
  | nil => cases rest <;> simp [advance, byteLength]
  | cons c cs ih =>
    have hc := c.utf8Size_pos
    have hn : ¬ (byteLength (c :: cs) = 0 ∨ byteLength (c :: cs) < c.utf8Size) := by
      simp only [byteLength]; omega
    simp only [List.cons_append, advance, if_neg hn, List.foldl_cons]
    simpa [byteLength] using ih (p.step c)

/-- At a boundary the two notions of place agree. -/
theorem near_of_at? {cs : List Char} {n : Nat} {p : LineCol} (h : at? cs n = some p) :
    near cs n = p := by
  obtain ⟨before, hb, rfl⟩ := Option.map_eq_some_iff.1 h
  exact advance_of_takeBytes? start hb

end LineCol

end Packrat

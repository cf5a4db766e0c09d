import Packrat.Failure
import Packrat.Text.Quoted

/-!
# Readers

A reader looks at a text from a cursor.  It either matches, with a result and a later cursor, or it
does not; in both cases it tells the furthest offset at which one of its terminals failed and what
the terminals that failed there would have matched.

* `Cursor`, `Furthest`, `Reply`, `Reader`.
* `Reader.orElse` — ordered choice: the second reader runs only where the first does not match.
* `Reader.many`, `Reader.sepBy1`, `Reader.upTo` — repetition takes all it can get.
* `Reader.quiet`, `Reader.absent` — what fails inside is not told.
-/

set_option autoImplicit false

namespace Packrat

/-- A place in the text that is read: the offset, and what follows. -/
structure Cursor where
  offset : Nat
  rest : List Char
  deriving DecidableEq, Repr

/-- The furthest failure of a terminal. -/
structure Furthest where
  offset : Nat
  expected : ExpectedSet
  deriving DecidableEq, Repr

namespace Furthest

/-- Nothing failed yet. -/
def none : Furthest := ⟨0, .empty⟩

/-- One terminal failed. -/
def one (offset : Nat) (token : String) : Furthest := ⟨offset, ⟨[token]⟩⟩

/-- The further one of two failures; what both expected if they are at the same offset. -/
def merge (a b : Furthest) : Furthest :=
  if a.offset < b.offset then b
  else if b.offset < a.offset then a
  else ⟨a.offset, a.expected.union b.expected⟩

end Furthest

/-- What a reader answers. -/
structure Reply (α : Type) where
  result : Option (α × Cursor)
  furthest : Furthest
  deriving Repr

/-- A reader of texts. -/
def Reader (α : Type) : Type := Cursor → Reply α

namespace Reader

variable {α β : Type}

/-- Match nothing. -/
protected def pure (a : α) : Reader α := fun c => ⟨some (a, c), .none⟩

/-- One reader after the other. -/
protected def bind (p : Reader α) (f : α → Reader β) : Reader β := fun c =>
  let first := p c
  match first.result with
  | none => ⟨none, first.furthest⟩
  | some (a, next) =>
    let second := f a next
    ⟨second.result, first.furthest.merge second.furthest⟩

instance : Monad Reader where
  pure := Reader.pure
  bind := Reader.bind

/-- Never match, and tell nothing. -/
def never : Reader α := fun _ => ⟨none, .none⟩

/-- Ordered choice. -/
def orElse (p q : Reader α) : Reader α := fun c =>
  let first := p c
  match first.result with
  | some r => ⟨some r, first.furthest⟩
  | none =>
    let second := q c
    ⟨second.result, first.furthest.merge second.furthest⟩

/-- The first reader of a list that matches. -/
def firstOf : List (Reader α) → Reader α
  | [] => never
  | p :: rest => orElse p (firstOf rest)

/-- The offset of the cursor. -/
def position : Reader Nat := fun c => ⟨some (c.offset, c), .none⟩

/-- Not match, and tell that `token` was expected. -/
def expecting (token : String) : Reader α := fun c => ⟨none, .one c.offset token⟩

/-- One character that passes a test. -/
def satisfy (token : String) (test : Char → Bool) : Reader Char := fun c =>
  match c.rest with
  | x :: rest =>
    if test x then ⟨some (x, ⟨c.offset + x.utf8Size, rest⟩), .none⟩
    else ⟨none, .one c.offset token⟩
  | [] => ⟨none, .one c.offset token⟩

/-- The rest of `cs` after `lit`, if `cs` begins with it. -/
def strip? : List Char → List Char → Option (List Char)
  | [], cs => some cs
  | _ :: _, [] => none
  | x :: lit, y :: cs => if x = y then strip? lit cs else none

/-- Exactly the characters `lit`. -/
def exactly (lit : List Char) : Reader Unit := fun c =>
  match strip? lit c.rest with
  | some rest => ⟨some ((), ⟨c.offset + byteLength lit, rest⟩), .none⟩
  | none => ⟨none, .one c.offset (String.ofList (quoteChars lit))⟩

/-- Match as `p` does, and tell nothing of what fails inside. -/
def quiet (p : Reader α) : Reader α := fun c => ⟨(p c).result, .none⟩

/-- Match nothing, where `p` does not match. -/
def absent (p : Reader α) : Reader Unit := fun c =>
  match (p c).result with
  | some _ => ⟨none, .none⟩
  | none => ⟨some ((), c), .none⟩

/-- Match `p` or nothing. -/
def optional (p : Reader α) : Reader (Option α) :=
  orElse (p >>= fun a => pure (some a)) (pure none)

/-- Match `p` as often as it matches, at most `n` times. -/
def upTo : Nat → Reader α → Reader (List α)
  | 0, _ => pure []
  | n + 1, p => fun c =>
    orElse (p >>= fun a => upTo n p >>= fun as => pure (a :: as)) (pure []) c

/-- Match `p`, which never matches nothing, as often as it matches. -/
def many (p : Reader α) : Reader (List α) := fun c => upTo (c.rest.length + 1) p c

/-- Match `p` once or more with `sep` between. -/
def sepBy1 (p : Reader α) (sep : Reader Unit) : Reader (List α) := do
  let first ← p
  let others ← many (sep >>= fun _ => p)
  return first :: others

end Reader

end Packrat

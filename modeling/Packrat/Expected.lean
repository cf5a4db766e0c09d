/-!
# What would have matched

* `ExpectedSet` — a set of tokens, kept as a strictly ascending list.
* `ExpectedSet.insert`, `ExpectedSet.union` — adding tokens keeps the order.
* `ExpectedSet.render` — the tokens as the end of an error message.
-/

set_option autoImplicit false

namespace Packrat

/-- A set of tokens in ascending order of their code points. -/
structure ExpectedSet where
  tokens : List String
  deriving DecidableEq, Repr

namespace ExpectedSet

/-- No tokens. -/
def empty : ExpectedSet := ⟨[]⟩

/-- Put a token into an ascending list. -/
def insertToken (token : String) : List String → List String
  | [] => [token]
  | t :: rest =>
    if token = t then t :: rest
    else if token < t then token :: t :: rest
    else t :: insertToken token rest

/-- Add a token. -/
def insert (s : ExpectedSet) (token : String) : ExpectedSet := ⟨insertToken token s.tokens⟩

/-- Add all tokens of another set. -/
def union (s t : ExpectedSet) : ExpectedSet := t.tokens.foldl insert s

/-- Whether there are no tokens. -/
def isEmpty (s : ExpectedSet) : Bool := s.tokens.isEmpty

/-- The tokens as the end of an error message. -/
def render (s : ExpectedSet) : String :=
  match s.tokens with
  | [] => "<unreported>"
  | [only] => only
  | several => "one of " ++ String.intercalate ", " several

theorem mem_insertToken {t token : String} {l : List String} :
    t ∈ insertToken token l ↔ t = token ∨ t ∈ l := by
  induction l with
  | nil => simp [insertToken]
  | cons u rest ih =>
    simp only [insertToken]
    split
    · subst_vars; simp
    · split
      · simp
      · simp only [List.mem_cons, ih]
        constructor
        · rintro (h | h | h) <;> simp [h]
        · rintro (h | h | h) <;> simp [h]

/-- Inserting adds the token and nothing else. -/
theorem mem_insert {t token : String} {s : ExpectedSet} :
    t ∈ (s.insert token).tokens ↔ t = token ∨ t ∈ s.tokens := mem_insertToken

end ExpectedSet

end Packrat

import Packrat.Number.Shortest
import Packrat.Text.Quoted

/-!
# The values that a match computes

* `Value` — absent, truth values, text, integers, floating-point numbers, lists, and maps that keep
  the order in which their keys came in.
* `Value.same` — equality: maps are compared without regard to order, numbers as numbers.
* `Value.display` — the written form.
* `Value.mapOf` — a map from pairs: a repeated key takes the later value at its first place.
-/

set_option autoImplicit false

namespace Packrat

/-- A computed value. -/
inductive Value where
  | absent
  | bool (b : Bool)
  | text (s : String)
  | int (i : Int)
  | float (x : Binary64)
  | list (items : List Value)
  | map (entries : List (String × Value))
  deriving Repr, Inhabited

namespace Value

/-- Whether there is no value. -/
def isAbsent : Value → Bool
  | .absent => true
  | _ => false

/-- The text of a text value. -/
def text? : Value → Option String
  | .text s => some s
  | _ => none

/-- The truth value. -/
def bool? : Value → Option Bool
  | .bool b => some b
  | _ => none

/-- The integer. -/
def int? : Value → Option Int
  | .int i => some i
  | _ => none

/-- The items of a list value. -/
def list? : Value → Option (List Value)
  | .list items => some items
  | _ => none

/-- The items of a list; every other value has none. -/
def items (v : Value) : List Value := v.list?.getD []

/-- Put a key into an entry list: a key that is there keeps its place. -/
def insertEntry (key : String) (v : Value) : List (String × Value) → List (String × Value)
  | [] => [(key, v)]
  | (k, w) :: rest => if k = key then (k, v) :: rest else (k, w) :: insertEntry key v rest

/-- The map of the given pairs. -/
def mapOf (pairs : List (String × Value)) : Value :=
  .map (pairs.foldl (fun entries p => insertEntry p.1 p.2 entries) [])

mutual

/-- Equality of values. -/
def same : Value → Value → Bool
  | .absent, .absent => true
  | .bool a, .bool b => a == b
  | .text a, .text b => a == b
  | .int a, .int b => a == b
  | .float a, .float b => a.same b
  | .list as, .list bs => sameItems as bs
  | .map as, .map bs => as.length == bs.length && sameEntries as bs
  | _, _ => false

/-- Item by item. -/
def sameItems : List Value → List Value → Bool
  | [], [] => true
  | a :: as, b :: bs => a.same b && sameItems as bs
  | _, _ => false

/-- Every entry of the first list has its like in the second. -/
def sameEntries : List (String × Value) → List (String × Value) → Bool
  | [], _ => true
  | (k, a) :: as, bs =>
    (match bs.lookup k with
      | some b => a.same b
      | none => false) && sameEntries as bs

end

/-- The decimal digits of an integer, with a sign if it is negative. -/
def intChars (i : Int) : List Char :=
  if i < 0 then '-' :: Nat.toDigits 10 i.natAbs else Nat.toDigits 10 i.natAbs

mutual

/-- The characters of the written form. -/
def displayChars : Value → List Char
  | .absent => ['n', 'u', 'l', 'l']
  | .bool b => if b then ['t', 'r', 'u', 'e'] else ['f', 'a', 'l', 's', 'e']
  | .text s => quoteChars s.toList
  | .int i => intChars i
  | .float x => x.text
  | .list items => '[' :: (displayItems items ++ [']'])
  | .map entries => '\x7b' :: (displayEntries entries ++ ['\x7d'])

/-- Items with a comma and a space between them. -/
def displayItems : List Value → List Char
  | [] => []
  | [v] => v.displayChars
  | v :: rest => v.displayChars ++ (',' :: ' ' :: displayItems rest)

/-- Entries as a quoted key, a colon, a space and the value, with a comma and a space between. -/
def displayEntries : List (String × Value) → List Char
  | [] => []
  | [(k, v)] => quoteChars k.toList ++ (':' :: ' ' :: v.displayChars)
  | (k, v) :: rest =>
      quoteChars k.toList ++ (':' :: ' ' :: v.displayChars) ++ (',' :: ' ' :: displayEntries rest)

end

/-- The written form. -/
def display (v : Value) : String := String.ofList v.displayChars

instance : ToString Value := ⟨display⟩

end Value

end Packrat

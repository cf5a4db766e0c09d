import Packrat.Text.Offset

/-!
# Input to be matched

* `Input` — a text with an index of what follows each offset, so that looking at an offset does not
  walk to it.
* `Input.at?` — what follows an offset; `Input.at?_eq` says that it is `dropBytes?`.
* `Input.charAt?`, `Input.holdsAt`, `Input.isEnd` — the character and the literal at an offset, and
  whether the offset is the end.
-/

set_option autoImplicit false

namespace Packrat

/-- For each offset up to the end what follows it, or nothing where the offset is no boundary. -/
def restsOf : List Char → List (Option (List Char))
  | [] => [some []]
  | c :: cs => some (c :: cs) :: (List.replicate (c.utf8Size - 1) none ++ restsOf cs)

/-- The same, put after what is there. -/
def pushRests (acc : Array (Option (List Char))) : List Char → Array (Option (List Char))
  | [] => acc.push (some [])
  | c :: cs => pushRests (acc.push (some (c :: cs)) ++ Array.replicate (c.utf8Size - 1) none) cs

theorem pushRests_toList (acc : Array (Option (List Char))) (cs : List Char) :
    (pushRests acc cs).toList = acc.toList ++ restsOf cs := by
  induction cs generalizing acc with
  | nil => simp [pushRests, restsOf]
  | cons c cs ih => simp [pushRests, restsOf, ih]

theorem length_restsOf (cs : List Char) : (restsOf cs).length = byteLength cs + 1 := by
  induction cs with
  | nil => rfl
  | cons c cs ih =>
    have hc := c.utf8Size_pos
    simp only [restsOf, List.length_cons, List.length_append, List.length_replicate, ih, byteLength]
    omega

theorem join_restsOf (cs : List Char) (p : Nat) : (restsOf cs)[p]?.join = dropBytes? cs p := by
  induction cs generalizing p with
  | nil => cases p <;> simp [restsOf, dropBytes?]
  | cons c cs ih =>
    have hc := c.utf8Size_pos
    cases p with
    | zero => simp [restsOf, dropBytes?]
    | succ n =>
      rw [restsOf, List.getElem?_cons_succ, dropBytes?]
      by_cases hn : n < c.utf8Size - 1
      · rw [List.getElem?_append_left (by simpa using hn), List.getElem?_replicate, if_pos hn,
          if_neg (by omega)]
        rfl
      · rw [List.getElem?_append_right (by simpa using hn), List.length_replicate, ih,
          if_pos (by omega)]
        congr 1
        omega

/-- A text with its index. -/
structure Input where
  text : List Char
  rests : Array (Option (List Char))
  rests_eq : rests.toList = restsOf text

namespace Input

/-- The input of a text. -/
def ofText (text : List Char) : Input := ⟨text, pushRests #[] text, by simp [pushRests_toList]⟩

/-- The number of bytes. -/
def size (i : Input) : Nat := i.rests.size - 1

/-- What follows an offset; `none` if it is no boundary. -/
def at? (i : Input) (p : Nat) : Option (List Char) := i.rests[p]?.join

/-- The character at an offset: `none` off the boundaries, `some none` at the end of the text. -/
def charAt? (i : Input) (p : Nat) : Option (Option Char) := (i.at? p).map List.head?

/-- Whether the characters `lit` stand at offset `p`.  The empty literal stands at every offset
up to the end, boundary or not. -/
def holdsAt (i : Input) (p : Nat) (lit : List Char) : Bool :=
  match lit with
  | [] => decide (p ≤ i.size)
  | _ :: _ =>
    match i.at? p with
    | some rest => lit.isPrefixOf rest
    | none => false

/-- Whether an offset is at the end or past it. -/
def isEnd (i : Input) (p : Nat) : Bool := decide (i.size ≤ p)

@[simp]
theorem text_ofText (text : List Char) : (ofText text).text = text := rfl

theorem size_eq (i : Input) : i.size = byteLength i.text := by
  rw [size, ← Array.length_toList, i.rests_eq, length_restsOf, Nat.add_sub_cancel]

theorem at?_eq (i : Input) (p : Nat) : i.at? p = dropBytes? i.text p := by
  rw [at?, ← Array.getElem?_toList, i.rests_eq, join_restsOf]

end Input

end Packrat

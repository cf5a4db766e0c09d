import Packrat.Text.Input
import Packrat.Text.LineCol

/-!
# Boundaries of a text

* `Boundary` — an offset that lies between two characters of a text or at one of its ends.
* `boundary_iff_dropBytes?`, `boundary_iff_at?` — the texts and places at an offset are defined
  exactly at the boundaries.
* `Boundary.char`, `Boundary.literal` — a character or a literal at a boundary ends at a boundary.
* `Slice` — the characters between two offsets of a text.
-/

set_option autoImplicit false

namespace Packrat

/-- An offset at which a text can be cut. -/
def Boundary (cs : List Char) (p : Nat) : Prop :=
  ∃ before rest, cs = before ++ rest ∧ byteLength before = p

theorem boundary_iff_dropBytes? {cs : List Char} {p : Nat} :
    Boundary cs p ↔ ∃ rest, dropBytes? cs p = some rest := by
  constructor
  · rintro ⟨before, rest, hcs, hp⟩
    exact ⟨rest, dropBytes?_eq_some_iff.2 ⟨before, hcs, hp⟩⟩
  · rintro ⟨rest, h⟩
    obtain ⟨before, hcs, hp⟩ := dropBytes?_eq_some_iff.1 h
    exact ⟨before, rest, hcs, hp⟩

theorem boundary_iff_at? {cs : List Char} {p : Nat} :
    Boundary cs p ↔ ∃ place, LineCol.at? cs p = some place := by
  constructor
  · rintro ⟨before, rest, hcs, hp⟩
    exact ⟨_, by rw [LineCol.at?, takeBytes?_eq_some_iff.2 ⟨rest, hcs, hp⟩, Option.map_some]⟩
  · rintro ⟨place, h⟩
    obtain ⟨before, hb, -⟩ := Option.map_eq_some_iff.1 h
    obtain ⟨rest, hcs, hp⟩ := takeBytes?_eq_some_iff.1 hb
    exact ⟨before, rest, hcs, hp⟩

theorem LineCol.offset_foldl (place : LineCol) (cs : List Char) :
    (cs.foldl step place).offset = place.offset + byteLength cs := by
  induction cs generalizing place with
  | nil => rfl
  | cons c cs ih =>
    have hstep : (place.step c).offset = place.offset + c.utf8Size := by
      unfold step
      split <;> rfl
    rw [List.foldl_cons, ih, hstep, byteLength, Nat.add_assoc]

/-- A place tells the offset that it was asked for. -/
theorem LineCol.offset_of_at? {cs : List Char} {p : Nat} {place : LineCol}
    (h : at? cs p = some place) : place.offset = p := by
  obtain ⟨before, hb, rfl⟩ := Option.map_eq_some_iff.1 h
  obtain ⟨rest, -, rfl⟩ := takeBytes?_eq_some_iff.1 hb
  rw [after, offset_foldl]
  exact Nat.zero_add _

theorem Boundary.of_dropBytes? {cs rest : List Char} {p : Nat} (h : dropBytes? cs p = some rest) :
    Boundary cs p := boundary_iff_dropBytes?.2 ⟨rest, h⟩

theorem Boundary.zero (cs : List Char) : Boundary cs 0 := ⟨[], cs, rfl, rfl⟩

/-- No boundary lies past the end. -/
theorem Boundary.le_byteLength {cs : List Char} {p : Nat} (h : Boundary cs p) :
    p ≤ byteLength cs := by
  obtain ⟨before, rest, rfl, rfl⟩ := h
  rw [byteLength_append]
  omega

/-- What stands at a boundary ends at a boundary. -/
theorem Boundary.add {cs lit rest : List Char} {p : Nat} (h : dropBytes? cs p = some (lit ++ rest)) :
    Boundary cs (p + byteLength lit) := by
  obtain ⟨before, hcs, hp⟩ := dropBytes?_eq_some_iff.1 h
  refine ⟨before ++ lit, rest, by rw [hcs, List.append_assoc], ?_⟩
  rw [byteLength_append, hp]

theorem Boundary.char {cs rest : List Char} {c : Char} {p : Nat}
    (h : dropBytes? cs p = some (c :: rest)) : Boundary cs (p + c.utf8Size) := by
  simpa [byteLength] using @Boundary.add cs [c] rest p h

theorem Boundary.literal {cs lit rest : List Char} {p : Nat} (h : dropBytes? cs p = some rest)
    (hlit : lit.isPrefixOf rest = true) : Boundary cs (p + byteLength lit) := by
  obtain ⟨after, rfl⟩ := List.isPrefixOf_iff_prefix.1 hlit
  exact Boundary.add h

/-- Only the empty text has no bytes. -/
theorem byteLength_eq_zero {cs : List Char} : byteLength cs = 0 ↔ cs = [] := by
  cases cs with
  | nil => simp [byteLength]
  | cons c cs =>
    have hc := c.utf8Size_pos
    simp only [byteLength, reduceCtorEq, iff_false]
    omega

namespace Input

variable {i : Input} {p : Nat}

/-- The index of an input finds what follows a boundary. -/
theorem charAt?_of_dropBytes? {rest : List Char} (h : dropBytes? i.text p = some rest) :
    i.charAt? p = some rest.head? := by
  rw [charAt?, at?_eq, h, Option.map_some]

theorem holdsAt_of_dropBytes? {rest : List Char} (h : dropBytes? i.text p = some rest)
    (lit : List Char) : i.holdsAt p lit = lit.isPrefixOf rest := by
  cases lit with
  | nil =>
    have hp := (Boundary.of_dropBytes? h).le_byteLength
    simp [holdsAt, i.size_eq, hp]
  | cons x lit => rw [holdsAt, at?_eq, h]

end Input

/-! ### Slices of a text -/

/-- The characters between two offsets of a text. -/
def Slice (text : List Char) (p stop : Nat) (cs : List Char) : Prop :=
  ∃ rest, dropBytes? text p = some (cs ++ rest) ∧ stop = p + byteLength cs

section

variable {text cs ds : List Char} {p q stop : Nat}

theorem Slice.nil (hp : Boundary text p) : Slice text p p [] := by
  obtain ⟨rest, hrest⟩ := boundary_iff_dropBytes?.1 hp
  exact ⟨rest, hrest, rfl⟩

theorem Slice.boundary (h : Slice text p stop cs) : Boundary text stop := by
  obtain ⟨rest, hrest, rfl⟩ := h
  exact .add hrest

theorem Slice.append (h : Slice text p q cs) (h' : Slice text q stop ds) :
    Slice text p stop (cs ++ ds) := by
  obtain ⟨rest, hrest, rfl⟩ := h
  obtain ⟨rest', hrest', rfl⟩ := h'
  obtain ⟨before, rfl, rfl⟩ := dropBytes?_eq_some_iff.1 hrest
  -- the second slice begins where the first one ends
  rw [← List.append_assoc, ← byteLength_append, dropBytes?_append] at hrest'
  cases hrest'
  refine ⟨rest', ?_, ?_⟩
  · rw [dropBytes?_append, List.append_assoc]
  · rw [byteLength_append, Nat.add_assoc]

/-- A slice from the beginning is what is taken. -/
theorem Slice.takeBytes? (h : Slice text 0 stop cs) : takeBytes? text stop = some cs := by
  obtain ⟨rest, hrest, rfl⟩ := h
  obtain rfl : text = cs ++ rest := by cases text <;> simpa [dropBytes?] using hrest
  rw [Nat.zero_add]
  exact takeBytes?_append cs rest

end

end Packrat

/-!
# Byte offsets into a text

A text is a list of characters; an offset counts the bytes of its UTF-8 form.  An offset is a
*boundary* of the text when it lies between two characters or at one of the two ends.

* `byteLength` — the number of bytes of a text.
* `dropBytes?`, `takeBytes?` — the text after and before an offset, defined at boundaries only.
-/

set_option autoImplicit false

namespace Packrat

/-- The number of bytes of the text in UTF-8. -/
def byteLength : List Char → Nat
  | [] => 0
  | c :: cs => c.utf8Size + byteLength cs

/-- What follows the first `n` bytes; `none` if `n` is no boundary of the text. -/
def dropBytes? : List Char → Nat → Option (List Char)
  | cs, 0 => some cs
  | [], _ + 1 => none
  | c :: cs, n + 1 => if c.utf8Size ≤ n + 1 then dropBytes? cs (n + 1 - c.utf8Size) else none

/-- The first `n` bytes; `none` if `n` is no boundary of the text. -/
def takeBytes? : List Char → Nat → Option (List Char)
  | _, 0 => some []
  | [], _ + 1 => none
  | c :: cs, n + 1 =>
      if c.utf8Size ≤ n + 1 then (takeBytes? cs (n + 1 - c.utf8Size)).map (c :: ·) else none

theorem byteLength_append (a b : List Char) :
    byteLength (a ++ b) = byteLength a + byteLength b := by
  induction a with
  | nil => simp [byteLength]
  | cons c cs ih => simp [byteLength, ih, Nat.add_assoc]

theorem dropBytes?_cons (c : Char) (cs : List Char) (n : Nat) :
    dropBytes? (c :: cs) (c.utf8Size + n) = dropBytes? cs n := by
  have hc := c.utf8Size_pos
  obtain ⟨k, hk⟩ : ∃ k, c.utf8Size + n = k + 1 := ⟨c.utf8Size + n - 1, by omega⟩
  rw [hk, dropBytes?, if_pos (by omega), ← hk, Nat.add_sub_cancel_left]

theorem takeBytes?_cons (c : Char) (cs : List Char) (n : Nat) :
    takeBytes? (c :: cs) (c.utf8Size + n) = (takeBytes? cs n).map (c :: ·) := by
  have hc := c.utf8Size_pos
  obtain ⟨k, hk⟩ : ∃ k, c.utf8Size + n = k + 1 := ⟨c.utf8Size + n - 1, by omega⟩
  rw [hk, takeBytes?, if_pos (by omega), ← hk, Nat.add_sub_cancel_left]

theorem dropBytes?_append (a b : List Char) : dropBytes? (a ++ b) (byteLength a) = some b := by
  induction a with
  | nil => cases b <;> rfl
  | cons c cs ih => simpa [byteLength, dropBytes?_cons] using ih

theorem takeBytes?_append (a b : List Char) : takeBytes? (a ++ b) (byteLength a) = some a := by
  induction a with
  | nil => cases b <;> rfl
  | cons c cs ih => simp [byteLength, takeBytes?_cons, ih]

/-- An offset is a boundary exactly when it is the length of what stands before it. -/
theorem dropBytes?_eq_some_iff {cs rest : List Char} {n : Nat} :
    dropBytes? cs n = some rest ↔ ∃ before, cs = before ++ rest ∧ byteLength before = n := by
  constructor
  · intro h
    fun_induction dropBytes? cs n with
    | case1 cs => exact ⟨[], by simpa using h, rfl⟩
    | case2 => simp at h
    | case3 c cs n hle ih =>
      obtain ⟨before, hcs, hlen⟩ := ih h
      exact ⟨c :: before, by simp [hcs], by simp [byteLength, hlen]; omega⟩
    | case4 => simp at h
  · rintro ⟨before, rfl, rfl⟩
    exact dropBytes?_append before rest

/-- The text splits at a boundary into what is taken and what is dropped. -/
theorem takeBytes?_eq_some_iff {cs before : List Char} {n : Nat} :
    takeBytes? cs n = some before ↔ ∃ rest, cs = before ++ rest ∧ byteLength before = n := by
  constructor
  · intro h
    fun_induction takeBytes? cs n generalizing before with
    | case1 cs => exact ⟨cs, by simpa using h.symm, by simp [← Option.some.inj h, byteLength]⟩
    | case2 => simp at h
    | case3 c cs n hle ih =>
      obtain ⟨b, hb, rfl⟩ := Option.map_eq_some_iff.1 h
      obtain ⟨rest, hcs, hlen⟩ := ih hb
      exact ⟨rest, by simp [hcs], by simp [byteLength, hlen]; omega⟩
    | case4 => simp at h
  · rintro ⟨rest, rfl, rfl⟩
    exact takeBytes?_append before rest

end Packrat

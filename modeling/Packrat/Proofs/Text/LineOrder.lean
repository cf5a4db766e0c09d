import Mathlib.Data.List.Induction
import Mathlib.Data.Prod.Lex
import Packrat.Proofs.Text.Boundary

/-!
# Lines and columns are in the order of the text

A walk through a text meets its places one character at a time.  Each character leads to a place that
is later in the lexicographic order of line and column, so no two boundaries share both.

* `LineCol.counted`, `LineCol.after_eq_counted` — a place by counting: the bytes that are newlines, and
  the characters behind the last of them.
* `LineCol.key` — line and column of a place, in lexicographic order.
* `LineCol.key_lt_step`, `LineCol.key_lt_foldl` — a character leads to a later place, and so does a text.
* `LineCol.places_ordered` — the order of the places of a text is the order of its boundaries.
-/

set_option autoImplicit false

namespace Packrat.LineCol

variable {cs before rest : List Char} {c : Char} {p q : Nat} {a b : LineCol}

/-! ### Places by counting -/

/-- The bytes of a text in UTF-8. -/
def bytes (cs : List Char) : List UInt8 := cs.flatMap String.utf8EncodeChar

/-- The place after a text: besides the first line and column, one line for each byte that is a newline,
and one column for each character behind the last newline. -/
def counted (before : List Char) : LineCol where
  line := (bytes before).count 10 + 1
  column := (before.reverse.takeWhile (· ≠ '\n')).length + 1
  offset := (bytes before).length

/-- No byte of another character is the byte of a newline. -/
theorem newline_mem_iff : (10 : UInt8) ∈ String.utf8EncodeChar c ↔ c = '\n' := by
  constructor
  · intro h
    -- a character is its only byte, or all its bytes are 128 at least
    have hcode : c.val.toNat = 10 := by
      have hten : (10 : UInt8).toNat = 10 := rfl
      unfold String.utf8EncodeChar at h
      simp only at h
      split_ifs at h <;>
        simp only [List.mem_cons, List.not_mem_nil, or_false, ← UInt8.toNat_inj,
          UInt8.toNat_ofNat', hten] at h <;>
        omega
    exact Char.toNat_inj.1 hcode
  · rintro rfl
    decide

/-- One more character is one more step. -/
theorem counted_concat (before : List Char) (c : Char) :
    counted (before ++ [c]) = (counted before).step c := by
  have hbytes : bytes (before ++ [c]) = bytes before ++ String.utf8EncodeChar c := by
    rw [bytes, List.flatMap_append, List.flatMap_singleton, bytes]
  unfold counted step
  rw [hbytes, List.length_append, String.length_utf8EncodeChar, List.count_append,
    List.reverse_append, List.reverse_singleton, List.singleton_append]
  by_cases hc : c = '\n'
  · subst hc
    rfl
  · have hnone : (String.utf8EncodeChar c).count 10 = 0 :=
      List.count_eq_zero.2 fun h => hc (newline_mem_iff.1 h)
    rw [if_neg hc, hnone, List.takeWhile_cons_of_pos (by simpa using hc)]
    rfl

theorem after_concat (before : List Char) (c : Char) :
    after (before ++ [c]) = (after before).step c := by
  rw [after, List.foldl_append, List.foldl_cons, List.foldl_nil, after]

/-- **The place after a text is found by counting.** -/
theorem after_eq_counted (before : List Char) : after before = counted before := by
  induction before using List.reverseRecOn with
  | nil => rfl
  | append_singleton before c ih => rw [counted_concat, ← ih, after_concat]

/-! ### The order of places -/

/-- Line and column, of which the line counts first. -/
def key (a : LineCol) : ℕ ×ₗ ℕ := toLex (a.line, a.column)

theorem key_eq_key_iff : a.key = b.key ↔ a.line = b.line ∧ a.column = b.column := by
  rw [key, key, toLex_inj, Prod.mk.injEq]

/-- **A character leads to a later place.** -/
theorem key_lt_step (a : LineCol) (c : Char) : a.key < (a.step c).key := by
  unfold step
  split
  · exact Prod.Lex.toLex_lt_toLex.2 (.inl (Nat.lt_succ_self _))
  · exact Prod.Lex.toLex_lt_toLex.2 (.inr ⟨rfl, Nat.lt_succ_self _⟩)

/-- A text leads to a later place. -/
theorem key_lt_foldl (hcs : cs ≠ []) (a : LineCol) : a.key < (cs.foldl step a).key := by
  induction cs generalizing a with
  | nil => exact absurd rfl hcs
  | cons c cs ih =>
    rw [List.foldl_cons]
    cases cs with
    | nil => exact a.key_lt_step c
    | cons d cs => exact (a.key_lt_step c).trans (ih (List.cons_ne_nil _ _) _)

theorem at?_of_append (h : cs = before ++ rest) : at? cs (byteLength before) = some (after before) := by
  rw [at?, takeBytes?_eq_some_iff.2 ⟨rest, h, rfl⟩, Option.map_some]

theorem at?_eq_some (h : at? cs p = some a) :
    ∃ before rest, cs = before ++ rest ∧ byteLength before = p ∧ a = after before := by
  obtain ⟨before, hbefore, rfl⟩ := Option.map_eq_some_iff.1 h
  obtain ⟨rest, hcs, hp⟩ := takeBytes?_eq_some_iff.1 hbefore
  exact ⟨before, rest, hcs, hp, rfl⟩

/-- **A later boundary is a later place.** -/
theorem key_lt_of_lt (ha : at? cs p = some a) (hb : at? cs q = some b) (hlt : p < q) :
    a.key < b.key := by
  obtain ⟨before, rest, hcs, rfl, rfl⟩ := at?_eq_some ha
  obtain ⟨before', rest', hcs', rfl, rfl⟩ := at?_eq_some hb
  have hbefore : before <+: cs := ⟨rest, hcs.symm⟩
  have hbefore' : before' <+: cs := ⟨rest', hcs'.symm⟩
  rcases List.prefix_or_prefix_of_prefix hbefore hbefore' with ⟨between, rfl⟩ | ⟨between, rfl⟩
  · -- the text between the boundaries is not empty
    rw [byteLength_append] at hlt
    have hne : between ≠ [] := by
      rintro rfl
      exact Nat.lt_irrefl _ hlt
    rw [after, after, List.foldl_append]
    exact key_lt_foldl hne _
  · rw [byteLength_append] at hlt
    omega

/-- Two boundaries with one line and column are one boundary. -/
theorem eq_of_key_eq (ha : at? cs p = some a) (hb : at? cs q = some b) (h : a.key = b.key) : p = q := by
  rcases Nat.lt_trichotomy p q with hlt | heq | hlt
  · exact absurd h (key_lt_of_lt ha hb hlt).ne
  · exact heq
  · exact absurd h.symm (key_lt_of_lt hb ha hlt).ne

/-- The boundary behind a character is one step further. -/
theorem at?_add_utf8Size (hrest : dropBytes? cs p = some (c :: rest)) :
    ∃ a, at? cs p = some a ∧ at? cs (p + c.utf8Size) = some (a.step c) := by
  obtain ⟨before, hcs, rfl⟩ := dropBytes?_eq_some_iff.1 hrest
  refine ⟨after before, at?_of_append hcs, ?_⟩
  have hnext : cs = (before ++ [c]) ++ rest := by rw [hcs, List.append_assoc]; rfl
  have hplace := at?_of_append hnext
  rwa [byteLength_append, after_concat] at hplace

/-- **Lines and columns are in the order of the text.**  Every boundary has a place, which is found by
counting; a later boundary has a later line and column; so line and column determine the boundary; and
behind one more character the column is the next, or a newline begins the next line. -/
theorem places_ordered (cs : List Char) :
    (∀ before rest, cs = before ++ rest → at? cs (byteLength before) = some (counted before)) ∧
    (∀ p q, Boundary cs p → Boundary cs q → p < q →
      ∃ a b, at? cs p = some a ∧ at? cs q = some b ∧ a.key < b.key) ∧
    (∀ p q a b, at? cs p = some a → at? cs q = some b → a.line = b.line ∧ a.column = b.column →
      p = q) ∧
    ∀ p c rest, dropBytes? cs p = some (c :: rest) →
      ∃ a b, at? cs p = some a ∧ at? cs (p + c.utf8Size) = some b ∧
        (c = '\n' → b.line = a.line + 1 ∧ b.column = 1) ∧
        (c ≠ '\n' → b.line = a.line ∧ b.column = a.column + 1) := by
  refine ⟨fun before rest hcs => ?_, fun p q hp hq hlt => ?_, fun p q a b ha hb h => ?_,
    fun p c rest hrest => ?_⟩
  · rw [at?_of_append hcs, after_eq_counted]
  · obtain ⟨a, ha⟩ := boundary_iff_at?.1 hp
    obtain ⟨b, hb⟩ := boundary_iff_at?.1 hq
    exact ⟨a, b, ha, hb, key_lt_of_lt ha hb hlt⟩
  · exact eq_of_key_eq ha hb (key_eq_key_iff.2 h)
  · obtain ⟨a, ha, hb⟩ := at?_add_utf8Size hrest
    refine ⟨a, a.step c, ha, hb, fun hc => ?_, fun hc => ?_⟩
    · rw [step, if_pos hc]
      exact ⟨rfl, rfl⟩
    · rw [step, if_neg hc]
      exact ⟨rfl, rfl⟩

/-- In a text with a character of three bytes, an empty line and a newline at the end, the boundaries at
the first newline and at the end, with one character between them that is no newline. -/
theorem places_ordered_newlines :
    Boundary "☺\n\nx\n".toList 3 ∧ Boundary "☺\n\nx\n".toList 7 ∧
      (∃ a b, at? "☺\n\nx\n".toList 3 = some a ∧ at? "☺\n\nx\n".toList 7 = some b ∧ a.key < b.key) ∧
      dropBytes? "☺\n\nx\n".toList 3 = some "\n\nx\n".toList ∧
      ∃ a b, at? "☺\n\nx\n".toList 3 = some a ∧ at? "☺\n\nx\n".toList 4 = some b ∧
        b.line = a.line + 1 ∧ b.column = 1 := by
  obtain ⟨-, hless, -, hnext⟩ := places_ordered "☺\n\nx\n".toList
  have h3 : Boundary "☺\n\nx\n".toList 3 := ⟨"☺".toList, "\n\nx\n".toList, by decide, by decide⟩
  have h7 : Boundary "☺\n\nx\n".toList 7 := ⟨"☺\n\nx\n".toList, [], by decide, by decide⟩
  have hrest : dropBytes? "☺\n\nx\n".toList 3 = some "\n\nx\n".toList := by decide
  obtain ⟨a, b, ha, hb, hline, -⟩ := hnext 3 '\n' "\nx\n".toList hrest
  exact ⟨h3, h7, hless 3 7 h3 h7 (by decide), hrest, a, b, ha, hb, hline rfl⟩

end Packrat.LineCol

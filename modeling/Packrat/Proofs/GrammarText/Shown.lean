import Packrat.Engine.State
import Packrat.Proofs.GrammarText.Tokens
import Packrat.Proofs.GrammarText.Yields

/-!
# Reading what error messages show

A parse error shows the literals and classes of which one was expected.  Literals are shown in the
notation of grammars.  Classes are shown with the escapes of literals, which do not keep the characters
apart that have a meaning in a class: a closing bracket, a caret in front, a hyphen.

* `shown_cases`, `escapedOr_reads_shown` — a character is shown by a short escape, by its code point, or as
  it is, and is read back.
* `quoteChars_reads`, `literal_display_reads` — a literal that is shown is read back.
* `CharClass.signs`, `rangesOf` — the characters that the display of a class shows, and the ranges as which
  characters are read.
* `CharClass.Legible`, `CharClass.display_reads_iff` — when the display of a class is read back.
-/

set_option autoImplicit false

namespace Packrat

open Reader GrammarText

/-! ### Characters -/

namespace GrammarText

/-- How a character is shown: by a short escape, by its code point, or as it is. -/
theorem shown_cases (style : Quoted.Style) (x : Char) :
    (∃ written, (written, x) ∈ shortEscapes ∧ Quoted.escape style x = ['\\', written]) ∨
      Quoted.escape style x = Quoted.byCode x ∨
      Quoted.escape style x = [x] ∧ x ≠ '\n' ∧ x ≠ '\\' ∧ (style.double = true → x ≠ '"') := by
  unfold Quoted.escape
  by_cases hzero : x = '\x00'
  · exact .inl ⟨'0', by rw [hzero]; decide, if_pos hzero⟩
  rw [if_neg hzero]
  by_cases htab : x = '\t'
  · exact .inl ⟨'t', by rw [htab]; decide, if_pos htab⟩
  rw [if_neg htab]
  by_cases hreturn : x = '\r'
  · exact .inl ⟨'r', by rw [hreturn]; decide, if_pos hreturn⟩
  rw [if_neg hreturn]
  by_cases hline : x = '\n'
  · exact .inl ⟨'n', by rw [hline]; decide, if_pos hline⟩
  rw [if_neg hline]
  by_cases hslash : x = '\\'
  · exact .inl ⟨'\\', by rw [hslash]; decide, if_pos hslash⟩
  rw [if_neg hslash]
  by_cases hdouble : x = '"' ∧ style.double = true
  · exact .inl ⟨'"', by rw [hdouble.1]; decide, if_pos hdouble⟩
  rw [if_neg hdouble]
  by_cases hsingle : x = '\'' ∧ style.single = true
  · exact .inl ⟨'\'', by rw [hsingle.1]; decide, if_pos hsingle⟩
  rw [if_neg hsingle]
  by_cases hjoins : joinsPrevious x = true
  · exact .inr (.inl (if_pos hjoins))
  rw [if_neg hjoins]
  by_cases hprint : isPrintable x = true
  · exact .inr (.inr ⟨if_pos hprint, hline, hslash, fun hd hx => hdouble ⟨hx, hd⟩⟩)
  · exact .inr (.inl (if_neg hprint))

/-- What is shown of a character begins with the backslash of an escape, or it is the character. -/
theorem shown_head (style : Quoted.Style) (x : Char) (cs : List Char) :
    (Quoted.escape style x ++ cs).head? = some '\\' ∨
      Quoted.escape style x = [x] ∧ (style.double = true → x ≠ '"') := by
  rcases shown_cases style x with ⟨written, -, h⟩ | h | ⟨h, -, -, hquote⟩
  · exact .inl (by rw [h]; rfl)
  · exact .inl (by rw [h]; exact byCode_head x cs)
  · exact .inr ⟨h, hquote⟩

/-- **A character that is shown is read back.** -/
theorem escapedOr_reads_shown {stops : Char → Bool} (style : Quoted.Style) {x : Char}
    (hstops : stops x = true → x = '\n') (cs : List Char) :
    (escapedOr stops).Reads (Quoted.escape style x ++ cs) cs (· = x) := by
  rcases shown_cases style x with ⟨written, hmem, h⟩ | h | ⟨h, hline, hslash, -⟩
  · rw [h]
    exact .orElse_left ((exactly_reads ['\\'] _).bind fun _ _ => escape_reads_short hmem cs)
  · rw [h]
    exact escapedOr_reads_byCode stops x cs
  · rw [h]
    refine .orElse_right (.bind_left (exactly_refuses (by simpa using hslash)))
      ((absent_reads (satisfy_refuses _ ?_)).bind fun _ _ => satisfy_reads _ rfl cs)
    rintro y ⟨⟩
    cases hstop : stops x with
    | false => rfl
    | true => exact absurd (hstops hstop) hline

/-! ### Literals -/

/-- A text that is shown between quotes is read back, whatever follows. -/
theorem quoteChars_reads (s : String) (cs : List Char) :
    stringLiteral.Reads (quoteChars s.toList ++ cs) cs (· = s) := by
  have htext : quoteChars s.toList ++ cs =
      '"' :: (s.toList.flatMap (Quoted.escape Quoted.text) ++ '"' :: cs) := by
    simp [quoteChars]
  rw [htext]
  refine stringLiteral_reads_of (fun x cs => escapedOr_reads_shown _ (by simp) cs) (fun x cs => ?_) s cs
  rcases shown_head Quoted.text x cs with h | ⟨h, hquote⟩
  · rw [h]
    simp
  · rw [h]
    simpa using hquote rfl

/-- **A literal that is shown is that literal in the notation of grammars**: all of what is shown is read,
whatever follows, and gives the literal back. -/
theorem literal_display_reads (s : String) :
    (∀ cs, stringLiteral.Reads ((Terminal.literal s).display.toList ++ cs) cs (· = s)) ∧
      readAll stringLiteral (Terminal.literal s).display.toList = .ok s := by
  have hread : ∀ cs, stringLiteral.Reads ((Terminal.literal s).display.toList ++ cs) cs (· = s) := by
    intro cs
    have htext : (Terminal.literal s).display.toList = quoteChars s.toList := by
      simp [Terminal.display, quote]
    rw [htext]
    exact quoteChars_reads s cs
  refine ⟨hread, ?_⟩
  obtain ⟨a, ⟨o, rest⟩, hres, hrest, rfl⟩ := hread [] ⟨0, _⟩ rfl
  cases hrest
  rw [List.append_nil] at hres
  unfold readAll
  simp only [hres]

/-! ### Classes -/

/-- Characters as the display of a class shows them. -/
def shown (cs : List Char) : List Char := cs.flatMap (Quoted.escape Quoted.character)

/-- The characters that are shown of ranges: their ends, with a hyphen between two that differ. -/
def signs (rs : List (Char × Char)) : List Char :=
  rs.flatMap fun r => if r.1 = r.2 then [r.1] else [r.1, '-', r.2]

/-- What stands after a character makes a range with it. -/
def Joins (x : Char) (cs : List Char) : Prop := ∃ y rest, cs = '-' :: y :: rest ∧ x ≤ y

/-- The ranges as which characters are read: a hyphen makes a range of the characters at its sides if
they do not descend. -/
def rangesOf : List Char → List (Char × Char)
  | x :: '-' :: y :: rest =>
    if x ≤ y then (x, y) :: rangesOf rest else (x, x) :: rangesOf ('-' :: y :: rest)
  | x :: rest => (x, x) :: rangesOf rest
  | [] => []

/-- The class as which characters are read: a caret in front negates. -/
def classOf (negated : Bool) (cs : List Char) : CharClass :=
  if negated = false ∧ cs.head? = some '^' then ⟨true, rangesOf cs.tail⟩ else ⟨negated, rangesOf cs⟩

theorem rangesOf_pair {x y : Char} (h : x ≤ y) (cs : List Char) :
    rangesOf (x :: '-' :: y :: cs) = (x, y) :: rangesOf cs := by
  rw [rangesOf, if_pos h]

theorem rangesOf_single {x : Char} {cs : List Char} (h : ¬ Joins x cs) :
    rangesOf (x :: cs) = (x, x) :: rangesOf cs := by
  rw [rangesOf.eq_def]
  split
  · rename_i y d z rest heq
    cases heq
    rw [if_neg fun hle => h ⟨_, _, rfl, hle⟩]
  · rename_i y rest _ heq
    cases heq
    rfl
  · rename_i heq
    cases heq

theorem escape_hyphen : Quoted.escape Quoted.character '-' = ['-'] := by decide +kernel

theorem shown_cons (x : Char) (cs : List Char) :
    shown (x :: cs) = Quoted.escape Quoted.character x ++ shown cs := List.flatMap_cons

theorem shown_hyphen (cs : List Char) : shown ('-' :: cs) = '-' :: shown cs := by
  rw [shown_cons, escape_hyphen]
  rfl

/-- The display of a class shows the ends of its ranges. -/
theorem displayChars_eq (k : CharClass) (cs : List Char) :
    k.displayChars ++ cs =
      '[' :: ((if k.negated then ['^'] else []) ++ (shown (signs k.ranges) ++ ']' :: cs)) := by
  have hrange : ∀ r : Char × Char,
      CharClass.rangeChars r = shown (if r.1 = r.2 then [r.1] else [r.1, '-', r.2]) := by
    intro r
    unfold CharClass.rangeChars
    split
    · simp [shown]
    · simp [shown, escape_hyphen]
  have hranges : k.ranges.flatMap CharClass.rangeChars = shown (signs k.ranges) := by
    unfold signs
    rw [shown, List.flatMap_assoc]
    exact congrArg (k.ranges.flatMap ·) (funext hrange)
  simp [CharClass.displayChars, hranges]

/-- A mark that is not first of some characters is not first of what is shown of them. -/
theorem shown_head_ne {mark : Char} (hslash : mark ≠ '\\') (hclose : mark ≠ ']') {cs : List Char}
    (h : cs.head? ≠ some mark) (ds : List Char) : (shown cs ++ ']' :: ds).head? ≠ some mark := by
  cases cs with
  | nil => simpa [shown] using hclose.symm
  | cons x cs =>
    rw [shown_cons, List.append_assoc]
    rcases shown_head Quoted.character x (shown cs ++ ']' :: ds) with hx | ⟨hx, -⟩
    · rw [hx]
      simpa using hslash.symm
    · rw [hx]
      simpa using h

theorem classChar_reads_shown {x : Char} (hx : x ≠ ']') (cs : List Char) :
    classChar.Reads (Quoted.escape Quoted.character x ++ cs) cs (· = x) :=
  escapedOr_reads_shown _ (by simp [hx]) cs

theorem classRange_reads_pair {x y : Char} (hx : x ≠ ']') (hy : y ≠ ']') (h : x ≤ y) (cs ds : List Char) :
    classRange.Reads (shown (x :: '-' :: y :: cs) ++ ds) (shown cs ++ ds) (· = (x, y)) := by
  rw [shown_cons, shown_hyphen, shown_cons, List.append_assoc, List.cons_append, List.append_assoc]
  refine .orElse_left ((classChar_reads_shown hx _).bind fun a ha => (exactly_reads ['-'] _).bind
    fun _ _ => (classChar_reads_shown hy _).bind fun b hb => ?_)
  subst ha hb
  rw [if_pos h]
  exact .pure rfl

theorem classRange_reads_single {x : Char} (hx : x ≠ ']') {cs : List Char} (hcs : ']' ∉ cs)
    (h : ¬ Joins x cs) (ds : List Char) :
    classRange.Reads (shown (x :: cs) ++ ']' :: ds) (shown cs ++ ']' :: ds) (· = (x, x)) := by
  rw [shown_cons, List.append_assoc]
  refine .orElse_right (.bind_right (classChar_reads_shown hx _) fun a ha => ?_)
    ((classChar_reads_shown hx _).bind fun a ha => .pure (by rw [ha]))
  subst ha
  by_cases hhead : cs.head? = some '-'
  · obtain ⟨rest, rfl⟩ := List.head?_eq_some_iff.1 hhead
    rw [shown_hyphen, List.cons_append]
    refine .bind_right (exactly_reads ['-'] (shown rest ++ ']' :: ds)) fun _ _ => ?_
    -- a hyphen before the closing bracket has no second side, and other sides descend
    cases rest with
    | nil => exact .bind_left (classChar_refuses_close ds)
    | cons y rest =>
      rw [shown_cons, List.append_assoc]
      have hy : y ≠ ']' := fun hy => hcs (by simp [hy])
      refine .bind_right (classChar_reads_shown hy _) fun b hb => ?_
      rw [if_neg fun hle => h ⟨y, rest, rfl, hb ▸ hle⟩]
      exact fun _ _ => rfl
  · exact .bind_left (exactly_refuses (shown_head_ne (by decide) (by decide) hhead ds))

/-- **Shown characters are read as ranges** up to the closing bracket. -/
theorem classRanges_read_shown {cs : List Char} (hcs : ']' ∉ cs) (ds : List Char) :
    (many classRange).Reads (shown cs ++ ']' :: ds) (']' :: ds) (· = rangesOf cs) := by
  induction hn : cs.length using Nat.strongRecOn generalizing cs with
  | ind n ih =>
    cases cs with
    | nil => exact many_reads_nil (classRange_refuses_close ds)
    | cons x cs =>
      have hx : x ≠ ']' := fun hx => hcs (by simp [hx])
      have hrest : ']' ∉ cs := fun h => hcs (List.mem_cons_of_mem _ h)
      by_cases hjoins : Joins x cs
      · obtain ⟨y, rest, rfl, hle⟩ := hjoins
        have hy : y ≠ ']' := fun hy => hcs (by simp [hy])
        have hmany := ih rest.length (by simp at hn; omega)
          (fun h => hrest (List.mem_cons_of_mem _ (List.mem_cons_of_mem _ h))) rfl
        rw [rangesOf_pair hle]
        refine (many_reads_cons classRange_takes (classRange_reads_pair hx hy hle _ _) hmany).mono ?_
        rintro rs ⟨r, rs', rfl, rfl, rfl⟩
        rfl
      · have hmany := ih cs.length (by simp at hn; omega) hrest rfl
        rw [rangesOf_single hjoins]
        refine (many_reads_cons classRange_takes (classRange_reads_single hx hrest hjoins ds) hmany).mono ?_
        rintro rs ⟨r, rs', rfl, rfl, rfl⟩
        rfl

/-- **Shown characters are read as a class** up to the first closing bracket. -/
theorem charClass_reads_shown (negated : Bool) {cs : List Char} (hcs : ']' ∉ cs) (ds : List Char) :
    charClass.Reads ('[' :: ((if negated then ['^'] else []) ++ (shown cs ++ ']' :: ds))) ds
      (· = classOf negated cs) := by
  by_cases hcaret : negated = false ∧ cs.head? = some '^'
  · obtain ⟨rfl, hhead⟩ := hcaret
    obtain ⟨rest, rfl⟩ := List.head?_eq_some_iff.1 hhead
    have hcaret : Quoted.escape Quoted.character '^' = ['^'] := by decide +kernel
    have hclass : classOf false ('^' :: rest) = ⟨true, rangesOf rest⟩ := if_pos ⟨rfl, rfl⟩
    have hsome : (optional (exactly ['^'])).Reads ('^' :: (shown rest ++ ']' :: ds))
        (shown rest ++ ']' :: ds) (·.isSome = true) := caret_reads true nofun
    rw [shown_cons, hcaret, hclass]
    exact charClass_reads_of hsome
      (classRanges_read_shown (fun h => hcs (List.mem_cons_of_mem _ h)) ds)
  · have hfirst : negated = false → (shown cs ++ ']' :: ds).head? ≠ some '^' := fun hneg =>
      shown_head_ne (by decide) (by decide) (fun hhead => hcaret ⟨hneg, hhead⟩) ds
    have hclass : classOf negated cs = ⟨negated, rangesOf cs⟩ := if_neg hcaret
    rw [hclass]
    exact charClass_reads_of (caret_reads negated hfirst) (classRanges_read_shown hcs ds)

/-- **What a display is read as**: all of it is read as a class if it shows no closing bracket. -/
theorem display_reads_classOf {k : CharClass} {P : CharClass → Prop} :
    charClass.Reads (Terminal.charClass k).display.toList [] P ↔
      ']' ∉ signs k.ranges ∧ P (classOf k.negated (signs k.ranges)) := by
  have htext : (Terminal.charClass k).display.toList =
      '[' :: ((if k.negated then ['^'] else []) ++ (shown (signs k.ranges) ++ [']'])) := by
    rw [Terminal.display, CharClass.display, String.toList_ofList, ← displayChars_eq, List.append_nil]
  rw [htext]
  constructor
  · intro h
    by_cases hclose : ']' ∈ signs k.ranges
    · obtain ⟨before, after, hsplit, hbefore⟩ := List.eq_append_cons_of_mem hclose
      have hbracket : Quoted.escape Quoted.character ']' = [']'] := by decide +kernel
      have hshown : shown (signs k.ranges) ++ [']'] = shown before ++ ']' :: (shown after ++ [']']) := by
        rw [hsplit, shown, List.flatMap_append, List.flatMap_cons, hbracket]
        simp [shown]
      rw [hshown] at h
      have hrest := h.unique (charClass_reads_shown k.negated hbefore (shown after ++ [']']))
      simp at hrest
    · exact ⟨hclose, h.holds (charClass_reads_shown k.negated hclose [])⟩
  · rintro ⟨hclose, hP⟩
    exact (charClass_reads_shown k.negated hclose []).mono fun k' hk' => hk' ▸ hP

/-! ### Classes that are read back -/

/-- No character that stands alone makes a range with what stands after it. -/
def Unjoined (rs : List (Char × Char)) : Prop :=
  ∀ before x after, rs = before ++ (x, x) :: after → ¬ Joins x (signs after)

theorem unjoined_cons {x z : Char} {rs : List (Char × Char)} :
    Unjoined ((x, z) :: rs) ↔ (x = z → ¬ Joins x (signs rs)) ∧ Unjoined rs := by
  constructor
  · intro h
    refine ⟨?_, fun before y after hrs => h ((x, z) :: before) y after (by rw [hrs]; rfl)⟩
    rintro rfl
    exact h [] x rs rfl
  · rintro ⟨hx, hrs⟩ before y after heq
    cases before with
    | nil =>
      cases heq
      exact hx rfl
    | cons r before =>
      cases heq
      exact hrs before y after rfl

theorem signs_cons (r : Char × Char) (rs : List (Char × Char)) :
    signs (r :: rs) = (if r.1 = r.2 then [r.1] else [r.1, '-', r.2]) ++ signs rs := List.flatMap_cons

theorem length_signs_cons_le (r : Char × Char) (rs : List (Char × Char)) :
    (signs (r :: rs)).length ≤ 3 + (signs rs).length := by
  rw [signs_cons, List.length_append]
  split <;> simp

theorem length_signs_rangesOf_le (cs : List Char) : (signs (rangesOf cs)).length ≤ cs.length := by
  fun_induction rangesOf cs with
  | case1 x y rest hle ih =>
    have := length_signs_cons_le (x, y) (rangesOf rest)
    simp only [List.length_cons]
    omega
  | case2 x y rest hle ih | case3 x rest hrest ih =>
    rw [signs_cons, if_pos rfl, List.singleton_append, List.length_cons, List.length_cons]
    omega
  | case4 => exact Nat.le_refl 0

/-- **Ranges that are shown are read as themselves** exactly if no character that stands alone makes a range
with what stands after it. -/
theorem rangesOf_signs_eq_iff {rs : List (Char × Char)} (hrs : ∀ r ∈ rs, r.1 ≤ r.2) :
    rangesOf (signs rs) = rs ↔ Unjoined rs := by
  induction rs with
  | nil => exact ⟨fun _ before x after h => absurd h (by simp), fun _ => rfl⟩
  | cons r rs ih =>
    obtain ⟨x, z⟩ := r
    have ih := ih fun r hr => hrs r (List.mem_cons_of_mem _ hr)
    rw [unjoined_cons, signs_cons]
    by_cases hxz : x = z
    · subst hxz
      rw [if_pos rfl, List.singleton_append]
      by_cases hjoins : Joins x (signs rs)
      · refine iff_of_false (fun h => ?_) fun h => h.1 rfl hjoins
        -- the hyphen is gone from what is read
        obtain ⟨y, rest, hsigns, hle⟩ := hjoins
        rw [hsigns, rangesOf_pair hle] at h
        have hlen := length_signs_rangesOf_le rest
        rw [(List.cons.inj h).2, hsigns, List.length_cons, List.length_cons] at hlen
        omega
      · rw [rangesOf_single hjoins, List.cons_inj_right, ih]
        exact ⟨fun h => ⟨fun _ => hjoins, h⟩, fun h => h.2⟩
    · rw [if_neg hxz]
      change rangesOf (x :: '-' :: z :: signs rs) = _ ↔ _
      rw [rangesOf_pair (hrs (x, z) List.mem_cons_self), List.cons_inj_right, ih]
      exact ⟨fun h => ⟨fun heq => absurd heq hxz, h⟩, fun h => h.2⟩

theorem exists_range_head (x : Char) (cs : List Char) : ∃ r ∈ rangesOf (x :: cs), r.1 ≤ x ∧ x ≤ r.2 := by
  by_cases hjoins : Joins x cs
  · obtain ⟨y, rest, rfl, hle⟩ := hjoins
    rw [rangesOf_pair hle]
    exact ⟨_, List.mem_cons_self, Char.le_refl x, hle⟩
  · rw [rangesOf_single hjoins]
    exact ⟨_, List.mem_cons_self, Char.le_refl x, Char.le_refl x⟩

/-- A character in a range belongs to the class unless the class is negated. -/
theorem admits_of_mem {k : CharClass} {x : Char} (h : ∃ r ∈ k.ranges, r.1 ≤ x ∧ x ≤ r.2) :
    k.admits x = !k.negated := by
  obtain ⟨r, hr, hx⟩ := h
  have hany : (k.ranges.any fun r => decide (r.1 ≤ x ∧ x ≤ r.2)) = true :=
    List.any_eq_true.2 ⟨r, hr, decide_eq_true hx⟩
  unfold CharClass.admits
  rw [hany]
  cases k.negated <;> rfl

/-- A character in a range of each of two classes belongs to one of them only, if just one is negated. -/
theorem admits_ne {rs ss : List (Char × Char)} {x : Char} (hr : ∃ r ∈ rs, r.1 ≤ x ∧ x ≤ r.2)
    (hs : ∃ s ∈ ss, s.1 ≤ x ∧ x ≤ s.2) :
    (⟨true, ss⟩ : CharClass).admits x ≠ (⟨false, rs⟩ : CharClass).admits x := by
  rw [admits_of_mem hs, admits_of_mem hr]
  exact Bool.false_ne_true

/-- **A class that begins with a caret is read as one with other characters.** -/
theorem exists_admits_ne_of_caret {rs : List (Char × Char)} (hrs : ∀ r ∈ rs, r.1 ≤ r.2)
    (hcaret : (signs rs).head? = some '^') :
    ∃ x, (⟨true, rangesOf (signs rs).tail⟩ : CharClass).admits x ≠ (⟨false, rs⟩ : CharClass).admits x := by
  -- the first character behind the caret that is no hyphen of a range belongs to one class only
  cases rs with
  | nil => cases hcaret
  | cons r rs =>
    obtain ⟨x, z⟩ := r
    rw [signs_cons] at hcaret ⊢
    by_cases hxz : x = z
    · subst hxz
      rw [if_pos rfl, List.singleton_append] at hcaret ⊢
      cases hcaret
      cases rs with
      | nil => exact ⟨'a', by decide⟩
      | cons r rs =>
        have hr : r ∈ ('^', '^') :: r :: rs := List.mem_cons_of_mem _ List.mem_cons_self
        obtain ⟨cs, hcs⟩ : ∃ cs, signs (r :: rs) = r.1 :: cs := by
          rw [signs_cons]
          split <;> exact ⟨_, rfl⟩
        rw [List.tail_cons, hcs]
        exact ⟨r.1, admits_ne ⟨r, hr, Char.le_refl r.1, hrs r hr⟩ (exists_range_head r.1 cs)⟩
    · rw [if_neg hxz] at hcaret ⊢
      cases hcaret
      have hle : '^' ≤ z := hrs _ List.mem_cons_self
      have hz : ¬ Joins '-' (z :: signs rs) := by
        rintro ⟨y, rest, heq, -⟩
        rw [(List.cons.inj heq).1] at hle
        exact absurd hle (by decide)
      change ∃ x, (⟨true, rangesOf ('-' :: z :: signs rs)⟩ : CharClass).admits x ≠ _
      rw [rangesOf_single hz]
      obtain ⟨s, hs, hsz⟩ := exists_range_head z (signs rs)
      exact ⟨z, admits_ne ⟨_, List.mem_cons_self, hle, Char.le_refl z⟩ ⟨s, List.mem_cons_of_mem _ hs, hsz⟩⟩

theorem classRange_yields : classRange.Yields fun r => r.1 ≤ r.2 := by
  refine .orElse ((yields_true _).bind fun lo _ => (yields_true _).bind fun _ _ =>
    (yields_true _).bind fun hi _ => ?_) ((yields_true _).bind fun x _ => .pure (Char.le_refl x))
  split
  · rename_i hle
    exact .pure hle
  · intro c r hr
    cases hr

/-- **The ranges of a class that is read ascend.** -/
theorem charClass_yields : charClass.Yields Ascends :=
  (yields_true _).bind fun _ _ => (yields_true _).bind fun _ _ => classRange_yields.many.bind fun _ hrs =>
    (yields_true _).bind fun _ _ => .pure hrs

end GrammarText

/-- The display of a class shows neither a closing bracket nor, of a class that is not negated, a caret in
front. -/
structure CharClass.Legible (k : CharClass) : Prop where
  bracket : ']' ∉ signs k.ranges
  caret : k.negated = false → (signs k.ranges).head? ≠ some '^'

/-- **A class that is shown is read back as a class with the same characters** exactly if it is legible and
its signs are read as ranges of the same characters; and as itself exactly if it is legible and no
character that stands alone in it makes a range with what stands after it. -/
theorem CharClass.display_reads_iff {k : CharClass} {c c' : Cursor}
    (h : (charClass c).result = some (k, c')) :
    (charClass.Reads (Terminal.charClass k).display.toList [] (fun k' => ∀ x, k'.admits x = k.admits x) ↔
      k.Legible ∧ ∀ x, (⟨k.negated, rangesOf (signs k.ranges)⟩ : CharClass).admits x = k.admits x) ∧
    (charClass.Reads (Terminal.charClass k).display.toList [] (· = k) ↔ k.Legible ∧ Unjoined k.ranges) := by
  have hascends : Ascends k := charClass_yields c _ h
  obtain ⟨negated, ranges⟩ := k
  rw [display_reads_classOf, display_reads_classOf, ← rangesOf_signs_eq_iff hascends]
  by_cases hcaret : negated = false ∧ (signs ranges).head? = some '^'
  · obtain ⟨rfl, hhead⟩ := hcaret
    have hillegible : ¬ Legible ⟨false, ranges⟩ := fun hk => hk.caret rfl hhead
    have hclass : classOf false (signs ranges) = ⟨true, rangesOf (signs ranges).tail⟩ := if_pos ⟨rfl, hhead⟩
    obtain ⟨x, hx⟩ := exists_admits_ne_of_caret hascends hhead
    rw [hclass]
    refine ⟨iff_of_false (fun hk => hx (hk.2 x)) fun hk => hillegible hk.1,
      iff_of_false (fun hk => ?_) fun hk => hillegible hk.1⟩
    cases hk.2
  · have hlegible : Legible ⟨negated, ranges⟩ ↔ ']' ∉ signs ranges :=
      ⟨Legible.bracket, fun hclose => ⟨hclose, fun hneg hhead => hcaret ⟨hneg, hhead⟩⟩⟩
    have hclass : classOf negated (signs ranges) = ⟨negated, rangesOf (signs ranges)⟩ := if_neg hcaret
    rw [hclass, hlegible]
    refine ⟨Iff.rfl, and_congr_right fun _ => ?_⟩
    rw [CharClass.mk.injEq]
    exact ⟨fun hk => hk.2, fun hk => ⟨rfl, hk⟩⟩

/-- A class of a closing bracket is shown as `[]]`, which is not read as one; letters and a hyphen are
shown as `[a-z-]`, which is read back. -/
theorem CharClass.display_reads_iff_bracket :
    ((charClass ⟨0, "[\\]]".toList⟩).result = some (⟨false, [(']', ']')]⟩, ⟨4, []⟩) ∧
      (Terminal.charClass ⟨false, [(']', ']')]⟩).display = "[]]" ∧
      ¬ charClass.Reads (Terminal.charClass ⟨false, [(']', ']')]⟩).display.toList []
        fun k => ∀ x, k.admits x = (⟨false, [(']', ']')]⟩ : CharClass).admits x) ∧
    (charClass ⟨0, "[a-z\\-]".toList⟩).result = some (⟨false, [('a', 'z'), ('-', '-')]⟩, ⟨7, []⟩) ∧
      (Terminal.charClass ⟨false, [('a', 'z'), ('-', '-')]⟩).display = "[a-z-]" ∧
      charClass.Reads (Terminal.charClass ⟨false, [('a', 'z'), ('-', '-')]⟩).display.toList []
        (· = ⟨false, [('a', 'z'), ('-', '-')]⟩) := by
  have hbracket : (charClass ⟨0, "[\\]]".toList⟩).result = some (⟨false, [(']', ']')]⟩, ⟨4, []⟩) := by
    decide +kernel
  have hhyphen : (charClass ⟨0, "[a-z\\-]".toList⟩).result =
      some (⟨false, [('a', 'z'), ('-', '-')]⟩, ⟨7, []⟩) := by decide +kernel
  refine ⟨⟨hbracket, by decide +kernel, fun hread => ?_⟩, hhyphen, by decide +kernel, ?_⟩
  · have hlegible := ((display_reads_iff hbracket).1.1 hread).1
    exact hlegible.bracket (by decide)
  · have hunjoined : Unjoined [('a', 'z'), ('-', '-')] := (rangesOf_signs_eq_iff (by decide)).1 (by decide)
    exact (display_reads_iff hhyphen).2.2 ⟨⟨by decide, by decide⟩, hunjoined⟩

end Packrat

import Packrat.Proofs.GrammarText.Extent

/-!
# Code, literals and classes in grammar text

* `Braced`, `code_reads`, `code_eq_some` — code is text whose braces come in pairs, and all such text is
  code.
* `closes`, `braced_of_closes` — braces come in pairs if no prefix closes more than it opens and the whole
  text closes all that it opens.
* `shortEscapes`, `escape_reads_short` — the escapes of one character.
* `hexValue_toDigits`, `escape_reads_byCode` — a character written by its code point is read back.
* `stringLiteral_reads_of`, `charClass_reads_of` — a literal or a class is read if its characters are.
* `writeQuoted`, `CharClass.write` — literals and classes with every character by its code point.
* `stringLiteral_reads`, `charClass_reads` — they are read back.
-/

set_option autoImplicit false

namespace Packrat.GrammarText

open Reader

/-! ### Code -/

/-- Text whose braces come in pairs. -/
inductive Braced : List Char → Prop where
  | nil : Braced []
  | plain {x : Char} {cs : List Char} (hopen : x ≠ '\x7b') (hclose : x ≠ '\x7d') (h : Braced cs) :
      Braced (x :: cs)
  | nested {inner cs : List Char} (hinner : Braced inner) (h : Braced cs) :
      Braced ('\x7b' :: (inner ++ '\x7d' :: cs))

theorem Braced.append {a b : List Char} (ha : Braced a) (hb : Braced b) : Braced (a ++ b) := by
  induction ha with
  | nil => exact hb
  | plain hopen hclose _ ih => exact .plain hopen hclose ih
  | @nested inner cs hinner _ _ ih =>
    have h := Braced.nested hinner ih
    rwa [List.cons_append, List.append_assoc, List.cons_append]

/-- Whether a text closes the braces that it opens and `depth` more, each after it was opened. -/
def closes : (depth : Nat) → List Char → Bool
  | depth, [] => depth == 0
  | depth, x :: cs =>
    if x = '\x7b' then closes (depth + 1) cs
    else if x = '\x7d' then depth != 0 && closes (depth - 1) cs
    else closes depth cs

/-- Texts with braces in pairs, `depth` closing braces between them. -/
def BracedBy : (depth : Nat) → List Char → Prop
  | 0, cs => Braced cs
  | depth + 1, cs => ∃ a b, Braced a ∧ BracedBy depth b ∧ cs = a ++ '\x7d' :: b

theorem bracedBy_of_closes {depth : Nat} {cs : List Char} (h : closes depth cs = true) :
    BracedBy depth cs := by
  induction cs generalizing depth with
  | nil =>
    cases depth with
    | zero => exact .nil
    | succ depth => cases h
  | cons x cs ih =>
    rw [closes] at h
    by_cases hopen : x = '\x7b'
    · subst hopen
      rw [if_pos rfl] at h
      obtain ⟨a, b, ha, hb, rfl⟩ := ih h
      cases depth with
      | zero => exact .nested ha hb
      | succ depth =>
        obtain ⟨a', b', ha', hb', rfl⟩ := hb
        exact ⟨_, b', .nested ha ha', hb', by simp⟩
    · rw [if_neg hopen] at h
      by_cases hclose : x = '\x7d'
      · subst hclose
        rw [if_pos rfl, Bool.and_eq_true] at h
        cases depth with
        | zero => cases h.1
        | succ depth => exact ⟨[], cs, .nil, ih h.2, rfl⟩
      · rw [if_neg hclose] at h
        have hcs := ih h
        cases depth with
        | zero => exact .plain hopen hclose hcs
        | succ depth =>
          obtain ⟨a, b, ha, hb, rfl⟩ := hcs
          exact ⟨x :: a, b, .plain hopen hclose ha, hb, rfl⟩

/-- **Text that closes what it opens has its braces in pairs.** -/
theorem braced_of_closes {cs : List Char} (h : closes 0 cs = true) : Braced cs := bracedBy_of_closes h

theorem codePart_refuses (fuel : Nat) (cs : List Char) : (codePart fuel).Refuses ('\x7d' :: cs) :=
  .orElse (.bind_left (exactly_refuses (by simp))) (.bind_left (satisfy_refuses _ (by simp)))

theorem codeBody_reads_of {fuel : Nat} {t cs cs' : List Char}
    (h : (many (codePart fuel)).Reads cs cs' fun ps => ps.flatten = t) :
    (codeBody (fuel + 1)).Reads cs cs' (· = t) := by
  rw [codeBody_succ]
  exact h.bind fun _ hps => .pure hps

theorem codeParts_read {t : List Char} (ht : Braced t) {fuel : Nat} (hf : t.length ≤ fuel)
    (cs : List Char) :
    (many (codePart fuel)).Reads (t ++ '\x7d' :: cs) ('\x7d' :: cs) fun ps => ps.flatten = t := by
  induction ht generalizing fuel cs with
  | nil =>
    refine (many_reads_nil (codePart_refuses fuel cs)).mono ?_
    rintro ps rfl
    rfl
  | @plain x t hopen hclose _ ih =>
    have hpart : (codePart fuel).Reads (x :: (t ++ '\x7d' :: cs)) (t ++ '\x7d' :: cs) (· = [x]) := by
      refine .orElse_right (.bind_left (exactly_refuses (by simpa using hopen)))
        ((satisfy_reads _ ?_ _).bind fun y hy => .pure (by rw [hy]))
      simp [hopen, hclose]
    refine (many_reads_cons (codePart_takes fuel) hpart (ih (by simp at hf; omega) cs)).mono ?_
    rintro ps ⟨p, ps', rfl, rfl, hps⟩
    rw [List.flatten_cons, hps]
    rfl
  | @nested inner t _ _ ihinner ih =>
    have hlen : inner.length + t.length + 2 ≤ fuel := by
      simp only [List.length_cons, List.length_append] at hf
      omega
    obtain ⟨fuel, rfl⟩ : ∃ n, fuel = n + 1 := ⟨fuel - 1, by omega⟩
    have hpart : (codePart (fuel + 1)).Reads ('\x7b' :: (inner ++ '\x7d' :: (t ++ '\x7d' :: cs)))
        (t ++ '\x7d' :: cs) (· = '\x7b' :: (inner ++ ['\x7d'])) := by
      refine .orElse_left ((exactly_reads ['\x7b'] _).bind fun _ _ => ?_)
      refine (codeBody_reads_of (ihinner (by omega) _)).bind fun a ha => ?_
      exact (exactly_reads ['\x7d'] _).bind fun _ _ => .pure (by rw [ha])
    have h := many_reads_cons (codePart_takes (fuel + 1)) hpart (ih (by omega) cs)
    rw [List.cons_append, List.append_assoc, List.cons_append]
    refine h.mono ?_
    rintro ps ⟨p, ps', rfl, rfl, hps⟩
    rw [List.flatten_cons, hps]
    simp

/-- **Text with its braces in pairs is code.** -/
theorem code_reads {t : List Char} (ht : Braced t) (cs : List Char) :
    code.Reads ('\x7b' :: (t ++ '\x7d' :: cs)) cs fun k => k.text = String.ofList t := by
  have hbody : Reader.Reads (fun c => codeBody (c.rest.length + 1) c) (t ++ '\x7d' :: cs) ('\x7d' :: cs)
      (· = t) := by
    intro c hc
    have hlen : t.length ≤ c.rest.length := by
      rw [hc, List.length_append]
      omega
    exact codeBody_reads_of (codeParts_read ht hlen cs) c hc
  refine (position_reads _).bind fun lo _ => (exactly_reads ['\x7b'] _).bind fun _ _ =>
    hbody.bind fun a ha => (exactly_reads ['\x7d'] _).bind fun _ _ => (position_reads _).bind fun hi _ =>
      .pure ?_
  rw [ha]

section Inversion

variable {fuel : Nat} {c c' : Cursor} {t : List Char}

theorem codePart_eq_some (hbody : ∀ {c c' : Cursor} {t : List Char}, (codeBody fuel c).result = some (t, c') →
      Braced t ∧ c.rest = t ++ c'.rest) (h : (codePart fuel c).result = some (t, c')) :
    Braced t ∧ c.rest = t ++ c'.rest := by
  rcases orElse_eq_some.1 h with h | ⟨-, h⟩
  · simp only [bind_eq_some, pure_eq_some] at h
    obtain ⟨_, c₁, h₁, inner, c₂, h₂, _, c₃, h₃, heq⟩ := h
    cases heq
    obtain ⟨hinner, hrest⟩ := hbody h₂
    rw [exactly_eq_cons h₃] at hrest
    refine ⟨.nested hinner .nil, ?_⟩
    rw [exactly_eq_cons h₁, hrest]
    simp
  · simp only [bind_eq_some, pure_eq_some] at h
    obtain ⟨x, c₁, h₁, heq⟩ := h
    cases heq
    obtain ⟨y, cs, hc, hy, heq⟩ := satisfy_eq_some.1 h₁
    cases heq
    simp only [Bool.and_eq_true, bne_iff_ne] at hy
    exact ⟨.plain hy.1 hy.2 .nil, hc⟩

theorem codeBody_eq_some (h : (codeBody fuel c).result = some (t, c')) :
    Braced t ∧ c.rest = t ++ c'.rest := by
  induction fuel generalizing c c' t with
  | zero => cases h
  | succ fuel ih =>
    have hparts : ∀ {c c' : Cursor} {ps : List (List Char)}, Many (codePart fuel) c ps c' →
        Braced ps.flatten ∧ c.rest = ps.flatten ++ c'.rest := by
      intro c c' ps hm
      induction hm with
      | stop _ => exact ⟨.nil, rfl⟩
      | more hstep _ ihm =>
        obtain ⟨hp, hrest⟩ := codePart_eq_some ih hstep
        obtain ⟨hps, hrest'⟩ := ihm
        rw [List.flatten_cons, hrest, hrest', List.append_assoc]
        exact ⟨hp.append hps, rfl⟩
    rw [codeBody_succ] at h
    obtain ⟨ps, c₁, hm, h⟩ := bind_eq_some.1 h
    cases pure_eq_some.1 h
    exact hparts ((many_eq_some_iff (codePart_takes fuel)).1 hm)

/-- **Code is text with its braces in pairs.** -/
theorem code_eq_some {k : Code} (h : (code c).result = some (k, c')) :
    ∃ t, Braced t ∧ c.rest = '\x7b' :: (t ++ '\x7d' :: c'.rest) ∧ k.text = String.ofList t := by
  obtain ⟨lo, c₁, h₁, h⟩ := bind_eq_some.1 h
  cases h₁
  obtain ⟨u, c₂, h₂, h⟩ := bind_eq_some.1 h
  obtain ⟨t, c₃, h₃, h⟩ := bind_eq_some.1 h
  obtain ⟨u', c₄, h₄, h⟩ := bind_eq_some.1 h
  obtain ⟨hi, c₅, h₅, h⟩ := bind_eq_some.1 h
  cases h₅
  cases pure_eq_some.1 h
  obtain ⟨ht, hrest⟩ := codeBody_eq_some h₃
  refine ⟨t, ht, ?_, rfl⟩
  rw [exactly_eq_cons h₂, hrest, exactly_eq_cons h₄]

end Inversion

/-! ### Characters by their code points -/

theorem isHexDigit_digitChar : ∀ d < 16, isHexDigit (Nat.digitChar d) = true := by decide

theorem hexDigitValue_digitChar : ∀ d < 16, hexDigitValue (Nat.digitChar d) = d := by decide

theorem hexValue_append_singleton (ds : List Char) (d : Char) :
    hexValue (ds ++ [d]) = 16 * hexValue ds + hexDigitValue d := by
  unfold hexValue
  rw [List.foldl_append, List.foldl_cons, List.foldl_nil]

theorem toDigits_step {n : Nat} (h : 16 ≤ n) :
    Nat.toDigits 16 n = Nat.toDigits 16 (n / 16) ++ [Nat.digitChar (n % 16)] := by
  rw [Nat.toDigits_eq_if (by decide), if_neg (by omega)]

/-- **The hexadecimal digits of a number have its value.** -/
theorem hexValue_toDigits (n : Nat) : hexValue (Nat.toDigits 16 n) = n := by
  induction n using Nat.strongRecOn with
  | ind n ih =>
    by_cases hn : n < 16
    · rw [Nat.toDigits_of_lt_base hn]
      have h := hexValue_append_singleton [] (Nat.digitChar n)
      rw [hexDigitValue_digitChar n hn] at h
      simpa [hexValue] using h
    · rw [toDigits_step (by omega), hexValue_append_singleton, ih (n / 16) (by omega),
        hexDigitValue_digitChar _ (Nat.mod_lt _ (by decide))]
      omega

theorem isHexDigit_of_mem_toDigits (n : Nat) : ∀ d ∈ Nat.toDigits 16 n, isHexDigit d = true := by
  induction n using Nat.strongRecOn with
  | ind n ih =>
    by_cases hn : n < 16
    · rw [Nat.toDigits_of_lt_base hn]
      simpa using isHexDigit_digitChar n hn
    · rw [toDigits_step (by omega)]
      simp only [List.mem_append, List.mem_singleton]
      rintro d (hd | rfl)
      · exact ih (n / 16) (by omega) d hd
      · exact isHexDigit_digitChar _ (Nat.mod_lt _ (by decide))

/-- A character's code point has at most six hexadecimal digits. -/
theorem length_toDigits_le (x : Char) : (Nat.toDigits 16 x.toNat).length ≤ 6 := by
  rw [Nat.length_toDigits_le_iff (by decide) (by decide)]
  have h : x.toNat.isValidChar := x.valid
  unfold Nat.isValidChar at h
  omega

theorem charOfCode?_toNat (x : Char) : charOfCode? x.toNat = some x := by
  have hx : x.toNat.isValidChar := x.valid
  unfold charOfCode?
  rw [dif_pos hx]
  rfl

/-- Digits are read up to the first other character. -/
theorem hexDigits_reads {ds : List Char} (hds : ∀ d ∈ ds, isHexDigit d = true) {n : Nat}
    (hn : ds.length ≤ n) {x : Char} (hx : isHexDigit x = false) (cs : List Char) :
    (hexDigits n).Reads (ds ++ x :: cs) (x :: cs) (· = ds) := by
  unfold hexDigits
  induction ds generalizing n with
  | nil => exact upTo_reads_nil (satisfy_refuses _ (by simpa using hx)) n
  | cons d ds ih =>
    obtain ⟨n, rfl⟩ : ∃ m, n = m + 1 := ⟨n - 1, by simp only [List.length_cons] at hn; omega⟩
    have hrest := ih (fun d' hd' => hds d' (List.mem_cons_of_mem _ hd')) (Nat.le_of_succ_le_succ hn)
    refine (upTo_reads_cons (satisfy_reads _ (hds d List.mem_cons_self) _) hrest).mono ?_
    rintro as ⟨a, as', rfl, rfl, rfl⟩
    rfl

/-- The escapes of one character: what is written after the backslash, and what it stands for. -/
def shortEscapes : List (Char × Char) :=
  [('n', '\n'), ('t', '\t'), ('r', '\r'), ('0', '\x00'), ('\\', '\\'), ('"', '"'), ('\'', '\''), (']', ']'),
    ('-', '-'), ('^', '^')]

theorem escape_eq :
    escape = firstOf (shortEscapes.map (fun e => shortEscape e.1 e.2) ++ [byteEscape, codePointEscape]) := rfl

/-- A character that begins none of some short escapes is read by none of them. -/
theorem shortEscapes_refuse {es : List (Char × Char)} {x : Char} (h : x ∉ es.map Prod.fst) (cs : List Char) :
    ∀ p ∈ es.map fun e => shortEscape e.1 e.2, p.Refuses (x :: cs) := by
  intro p hp
  obtain ⟨e, he, rfl⟩ := List.mem_map.1 hp
  refine .bind_left (exactly_refuses ?_)
  rintro ⟨⟩
  exact h (List.mem_map_of_mem he)

/-- **A short escape is read as what it stands for.** -/
theorem escape_reads_short {written meant : Char} (h : (written, meant) ∈ shortEscapes) (cs : List Char) :
    escape.Reads (written :: cs) cs (· = meant) := by
  have hnodup : (shortEscapes.map Prod.fst).Nodup := by decide
  rw [escape_eq]
  obtain ⟨before, after, hsplit⟩ := List.append_of_mem h
  rw [hsplit, List.map_append, List.map_cons, List.nodup_append] at hnodup
  have hbefore : written ∉ before.map Prod.fst := fun hw => hnodup.2.2 _ hw _ List.mem_cons_self rfl
  rw [hsplit, List.map_append, List.append_assoc]
  exact .firstOf_append (shortEscapes_refuse hbefore cs)
    (.orElse_left ((exactly_reads [written] cs).bind fun _ _ => .pure rfl))

/-- **A character that is written by its code point is an escape.** -/
theorem escape_reads_byCode (x : Char) (cs : List Char) :
    escape.Reads ('u' :: '\x7b' :: (Nat.toDigits 16 x.toNat ++ '\x7d' :: cs)) cs (· = x) := by
  have hcode : codePointEscape.Reads ('u' :: '\x7b' :: (Nat.toDigits 16 x.toNat ++ '\x7d' :: cs)) cs
      (· = x) := by
    refine (exactly_reads ['u', '\x7b'] _).bind fun _ _ =>
      (hexDigits_reads (isHexDigit_of_mem_toDigits _) (length_toDigits_le x) (by decide) cs).bind
        fun ds hds => ?_
    subst hds
    rw [if_neg (by simp)]
    refine (exactly_reads ['\x7d'] cs).bind fun _ _ => ?_
    unfold charOfDigits
    rw [hexValue_toDigits, charOfCode?_toNat]
    exact .pure rfl
  rw [escape_eq]
  exact .firstOf_append (shortEscapes_refuse (by decide) _)
    (.orElse_right (.bind_left (exactly_refuses (by simp))) (.orElse_left hcode))

theorem byCode_append (x : Char) (cs : List Char) :
    Quoted.byCode x ++ cs = '\\' :: 'u' :: '\x7b' :: (Nat.toDigits 16 x.toNat ++ '\x7d' :: cs) := by
  unfold Quoted.byCode
  simp

theorem byCode_head (x : Char) (cs : List Char) : (Quoted.byCode x ++ cs).head? = some '\\' := by
  rw [byCode_append]
  rfl

theorem escapedOr_reads_byCode (stops : Char → Bool) (x : Char) (cs : List Char) :
    (escapedOr stops).Reads (Quoted.byCode x ++ cs) cs (· = x) := by
  rw [byCode_append]
  exact .orElse_left ((exactly_reads ['\\'] _).bind fun _ _ => escape_reads_byCode x cs)

/-! ### Literals -/

/-- A text between double quotes, every character by its code point. -/
def writeQuoted (s : String) : List Char := '"' :: (s.toList.flatMap Quoted.byCode ++ ['"'])

section Quoted

variable {write : Char → List Char} (hwrite : ∀ x cs, literalChar.Reads (write x ++ cs) cs (· = x))
  (hquote : ∀ x cs, (write x ++ cs).head? ≠ some '"')
include hwrite hquote

theorem quotedChars_read (xs cs : List Char) :
    (many (do absent (exactly ['"']); literalChar)).Reads (xs.flatMap write ++ '"' :: cs) ('"' :: cs)
      (· = xs) := by
  induction xs with
  | nil => exact many_reads_nil (.bind_left (absent_refuses (exactly_reads ['"'] cs)))
  | cons x xs ih =>
    rw [List.flatMap_cons, List.append_assoc]
    have hchar : Reader.Reads (do absent (exactly ['"']); literalChar)
        (write x ++ (xs.flatMap write ++ '"' :: cs)) (xs.flatMap write ++ '"' :: cs) (· = x) :=
      (absent_reads (exactly_refuses (hquote x _))).bind fun _ _ => hwrite x _
    refine (many_reads_cons (quotedChar_takes '"') hchar ih).mono ?_
    rintro as ⟨a, as', rfl, rfl, rfl⟩
    rfl

/-- **A text between double quotes is read back**, if each of its characters is, and none of them begins
as the closing quote does. -/
theorem stringLiteral_reads_of (s : String) (cs : List Char) :
    stringLiteral.Reads ('"' :: (s.toList.flatMap write ++ '"' :: cs)) cs (· = s) := by
  refine .orElse_left ((exactly_reads ['"'] _).bind fun _ _ =>
    (quotedChars_read hwrite hquote s.toList cs).bind fun xs hxs =>
      (exactly_reads ['"'] cs).bind fun _ _ => .pure ?_)
  rw [hxs, String.ofList_toList]

end Quoted

/-- **A text that is written by code points is read back.** -/
theorem stringLiteral_reads (s : String) (cs : List Char) :
    stringLiteral.Reads (writeQuoted s ++ cs) cs (· = s) := by
  have htext : writeQuoted s ++ cs = '"' :: (s.toList.flatMap Quoted.byCode ++ '"' :: cs) := by
    unfold writeQuoted
    simp
  rw [htext]
  refine stringLiteral_reads_of (fun x cs => escapedOr_reads_byCode _ x cs) (fun x cs => ?_) s cs
  rw [byCode_head]
  simp

/-! ### Classes -/

/-- One range of a class: a single character stands for itself. -/
def writeRange (r : Char × Char) : List Char :=
  if r.1 = r.2 then Quoted.byCode r.1 else Quoted.byCode r.1 ++ '-' :: Quoted.byCode r.2

/-- A class with every character by its code point. -/
def writeClass (k : CharClass) : List Char :=
  '[' :: ((if k.negated then ['^'] else []) ++ (k.ranges.flatMap writeRange ++ [']']))

/-- Each range of a class goes from a character to the same or a later one. -/
def Ascends (k : CharClass) : Prop := ∀ r ∈ k.ranges, r.1 ≤ r.2

instance (k : CharClass) : Decidable (Ascends k) := List.decidableBAll (fun r : Char × Char => r.1 ≤ r.2) k.ranges

theorem writeRanges_head (rs : List (Char × Char)) (cs : List Char) :
    (rs.flatMap writeRange ++ ']' :: cs).head? = some '\\' ∨
      (rs.flatMap writeRange ++ ']' :: cs).head? = some ']' := by
  cases rs with
  | nil => exact .inr rfl
  | cons r rs =>
    left
    rw [List.flatMap_cons, List.append_assoc]
    unfold writeRange
    split
    · exact byCode_head _ _
    · rw [List.append_assoc]
      exact byCode_head _ _

theorem classRange_reads {r : Char × Char} (hr : r.1 ≤ r.2) {cs : List Char}
    (hcs : cs.head? ≠ some '-') : classRange.Reads (writeRange r ++ cs) cs (· = r) := by
  obtain ⟨lo, hi⟩ := r
  unfold writeRange
  by_cases heq : lo = hi
  · subst heq
    rw [if_pos rfl]
    refine .orElse_right ?_ ((escapedOr_reads_byCode _ lo cs).bind fun x hx => .pure (by rw [hx]))
    exact .bind_right (escapedOr_reads_byCode _ lo cs) fun _ _ => .bind_left (exactly_refuses hcs)
  · rw [if_neg heq, List.append_assoc]
    refine .orElse_left ((escapedOr_reads_byCode _ lo _).bind fun x hx => ?_)
    refine (exactly_reads ['-'] _).bind fun _ _ => (escapedOr_reads_byCode _ hi cs).bind fun y hy => ?_
    subst hx hy
    rw [if_pos hr]
    exact .pure rfl

theorem classChar_refuses_close (cs : List Char) : classChar.Refuses (']' :: cs) :=
  .orElse (.bind_left (exactly_refuses (by simp))) (.bind_left (absent_refuses (satisfy_reads _ rfl cs)))

theorem classRange_refuses_close (cs : List Char) : classRange.Refuses (']' :: cs) :=
  .orElse (.bind_left (classChar_refuses_close cs)) (.bind_left (classChar_refuses_close cs))

theorem classRanges_read {rs : List (Char × Char)} (hrs : ∀ r ∈ rs, r.1 ≤ r.2) (cs : List Char) :
    (many classRange).Reads (rs.flatMap writeRange ++ ']' :: cs) (']' :: cs) (· = rs) := by
  induction rs with
  | nil => exact many_reads_nil (classRange_refuses_close cs)
  | cons r rs ih =>
    rw [List.flatMap_cons, List.append_assoc]
    have hhead : (rs.flatMap writeRange ++ ']' :: cs).head? ≠ some '-' := by
      rcases writeRanges_head rs cs with h | h <;> rw [h] <;> decide
    refine (many_reads_cons classRange_takes (classRange_reads (hrs r List.mem_cons_self) hhead)
      (ih fun r' hr' => hrs r' (List.mem_cons_of_mem _ hr'))).mono ?_
    rintro as ⟨a, as', rfl, rfl, rfl⟩
    rfl

/-- The caret of a negated class is read, and none is if the rest begins with none. -/
theorem caret_reads (negated : Bool) {cs : List Char} (h : negated = false → cs.head? ≠ some '^') :
    (optional (exactly ['^'])).Reads ((if negated then ['^'] else []) ++ cs) cs (·.isSome = negated) := by
  cases negated with
  | true =>
    refine (optional_reads_some (exactly_reads ['^'] cs)).mono ?_
    rintro o ⟨a, rfl, -⟩
    rfl
  | false =>
    refine (optional_reads_none (exactly_refuses (h rfl))).mono ?_
    rintro o rfl
    rfl

/-- A class is read if its caret and its ranges are. -/
theorem charClass_reads_of {negated : Bool} {rs : List (Char × Char)} {text ranges cs : List Char}
    (hcaret : (optional (exactly ['^'])).Reads text ranges (·.isSome = negated))
    (hranges : (many classRange).Reads ranges (']' :: cs) (· = rs)) :
    charClass.Reads ('[' :: text) cs (· = ⟨negated, rs⟩) :=
  (exactly_reads ['['] _).bind fun _ _ => hcaret.bind fun caret hc => hranges.bind fun ranges hrs =>
    (exactly_reads [']'] cs).bind fun _ _ => .pure (by rw [hc, hrs])

/-- **A class that is written by code points is read back.** -/
theorem charClass_reads {k : CharClass} (hk : Ascends k) (cs : List Char) :
    charClass.Reads (writeClass k ++ cs) cs (· = k) := by
  have htext : writeClass k ++ cs = '[' :: ((if k.negated then ['^'] else []) ++
      (k.ranges.flatMap writeRange ++ ']' :: cs)) := by
    unfold writeClass
    simp
  rw [htext]
  refine charClass_reads_of (caret_reads k.negated fun _ => ?_) (classRanges_read hk cs)
  rcases writeRanges_head k.ranges cs with h | h <;> rw [h] <;> decide

end Packrat.GrammarText

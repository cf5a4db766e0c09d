import Packrat.Proofs.Grammar.Unplaced
import Packrat.Proofs.GrammarText.Extent
import Packrat.Proofs.GrammarText.Yields

/-!
# Blanks and names

* `afterBlanks` — a text without the white space and comments at its beginning; `blanks_reads`: that is
  what `blanks` leaves.
* `afterBlanks_append` — blanks go on into the next line only if the text is over; `afterBlanks_extend`:
  otherwise they end where they did.
* `afterName`, `ident_reads` — a name ends at the first character that does not go on with it.
* `continuesName_eq_false` — no mark of the notation goes on with a name.
-/

set_option autoImplicit false

namespace Packrat.GrammarText

open Reader

/-! ### White space and comments -/

/-- What is left of a text after blanks; the flag tells whether it begins within a comment. -/
def skipBlanks : (inComment : Bool) → List Char → List Char
  | _, [] => []
  | true, x :: cs => skipBlanks (x != '\n') cs
  | false, x :: cs =>
    if isSpace x then skipBlanks false cs else if x = '#' then skipBlanks true cs else x :: cs

/-- What is left of a text after blanks. -/
def afterBlanks (cs : List Char) : List Char := skipBlanks false cs

/-- A character at which blanks begin. -/
def StartsBlank (x : Char) : Prop := isSpace x = true ∨ x = '#'

instance (x : Char) : Decidable (StartsBlank x) := inferInstanceAs (Decidable (_ ∨ _))

theorem afterBlanks_space {x : Char} (hx : isSpace x = true) (cs : List Char) :
    afterBlanks (x :: cs) = afterBlanks cs := by
  unfold afterBlanks
  rw [skipBlanks, if_pos hx]

theorem afterBlanks_comment (cs : List Char) : afterBlanks ('#' :: cs) = skipBlanks true cs := rfl

theorem skipBlanks_comment (cs : List Char) :
    skipBlanks true cs = afterBlanks (cs.dropWhile (· != '\n')) := by
  induction cs with
  | nil => rfl
  | cons x cs ih =>
    by_cases hx : x = '\n'
    · subst hx
      rfl
    · have hflag : (x != '\n') = true := by simpa using hx
      rw [skipBlanks, hflag, ih, List.dropWhile_cons, if_pos hflag]

/-- Where no blank begins, nothing is skipped. -/
theorem afterBlanks_of_head {cs : List Char} (h : ∀ x ∈ cs.head?, ¬ StartsBlank x) :
    afterBlanks cs = cs := by
  cases cs with
  | nil => rfl
  | cons x cs =>
    have hx : ¬ StartsBlank x := h x rfl
    unfold StartsBlank at hx
    unfold afterBlanks
    rw [skipBlanks, if_neg fun hs => hx (.inl hs), if_neg fun hs => hx (.inr hs)]

theorem skipBlanks_head (b : Bool) (cs : List Char) : ∀ x ∈ (skipBlanks b cs).head?, ¬ StartsBlank x := by
  induction cs generalizing b with
  | nil =>
    intro x hx
    cases b <;> cases hx
  | cons y cs ih =>
    cases b with
    | true => exact ih _
    | false =>
      rw [skipBlanks]
      by_cases hs : isSpace y = true
      · rw [if_pos hs]
        exact ih false
      · by_cases hc : y = '#'
        · rw [if_neg hs, if_pos hc]
          exact ih true
        · rw [if_neg hs, if_neg hc]
          intro x hx
          cases hx
          rintro (h | h)
          · exact hs h
          · exact hc h

/-- What is left begins with no blank. -/
theorem afterBlanks_head (cs : List Char) : ∀ x ∈ (afterBlanks cs).head?, ¬ StartsBlank x :=
  skipBlanks_head false cs

/-- A character at which no blank begins stays where it is. -/
theorem afterBlanks_head_of_head {x : Char} (hx : ¬ StartsBlank x) {cs : List Char}
    (h : cs.head? = some x) : (afterBlanks cs).head? = some x := by
  rw [afterBlanks_of_head ?_, h]
  intro y hy
  rw [h] at hy
  cases hy
  exact hx

theorem skipBlanks_append (b : Bool) (cs ds : List Char) :
    skipBlanks b (cs ++ '\n' :: ds) =
      if skipBlanks b cs = [] then afterBlanks ds else skipBlanks b cs ++ '\n' :: ds := by
  induction cs generalizing b with
  | nil => cases b <;> rfl
  | cons x cs ih =>
    cases b with
    | true => exact ih _
    | false =>
      rw [List.cons_append, skipBlanks, skipBlanks]
      by_cases hs : isSpace x = true
      · simp only [if_pos hs]
        exact ih false
      · by_cases hc : x = '#'
        · simp only [if_neg hs, if_pos hc]
          exact ih true
        · simp [hs, hc]

/-- **Blanks go on into the next line only if nothing else stands before its end.** -/
theorem afterBlanks_append (cs ds : List Char) :
    afterBlanks (cs ++ '\n' :: ds) =
      if afterBlanks cs = [] then afterBlanks ds else afterBlanks cs ++ '\n' :: ds :=
  skipBlanks_append false cs ds

theorem head_nil : ∀ x ∈ ([] : List Char).head?, x = '\n' := by rintro x ⟨⟩

theorem head_line (ds : List Char) : ∀ x ∈ ('\n' :: ds).head?, x = '\n' := by
  rintro x ⟨⟩
  rfl

/-- Blanks that end before the text does end there in a longer text too. -/
theorem afterBlanks_extend {cs e : List Char} (he : ∀ x ∈ e.head?, x = '\n') (h : afterBlanks cs ≠ []) :
    afterBlanks (cs ++ e) = afterBlanks cs ++ e := by
  cases e with
  | nil => rw [List.append_nil, List.append_nil]
  | cons x ds =>
    cases he x rfl
    rw [afterBlanks_append, if_neg h]

theorem afterBlanks_extend_cons {cs ds e : List Char} {x : Char} (he : ∀ y ∈ e.head?, y = '\n')
    (h : afterBlanks cs = x :: ds) : afterBlanks (cs ++ e) = x :: (ds ++ e) := by
  rw [afterBlanks_extend he (by rw [h]; exact List.cons_ne_nil _ _), h, List.cons_append]

theorem comment_reads (cs : List Char) :
    comment.Reads ('#' :: cs) (cs.dropWhile (· != '\n')) fun _ => True := by
  have htakes : Reader.Takes 1 (do absent (satisfy "" (· == '\n')); anyCharacter) :=
    (absent_takes _).after fun _ => satisfy_takes _ _
  have hmany : (many (do absent (satisfy "" (· == '\n')); anyCharacter)).Reads cs
      (cs.dropWhile (· != '\n')) fun _ => True := by
    induction cs with
    | nil => exact (many_reads_nil (.bind_right (absent_reads (satisfy_refuses _ (by simp)))
        fun _ _ => satisfy_refuses _ (by simp))).mono fun _ _ => trivial
    | cons x cs ih =>
      by_cases hx : x = '\n'
      · subst hx
        refine (many_reads_nil (.bind_left (absent_refuses (satisfy_reads _ ?_ _)))).mono fun _ _ => trivial
        rfl
      · rw [List.dropWhile_cons_of_pos (by simpa using hx)]
        refine (many_reads_cons htakes (.bind (absent_reads (satisfy_refuses _ ?_))
          fun _ _ => satisfy_reads _ rfl _) ih).mono fun _ _ => trivial
        simpa using hx
  exact (exactly_reads ['#'] cs).bind fun _ _ => hmany.bind fun _ _ => pure_reads _ _

/-- **Blanks leave the text after its white space and comments.** -/
theorem blanks_reads (cs : List Char) : blanks.Reads cs (afterBlanks cs) fun _ => True := by
  have hmany : (many blank).Reads cs (afterBlanks cs) fun _ => True := by
    induction hn : cs.length using Nat.strongRecOn generalizing cs with
    | ind n ih =>
      cases cs with
      | nil =>
        refine (many_reads_nil (.orElse (.bind_left (satisfy_refuses _ (by simp))) (.bind_left ?_))).mono
          fun _ _ => trivial
        exact exactly_refuses (by simp)
      | cons x cs =>
        rw [List.length_cons] at hn
        by_cases hs : isSpace x = true
        · rw [afterBlanks_space hs]
          have hspace : Reader.Reads (do let _ ← satisfy "" isSpace) (x :: cs) cs fun _ => True :=
            (satisfy_reads _ hs cs).bind fun _ _ => pure_reads _ _
          exact (many_reads_cons blank_takes (.orElse_left hspace) (ih cs.length (by omega) cs rfl)).mono
            fun _ _ => trivial
        · have hspace : Reader.Refuses (do let _ ← satisfy "" isSpace) (x :: cs) :=
            .bind_left (satisfy_refuses _ (by simpa using hs))
          by_cases hc : x = '#'
          · subst hc
            rw [afterBlanks_comment, skipBlanks_comment]
            have hlen : (cs.dropWhile (· != '\n')).length ≤ cs.length :=
              (List.dropWhile_suffix _).length_le
            exact (many_reads_cons blank_takes (.orElse_right hspace (comment_reads cs))
              (ih _ (by omega) _ rfl)).mono fun _ _ => trivial
          · rw [afterBlanks_of_head (by simp [StartsBlank, hs, hc])]
            refine (many_reads_nil (.orElse hspace (.bind_left (exactly_refuses ?_)))).mono
              fun _ _ => trivial
            simpa using hc
  have h : Reader.Reads (do let _ ← many blank) cs (afterBlanks cs) fun _ => True :=
    hmany.bind fun _ _ => pure_reads _ _
  exact fun c hc => h c hc

theorem blanks_eq_some {c c' : Cursor} {u : Unit} (h : (blanks c).result = some (u, c')) :
    c'.rest = afterBlanks c.rest := by
  obtain ⟨u', d, hd, hrest, -⟩ := blanks_reads c.rest c rfl
  rw [h] at hd
  cases hd
  exact hrest

/-- Before what begins with no blank, blanks match nothing. -/
theorem blanks_reads_nothing {cs : List Char} (h : ∀ x ∈ cs.head?, ¬ StartsBlank x) :
    blanks.Reads cs cs fun _ => True := by
  have := blanks_reads cs
  rwa [afterBlanks_of_head h] at this

/-! ### Names -/

/-- The marks of the notation, and white space. -/
def marks : List Char :=
  [' ', '\t', '\r', '\n', '#', '<', '>', ',', ':', '-', '/', '(', ')', '[', ']', '\x7b', '\x7d', '&', '!', '.', '*', '+',
    '?', '"', '\'', '\\', '^']

/-- **No mark goes on with a name.** -/
theorem continuesName_eq_false {x : Char} (hx : x ∈ marks) : continuesName x = false := by
  have hall : marks.all (fun x => !continuesName x) = true := by decide +kernel
  simpa using List.all_eq_true.1 hall x hx

theorem startsName_eq_false {x : Char} (hx : x ∈ marks) : startsName x = false := by
  cases h : startsName x with
  | false => rfl
  | true =>
    have := continuesName_of_startsName h
    rw [continuesName_eq_false hx] at this
    cases this

theorem StartsBlank.mem_marks {x : Char} (h : StartsBlank x) : x ∈ marks := by
  rcases h with h | rfl
  · unfold isSpace at h
    simp only [Bool.or_eq_true, beq_iff_eq] at h
    rcases h with ((rfl | rfl) | rfl) | rfl <;> decide
  · decide

/-- A name does not begin with a mark. -/
theorem not_mem_marks_of_startsName {x : Char} (h : startsName x = true) : x ∉ marks := by
  intro hx
  rw [startsName_eq_false hx] at h
  cases h

theorem head_ne_of_startsName {x y : Char} (hx : startsName x = true) (hy : y ∈ marks) (cs : List Char) :
    (x :: cs).head? ≠ some y := by
  rintro ⟨⟩
  exact not_mem_marks_of_startsName hx hy

/-- What is left of a text after what goes on with a name. -/
def afterName (cs : List Char) : List Char := cs.dropWhile continuesName

/-- **A name goes as far as it can.** -/
theorem ident_reads {x : Char} (hx : startsName x = true) (cs : List Char) :
    ident.Reads (x :: cs) (afterName cs)
      (·.unplaced = ⟨String.ofList (x :: cs.takeWhile continuesName), .nowhere⟩) := by
  have hmany : (many (satisfy "[c if c.is_alphanumeric() || c == '_']" continuesName)).Reads cs
      (afterName cs) (· = cs.takeWhile continuesName) := by
    unfold afterName
    induction cs with
    | nil => exact many_reads_nil (satisfy_refuses _ (by simp))
    | cons y cs ih =>
      by_cases hy : continuesName y = true
      · rw [List.dropWhile_cons_of_pos hy, List.takeWhile_cons_of_pos hy]
        refine (many_reads_cons (satisfy_takes _ _) (satisfy_reads _ hy cs) ih).mono ?_
        rintro as ⟨a, as', rfl, rfl, rfl⟩
        rfl
      · rw [List.dropWhile_cons_of_neg hy, List.takeWhile_cons_of_neg hy]
        exact many_reads_nil (satisfy_refuses _ (by simpa using hy))
  refine (position_reads _).bind fun lo _ => (satisfy_reads _ hx cs).bind fun first hfirst =>
    hmany.bind fun others hothers => (position_reads _).bind fun hi _ => .pure ?_
  rw [Ident.unplaced, hfirst, hothers]

theorem ident_eq_some {c c' : Cursor} {i : Ident} (h : (ident c).result = some (i, c')) :
    ∃ x cs, c.rest = x :: cs ∧ startsName x = true ∧ c'.rest = afterName cs ∧
      i.unplaced = ⟨String.ofList (x :: cs.takeWhile continuesName), .nowhere⟩ := by
  obtain ⟨x, cs, hc, hx⟩ := ident_starts c _ h
  obtain ⟨j, d, hd, hrest, hj⟩ := ident_reads hx cs c hc
  rw [h] at hd
  cases hd
  exact ⟨x, cs, hc, hx, hrest, hj⟩

/-- A name begins with no mark. -/
theorem head_ne_of_ident {P : Ident → Prop} {cs cs' : List Char} (h : ident.Reads cs cs' P) {y : Char}
    (hy : y ∈ marks) : cs.head? ≠ some y := by
  obtain ⟨x, ds, rfl, hx⟩ := ident_starts.of_reads h
  exact head_ne_of_startsName hx hy ds

end Packrat.GrammarText

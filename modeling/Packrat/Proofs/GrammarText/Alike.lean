import Packrat.Proofs.Grammar.Unplaced
import Packrat.Proofs.GrammarText.Extent

/-!
# Readers that do not look further

Two readers are alike on texts the second of which goes on with `e` if both match or neither does, with
results that look the same, and `e` is left over.

* `Reader.Alike` — with a rule for each combinator; `Alike.reads`, `Alike.refuses` are what follows.
* `ident_alike`, `stringLiteral_alike`, `charClass_alike`, … — names, literals, classes and marks end
  within their line: they are read alike if a new line follows.
-/

set_option autoImplicit false

namespace Packrat

namespace Reader

variable {α β γ δ : Type} {e : List Char}

/-- Both readers fail, or both match with results that look the same, and the second leaves `e` in
addition. -/
inductive Agree (e : List Char) (view : α → γ) :
    Option (α × Cursor) → Option (α × Cursor) → Prop where
  | none : Agree e view none none
  | some {a b : α} {c d : Cursor} (hview : view a = view b) (hrest : d.rest = c.rest ++ e) :
      Agree e view (some (a, c)) (some (b, d))

/-- Before every text, and before that text with `e` added, the readers agree. -/
def Alike (e : List Char) (view : α → γ) (p q : Reader α) : Prop :=
  ∀ c d : Cursor, d.rest = c.rest ++ e → Agree e view (p c).result (q d).result

section Rules

variable {v : α → γ} {w : β → δ} {p p' q q' : Reader α} {f g : α → Reader β}

theorem Alike.pure {a b : α} (h : v a = v b) : Alike e v (Pure.pure a) (Pure.pure b) :=
  fun _ _ hcd => .some h hcd

theorem Alike.bind (hp : Alike e v p q) (hf : ∀ a b, v a = v b → Alike e w (f a) (g b)) :
    Alike e w (p >>= f) (q >>= g) := by
  intro c d hcd
  have h := hp c d hcd
  rw [bind_result, bind_result]
  generalize (p c).result = r, (q d).result = s at h
  cases h with
  | none => exact .none
  | some hab hrest => exact hf _ _ hab _ _ hrest

theorem Alike.orElse (hp : Alike e v p q) (hp' : Alike e v p' q') :
    Alike e v (p.orElse p') (q.orElse q') := by
  intro c d hcd
  have h := hp c d hcd
  rw [orElse_result, orElse_result]
  generalize (p c).result = r, (q d).result = s at h
  cases h with
  | none => exact hp' c d hcd
  | some hab hrest => exact .some hab hrest

theorem Alike.never : Alike e v never never := fun _ _ _ => .none

theorem Alike.expecting (token : String) : Alike e v (expecting token) (expecting token) :=
  fun _ _ _ => .none

theorem Alike.position : Alike e (fun _ => ()) position position := fun _ _ hcd => .some rfl hcd

theorem Alike.satisfy (token : String) {test : Char → Bool} (he : ∀ x ∈ e.head?, test x = false) :
    Alike e id (satisfy token test) (satisfy token test) := by
  rintro ⟨o, cs⟩ ⟨o', ds⟩ hcd
  simp only at hcd
  subst hcd
  cases cs with
  | nil =>
    have hnone := satisfy_refuses token he ⟨o', e⟩ rfl
    rw [List.nil_append, hnone]
    exact .none
  | cons x cs =>
    unfold Reader.satisfy
    by_cases hx : test x = true
    · simp only [List.cons_append, hx, if_true]
      exact .some rfl rfl
    · simp only [List.cons_append, hx]
      exact .none

theorem strip?_append {lit : List Char} (he : ∀ x ∈ e.head?, x ∉ lit) (cs : List Char) :
    strip? lit (cs ++ e) = (strip? lit cs).map (· ++ e) := by
  induction lit generalizing cs with
  | nil => simp [strip?]
  | cons x lit ih =>
    cases cs with
    | nil =>
      cases e with
      | nil => rfl
      | cons y e =>
        have hne : x ≠ y := fun h => he y rfl (by rw [h]; exact List.mem_cons_self)
        simp [strip?, hne]
    | cons y cs =>
      by_cases hxy : x = y
      · simp only [List.cons_append, strip?, hxy, if_true]
        exact ih (fun z hz hmem => he z hz (List.mem_cons_of_mem _ hmem)) cs
      · simp [strip?, hxy]

theorem Alike.exactly {lit : List Char} (he : ∀ x ∈ e.head?, x ∉ lit) :
    Alike e id (exactly lit) (exactly lit) := by
  intro c d hcd
  have hstrip := strip?_append he c.rest
  unfold Reader.exactly
  rw [hcd, hstrip]
  cases strip? lit c.rest with
  | none => exact .none
  | some rest => exact .some rfl rfl

theorem Alike.absent (hp : Alike e v p q) : Alike e id (absent p) (absent q) := by
  intro c d hcd
  have h := hp c d hcd
  unfold Reader.absent
  generalize (p c).result = r, (q d).result = s at h
  cases h with
  | none => exact .some rfl hcd
  | some hab hrest => exact .none

theorem Alike.optional (hp : Alike e v p q) : Alike e (Option.map v) (optional p) (optional q) :=
  .orElse (hp.bind fun _ _ hab => .pure (congrArg some hab)) (.pure rfl)

theorem Alike.upTo (hp : Alike e v p q) (n : Nat) : Alike e (List.map v) (upTo n p) (upTo n q) := by
  induction n with
  | zero => exact .pure rfl
  | succ n ih =>
    have hmore : Alike e (List.map v) (p >>= fun a => Reader.upTo n p >>= fun as => Pure.pure (a :: as))
        (q >>= fun a => Reader.upTo n q >>= fun as => Pure.pure (a :: as)) :=
      hp.bind fun _ _ hab => ih.bind fun _ _ habs => .pure (by simp only [List.map_cons, hab, habs])
    exact fun c d hcd => hmore.orElse (.pure rfl) c d hcd

theorem Alike.many (hp : Alike e v p q) (tp : p.Takes 1) :
    Alike e (List.map v) (many p) (many q) := by
  intro c d hcd
  have h := hp.upTo (d.rest.length + 1) c d hcd
  obtain ⟨as, c', hm⟩ := exists_many tp c
  have hlen : c.rest.length < d.rest.length + 1 := by
    rw [hcd, List.length_append]
    omega
  rw [upTo_of_many tp hm hlen] at h
  rw [(many_eq_some_iff tp).2 hm]
  exact h

theorem Alike.sepBy1 {sep sep' : Reader Unit} {u : Unit → Unit} (hp : Alike e v p q)
    (hsep : Alike e u sep sep') (tp : Reader.Takes 1 (sep >>= fun _ => p)) :
    Alike e (List.map v) (sepBy1 p sep) (sepBy1 q sep') :=
  hp.bind fun _ _ hab => (Alike.many (hsep.bind fun _ _ _ => hp) tp).bind fun _ _ habs =>
    .pure (by simp only [List.map_cons, hab, habs])

/-- What the first reader matches, the second matches, and leaves `e` in addition. -/
theorem Alike.reads (h : Alike e v p q) {c c' : Cursor} {a : α} (hp : (p c).result = some (a, c')) :
    q.Reads (c.rest ++ e) (c'.rest ++ e) (v · = v a) := by
  intro d hd
  have h' := h c d hd
  rw [hp] at h'
  generalize hs : (q d).result = s at h'
  cases h' with
  | some hab hrest => exact ⟨_, _, rfl, hrest, hab.symm⟩

/-- What the first reader refuses, the second refuses. -/
theorem Alike.refuses (h : Alike e v p q) {c : Cursor} (hp : (p c).result = none) :
    q.Refuses (c.rest ++ e) := by
  intro d hd
  have h' := h c d hd
  rw [hp] at h'
  generalize hs : (q d).result = s at h'
  cases h'
  rfl

end Rules

end Reader

namespace GrammarText

open Reader

/-! ### Parts that end within their line -/

theorem charOfDigits_alike (e ds : List Char) : Alike e id (charOfDigits ds) (charOfDigits ds) := by
  unfold charOfDigits
  split
  · exact .pure rfl
  · exact .expecting _

section Line

variable {e : List Char} (he : ∀ x ∈ e.head?, x = '\n')
include he

theorem exactly_alike {lit : List Char} (hlit : '\n' ∉ lit) : Alike e id (exactly lit) (exactly lit) :=
  .exactly fun x hx => by rw [he x hx]; exact hlit

theorem satisfy_alike (token : String) {test : Char → Bool} (htest : test '\n' = false) :
    Alike e id (satisfy token test) (satisfy token test) :=
  .satisfy token fun x hx => by rw [he x hx]; exact htest

theorem hexDigits_alike (n : Nat) : Alike e (List.map id) (hexDigits n) (hexDigits n) :=
  (satisfy_alike he _ (by decide)).upTo n

theorem escape_alike : Alike e id escape escape := by
  have hshort : ∀ written meant, written ≠ '\n' →
      Alike e id (shortEscape written meant) (shortEscape written meant) := fun written meant h =>
    (exactly_alike he (by simpa using h.symm)).bind fun _ _ _ => .pure rfl
  have hbyte : Alike e id byteEscape byteEscape := by
    refine (exactly_alike he (by decide)).bind fun _ _ _ => (hexDigits_alike he 2).bind fun ds ds' h => ?_
    rw [List.map_id, List.map_id] at h
    subst h
    split
    · exact charOfDigits_alike e ds
    · exact .never
  have hcode : Alike e id codePointEscape codePointEscape := by
    refine (exactly_alike he (by decide)).bind fun _ _ _ => (hexDigits_alike he 6).bind fun ds ds' h => ?_
    rw [List.map_id, List.map_id] at h
    subst h
    split
    · exact .never
    · exact (exactly_alike he (by decide)).bind fun _ _ _ => charOfDigits_alike e ds
  exact (hshort _ _ (by decide)).orElse <| (hshort _ _ (by decide)).orElse <|
    (hshort _ _ (by decide)).orElse <| (hshort _ _ (by decide)).orElse <|
    (hshort _ _ (by decide)).orElse <| (hshort _ _ (by decide)).orElse <|
    (hshort _ _ (by decide)).orElse <| (hshort _ _ (by decide)).orElse <|
    (hshort _ _ (by decide)).orElse <| (hshort _ _ (by decide)).orElse <|
    hbyte.orElse <| hcode.orElse .never

/-- A character is read alike if the text stops at the end of the line. -/
theorem escapedOr_alike {stops : Char → Bool} (hstops : stops '\n' = true) :
    Alike e id (escapedOr stops) (escapedOr stops) := by
  refine .orElse ((exactly_alike he (by decide)).bind fun _ _ _ => escape_alike he) ?_
  rintro ⟨o, cs⟩ ⟨o', ds⟩ hcd
  simp only at hcd
  subst hcd
  cases cs with
  | nil =>
    -- nothing is left on the left, and on the right there is nothing or a new line
    have hnil : ∀ token, (satisfy token fun _ => true).Refuses [] := fun token =>
      satisfy_refuses token (by simp)
    have hleft : Reader.Refuses (do absent (satisfy "" stops); anyCharacter) [] :=
      .bind_right (absent_reads (satisfy_refuses _ (by simp))) fun _ _ => hnil _
    have hright : Reader.Refuses (do absent (satisfy "" stops); anyCharacter) e := by
      cases e with
      | nil => exact hleft
      | cons x e =>
        rw [he x rfl]
        exact .bind_left (absent_refuses (satisfy_reads _ hstops e))
    rw [hleft ⟨o, []⟩ rfl, hright ⟨o', [] ++ e⟩ rfl]
    exact .none
  | cons x cs =>
    by_cases hx : stops x = true
    · have hstop : ∀ cs, Reader.Refuses (do absent (satisfy "" stops); anyCharacter) (x :: cs) := fun cs =>
        .bind_left (absent_refuses (satisfy_reads _ hx cs))
      rw [hstop cs ⟨o, x :: cs⟩ rfl, hstop (cs ++ e) ⟨o', x :: cs ++ e⟩ rfl]
      exact .none
    · have hgo : ∀ (o : Nat) (cs : List Char),
          ((do absent (satisfy "" stops); anyCharacter : Reader Char) ⟨o, x :: cs⟩).result =
            some (x, ⟨o + x.utf8Size, cs⟩) := by
        intro o cs
        refine bind_eq_some.2 ⟨(), ⟨o, x :: cs⟩, absent_eq_some.2 ⟨?_, rfl⟩, rfl⟩
        exact satisfy_refuses "" (by simpa using hx) _ rfl
      rw [hgo o cs, List.cons_append, hgo o' (cs ++ e)]
      exact .some rfl rfl

theorem quotedBy_alike {q : Char} (hq : q ≠ '\n') : Alike e id (quotedBy q) (quotedBy q) := by
  have hquote : Alike e id (exactly [q]) (exactly [q]) := exactly_alike he (by simpa using hq.symm)
  have hchar : Alike e id (do absent (exactly [q]); literalChar) (do absent (exactly [q]); literalChar) :=
    hquote.absent.bind fun _ _ _ => escapedOr_alike he rfl
  refine hquote.bind fun _ _ _ => (hchar.many (quotedChar_takes q)).bind fun cs cs' h =>
    hquote.bind fun _ _ _ => .pure ?_
  rw [List.map_id, List.map_id] at h
  rw [h]

theorem stringLiteral_alike : Alike e id stringLiteral stringLiteral :=
  (quotedBy_alike he (by decide)).orElse (quotedBy_alike he (by decide))

theorem classRange_alike : Alike e id classRange classRange := by
  have hchar : Alike e id classChar classChar := escapedOr_alike he rfl
  refine .orElse ?_ (hchar.bind fun x x' h => .pure (by rw [show x = x' from h]))
  refine hchar.bind fun lo lo' hlo => (exactly_alike he (by decide)).bind fun _ _ _ =>
    hchar.bind fun hi hi' hhi => ?_
  obtain rfl : lo = lo' := hlo
  obtain rfl : hi = hi' := hhi
  split
  · exact .pure rfl
  · exact .expecting _

theorem charClass_alike : Alike e id charClass charClass := by
  refine (exactly_alike he (by decide)).bind fun _ _ _ => (exactly_alike he (by decide)).optional.bind
    fun caret caret' hcaret => ((classRange_alike he).many classRange_takes).bind fun rs rs' hrs =>
      (exactly_alike he (by decide)).bind fun _ _ _ => .pure ?_
  rw [List.map_id, List.map_id] at hrs
  rw [Option.map_id, id, id] at hcaret
  rw [hcaret, hrs]

theorem ident_alike : Alike e Ident.unplaced ident ident := by
  refine Alike.position.bind fun _ _ _ => (satisfy_alike he _ (by decide)).bind fun x x' hx =>
    ((satisfy_alike he _ (by decide)).many (satisfy_takes _ _)).bind fun xs xs' hxs =>
      Alike.position.bind fun _ _ _ => .pure ?_
  rw [List.map_id, List.map_id] at hxs
  rw [show x = x' from hx, hxs, Ident.unplaced, Ident.unplaced]

theorem actionType_alike : Alike e id actionType actionType := by
  refine .orElse ((ident_alike he).bind fun i i' hi => .pure ?_) (stringLiteral_alike he)
  have hname : i.unplaced.name = i'.unplaced.name := congrArg Ident.name hi
  exact hname

theorem markAt_alike : Alike e (fun m => m.1) markAt markAt := by
  have hmark : ∀ (mark : Char) (r : Repetition), mark ≠ '\n' →
      Alike e id (do exactly [mark]; return r) (do exactly [mark]; return r) := fun mark r h =>
    (exactly_alike he (by simpa using h.symm)).bind fun _ _ _ => .pure rfl
  have hr : Alike e id repetition repetition :=
    (hmark '*' .star (by decide)).orElse <| (hmark '+' .plus (by decide)).orElse <|
      (hmark '?' .opt (by decide)).orElse .never
  exact hr.bind fun r r' h => Alike.position.bind fun _ _ _ => .pure h

end Line

end GrammarText

end Packrat

import Packrat.Proofs.GrammarText.Extent
import Packrat.Proofs.Text.Boundary

/-!
# Where readers come to

A reader that begins at an offset of a text comes to a later offset of the same text, or to the same one.

* `Reader.Lands` — from an offset of a text, with a property of the result and of the offset come to; with
  a rule for each combinator.
* `Lands.many`, `Lands.many_foldl` — repetition, with what each round adds or keeps.
* `Reader.Skips` — only that the offset is one of the text.
* `blanks_skips`, `stringLiteral_skips`, `charClass_skips`, … — the small parts of grammar text.
* `ident_lands`, `code_lands` — a name and a block of code stand at their spans.
-/

set_option autoImplicit false

namespace Packrat

namespace Reader

variable {α β γ : Type} {p q : Reader α} {f : α → Reader β} {cs : List Char} {lo : Nat}

/-- From the offset `lo` of a text a match comes to an offset of the text that is not before it, and the
result and that offset have a property. -/
def Lands (p : Reader α) (cs : List Char) (lo : Nat) (T : α → Nat → Prop) : Prop :=
  ∀ rest, dropBytes? cs lo = some rest → ∀ a c', (p ⟨lo, rest⟩).result = some (a, c') →
    dropBytes? cs c'.offset = some c'.rest ∧ lo ≤ c'.offset ∧ T a c'.offset

section Rules

variable {T T' : α → Nat → Prop} {S : β → Nat → Prop}

theorem Lands.mono (h : p.Lands cs lo T) (hT : ∀ a hi, lo ≤ hi → T a hi → T' a hi) : p.Lands cs lo T' := by
  intro rest hrest a c' hres
  obtain ⟨hdrop, hle, ha⟩ := h rest hrest a c' hres
  exact ⟨hdrop, hle, hT a _ hle ha⟩

theorem Lands.pure {a : α} (h : T a lo) : (Pure.pure a : Reader α).Lands cs lo T := by
  intro rest hrest b c' hres
  cases pure_eq_some.1 hres
  exact ⟨hrest, Nat.le_refl lo, h⟩

theorem Lands.bind (hp : p.Lands cs lo T)
    (hf : ∀ a mid, lo ≤ mid → T a mid → (f a).Lands cs mid S) : (p >>= f).Lands cs lo S := by
  intro rest hrest b c' hres
  obtain ⟨a, c₁, hpc, hfc⟩ := bind_eq_some.1 hres
  obtain ⟨hdrop, hle, ha⟩ := hp rest hrest a c₁ hpc
  obtain ⟨hdrop', hle', hb⟩ := hf a c₁.offset hle ha c₁.rest hdrop b c' hfc
  exact ⟨hdrop', Nat.le_trans hle hle', hb⟩

/-- A reader begins at a boundary of the text. -/
theorem Lands.of_boundary (h : Boundary cs lo → p.Lands cs lo T) : p.Lands cs lo T :=
  fun rest hrest => h (.of_dropBytes? hrest) rest hrest

/-- What comes after the position knows the offset, which is a boundary of the text. -/
theorem Lands.position {g : Nat → Reader β} (h : Boundary cs lo → (g lo).Lands cs lo S) :
    (Reader.position >>= g).Lands cs lo S := by
  refine .of_boundary fun hlo rest hrest b c' hres => ?_
  obtain ⟨o, c₁, hpos, hg⟩ := bind_eq_some.1 hres
  cases hpos
  exact h hlo rest hrest b c' hg

theorem Lands.orElse (hp : p.Lands cs lo T) (hq : q.Lands cs lo T) : (p.orElse q).Lands cs lo T := by
  intro rest hrest a c' hres
  rcases orElse_eq_some.1 hres with h | ⟨-, h⟩
  · exact hp rest hrest a c' h
  · exact hq rest hrest a c' h

theorem Lands.firstOf {ps : List (Reader α)} (h : ∀ p ∈ ps, p.Lands cs lo T) :
    (Reader.firstOf ps).Lands cs lo T := by
  intro rest hrest a c' hres
  obtain ⟨p, hp, hpc⟩ := firstOf_eq_some hres
  exact h p hp rest hrest a c' hpc

theorem Lands.never : (never : Reader α).Lands cs lo T := by
  intro rest hrest a c' hres
  cases hres

theorem Lands.expecting (token : String) : (expecting token : Reader α).Lands cs lo T := by
  intro rest hrest a c' hres
  cases hres

theorem Lands.absent (p : Reader α) : (absent p).Lands cs lo fun _ hi => hi = lo := by
  intro rest hrest u c' hres
  obtain ⟨-, heq⟩ := absent_eq_some.1 hres
  cases heq
  exact ⟨hrest, Nat.le_refl lo, rfl⟩

theorem Lands.optional {T : Option α → Nat → Prop} (hp : p.Lands cs lo fun a hi => T (some a) hi)
    (hnone : T none lo) : (Reader.optional p).Lands cs lo T :=
  .orElse (hp.bind fun _ _ _ ha => .pure ha) (.pure hnone)

theorem satisfy_lands (token : String) (test : Char → Bool) :
    (satisfy token test).Lands cs lo fun x hi => Slice cs lo hi [x] := by
  intro rest hrest x c' hres
  obtain ⟨y, ys, hcs, -, heq⟩ := satisfy_eq_some.1 hres
  cases heq
  obtain rfl : rest = x :: ys := hcs
  obtain ⟨before, hbefore, hlo⟩ := dropBytes?_eq_some_iff.1 hrest
  refine ⟨dropBytes?_eq_some_iff.2 ⟨before ++ [x], by simp [hbefore], ?_⟩, Nat.le_add_right _ _,
    ys, hrest, by simp [byteLength]⟩
  simp [byteLength_append, byteLength, hlo]

theorem exactly_lands (lit : List Char) : (exactly lit).Lands cs lo fun _ hi => Slice cs lo hi lit := by
  intro rest hrest u c' hres
  obtain ⟨ys, hcs, heq⟩ := exactly_eq_some.1 hres
  cases heq
  obtain rfl : rest = lit ++ ys := hcs
  obtain ⟨before, hbefore, hlo⟩ := dropBytes?_eq_some_iff.1 hrest
  refine ⟨dropBytes?_eq_some_iff.2 ⟨before ++ lit, by simp [hbefore], ?_⟩, Nat.le_add_right _ _,
    ys, hrest, rfl⟩
  rw [byteLength_append, hlo]

theorem Lands.upTo (I : List α → Nat → Prop)
    (h : ∀ as lo, I as lo → p.Lands cs lo fun a hi => I (as ++ [a]) hi) (as : List α) (has : I as lo)
    (n : Nat) : (Reader.upTo n p).Lands cs lo fun bs hi => I (as ++ bs) hi := by
  induction n generalizing as lo with
  | zero => exact .pure (by rwa [List.append_nil])
  | succ n ih =>
    have hmore : Reader.Lands (p >>= fun a => Reader.upTo n p >>= fun bs => Pure.pure (a :: bs)) cs lo
        fun bs hi => I (as ++ bs) hi :=
      (h as lo has).bind fun a mid _ ha => (ih _ ha).bind fun bs hi _ hbs => .pure (by
        rwa [List.append_cons])
    have hnone : (Pure.pure [] : Reader (List α)).Lands cs lo fun bs hi => I (as ++ bs) hi :=
      .pure (by rwa [List.append_nil])
    exact fun rest => hmore.orElse hnone rest

/-- **What each round of a repetition adds to those before it is added by all of them.** -/
theorem Lands.many (I : List α → Nat → Prop)
    (h : ∀ as lo, I as lo → p.Lands cs lo fun a hi => I (as ++ [a]) hi) (as : List α) (has : I as lo) :
    (Reader.many p).Lands cs lo fun bs hi => I (as ++ bs) hi :=
  fun rest => Lands.upTo I h as has (rest.length + 1) rest

/-- What each round of a repetition keeps holds after all of them. -/
theorem Lands.many_foldl (I : γ → Nat → Prop) (step : γ → α → γ)
    (h : ∀ g lo, I g lo → p.Lands cs lo fun a hi => I (step g a) hi) (g : γ) (hg : I g lo) :
    (Reader.many p).Lands cs lo fun as hi => I (as.foldl step g) hi :=
  Lands.many (fun as hi => I (as.foldl step g) hi)
    (fun as lo has => (h _ lo has).mono fun a hi _ ha => by rwa [List.foldl_concat]) [] hg

end Rules

/-- Wherever in the text the reader begins, it comes to an offset of the text. -/
def Skips (p : Reader α) (cs : List Char) : Prop := ∀ lo, p.Lands cs lo fun _ _ => True

section Skips

theorem Lands.skips {T : Nat → α → Nat → Prop} (h : ∀ lo, p.Lands cs lo (T lo)) : p.Skips cs :=
  fun lo => (h lo).mono fun _ _ _ _ => trivial

theorem Skips.pure (a : α) : (Pure.pure a : Reader α).Skips cs := fun _ => .pure trivial

theorem Skips.bind (hp : p.Skips cs) (hf : ∀ a, (f a).Skips cs) : (p >>= f).Skips cs :=
  fun lo => (hp lo).bind fun a mid _ _ => hf a mid

theorem Skips.orElse (hp : p.Skips cs) (hq : q.Skips cs) : (p.orElse q).Skips cs :=
  fun lo => (hp lo).orElse (hq lo)

theorem Skips.firstOf {ps : List (Reader α)} (h : ∀ p ∈ ps, p.Skips cs) : (Reader.firstOf ps).Skips cs :=
  fun lo => .firstOf fun p hp => h p hp lo

theorem Skips.optional (hp : p.Skips cs) : (Reader.optional p).Skips cs :=
  fun lo => .optional (hp lo) trivial

theorem Skips.upTo (hp : p.Skips cs) (n : Nat) : (Reader.upTo n p).Skips cs :=
  fun _ => Lands.upTo (fun _ _ => True) (fun _ lo _ => hp lo) [] trivial n

theorem Skips.many (hp : p.Skips cs) : (Reader.many p).Skips cs :=
  fun _ => Lands.many (fun _ _ => True) (fun _ lo _ => hp lo) [] trivial

theorem satisfy_skips (token : String) (test : Char → Bool) : (satisfy token test).Skips cs :=
  Lands.skips fun _ => satisfy_lands token test

theorem exactly_skips (lit : List Char) : (exactly lit).Skips cs := Lands.skips fun _ => exactly_lands lit

theorem absent_skips (p : Reader α) : (absent p).Skips cs := Lands.skips fun _ => .absent p

end Skips

end Reader

namespace GrammarText

open Reader

variable {α : Type} {cs : List Char} {lo : Nat}

/-! ### Parts without spans -/

section Skips

theorem comment_skips : comment.Skips cs :=
  (exactly_skips _).bind fun _ => ((absent_skips _).bind fun _ => satisfy_skips _ _).many.bind fun _ => .pure _

theorem blanks_skips : blanks.Skips cs := by
  have hblank : blank.Skips cs := ((satisfy_skips _ _).bind fun _ => .pure _).orElse comment_skips
  have hmany : Reader.Skips (do let _ ← many blank) cs := hblank.many.bind fun _ => .pure _
  exact fun lo rest => hmany lo rest

theorem separator_skips (mark : Char) : (separator mark).Skips cs :=
  blanks_skips.bind fun _ => (exactly_skips _).bind fun _ => blanks_skips

theorem charOfDigits_skips (ds : List Char) : (charOfDigits ds).Skips cs := by
  unfold charOfDigits
  cases charOfCode? (hexValue ds) with
  | some x => exact .pure x
  | none => exact fun _ => .expecting _

theorem hexDigits_skips (n : Nat) : (hexDigits n).Skips cs := (satisfy_skips _ _).upTo n

theorem escape_skips : escape.Skips cs := by
  have hbyte : byteEscape.Skips cs := by
    refine (exactly_skips _).bind fun _ => (hexDigits_skips 2).bind fun ds => ?_
    split
    · exact charOfDigits_skips ds
    · exact fun _ => .never
  have hcode : codePointEscape.Skips cs := by
    refine (exactly_skips _).bind fun _ => (hexDigits_skips 6).bind fun ds => ?_
    split
    · exact fun _ => .never
    · exact (exactly_skips _).bind fun _ => charOfDigits_skips ds
  have hshort : ∀ written meant, (shortEscape written meant).Skips cs := fun _ _ =>
    (exactly_skips _).bind fun _ => .pure _
  refine .firstOf ?_
  simp only [List.forall_mem_cons]
  exact ⟨hshort _ _, hshort _ _, hshort _ _, hshort _ _, hshort _ _, hshort _ _, hshort _ _, hshort _ _,
    hshort _ _, hshort _ _, hbyte, hcode, List.forall_mem_nil _⟩

theorem escapedOr_skips (stops : Char → Bool) : (escapedOr stops).Skips cs :=
  ((exactly_skips _).bind fun _ => escape_skips).orElse ((absent_skips _).bind fun _ => satisfy_skips _ _)

theorem quotedBy_skips (q : Char) : (quotedBy q).Skips cs :=
  (exactly_skips _).bind fun _ => ((absent_skips _).bind fun _ => escapedOr_skips _).many.bind fun _ =>
    (exactly_skips _).bind fun _ => .pure _

theorem stringLiteral_skips : stringLiteral.Skips cs := (quotedBy_skips _).orElse (quotedBy_skips _)

theorem classRange_skips : classRange.Skips cs := by
  refine .orElse ((escapedOr_skips _).bind fun lo => (exactly_skips _).bind fun _ =>
    (escapedOr_skips _).bind fun hi => ?_) ((escapedOr_skips _).bind fun _ => .pure _)
  split
  · exact .pure _
  · exact fun _ => .expecting _

theorem charClass_skips : charClass.Skips cs :=
  (exactly_skips _).bind fun _ => (exactly_skips _).optional.bind fun _ => classRange_skips.many.bind fun _ =>
    (exactly_skips _).bind fun _ => .pure _

end Skips

/-! ### Names and code -/

/-- **A name stands at its span.** -/
theorem ident_lands : ident.Lands cs lo fun i hi => i.span = ⟨lo, hi⟩ ∧ Slice cs lo hi i.name.toList := by
  refine .position fun _ => (satisfy_lands _ _).bind fun x mid _ hx => ?_
  refine (Lands.many (fun xs hi => Slice cs lo hi (x :: xs)) (fun xs mid hxs => (satisfy_lands _ _).mono
    fun y hi _ hy => hxs.append hy) [] hx).bind fun xs hi _ hxs => .position fun _ => .pure ⟨rfl, ?_⟩
  rw [String.toList_ofList]
  exact hxs

theorem codeBody_lands (fuel : Nat) (lo : Nat) :
    (codeBody fuel).Lands cs lo fun t hi => Slice cs lo hi t := by
  induction fuel generalizing lo with
  | zero => exact .never
  | succ fuel ih =>
    have hpart : ∀ lo, (codePart fuel).Lands cs lo fun t hi => Slice cs lo hi t := fun lo =>
      .orElse ((exactly_lands _).bind fun _ m₁ _ hopen => (ih m₁).bind fun t m₂ _ ht =>
        (exactly_lands _).bind fun _ m₃ _ hclose => .pure (hopen.append (ht.append hclose)))
        ((satisfy_lands _ _).bind fun x hi _ hx => .pure hx)
    rw [codeBody_succ]
    refine .of_boundary fun hlo => (Lands.many (fun ps hi => Slice cs lo hi ps.flatten) (fun ps mid hps =>
      (hpart mid).mono fun t hi _ ht => ?_) [] (.nil hlo)).bind fun ps hi _ hps => .pure hps
    rw [List.flatten_append, List.flatten_singleton]
    exact hps.append ht

/-- **Code stands between braces at its span.** -/
theorem code_lands : code.Lands cs lo fun k hi =>
    k.span = ⟨lo, hi⟩ ∧ Slice cs lo hi ('{' :: (k.text.toList ++ ['}'])) := by
  have hbody : ∀ lo, Reader.Lands (fun c => codeBody (c.rest.length + 1) c) cs lo
      fun t hi => Slice cs lo hi t := fun lo rest => codeBody_lands (rest.length + 1) lo rest
  refine .position fun _ => (exactly_lands _).bind fun _ m₁ _ hopen => (hbody m₁).bind fun t m₂ _ ht =>
    (exactly_lands _).bind fun _ m₃ _ hclose => .position fun _ => .pure ⟨rfl, ?_⟩
  rw [String.toList_ofList]
  exact hopen.append (ht.append hclose)

end GrammarText

end Packrat

import Mathlib.Data.List.Forall2
import Packrat.GrammarText.Reader

/-!
# What readers do to texts

Where a match ends and what its result is depend on the text that follows the cursor; the offset only
goes into spans, and the furthest failure into error messages.

* `Reader.bind_eq_some`, `orElse_eq_some`, `absent_eq_some`, … — how each combinator matches.
* `Reader.Reads`, `Reader.Refuses` — a reader goes from one text to another with a result that has a
  property, or matches nowhere before a text.
* `Reader.Starts` — the first character of all that a reader matches.
* `Reader.Takes` — how much text a reader uses up at least.
* `Reader.Many`, `many_eq_some_iff` — repetition ends where its body does not match.
* `sepBy1_reads_joined`, `sepBy1_extends` — separated parts are read back from the text in which they are
  joined, and in a longer text they are read as before.
-/

set_option autoImplicit false

namespace Packrat.Reader

variable {α β : Type} {p q : Reader α} {f : α → Reader β} {c c' : Cursor} {cs cs₁ cs₂ : List Char}

/-! ### How the combinators match -/

theorem bind_result (p : Reader α) (f : α → Reader β) (c : Cursor) :
    ((p >>= f) c).result = (p c).result.bind fun r => (f r.1 r.2).result := by
  change (Reader.bind p f c).result = _
  unfold Reader.bind
  cases hp : (p c).result with
  | none => simp only [hp, Option.bind_none]
  | some r => simp only [hp, Option.bind_some]

theorem bind_eq_some {r : β × Cursor} :
    ((p >>= f) c).result = some r ↔
      ∃ a c₁, (p c).result = some (a, c₁) ∧ (f a c₁).result = some r := by
  rw [bind_result, Option.bind_eq_some_iff]
  exact ⟨fun ⟨r, h⟩ => ⟨r.1, r.2, h⟩, fun ⟨a, c₁, h⟩ => ⟨(a, c₁), h⟩⟩

theorem pure_eq_some {a : α} {r : α × Cursor} :
    ((pure a : Reader α) c).result = some r ↔ (a, c) = r := by
  change some (a, c) = some r ↔ _
  rw [Option.some_inj]

theorem orElse_result (p q : Reader α) (c : Cursor) :
    (p.orElse q c).result = (p c).result.or (q c).result := by
  unfold Reader.orElse
  cases hp : (p c).result with
  | none => simp only [hp, Option.none_or]
  | some r => simp only [hp, Option.some_or]

theorem orElse_eq_some {r : α × Cursor} :
    (p.orElse q c).result = some r ↔
      (p c).result = some r ∨ (p c).result = none ∧ (q c).result = some r := by
  rw [orElse_result, Option.or_eq_some_iff]

theorem orElse_eq_none : (p.orElse q c).result = none ↔ (p c).result = none ∧ (q c).result = none := by
  rw [orElse_result, Option.or_eq_none_iff]

theorem satisfy_eq_some {token : String} {test : Char → Bool} {r : Char × Cursor} :
    (satisfy token test c).result = some r ↔
      ∃ x cs, c.rest = x :: cs ∧ test x = true ∧ r = (x, ⟨c.offset + x.utf8Size, cs⟩) := by
  unfold satisfy
  cases hc : c.rest with
  | nil => simp
  | cons x cs =>
    by_cases hx : test x = true
    · simp only [hx, if_true, Option.some_inj, List.cons.injEq]
      constructor
      · rintro rfl
        exact ⟨x, cs, ⟨rfl, rfl⟩, hx, rfl⟩
      · rintro ⟨y, ys, ⟨rfl, rfl⟩, -, rfl⟩
        rfl
    · simp only [hx, List.cons.injEq]
      constructor
      · intro h
        cases h
      · rintro ⟨y, ys, ⟨rfl, rfl⟩, hy, -⟩
        exact absurd hy hx

theorem strip?_eq_some {lit rest : List Char} : strip? lit cs = some rest ↔ cs = lit ++ rest := by
  induction lit generalizing cs with
  | nil => simp [strip?]
  | cons x lit ih =>
    cases cs with
    | nil => simp [strip?]
    | cons y cs =>
      by_cases hxy : x = y
      · simp [strip?, hxy, ih]
      · simp [strip?, hxy, Ne.symm hxy]

theorem exactly_eq_some {lit : List Char} {r : Unit × Cursor} :
    (exactly lit c).result = some r ↔
      ∃ cs, c.rest = lit ++ cs ∧ r = ((), ⟨c.offset + byteLength lit, cs⟩) := by
  unfold exactly
  constructor
  · intro h
    split at h
    · rename_i cs hcs
      exact ⟨cs, strip?_eq_some.1 hcs, (Option.some.inj h).symm⟩
    · cases h
  · rintro ⟨cs, hcs, rfl⟩
    rw [strip?_eq_some.2 hcs]

theorem exactly_eq_cons {x : Char} {u : Unit} (h : (exactly [x] c).result = some (u, c')) :
    c.rest = x :: c'.rest := by
  obtain ⟨ds, hds, heq⟩ := exactly_eq_some.1 h
  cases heq
  exact hds

theorem head_ne_of_exactly {x : Char} (h : (exactly [x] c).result = none) : c.rest.head? ≠ some x := by
  intro hx
  obtain ⟨ds, hds⟩ := List.head?_eq_some_iff.1 hx
  rw [exactly_eq_some.2 ⟨ds, hds, rfl⟩] at h
  cases h

theorem absent_eq_some {r : Unit × Cursor} :
    (absent p c).result = some r ↔ (p c).result = none ∧ r = ((), c) := by
  unfold absent
  cases hp : (p c).result with
  | none => simp [eq_comm]
  | some s => simp

theorem optional_eq_some {o : Option α} :
    (optional p c).result = some (o, c') ↔
      (∃ a, o = some a ∧ (p c).result = some (a, c')) ∨
        o = none ∧ c' = c ∧ (p c).result = none := by
  unfold optional
  rw [orElse_result, bind_result]
  cases hp : (p c).result with
  | none =>
    rw [Option.bind_none, Option.none_or, pure_eq_some]
    simp [eq_comm]
  | some r =>
    obtain ⟨a, c₁⟩ := r
    change some (some a, c₁) = _ ↔ _
    simp only [Option.some.injEq, Prod.mk.injEq, reduceCtorEq, and_false, or_false]
    constructor
    · rintro ⟨rfl, rfl⟩
      exact ⟨a, rfl, rfl, rfl⟩
    · rintro ⟨b, rfl, rfl, rfl⟩
      exact ⟨rfl, rfl⟩

theorem firstOf_eq_some {ps : List (Reader α)} {r : α × Cursor}
    (h : (firstOf ps c).result = some r) : ∃ p ∈ ps, (p c).result = some r := by
  induction ps with
  | nil => cases h
  | cons p ps ih =>
    rcases orElse_eq_some.1 h with hp | ⟨-, hps⟩
    · exact ⟨p, List.mem_cons_self, hp⟩
    · obtain ⟨q, hq, hqc⟩ := ih hps
      exact ⟨q, List.mem_cons_of_mem _ hq, hqc⟩

/-! ### From one text to another -/

/-- Before `cs` the reader matches, leaves `cs'`, and the result has a property. -/
def Reads (p : Reader α) (cs cs' : List Char) (P : α → Prop) : Prop :=
  ∀ c : Cursor, c.rest = cs → ∃ a c', (p c).result = some (a, c') ∧ c'.rest = cs' ∧ P a

/-- Before `cs` the reader does not match. -/
def Refuses (p : Reader α) (cs : List Char) : Prop := ∀ c : Cursor, c.rest = cs → (p c).result = none

section Reads

variable {P : α → Prop} {Q : β → Prop}

theorem Reads.mono {P' : α → Prop} (h : p.Reads cs cs₁ P) (hP : ∀ a, P a → P' a) :
    p.Reads cs cs₁ P' := by
  intro c hc
  obtain ⟨a, c', hres, hrest, ha⟩ := h c hc
  exact ⟨a, c', hres, hrest, hP a ha⟩

theorem Reads.pure {a : α} (h : P a) : (Pure.pure a : Reader α).Reads cs cs P :=
  fun c hc => ⟨a, c, rfl, hc, h⟩

theorem pure_reads (a : α) (cs : List Char) : (Pure.pure a : Reader α).Reads cs cs fun _ => True :=
  .pure trivial

theorem Reads.bind (hp : p.Reads cs cs₁ P) (hf : ∀ a, P a → (f a).Reads cs₁ cs₂ Q) :
    (p >>= f).Reads cs cs₂ Q := by
  intro c hc
  obtain ⟨a, c₁, hpc, hc₁, ha⟩ := hp c hc
  obtain ⟨b, c₂, hfc, hc₂, hb⟩ := hf a ha c₁ hc₁
  exact ⟨b, c₂, bind_eq_some.2 ⟨a, c₁, hpc, hfc⟩, hc₂, hb⟩

theorem Reads.orElse_left (hp : p.Reads cs cs₁ P) : (p.orElse q).Reads cs cs₁ P := by
  intro c hc
  obtain ⟨a, c₁, hpc, h⟩ := hp c hc
  exact ⟨a, c₁, orElse_eq_some.2 (.inl hpc), h⟩

theorem Reads.orElse_right (hp : p.Refuses cs) (hq : q.Reads cs cs₁ P) :
    (p.orElse q).Reads cs cs₁ P := by
  intro c hc
  obtain ⟨a, c₁, hqc, h⟩ := hq c hc
  exact ⟨a, c₁, orElse_eq_some.2 (.inr ⟨hp c hc, hqc⟩), h⟩

theorem position_reads (cs : List Char) : position.Reads cs cs fun _ => True :=
  fun c hc => ⟨c.offset, c, rfl, hc, trivial⟩

theorem satisfy_reads (token : String) {test : Char → Bool} {x : Char} (hx : test x = true)
    (cs : List Char) : (satisfy token test).Reads (x :: cs) cs (· = x) :=
  fun _ hc => ⟨x, _, satisfy_eq_some.2 ⟨x, cs, hc, hx, rfl⟩, rfl, rfl⟩

theorem exactly_reads (lit cs : List Char) : (exactly lit).Reads (lit ++ cs) cs fun _ => True :=
  fun _ hc => ⟨(), _, exactly_eq_some.2 ⟨cs, hc, rfl⟩, rfl, trivial⟩

theorem absent_reads (hp : p.Refuses cs) : (absent p).Reads cs cs fun _ => True :=
  fun c hc => ⟨(), c, absent_eq_some.2 ⟨hp c hc, rfl⟩, hc, trivial⟩

theorem optional_reads_some (hp : p.Reads cs cs₁ P) :
    (optional p).Reads cs cs₁ fun o => ∃ a, o = some a ∧ P a := by
  intro c hc
  obtain ⟨a, c₁, hpc, hc₁, ha⟩ := hp c hc
  exact ⟨some a, c₁, optional_eq_some.2 (.inl ⟨a, rfl, hpc⟩), hc₁, a, rfl, ha⟩

theorem optional_reads_none (hp : p.Refuses cs) : (optional p).Reads cs cs (· = none) :=
  fun c hc => ⟨none, c, optional_eq_some.2 (.inr ⟨rfl, rfl, hp c hc⟩), hc, rfl⟩

theorem Refuses.bind_left (hp : p.Refuses cs) : (p >>= f).Refuses cs := by
  intro c hc
  rw [bind_result, hp c hc, Option.bind_none]

theorem Refuses.bind_right (hp : p.Reads cs cs₁ P) (hf : ∀ a, P a → (f a).Refuses cs₁) :
    (p >>= f).Refuses cs := by
  intro c hc
  obtain ⟨a, c₁, hpc, hc₁, ha⟩ := hp c hc
  rw [bind_result, hpc]
  exact hf a ha c₁ hc₁

theorem Refuses.orElse (hp : p.Refuses cs) (hq : q.Refuses cs) : (p.orElse q).Refuses cs :=
  fun c hc => orElse_eq_none.2 ⟨hp c hc, hq c hc⟩

theorem Refuses.firstOf {ps : List (Reader α)} (h : ∀ p ∈ ps, p.Refuses cs) :
    (Reader.firstOf ps).Refuses cs := by
  intro c hc
  refine Option.eq_none_iff_forall_ne_some.2 fun r hr => ?_
  obtain ⟨p, hp, hpc⟩ := firstOf_eq_some hr
  rw [h p hp c hc] at hpc
  cases hpc

theorem absent_refuses (hp : p.Reads cs cs₁ P) : (absent p).Refuses cs := by
  intro c hc
  obtain ⟨a, c₁, hpc, -⟩ := hp c hc
  unfold absent
  rw [hpc]

theorem satisfy_refuses (token : String) {test : Char → Bool}
    (h : ∀ x ∈ cs.head?, test x = false) : (satisfy token test).Refuses cs := by
  intro c hc
  refine Option.eq_none_iff_forall_ne_some.2 fun r hr => ?_
  obtain ⟨x, rest, hrest, hx, -⟩ := satisfy_eq_some.1 hr
  rw [← hc, hrest] at h
  have := h x rfl
  simp [hx] at this

theorem exactly_refuses_of_ne {lit : List Char} (h : ∀ ds, cs ≠ lit ++ ds) : (exactly lit).Refuses cs := by
  intro c hc
  refine Option.eq_none_iff_forall_ne_some.2 fun r hr => ?_
  obtain ⟨rest, hrest, -⟩ := exactly_eq_some.1 hr
  exact h rest (hc.symm.trans hrest)

theorem exactly_refuses {x : Char} {lit : List Char} (h : cs.head? ≠ some x) :
    (exactly (x :: lit)).Refuses cs := by
  refine exactly_refuses_of_ne fun ds hds => h ?_
  rw [hds]
  rfl

/-- What matches before a text does so at every cursor there, and so it does not refuse. -/
theorem Reads.not_refuses (h : p.Reads cs cs₁ P) : ¬ p.Refuses cs := by
  intro hp
  obtain ⟨a, c', hres, -⟩ := h ⟨0, cs⟩ rfl
  rw [hp _ rfl] at hres
  cases hres

/-- A reader leaves one text only. -/
theorem Reads.unique {P' : α → Prop} (h : p.Reads cs cs₁ P) (h' : p.Reads cs cs₂ P') : cs₁ = cs₂ := by
  obtain ⟨a, c', hres, hrest, -⟩ := h ⟨0, cs⟩ rfl
  obtain ⟨a', d, hres', hrest', -⟩ := h' ⟨0, cs⟩ rfl
  rw [hres] at hres'
  cases hres'
  rw [← hrest, ← hrest']

/-- What a reader gives is what it gives. -/
theorem Reads.holds {a : α} (h : p.Reads cs cs₁ P) (h' : p.Reads cs cs₂ (· = a)) : P a := by
  obtain ⟨b, c', hres, -, hb⟩ := h ⟨0, cs⟩ rfl
  obtain ⟨b', d, hres', -, rfl⟩ := h' ⟨0, cs⟩ rfl
  rw [hres] at hres'
  cases hres'
  exact hb

/-- Readers that do not match are passed over. -/
theorem Reads.firstOf_append {ps qs : List (Reader α)} (hps : ∀ p ∈ ps, p.Refuses cs)
    (h : (firstOf qs).Reads cs cs₁ P) : (firstOf (ps ++ qs)).Reads cs cs₁ P := by
  induction ps with
  | nil => exact h
  | cons p ps ih =>
    exact .orElse_right (hps p List.mem_cons_self) (ih fun q hq => hps q (List.mem_cons_of_mem _ hq))

theorem Reads.of_orElse_right (h : (p.orElse q).Reads cs cs₁ P) (hp : p.Refuses cs) :
    q.Reads cs cs₁ P := by
  intro c hc
  obtain ⟨a, c', hres, hrest⟩ := h c hc
  rcases orElse_eq_some.1 hres with hpc | ⟨-, hqc⟩
  · rw [hp c hc] at hpc
    cases hpc
  · exact ⟨a, c', hqc, hrest⟩

end Reads

/-! ### The first character -/

/-- All that the reader matches begins with a character that has a property. -/
def Starts (p : Reader α) (S : Char → Prop) : Prop :=
  ∀ (c : Cursor) (r : α × Cursor), (p c).result = some r → ∃ x cs, c.rest = x :: cs ∧ S x

section Starts

variable {S S' : Char → Prop}

theorem Starts.mono (h : p.Starts S) (hS : ∀ x, S x → S' x) : p.Starts S' := by
  intro c r hr
  obtain ⟨x, cs, hc, hx⟩ := h c r hr
  exact ⟨x, cs, hc, hS x hx⟩

theorem Starts.refuses (h : p.Starts S) (hcs : ∀ x ∈ cs.head?, ¬ S x) : p.Refuses cs := by
  intro c hc
  refine Option.eq_none_iff_forall_ne_some.2 fun r hr => ?_
  obtain ⟨x, rest, hrest, hx⟩ := h c r hr
  refine hcs x ?_ hx
  rw [← hc, hrest]
  rfl

theorem Starts.of_reads {P : α → Prop} (h : p.Starts S) (hp : p.Reads cs cs₁ P) :
    ∃ x cs', cs = x :: cs' ∧ S x := by
  obtain ⟨a, c', hres, -⟩ := hp ⟨0, cs⟩ rfl
  exact h _ _ hres

theorem Starts.bind (h : p.Starts S) : (p >>= f).Starts S := by
  intro c r hr
  obtain ⟨a, c₁, hp, -⟩ := bind_eq_some.1 hr
  exact h c _ hp

theorem Starts.sepBy1 {sep : Reader Unit} (h : p.Starts S) : (Reader.sepBy1 p sep).Starts S := h.bind

theorem Starts.orElse (hp : p.Starts S) (hq : q.Starts S) : (p.orElse q).Starts S := by
  intro c r hr
  rcases orElse_eq_some.1 hr with h | ⟨-, h⟩
  · exact hp c r h
  · exact hq c r h

theorem Starts.firstOf {ps : List (Reader α)} (h : ∀ p ∈ ps, p.Starts S) :
    (Reader.firstOf ps).Starts S := by
  intro c r hr
  obtain ⟨p, hp, hpc⟩ := firstOf_eq_some hr
  exact h p hp c r hpc

theorem satisfy_starts (token : String) (test : Char → Bool) :
    (satisfy token test).Starts fun x => test x = true := by
  intro c r hr
  obtain ⟨x, cs, hc, hx, -⟩ := satisfy_eq_some.1 hr
  exact ⟨x, cs, hc, hx⟩

theorem exactly_starts (x : Char) (lit : List Char) : (exactly (x :: lit)).Starts (· = x) := by
  intro c r hr
  obtain ⟨cs, hc, -⟩ := exactly_eq_some.1 hr
  exact ⟨x, lit ++ cs, hc, rfl⟩

/-- What comes after a reader that uses up nothing decides about the first character. -/
theorem Starts.position {g : Nat → Reader β} (h : ∀ o, (g o).Starts S) :
    (Reader.position >>= g).Starts S := by
  intro c r hr
  obtain ⟨o, c₁, hpos, hg⟩ := bind_eq_some.1 hr
  cases hpos
  exact h _ _ r hg

end Starts

/-! ### How much is used up -/

/-- A match uses up at least `k` characters. -/
def Takes (k : Nat) (p : Reader α) : Prop :=
  ∀ (c : Cursor) (r : α × Cursor), (p c).result = some r → r.2.rest.length + k ≤ c.rest.length

section Takes

variable {k m : Nat}

theorem Takes.mono (h : p.Takes k) (hm : m ≤ k) : p.Takes m := by
  intro c r hr
  have := h c r hr
  omega

theorem Takes.pure (a : α) : (Pure.pure a : Reader α).Takes 0 := by
  rintro c r hr
  cases pure_eq_some.1 hr
  exact Nat.le_refl _

theorem Takes.bind (hp : p.Takes k) (hf : ∀ a, (f a).Takes m) : (p >>= f).Takes (k + m) := by
  intro c r hr
  obtain ⟨a, c₁, hpc, hfc⟩ := bind_eq_some.1 hr
  have h₁ := hp c _ hpc
  have h₂ := hf a c₁ r hfc
  simp only at h₁
  omega

/-- What comes after cannot give anything back. -/
theorem Takes.then (hp : p.Takes k) (hf : ∀ a, (f a).Takes 0) : (p >>= f).Takes k := hp.bind hf

/-- What came before cannot give anything back. -/
theorem Takes.after (hp : p.Takes 0) (hf : ∀ a, (f a).Takes k) : (p >>= f).Takes k :=
  (hp.bind hf).mono (by omega)

theorem Takes.orElse (hp : p.Takes k) (hq : q.Takes k) : (p.orElse q).Takes k := by
  intro c r hr
  rcases orElse_eq_some.1 hr with h | ⟨-, h⟩
  · exact hp c r h
  · exact hq c r h

theorem Takes.firstOf {ps : List (Reader α)} (h : ∀ p ∈ ps, p.Takes k) :
    (Reader.firstOf ps).Takes k := by
  intro c r hr
  obtain ⟨p, hp, hpc⟩ := firstOf_eq_some hr
  exact h p hp c r hpc

theorem position_takes : position.Takes 0 := by
  intro c r hr
  cases hr
  exact Nat.le_refl _

theorem satisfy_takes (token : String) (test : Char → Bool) : (satisfy token test).Takes 1 := by
  intro c r hr
  obtain ⟨x, cs, hc, -, rfl⟩ := satisfy_eq_some.1 hr
  rw [hc]
  exact Nat.le_refl _

theorem exactly_takes (x : Char) (lit : List Char) : (exactly (x :: lit)).Takes 1 := by
  intro c r hr
  obtain ⟨cs, hc, rfl⟩ := exactly_eq_some.1 hr
  rw [hc]
  simp only [List.cons_append, List.length_cons, List.length_append]
  omega

theorem absent_takes (p : Reader α) : (absent p).Takes 0 := by
  intro c r hr
  obtain ⟨-, rfl⟩ := absent_eq_some.1 hr
  exact Nat.le_refl _

theorem Takes.optional (hp : p.Takes 0) : (Reader.optional p).Takes 0 :=
  .orElse (hp.then fun _ => .pure _) (.pure _)

theorem Takes.upTo (hp : p.Takes 0) (n : Nat) : (Reader.upTo n p).Takes 0 := by
  induction n with
  | zero => exact .pure _
  | succ n ih =>
    intro c r hr
    have hmore : Reader.Takes 0 (p >>= fun a => Reader.upTo n p >>= fun as => Pure.pure (a :: as)) :=
      hp.then fun _ => ih.then fun _ => .pure _
    exact hmore.orElse (.pure []) c r hr

theorem Takes.many (hp : p.Takes 0) : (Reader.many p).Takes 0 := fun c r hr => hp.upTo _ c r hr

theorem Takes.sepBy1 {sep : Reader Unit} (hp : p.Takes k) (hsep : sep.Takes 0) :
    (Reader.sepBy1 p sep).Takes k :=
  hp.then fun _ => (hsep.then fun _ => hp.mono (Nat.zero_le _)).many.then fun _ => .pure _

end Takes

/-! ### Repetition -/

/-- A repetition matches its body again and again, until the body does not match. -/
inductive Many (p : Reader α) : Cursor → List α → Cursor → Prop where
  | stop {c : Cursor} (h : (p c).result = none) : Many p c [] c
  | more {c c₁ c₂ : Cursor} {a : α} {as : List α} (h : (p c).result = some (a, c₁))
      (hm : Many p c₁ as c₂) : Many p c (a :: as) c₂

/-- Where the bound is not reached, repetition is what it is without one. -/
theorem upTo_of_many (hp : p.Takes 1) {n : Nat} {as : List α} (hm : Many p c as c')
    (hn : c.rest.length < n) : (upTo n p c).result = some (as, c') := by
  induction hm generalizing n with
  | @stop c h =>
    cases n with
    | zero => exact absurd hn (Nat.not_lt_zero _)
    | succ n =>
      change (Reader.orElse _ (pure []) c).result = _
      rw [orElse_result, bind_result, h]
      rfl
  | @more c c₁ c₂ a as h _ ih =>
    cases n with
    | zero => exact absurd hn (Nat.not_lt_zero _)
    | succ n =>
      have hlen : c₁.rest.length + 1 ≤ c.rest.length := hp c _ h
      have hrest : (upTo n p c₁).result = some (as, c₂) := ih (by omega)
      change (Reader.orElse _ (pure []) c).result = _
      rw [orElse_result, bind_result, h, Option.bind_some, bind_result, hrest]
      rfl

theorem exists_many (hp : p.Takes 1) (c : Cursor) : ∃ as c', Many p c as c' := by
  induction hn : c.rest.length using Nat.strongRecOn generalizing c with
  | ind n ih =>
    cases h : (p c).result with
    | none => exact ⟨[], c, .stop h⟩
    | some r =>
      obtain ⟨a, c₁⟩ := r
      have hlen : c₁.rest.length + 1 ≤ c.rest.length := hp c _ h
      obtain ⟨as, c₂, hm⟩ := ih c₁.rest.length (by omega) c₁ rfl
      exact ⟨a :: as, c₂, .more h hm⟩

/-- **Repetition takes all that it can get.** -/
theorem many_eq_some_iff (hp : p.Takes 1) {as : List α} :
    (many p c).result = some (as, c') ↔ Many p c as c' := by
  have hmany : ∀ {as c'}, Many p c as c' → (many p c).result = some (as, c') :=
    fun hm => upTo_of_many hp hm (Nat.lt_succ_self _)
  refine ⟨fun h => ?_, hmany⟩
  obtain ⟨bs, d, hm⟩ := exists_many hp c
  rw [hmany hm] at h
  cases h
  exact hm

/-- A repetition stops where its body does not match. -/
theorem Many.stops {as : List α} (h : Many p c as c') : (p c').result = none := by
  induction h with
  | stop h => exact h
  | more _ _ ih => exact ih

theorem upTo_reads_nil (hp : p.Refuses cs) (n : Nat) : (upTo n p).Reads cs cs (· = []) := by
  cases n with
  | zero => exact .pure rfl
  | succ n => exact Reads.orElse_right (.bind_left hp) (.pure rfl)

theorem upTo_reads_cons {P : α → Prop} {Q : List α → Prop} {n : Nat} (hp : p.Reads cs cs₁ P)
    (hm : (upTo n p).Reads cs₁ cs₂ Q) :
    (upTo (n + 1) p).Reads cs cs₂ fun as => ∃ a as', as = a :: as' ∧ P a ∧ Q as' :=
  Reads.orElse_left (hp.bind fun a ha => hm.bind fun as' has => .pure ⟨a, as', rfl, ha, has⟩)

theorem many_reads_nil (hp : p.Refuses cs) : (many p).Reads cs cs (· = []) :=
  fun c hc => upTo_reads_nil hp _ c hc

theorem many_reads_none {γ : Type} (v : α → γ) (hp : p.Refuses cs) :
    (many p).Reads cs cs fun as => as.map v = [] := (many_reads_nil hp).mono (by rintro as rfl; rfl)

theorem many_reads_cons {P : α → Prop} {Q : List α → Prop} (ht : p.Takes 1) (hp : p.Reads cs cs₁ P)
    (hm : (many p).Reads cs₁ cs₂ Q) :
    (many p).Reads cs cs₂ fun as => ∃ a as', as = a :: as' ∧ P a ∧ Q as' := by
  intro c hc
  obtain ⟨a, c₁, hpc, hc₁, ha⟩ := hp c hc
  obtain ⟨as, c₂, hmc, hc₂, has⟩ := hm c₁ hc₁
  have hmany : Many p c (a :: as) c₂ := .more hpc ((many_eq_some_iff ht).1 hmc)
  exact ⟨a :: as, c₂, (many_eq_some_iff ht).2 hmany, hc₂, a, as, rfl, ha, has⟩

/-- One match and then, with separators, as many as there are. -/
theorem sepBy1_reads {sep : Reader Unit} {P : α → Prop} {Q : List α → Prop} (hp : p.Reads cs cs₁ P)
    (hm : (many (sep >>= fun _ => p)).Reads cs₁ cs₂ Q) :
    (sepBy1 p sep).Reads cs cs₂ fun as => ∃ a as', as = a :: as' ∧ P a ∧ Q as' :=
  hp.bind fun a ha => hm.bind fun as' has => .pure ⟨a, as', rfl, ha, has⟩

theorem sepBy1_eq_some {sep : Reader Unit} (ht : Reader.Takes 1 (sep >>= fun _ => p)) {as : List α} :
    (sepBy1 p sep c).result = some (as, c') ↔
      ∃ a as' c₁, as = a :: as' ∧ (p c).result = some (a, c₁) ∧
        Many (sep >>= fun _ => p) c₁ as' c' := by
  unfold sepBy1
  rw [bind_eq_some]
  constructor
  · rintro ⟨a, c₁, hp, h⟩
    obtain ⟨as', c₂, hm, h⟩ := bind_eq_some.1 h
    cases pure_eq_some.1 h
    exact ⟨a, as', c₁, rfl, hp, (many_eq_some_iff ht).1 hm⟩
  · rintro ⟨a, as', c₁, rfl, hp, hm⟩
    exact ⟨a, c₁, hp, bind_eq_some.2 ⟨as', c', (many_eq_some_iff ht).2 hm, rfl⟩⟩

theorem intercalate_cons (sep x : List Char) (xs : List (List Char)) :
    sep.intercalate (x :: xs) = x ++ (xs.map (sep ++ ·)).flatten := by
  induction xs generalizing x with
  | nil => simp
  | cons y ys ih => rw [List.intercalate_cons_cons, ih, List.map_cons, List.flatten_cons, List.append_assoc,
      List.append_assoc]

theorem length_le_intercalate (sep : List Char) {x : List Char} {xs : List (List Char)} (h : x ∈ xs) :
    x.length ≤ (sep.intercalate xs).length := by
  induction xs with
  | nil => cases h
  | cons y ys ih =>
    cases ys with
    | nil => exact Nat.le_of_eq (by rw [List.mem_singleton.1 h, List.intercalate_singleton])
    | cons z zs =>
      rw [List.intercalate_cons_cons, List.length_append, List.length_append]
      rcases List.mem_cons.1 h with rfl | h
      · omega
      · have := ih h
        omega

section Joined

variable {γ δ : Type} {sep : Reader Unit} {sepText : List Char} {write : γ → List Char} {f : α → δ}
  {g : γ → δ} {Stop : List Char → Prop}

/-- **What is written with separators is read back**, if each part is read back before whatever may
follow it, and a separator with a part may. -/
theorem sepBy1_reads_joined (ht : Reader.Takes 1 (sep >>= fun _ => p)) {xs : List γ} (hne : xs ≠ [])
    (hx : ∀ x ∈ xs, ∀ rest, Stop rest → p.Reads (write x ++ rest) rest fun a => f a = g x)
    (hsep : ∀ x ∈ xs, ∀ rest, sep.Reads (sepText ++ (write x ++ rest)) (write x ++ rest) fun _ => True)
    (hstop : ∀ x ∈ xs, ∀ rest, Stop (sepText ++ (write x ++ rest))) {rest : List Char}
    (hrest : Stop rest) (hend : Reader.Refuses (sep >>= fun _ => p) rest) :
    (sepBy1 p sep).Reads (sepText.intercalate (xs.map write) ++ rest) rest
      fun as => as.map f = xs.map g := by
  have htail : ∀ ys : List γ, (∀ y ∈ ys, y ∈ xs) →
      (many (sep >>= fun _ => p)).Reads (((ys.map write).map (sepText ++ ·)).flatten ++ rest) rest
          (fun as => as.map f = ys.map g) ∧
        Stop (((ys.map write).map (sepText ++ ·)).flatten ++ rest) := by
    intro ys hys
    induction ys with
    | nil => exact ⟨(many_reads_nil hend).mono (by rintro as rfl; rfl), hrest⟩
    | cons y ys ih =>
      have hy := hys y List.mem_cons_self
      obtain ⟨hmany, hstop'⟩ := ih fun z hz => hys z (List.mem_cons_of_mem _ hz)
      rw [List.map_cons, List.map_cons, List.flatten_cons, List.append_assoc, List.append_assoc]
      refine ⟨(many_reads_cons ht ((hsep y hy _).bind fun _ _ => hx y hy _ hstop') hmany).mono ?_,
        hstop y hy _⟩
      rintro as ⟨a, as', rfl, ha, has⟩
      rw [List.map_cons, ha, has, List.map_cons]
  obtain ⟨y, ys, rfl⟩ := List.exists_cons_of_ne_nil hne
  obtain ⟨hmany, hstop'⟩ := htail ys fun z hz => List.mem_cons_of_mem _ hz
  rw [List.map_cons, intercalate_cons, List.append_assoc]
  refine (sepBy1_reads (hx y List.mem_cons_self _ hstop') hmany).mono ?_
  rintro as ⟨a, as', rfl, ha, has⟩
  rw [List.map_cons, ha, has, List.map_cons]

end Joined

section Parts

variable {γ : Type} {e : List Char} {p : Reader α} {q : Reader β} {sep sep' : Reader Unit}

/-- Parts with separators are read on, if each part is read on before a separator, and the last one
before what follows; then more of them may follow. -/
theorem sepBy1_extends {R : α → β → Prop} {Q : List β → Prop} (End : α → List Char → List Char → Prop)
    (tp : Reader.Takes 1 (sep >>= fun _ => p)) (tq : Reader.Takes 1 (sep' >>= fun _ => q))
    (hp : ∀ {c c' : Cursor} {a : α} {s : List Char}, (p c).result = some (a, c') → End a c'.rest s →
      q.Reads (c.rest ++ e) s (R a))
    (hsep : ∀ {c c₁ : Cursor} {u : Unit} {r : α × Cursor}, (sep c).result = some (u, c₁) →
      (p c₁).result = some r →
        sep'.Reads (c.rest ++ e) (c₁.rest ++ e) (fun _ => True) ∧ ∀ b, End b c.rest (c.rest ++ e))
    {c c' : Cursor} {as : List α} (h : (sepBy1 p sep c).result = some (as, c')) {s s' : List Char}
    (hlast : ∀ a ∈ as.getLast?, End a c'.rest s) (hmore : (many (sep' >>= fun _ => q)).Reads s s' Q) :
    (sepBy1 q sep').Reads (c.rest ++ e) s' fun bs =>
      ∃ bs₁ bs₂, bs = bs₁ ++ bs₂ ∧ List.Forall₂ R as bs₁ ∧ Q bs₂ := by
  obtain ⟨a, as', c₁, rfl, ha, hm⟩ := (sepBy1_eq_some tp).1 h
  clear h
  have hmany : ∀ b, (∀ a ∈ (b :: as').getLast?, End a c'.rest s) →
      ∃ s₁, End b c₁.rest s₁ ∧ (many (sep' >>= fun _ => q)).Reads s₁ s' fun bs =>
        ∃ bs₁ bs₂, bs = bs₁ ++ bs₂ ∧ List.Forall₂ R as' bs₁ ∧ Q bs₂ := by
    clear hlast ha
    induction hm with
    | stop _ => exact fun b hb => ⟨s, hb b rfl, hmore.mono fun bs hbs => ⟨[], bs, rfl, .nil, hbs⟩⟩
    | @more c₁ c₂ c₃ a as hstep _ ih =>
      intro b hb
      obtain ⟨s₂, hend, hrest⟩ := ih a (by rwa [List.getLast?_cons_cons] at hb)
      obtain ⟨u, d, hu, ha⟩ := bind_eq_some.1 hstep
      obtain ⟨hsep', hends⟩ := hsep hu ha
      refine ⟨_, hends b, (many_reads_cons tq (hsep'.bind fun _ _ => hp ha hend) hrest).mono ?_⟩
      rintro bs ⟨a', bs', rfl, ha', bs₁, bs₂, rfl, hbs, hq⟩
      exact ⟨a' :: bs₁, bs₂, rfl, .cons ha' hbs, hq⟩
  obtain ⟨s₁, hend, hrest⟩ := hmany a hlast
  refine (sepBy1_reads (hp ha hend) hrest).mono ?_
  rintro bs ⟨a', bs', rfl, ha', bs₁, bs₂, rfl, hbs, hq⟩
  exact ⟨a' :: bs₁, bs₂, rfl, .cons ha' hbs, hq⟩

theorem map_eq_of_forall₂ {v : α → γ} {as bs : List α} (h : List.Forall₂ (fun a b => v b = v a) as bs) :
    bs.map v = as.map v := by
  induction h with
  | nil => rfl
  | cons hab _ ih => rw [List.map_cons, hab, ih, List.map_cons]

end Parts

end Packrat.Reader

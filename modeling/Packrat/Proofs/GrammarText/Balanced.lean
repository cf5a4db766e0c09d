import Mathlib.Data.Nat.Find
import Packrat.Proofs.GrammarText.Landing
import Packrat.Proofs.GrammarText.Tokens

/-!
# Code ends where its braces are balanced

Braces that come in pairs are told by counting: code is the shortest text from an opening brace on in
which as many braces are opened as are closed.

* `Balanced`, `FirstBalanced` — equally many braces of both kinds, and the shortest such beginning of a text.
* `surplus` — how many more braces are opened than closed.
* `Braced.surplus_nonneg` — text with its braces in pairs never closes more than it has opened.
* `firstBalanced_of_braced`, `exists_braced_of_firstBalanced` — the shortest balanced beginning of a text
  that begins with a brace is a pair of braces around text with its braces in pairs.
* `code_exact` — where code is read and where it ends.
-/

set_option autoImplicit false

namespace Packrat.GrammarText

open Reader

variable {cs t : List Char}

/-- As many braces are opened as are closed. -/
def Balanced (cs : List Char) : Prop := cs.count '\x7b' = cs.count '\x7d'

/-- The shortest beginning of a text, other than the empty one, that is balanced. -/
structure FirstBalanced (t cs : List Char) : Prop where
  ne_nil : t ≠ []
  begins : t <+: cs
  balanced : Balanced t
  shortest : ∀ s, s ≠ [] → s <+: cs → Balanced s → t.length ≤ s.length

/-- A text with a balanced beginning has a shortest one. -/
theorem exists_firstBalanced {s : List Char} (hne : s ≠ []) (hbegins : s <+: cs) (hs : Balanced s) :
    ∃ t, FirstBalanced t cs := by
  classical
  have hex : ∃ n, ∃ s, s ≠ [] ∧ s <+: cs ∧ Balanced s ∧ s.length = n := ⟨_, s, hne, hbegins, hs, rfl⟩
  obtain ⟨t, htne, htbegins, ht, hlen⟩ := Nat.find_spec hex
  refine ⟨t, htne, htbegins, ht, fun s hne hbegins hs => ?_⟩
  rw [hlen]
  exact Nat.find_min' hex ⟨s, hne, hbegins, hs, rfl⟩

/-! ### Counting braces -/

/-- How many more braces are opened than closed. -/
def surplus (cs : List Char) : Int := cs.count '\x7b' - cs.count '\x7d'

theorem balanced_iff : Balanced cs ↔ surplus cs = 0 := by
  unfold Balanced surplus
  omega

@[simp]
theorem surplus_nil : surplus [] = 0 := rfl

@[simp]
theorem surplus_open (cs : List Char) : surplus ('\x7b' :: cs) = surplus cs + 1 := by
  simp [surplus]
  omega

@[simp]
theorem surplus_close (cs : List Char) : surplus ('\x7d' :: cs) = surplus cs - 1 := by
  simp [surplus]
  omega

theorem surplus_plain {x : Char} (hopen : x ≠ '\x7b') (hclose : x ≠ '\x7d') (cs : List Char) :
    surplus (x :: cs) = surplus cs := by
  rw [surplus, List.count_cons_of_ne hopen, List.count_cons_of_ne hclose, surplus]

@[simp]
theorem surplus_append (cs ds : List Char) : surplus (cs ++ ds) = surplus cs + surplus ds := by
  simp only [surplus, List.count_append]
  omega

/-- A beginning of two texts together is one of the first, or all of it and one of the second. -/
theorem begins_append_cases {s cs ds : List Char} (h : s <+: cs ++ ds) :
    s <+: cs ∨ ∃ u, u <+: ds ∧ s = cs ++ u := by
  rcases List.prefix_or_prefix_of_prefix h (List.prefix_append cs ds) with h' | ⟨u, rfl⟩
  · exact .inl h'
  · exact .inr ⟨u, (List.prefix_append_right_inj cs).1 h, rfl⟩

/-! ### Pairs of braces are balanced -/

theorem Braced.surplus_eq (h : Braced t) : surplus t = 0 := by
  induction h with
  | nil => rfl
  | plain hopen hclose _ ih => rw [surplus_plain hopen hclose, ih]
  | nested _ _ ihinner ih => simp [ihinner, ih]

/-- **Text with its braces in pairs never closes more than it has opened.** -/
theorem Braced.surplus_nonneg (h : Braced t) {s : List Char} (hs : s <+: t) : 0 ≤ surplus s := by
  induction h generalizing s with
  | nil =>
    rw [List.prefix_nil.1 hs]
    exact Int.le_refl 0
  | plain hopen hclose _ ih =>
    rcases List.prefix_cons_iff.1 hs with rfl | ⟨s', rfl, hs'⟩
    · exact Int.le_refl 0
    · rw [surplus_plain hopen hclose]
      exact ih hs'
  | @nested inner rest hinner _ ihinner ih =>
    rcases List.prefix_cons_iff.1 hs with rfl | ⟨s', rfl, hs'⟩
    · exact Int.le_refl 0
    rw [surplus_open]
    -- the beginning ends inside the pair, with its closing brace or after it
    rcases begins_append_cases hs' with hin | ⟨u, hu, rfl⟩
    · have := ihinner hin
      omega
    rcases List.prefix_cons_iff.1 hu with rfl | ⟨u', rfl, hu'⟩
    · simp [hinner.surplus_eq]
    · simpa [hinner.surplus_eq] using ih hu'

/-- A pair of braces around text with its braces in pairs ends where the text is balanced for the first
time. -/
theorem firstBalanced_of_braced (h : Braced t) (rest : List Char) :
    FirstBalanced ('\x7b' :: (t ++ ['\x7d'])) ('\x7b' :: (t ++ '\x7d' :: rest)) where
  ne_nil := List.cons_ne_nil _ _
  begins := ⟨rest, by simp⟩
  balanced := balanced_iff.2 (by simp [h.surplus_eq])
  shortest := by
    intro s hne hs hbalanced
    rw [balanced_iff] at hbalanced
    rcases List.prefix_cons_iff.1 hs with rfl | ⟨s', rfl, hs'⟩
    · exact absurd rfl hne
    rw [surplus_open] at hbalanced
    rcases begins_append_cases hs' with hin | ⟨u, -, rfl⟩
    · have := h.surplus_nonneg hin
      omega
    cases u with
    | nil => simp [h.surplus_eq] at hbalanced
    | cons x u => simp

/-! ### Balanced text is pairs of braces -/

/-- A text that closes one brace more than the `depth` that are open, and no shorter beginning of which
does, ends with that brace. -/
theorem exists_closes {depth : Nat} (hclosed : surplus t = -(depth + 1))
    (hfirst : ∀ s, s <+: t → surplus s = -(depth + 1) → t.length ≤ s.length) :
    ∃ u, t = u ++ ['\x7d'] ∧ closes depth u = true := by
  induction t generalizing depth with
  | nil =>
    rw [surplus_nil] at hclosed
    omega
  | cons x t ih =>
    -- a beginning of the rest is one of the whole, without its first character
    have hrest : ∀ d : Nat, (∀ s, surplus s = -(d + 1) → surplus (x :: s) = -(depth + 1)) →
        ∀ s, s <+: t → surplus s = -(d + 1) → t.length ≤ s.length := fun d hd s hs hsurplus =>
      Nat.le_of_succ_le_succ (hfirst (x :: s) (List.cons_prefix_cons.2 ⟨rfl, hs⟩) (hd s hsurplus))
    by_cases hopen : x = '\x7b'
    · subst hopen
      rw [surplus_open] at hclosed
      obtain ⟨u, rfl, hu⟩ := @ih (depth + 1) (by omega) (hrest (depth + 1) fun s hs => by
        rw [surplus_open]
        omega)
      exact ⟨'\x7b' :: u, rfl, by rwa [closes, if_pos rfl]⟩
    by_cases hclose : x = '\x7d'
    · subst hclose
      rw [surplus_close] at hclosed
      cases depth with
      | zero =>
        have hlen := hfirst ['\x7d'] (List.prefix_append ['\x7d'] t) rfl
        obtain rfl : t = [] := by simpa using hlen
        exact ⟨[], rfl, rfl⟩
      | succ depth =>
        obtain ⟨u, rfl, hu⟩ := @ih depth (by omega) (hrest depth fun s hs => by
          rw [surplus_close]
          omega)
        exact ⟨'\x7d' :: u, rfl, by simpa [closes] using hu⟩
    · rw [surplus_plain hopen hclose] at hclosed
      obtain ⟨u, rfl, hu⟩ := ih hclosed (hrest depth fun s hs => by rwa [surplus_plain hopen hclose])
      exact ⟨x :: u, rfl, by rwa [closes, if_neg hopen, if_neg hclose]⟩

/-- **The shortest balanced beginning of a text that begins with a brace** is a pair of braces around text
with its braces in pairs. -/
theorem exists_braced_of_firstBalanced (hopen : cs.head? = some '\x7b') (h : FirstBalanced t cs) :
    ∃ u, Braced u ∧ t = '\x7b' :: (u ++ ['\x7d']) := by
  obtain ⟨cs, rfl⟩ := List.head?_eq_some_iff.1 hopen
  rcases List.prefix_cons_iff.1 h.begins with rfl | ⟨t, rfl, ht⟩
  · exact absurd rfl h.ne_nil
  have hbalanced := balanced_iff.1 h.balanced
  rw [surplus_open] at hbalanced
  obtain ⟨u, rfl, hu⟩ := @exists_closes t 0 (by omega) fun s hs hsurplus => by
    have hs' : Balanced ('\x7b' :: s) := balanced_iff.2 (by
      rw [surplus_open]
      omega)
    exact Nat.le_of_succ_le_succ (h.shortest ('\x7b' :: s) (List.cons_ne_nil _ _)
      (List.cons_prefix_cons.2 ⟨rfl, hs.trans ht⟩) hs')
  exact ⟨u, braced_of_closes hu, rfl⟩

/-! ### Code -/

/-- **Code is read exactly where a brace opens and some text from there on is balanced**: it ends with the
shortest such text, and what is recorded is what stands between the first and the last character of
that. -/
theorem code_exact {cs rest : List Char} {p : Nat} (h : dropBytes? cs p = some rest) :
    ((∃ k c', (code ⟨p, rest⟩).result = some (k, c')) ↔
      rest.head? = some '\x7b' ∧ ∃ s, s ≠ [] ∧ s <+: rest ∧ Balanced s) ∧
    ∀ k c', (code ⟨p, rest⟩).result = some (k, c') →
      ∃ t, FirstBalanced t rest ∧ rest = t ++ c'.rest ∧ c'.offset = p + byteLength t ∧
        k.text = String.ofList t.tail.dropLast ∧ k.span = ⟨p, c'.offset⟩ := by
  refine ⟨⟨?_, ?_⟩, ?_⟩
  · rintro ⟨k, c', hres⟩
    obtain ⟨u, hu, hrest, -⟩ := code_eq_some hres
    obtain rfl : rest = _ := hrest
    have hfirst := firstBalanced_of_braced hu c'.rest
    exact ⟨rfl, _, hfirst.ne_nil, hfirst.begins, hfirst.balanced⟩
  · rintro ⟨hopen, s, hne, hbegins, hs⟩
    obtain ⟨t, ht⟩ := exists_firstBalanced hne hbegins hs
    obtain ⟨u, hu, rfl⟩ := exists_braced_of_firstBalanced hopen ht
    obtain ⟨after, rfl⟩ := ht.begins
    rw [List.cons_append, List.append_assoc, List.singleton_append]
    obtain ⟨k, c', hres, -⟩ := code_reads hu after ⟨p, _⟩ rfl
    exact ⟨k, c', hres⟩
  · intro k c' hres
    obtain ⟨u, hu, hrest, htext⟩ := code_eq_some hres
    obtain ⟨-, -, hspan, after, -, hoffset⟩ := code_lands rest h k c' hres
    obtain rfl : rest = _ := hrest
    rw [htext, String.toList_ofList] at hoffset
    refine ⟨'\x7b' :: (u ++ ['\x7d']), firstBalanced_of_braced hu c'.rest, by simp, hoffset, ?_, hspan⟩
    rw [htext]
    simp

/-- Code in the middle of a text ends with the brace that closes the first one. -/
theorem code_exact_nested :
    dropBytes? "é\x7ba\x7bb\x7d\x7d\x7d".toList 2 = some "\x7ba\x7bb\x7d\x7d\x7d".toList ∧
    ∃ k c', (code ⟨2, "\x7ba\x7bb\x7d\x7d\x7d".toList⟩).result = some (k, c') ∧
      ∃ t, FirstBalanced t "\x7ba\x7bb\x7d\x7d\x7d".toList ∧ c'.offset = 2 + byteLength t ∧
        k.text = String.ofList t.tail.dropLast := by
  have hdrop : dropBytes? "é\x7ba\x7bb\x7d\x7d\x7d".toList 2 = some "\x7ba\x7bb\x7d\x7d\x7d".toList := by
    decide +kernel
  obtain ⟨k, c', hres⟩ := (code_exact hdrop).1.2 ⟨by decide +kernel, "\x7ba\x7bb\x7d\x7d".toList,
    by decide +kernel, by decide +kernel, by unfold Balanced; decide +kernel⟩
  obtain ⟨t, ht, -, hoffset, htext, -⟩ := (code_exact hdrop).2 k c' hres
  exact ⟨hdrop, k, c', hres, t, ht, hoffset, htext⟩

end Packrat.GrammarText

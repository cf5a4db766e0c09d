import Mathlib.Data.List.Basic

/-!
# Texts that tell where they end

What is written in a row can be taken apart again if each part tells where it ends.

* `run_unique` — a run of characters ends before the first one of another sort.
* `Delimited` — where what is written of something ends is clear from the text, and so is that thing.
* `continued`, `continued_unique` — elements after commas, up to a closing character.
* `separated`, `separated_unique` — elements with commas between them.
-/

set_option autoImplicit false

namespace Packrat.Delimiting

/-- A text with no character of the sort in front. -/
def Stops (sort : Char → Bool) (cs : List Char) : Prop := ∀ c ∈ cs.head?, sort c = false

theorem takeWhile_run {sort : Char → Bool} {xs cs : List Char} (hxs : ∀ x ∈ xs, sort x = true)
    (hcs : Stops sort cs) : (xs ++ cs).takeWhile sort = xs := by
  rw [List.takeWhile_append_of_pos hxs]
  cases cs with
  | nil => exact List.append_nil _
  | cons c cs => rw [List.takeWhile_cons_of_neg (Bool.eq_false_iff.1 (hcs c rfl)), List.append_nil]

/-- Two runs in front of one text are one run. -/
theorem run_unique {sort : Char → Bool} {xs ys cs ds : List Char} (hxs : ∀ x ∈ xs, sort x = true)
    (hys : ∀ y ∈ ys, sort y = true) (hcs : Stops sort cs) (hds : Stops sort ds)
    (h : xs ++ cs = ys ++ ds) : xs = ys ∧ cs = ds := by
  have hrun : xs = ys := by rw [← takeWhile_run hxs hcs, h, takeWhile_run hys hds]
  subst hrun
  exact ⟨rfl, List.append_cancel_left h⟩

section Elements

variable {α : Type} (write : α → List Char) (Known : α → Prop) (Ends : List Char → Prop)

/-- Where what is written of `a` ends is clear from the text, and so is `a`: no other known one is
written in its place before a text that ends it. -/
def Delimited (a : α) : Prop :=
  ∀ (b : α) (cs ds : List Char), Known b → Ends cs → Ends ds → write a ++ cs = write b ++ ds →
    a = b ∧ cs = ds

/-- Elements, each after a comma and a space. -/
def continued (as : List α) : List Char := as.flatMap fun a => ',' :: ' ' :: write a

/-- Elements with a comma and a space between them. -/
def separated : List α → List Char
  | [] => []
  | a :: as => write a ++ continued write as

variable {write Known Ends} {close : Char} {as bs : List α} {cs ds : List Char}

theorem continued_cons_append (a : α) (as : List α) (cs : List Char) :
    continued write (a :: as) ++ cs = ',' :: ' ' :: (write a ++ (continued write as ++ cs)) := by
  simp [continued]

theorem ends_continued (hcomma : ∀ cs, Ends (',' :: cs)) (hend : ∀ cs, Ends (close :: cs)) (as : List α)
    (cs : List Char) : Ends (continued write as ++ close :: cs) := by
  cases as with
  | nil => exact hend cs
  | cons a as =>
    rw [continued_cons_append]
    exact hcomma _

/-- **Delimited elements after commas are told apart**, and where the last one ends is clear. -/
theorem continued_unique (hclose : close ≠ ',') (hcomma : ∀ cs, Ends (',' :: cs))
    (hend : ∀ cs, Ends (close :: cs)) (has : ∀ a ∈ as, Delimited write Known Ends a)
    (hbs : ∀ b ∈ bs, Known b) (h : continued write as ++ close :: cs = continued write bs ++ close :: ds) :
    as = bs ∧ cs = ds := by
  induction as generalizing bs with
  | nil =>
    cases bs with
    | nil => exact ⟨rfl, (List.cons.inj h).2⟩
    | cons b bs =>
      rw [continued_cons_append] at h
      exact absurd (List.cons.inj h).1 hclose
  | cons a as ih =>
    cases bs with
    | nil =>
      rw [continued_cons_append] at h
      exact absurd (List.cons.inj h).1.symm hclose
    | cons b bs =>
      rw [continued_cons_append, continued_cons_append] at h
      have hafter := (List.cons.inj (List.cons.inj h).2).2
      obtain ⟨rfl, hrest⟩ := has a (List.mem_cons_self ..) b _ _ (hbs b (List.mem_cons_self ..))
        (ends_continued hcomma hend as cs) (ends_continued hcomma hend bs ds) hafter
      obtain ⟨rfl, hcs⟩ := ih (fun a ha => has a (List.mem_cons_of_mem _ ha))
        (fun b hb => hbs b (List.mem_cons_of_mem _ hb)) hrest
      exact ⟨rfl, hcs⟩

/-- **Delimited elements with commas between them are told apart**, if none of them begins as the closing
character does. -/
theorem separated_unique (hclose : close ≠ ',') (hcomma : ∀ cs, Ends (',' :: cs))
    (hend : ∀ cs, Ends (close :: cs)) (hopen : ∀ a cs, Known a → (write a ++ cs).head? ≠ some close)
    (has : ∀ a ∈ as, Delimited write Known Ends a) (hknown : ∀ a ∈ as, Known a) (hbs : ∀ b ∈ bs, Known b)
    (h : separated write as ++ close :: cs = separated write bs ++ close :: ds) : as = bs ∧ cs = ds := by
  cases as with
  | nil =>
    cases bs with
    | nil => exact ⟨rfl, (List.cons.inj h).2⟩
    | cons b bs =>
      rw [separated, separated, List.append_assoc] at h
      exact absurd (congrArg List.head? h).symm (hopen b _ (hbs b (List.mem_cons_self ..)))
  | cons a as =>
    cases bs with
    | nil =>
      rw [separated, separated, List.append_assoc] at h
      exact absurd (congrArg List.head? h) (hopen a _ (hknown a (List.mem_cons_self ..)))
    | cons b bs =>
      rw [separated, separated, List.append_assoc, List.append_assoc] at h
      obtain ⟨rfl, hrest⟩ := has a (List.mem_cons_self ..) b _ _ (hbs b (List.mem_cons_self ..))
        (ends_continued hcomma hend as cs) (ends_continued hcomma hend bs ds) h
      obtain ⟨rfl, hcs⟩ := continued_unique hclose hcomma hend
        (fun a ha => has a (List.mem_cons_of_mem _ ha)) (fun b hb => hbs b (List.mem_cons_of_mem _ hb))
        hrest
      exact ⟨rfl, hcs⟩

end Elements

end Packrat.Delimiting

import Packrat.Proofs.GrammarText.Yields
import Packrat.Proofs.Text.Delimited

/-!
# What references stand for

A reference stands for a plain rule, or for a template with what its arguments stand for.  Expansion
knows such a target by its name alone.

* `Target`, `Target.name` — a target, and the name of the rule that it becomes.
* `Target.Spelled` — a target of names as they are read.
* `Target.Spelled.name_inj` — such targets with one name are one target.
-/

set_option autoImplicit false

namespace Packrat

open GrammarText

/-- What a reference stands for. -/
inductive Target where
  | rule (name : String)
  /-- A template with what its arguments stand for. -/
  | applied (template : String) (args : List Target)
  deriving Repr, Inhabited

namespace Target

mutual

/-- The name of the rule that a target becomes. -/
def name : Target → String
  | rule name => name
  | applied template args => instanceName template (names args)

/-- The names of several targets. -/
def names : List Target → List String
  | [] => []
  | t :: rest => t.name :: names rest

end

theorem names_eq (ts : List Target) : names ts = ts.map name := by
  induction ts with
  | nil => rfl
  | cons t rest ih => rw [names, List.map_cons, ih]

/-- All names in a target are names as they are read, and no template is applied to nothing. -/
inductive Spelled : Target → Prop
  | rule {name : String} : IsName name → Spelled (.rule name)
  | applied {template : String} {args : List Target} : IsName template → args ≠ [] →
      (∀ a ∈ args, Spelled a) → Spelled (.applied template args)

/-! ## Names are uniquely delimited -/

/-- A text that does not go on a name. -/
def Stops (cs : List Char) : Prop := ∀ c ∈ cs.head?, continuesName c = false

/-- A text that does not go on the name of a target: nothing, or what begins with a comma or a closing
bracket. -/
def Closes (cs : List Char) : Prop := ∀ c ∈ cs.head?, c = ',' ∨ c = '>'

theorem Stops.cons {c : Char} (h : continuesName c = false) (cs : List Char) : Stops (c :: cs) := by
  rintro d ⟨⟩
  exact h

theorem Closes.stops {cs : List Char} (h : Closes cs) : Stops cs := by
  intro c hc
  rcases h c hc with rfl | rfl <;> decide

theorem stops_bracket (cs : List Char) : Stops ('<' :: cs) := .cons (by decide) cs

theorem closes_comma (cs : List Char) : Closes (',' :: cs) := by
  rintro c ⟨⟩
  exact .inl rfl

theorem closes_bracket (cs : List Char) : Closes ('>' :: cs) := by
  rintro c ⟨⟩
  exact .inr rfl

theorem name_unique {a b : String} {r s : List Char} (ha : IsName a) (hb : IsName b)
    (hr : Stops r) (hs : Stops s) (h : a.toList ++ r = b.toList ++ s) : a = b ∧ r = s := by
  obtain ⟨hab, hrs⟩ := Delimiting.run_unique ha hb hr hs h
  exact ⟨String.toList_inj.1 hab, hrs⟩

/-- The arguments of an instance as they are written. -/
def joined (names : List String) : List Char := (String.intercalate ", " names).toList

theorem joined_names_cons (a : Target) (as : List Target) :
    joined (names (a :: as)) = a.name.toList ++ Delimiting.continued (·.name.toList) as := by
  rw [names, names_eq]
  induction as generalizing a with
  | nil => simp [joined, Delimiting.continued]
  | cons b as ih =>
    rw [joined, List.map_cons, String.intercalate_cons_cons, String.toList_append, String.toList_append,
      List.append_assoc, ← joined, ih b]
    simp [Delimiting.continued]

theorem toList_instanceName {names : List String} (template : String) (h : names ≠ []) :
    (instanceName template names).toList = template.toList ++ '<' :: (joined names ++ ['>']) := by
  rw [instanceName, if_neg (by simpa using h), String.toList_append, String.toList_append,
    String.toList_append, List.append_assoc, List.append_assoc]
  rfl

/-- Where the name of a target ends is clear from the text, and so is the target. -/
def Delimited (a : Target) : Prop :=
  ∀ (b : Target) (r s : List Char), b.Spelled → Closes r → Closes s →
    a.name.toList ++ r = b.name.toList ++ s → a = b ∧ r = s

/-- Delimited targets are delimited in a list, too. -/
theorem joined_unique {as bs : List Target} {r s : List Char} (has : ∀ a ∈ as, Delimited a) (hne : as ≠ [])
    (hbs : ∀ b ∈ bs, b.Spelled) (hbne : bs ≠ [])
    (h : joined (names as) ++ '>' :: r = joined (names bs) ++ '>' :: s) : as = bs ∧ r = s := by
  obtain ⟨a, as, rfl⟩ := List.exists_cons_of_ne_nil hne
  obtain ⟨b, bs, rfl⟩ := List.exists_cons_of_ne_nil hbne
  rw [joined_names_cons, joined_names_cons, List.append_assoc, List.append_assoc] at h
  -- the first arguments agree, and so do the others, each of which stands after a comma
  obtain ⟨rfl, hrest⟩ := has a (List.mem_cons_self ..) b _ _ (hbs b (List.mem_cons_self ..))
    (Delimiting.ends_continued closes_comma closes_bracket as r)
    (Delimiting.ends_continued closes_comma closes_bracket bs s) h
  obtain ⟨rfl, hrs⟩ := Delimiting.continued_unique (by decide) closes_comma closes_bracket
    (fun x hx => has x (List.mem_cons_of_mem _ hx)) (fun x hx => hbs x (List.mem_cons_of_mem _ hx)) hrest
  exact ⟨rfl, hrs⟩

theorem names_ne_nil {ts : List Target} (h : ts ≠ []) : names ts ≠ [] := by
  rw [names_eq]
  simpa using h

theorem Spelled.delimited {a : Target} (ha : a.Spelled) : Delimited a := by
  -- both texts begin with a name, and an opening bracket follows in both or in neither
  induction ha with
  | @rule n hn =>
    intro b r s hb hr hs h
    cases hb with
    | @rule m hm =>
      obtain ⟨rfl, hrest⟩ := name_unique hn hm hr.stops hs.stops h
      exact ⟨rfl, hrest⟩
    | @applied template args htemplate hne _ =>
      rw [name, name, toList_instanceName template (names_ne_nil hne), List.append_assoc] at h
      obtain ⟨-, rfl⟩ := name_unique hn htemplate hr.stops (stops_bracket _) h
      exact absurd (hr '<' rfl) (by decide)
  | @applied template args htemplate hne _ ih =>
    intro b r s hb hr hs h
    rw [name, toList_instanceName template (names_ne_nil hne), List.append_assoc] at h
    cases hb with
    | @rule m hm =>
      obtain ⟨-, rfl⟩ := name_unique htemplate hm (stops_bracket _) hs.stops h
      exact absurd (hs '<' rfl) (by decide)
    | @applied template' args' htemplate' hne' hargs' =>
      rw [name, toList_instanceName template' (names_ne_nil hne'), List.append_assoc] at h
      obtain ⟨rfl, hrest⟩ := name_unique htemplate htemplate' (stops_bracket _) (stops_bracket _) h
      have hrest := (List.cons.inj hrest).2
      rw [List.append_eq, List.append_eq, List.append_assoc, List.append_assoc] at hrest
      obtain ⟨rfl, hrs⟩ := joined_unique ih hne hargs' hne' hrest
      exact ⟨rfl, hrs⟩

/-- **Spelled targets with one name are one target.** -/
theorem Spelled.name_inj {a b : Target} (ha : a.Spelled) (hb : b.Spelled) (h : a.name = b.name) :
    a = b :=
  (ha.delimited b [] [] hb (fun _ hc => absurd hc (by simp)) (fun _ hc => absurd hc (by simp))
    (by rw [h])).1

example : (applied "Pair" [.rule "A", .applied "List" [.rule "B"]]).name = "Pair<A, List<B>>" := by
  decide +kernel

end Target

end Packrat

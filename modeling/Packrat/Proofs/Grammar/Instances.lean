import Packrat.Grammar.Expansion

/-!
# The instances that a grammar asks for

* `Grammar.Asks` — the instances that the rules of a grammar ask for, directly or through others.
* `Grammar.Collected` — what collecting instances has added: each with all that its body asks for.
* `Grammar.mem_allInstances_iff` — exactly the instances that a grammar asks for are collected.
-/

set_option autoImplicit false

namespace Packrat.Grammar

variable {g : Grammar} {depth : Nat} {seen is : List Instance}

/-- The instances that a grammar asks for, in a rule or in the body of an instance it asks for. -/
inductive Asks (g : Grammar) : Instance → Prop where
  | plain {r : Rule} {i : Instance} : r ∈ g.rules → i ∈ Scope.instances [] r.expr → g.Asks i
  | body {i j : Instance} {t : Template} : g.Asks i → g.lastTemplate? i.template = some t →
      j ∈ (scopeOf t i).instances t.expr → g.Asks j

/-- `is` extends `seen` by instances that are asked for, of defined templates, and it has what their
bodies ask for. -/
structure Collected (g : Grammar) (seen is : List Instance) : Prop where
  kept : seen ⊆ is
  asked : ∀ i ∈ is, i ∉ seen → g.Asks i
  closed : ∀ i ∈ is, i ∉ seen → ∃ t, g.lastTemplate? i.template = some t ∧
    (scopeOf t i).instances t.expr ⊆ is

theorem Collected.refl (g : Grammar) (seen : List Instance) : g.Collected seen seen :=
  ⟨fun _ h => h, fun _ h hn => absurd h hn, fun _ h hn => absurd h hn⟩

theorem Collected.trans {more : List Instance} (h : g.Collected seen is)
    (h' : g.Collected is more) : g.Collected seen more := by
  refine ⟨fun i hi => h'.kept (h.kept hi), fun i hi hn => ?_, fun i hi hn => ?_⟩
  · by_cases hs : i ∈ is
    · exact h.asked i hs hn
    · exact h'.asked i hi hs
  · by_cases hs : i ∈ is
    · obtain ⟨t, ht, hsub⟩ := h.closed i hs hn
      exact ⟨t, ht, fun j hj => h'.kept (hsub hj)⟩
    · exact h'.closed i hi hs

theorem foldlM_cons_ok {f : List Instance → Instance → Except Fault (List Instance)} {i : Instance}
    {l : List Instance} : (i :: l).foldlM f seen = .ok is ↔
      ∃ next, f seen i = .ok next ∧ l.foldlM f next = .ok is := by
  rw [List.foldlM_cons]
  cases hf : f seen i with
  | error e =>
    constructor
    · intro h
      cases h
    · rintro ⟨next, h, -⟩
      cases h
  | ok next =>
    constructor
    · exact fun h => ⟨next, rfl, h⟩
    · rintro ⟨next', h, hrest⟩
      cases h
      exact hrest

/-- Collecting several instances that are asked for, once it is known of each. -/
theorem foldlM_collected {f : List Instance → Instance → Except Fault (List Instance)}
    (hf : ∀ seen i is, g.Asks i → f seen i = .ok is → g.Collected seen is ∧ i ∈ is)
    (l : List Instance) (hl : ∀ i ∈ l, g.Asks i) (h : l.foldlM f seen = .ok is) :
    g.Collected seen is ∧ l ⊆ is := by
  induction l generalizing seen with
  | nil =>
    cases h
    exact ⟨.refl g _, List.nil_subset _⟩
  | cons i l ih =>
    obtain ⟨next, hi, hnext⟩ := foldlM_cons_ok.1 h
    obtain ⟨hfirst, hmem⟩ := hf seen i next (hl i (List.mem_cons_self ..)) hi
    obtain ⟨hrest, hsub⟩ := ih (fun j hj => hl j (List.mem_cons_of_mem _ hj)) hnext
    exact ⟨hfirst.trans hrest, List.cons_subset.2 ⟨hrest.kept hmem, hsub⟩⟩

/-- **Collecting an instance that is asked for adds it with all that it asks for.** -/
theorem collect_collected (depth : Nat) : ∀ (seen : List Instance) (i : Instance)
    (is : List Instance), g.Asks i → g.collect depth seen i = .ok is →
      g.Collected seen is ∧ i ∈ is := by
  induction depth with
  | zero => intro seen i is _ h; cases h
  | succ depth ih =>
    intro seen i is hi h
    unfold collect at h
    split at h
    · rename_i hs
      cases h
      exact ⟨.refl g seen, hs⟩
    · split at h
      · cases h
      · rename_i t ht
        obtain ⟨hall, hsub⟩ := foldlM_collected ih _ (fun j hj => .body hi ht hj) h
        have hmem : i ∈ is := hall.kept (List.mem_append_right _ (List.mem_singleton_self i))
        refine ⟨⟨fun j hj => hall.kept (List.mem_append_left _ hj), fun j hj hn => ?_,
          fun j hj hn => ?_⟩, hmem⟩ <;> by_cases hji : j = i
        · exact hji ▸ hi
        · exact hall.asked j hj (by simp [hn, hji])
        · subst hji
          exact ⟨t, ht, hsub⟩
        · exact hall.closed j hj (by simp [hn, hji])

/-- Collecting from nothing all that the plain rules ask for. -/
theorem allInstances_collected (h : g.allInstances depth = .ok is) :
    g.Collected [] is ∧ ∀ r ∈ g.rules, Scope.instances [] r.expr ⊆ is := by
  have hasks : ∀ i ∈ g.rules.flatMap fun r => Scope.instances [] r.expr, g.Asks i := by
    intro i hi
    obtain ⟨r, hr, hi⟩ := List.mem_flatMap.1 hi
    exact .plain hr hi
  obtain ⟨hall, hsub⟩ := foldlM_collected (collect_collected depth) _ hasks h
  exact ⟨hall, fun r hr i hi => hsub (List.mem_flatMap.2 ⟨r, hr, hi⟩)⟩

/-- **What is collected are the instances that a grammar asks for.** -/
theorem mem_allInstances_iff (h : g.allInstances depth = .ok is) (i : Instance) :
    i ∈ is ↔ g.Asks i := by
  obtain ⟨hall, hsub⟩ := allInstances_collected h
  constructor
  · exact fun hmem => hall.asked i hmem List.not_mem_nil
  · intro hi
    induction hi with
    | plain hr hi => exact hsub _ hr hi
    | body _ ht hj ih =>
      obtain ⟨t', ht', hbody⟩ := hall.closed _ ih List.not_mem_nil
      rw [ht] at ht'
      cases ht'
      exact hbody hj

end Packrat.Grammar

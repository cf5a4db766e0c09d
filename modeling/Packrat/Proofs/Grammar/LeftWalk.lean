import Mathlib.Data.List.Nodup
import Mathlib.Data.List.Perm.Subperm
import Mathlib.Logic.Relation
import Packrat.Proofs.Grammar.Definitions
import Packrat.Proofs.Grammar.Leftmost

/-!
# The walk along the left edges

The walk from a root goes through the rules depth first.  A reference to a rule on the stack is
reported; a rule that was visited is not walked again.

* `LeftWalk.Tells` — a cycle from a rule back to it is reported.
* `LeftWalk.Explored` — what a walk has visited since a given walk: what it leads to is visited, too,
  and where it leads to the stack this is told.
* `LeftWalk.rule_explored` — the walk of a rule explores what the rule leads to.
* `LeftWalk.rule_keeps` — what visits and reports keep is kept by the walk of a rule.
* `Grammar.leftRoot` — the walk from one root; `Grammar.leftRoot_tells` — it tells a cycle through the
  root, if there is one.
* `Grammar.exists_leftRecursion_of_cycle` — every rule on a cycle is told.
-/

set_option autoImplicit false

namespace Packrat

namespace LeftWalk

variable {rules : List Rule} {nullableOnes : List String} {fuel : Nat} {stack : List String}

/-- The names from one on the stack to the top of the stack, and then that name again. -/
def pathBack (stack : List String) (name : String) : List String :=
  name :: ((stack.takeWhile (· != name)).reverse ++ [name])

/-- A cycle from a rule back to it is reported. -/
def Tells (w : LeftWalk) (name : String) : Prop :=
  ∃ between span, .leftRecursion (name :: (between ++ [name])) span ∈ w.errors

theorem Tells.mono {w w' : LeftWalk} {name : String} (h : w.Tells name)
    (hsub : w.errors ⊆ w'.errors) : w'.Tells name := by
  obtain ⟨between, span, hmem⟩ := h
  exact ⟨between, span, hsub hmem⟩

theorem errors_subset_report (w : LeftWalk) (d : Diagnostic) : w.errors ⊆ (w.report d).errors := by
  unfold report
  split
  · exact fun _ h => h
  · exact List.subset_append_left _ _

theorem mem_errors_report (w : LeftWalk) (d : Diagnostic) : d ∈ (w.report d).errors := by
  unfold report
  split
  · assumption
  · exact List.mem_append_right _ (List.mem_singleton_self d)

theorem visited_report (w : LeftWalk) (d : Diagnostic) : (w.report d).visited = w.visited := by
  unfold report
  split <;> rfl

/-- What `w'` has visited since `w`: what it leads to is visited too, unless it is not defined, and
if it is on the stack a cycle is told. -/
structure Explored (rules : List Rule) (nullableOnes stack : List String) (w w' : LeftWalk) :
    Prop where
  kept : w.visited ⊆ w'.visited
  errors : w.errors ⊆ w'.errors
  leads : ∀ a ∈ w'.visited, a ∉ w.visited → ∀ b, LeftEdge rules nullableOnes a b →
    b ∈ w'.visited ∨ rules.find? (·.name.name == b) = none
  tells : ∀ a ∈ w'.visited, a ∉ w.visited → ∀ b ∈ stack, LeftEdge rules nullableOnes a b → w'.Tells b

theorem Explored.of_visited_eq {w w' : LeftWalk} (hvisited : w'.visited = w.visited)
    (herrors : w.errors ⊆ w'.errors) : Explored rules nullableOnes stack w w' := by
  refine ⟨?_, herrors, fun a ha hn => ?_, fun a ha hn => ?_⟩
  · rw [hvisited]
    exact fun _ h => h
  · rw [hvisited] at ha
    exact absurd ha hn
  · rw [hvisited] at ha
    exact absurd ha hn

theorem Explored.refl (w : LeftWalk) : Explored rules nullableOnes stack w w :=
  .of_visited_eq rfl fun _ h => h

theorem Explored.trans {w w' w'' : LeftWalk} (h : Explored rules nullableOnes stack w w')
    (h' : Explored rules nullableOnes stack w' w'') : Explored rules nullableOnes stack w w'' := by
  refine ⟨fun a ha => h'.kept (h.kept ha), fun d hd => h'.errors (h.errors hd), ?_, ?_⟩
  · intro a ha hn b hb
    by_cases ha' : a ∈ w'.visited
    · exact (h.leads a ha' hn b hb).imp_left fun hv => h'.kept hv
    · exact h'.leads a ha ha' b hb
  · intro a ha hn b hs hb
    by_cases ha' : a ∈ w'.visited
    · exact (h.tells a ha' hn b hs hb).mono h'.errors
    · exact h'.tells a ha ha' b hs hb

/-- What holds of a longer stack holds of a shorter one. -/
theorem Explored.of_cons {w w' : LeftWalk} {name : String}
    (h : Explored rules nullableOnes (name :: stack) w w') :
    Explored rules nullableOnes stack w w' :=
  ⟨h.kept, h.errors, h.leads, fun a ha hn b hs => h.tells a ha hn b (List.mem_cons_of_mem _ hs)⟩

/-- What a walk does with one reference. -/
structure Followed (rules : List Rule) (nullableOnes stack : List String) (w w' : LeftWalk)
    (name : String) : Prop where
  explored : Explored rules nullableOnes stack w w'
  visited : name ∈ w'.visited ∨ rules.find? (·.name.name == name) = none
  tells : name ∈ stack → w'.Tells name

/-- What a walk does with one reference, once it is known of all rules reached from it. -/
theorem follow_followed
    (hrule : ∀ (r : Rule) (w : LeftWalk), r ∈ rules → r.name.name ∉ stack → stack ⊆ w.visited →
      rules.find? (·.name.name == r.name.name) = some r →
      Explored rules nullableOnes stack w (rule rules nullableOnes fuel stack r w) ∧
        r.name.name ∈ (rule rules nullableOnes fuel stack r w).visited)
    (w : LeftWalk) (reference : Reference) (hvisited : stack ⊆ w.visited) :
    Followed rules nullableOnes stack w (follow rules nullableOnes fuel stack w reference)
      reference.name.name := by
  unfold follow
  simp only
  split
  · rename_i hs
    refine ⟨.of_visited_eq (visited_report _ _) (errors_subset_report _ _), .inl ?_, fun _ =>
      ⟨_, _, mem_errors_report _ _⟩⟩
    rw [visited_report]
    exact hvisited hs
  · rename_i hs
    split
    · rename_i hv
      exact ⟨.refl w, .inl hv, fun h => absurd h hs⟩
    · cases hf : rules.find? (·.name.name == reference.name.name) with
      | none => exact ⟨.refl w, .inr hf, fun h => absurd h hs⟩
      | some next =>
        have hname : next.name.name = reference.name.name := by simpa using List.find?_some hf
        obtain ⟨hexplored, hmem⟩ := hrule next w (List.mem_of_find?_eq_some hf)
          (by rw [hname]; exact hs) hvisited (by rw [hname]; exact hf)
        exact ⟨hexplored, .inl (hname ▸ hmem), fun h => absurd h hs⟩

/-- A walk along several references. -/
theorem foldl_follow_explored {f : LeftWalk → Reference → LeftWalk}
    (hf : ∀ w reference, stack ⊆ w.visited →
      Followed rules nullableOnes stack w (f w reference) reference.name.name)
    (l : List Reference) (w : LeftWalk) (hvisited : stack ⊆ w.visited) :
    Explored rules nullableOnes stack w (l.foldl f w) ∧ ∀ reference ∈ l,
      (reference.name.name ∈ (l.foldl f w).visited ∨
        rules.find? (·.name.name == reference.name.name) = none) ∧
      (reference.name.name ∈ stack → (l.foldl f w).Tells reference.name.name) := by
  induction l generalizing w with
  | nil => exact ⟨.refl w, fun _ hr => by cases hr⟩
  | cons reference l ih =>
    rw [List.foldl_cons]
    have hfirst := hf w reference hvisited
    obtain ⟨hrest, hall⟩ := ih (f w reference) fun s hs => hfirst.explored.kept (hvisited hs)
    refine ⟨hfirst.explored.trans hrest, fun other ho => ?_⟩
    rcases List.mem_cons.1 ho with rfl | ho
    · exact ⟨hfirst.visited.imp_left fun hv => hrest.kept hv,
        fun hs => (hfirst.tells hs).mono hrest.errors⟩
    · exact hall other ho

/-- **The walk of a rule explores what the rule leads to**, and it tells what leads back to the rule or
to what is below it on the stack.  There is fuel for as many rules as are not on the stack. -/
theorem rule_explored (fuel : Nat) : ∀ (stack : List String) (r : Rule) (w : LeftWalk),
    stack.Nodup → stack ⊆ rules.map (·.name.name) → rules.length < fuel + stack.length →
    r ∈ rules → r.name.name ∉ stack → stack ⊆ w.visited →
    rules.find? (·.name.name == r.name.name) = some r →
    Explored rules nullableOnes (r.name.name :: stack) w (rule rules nullableOnes fuel stack r w) ∧
      r.name.name ∈ (rule rules nullableOnes fuel stack r w).visited := by
  induction fuel with
  | zero =>
    intro stack r w hnd hsub hlen
    have hle := (List.subperm_of_subset hnd hsub).length_le
    rw [List.length_map] at hle
    omega
  | succ fuel ih =>
    intro stack r w hnd hsub hlen hr hs hvisited hdef
    rw [rule_succ]
    have hnd' : (r.name.name :: stack).Nodup := List.nodup_cons.2 ⟨hs, hnd⟩
    have hsub' : r.name.name :: stack ⊆ rules.map (·.name.name) :=
      List.cons_subset.2 ⟨List.mem_map_of_mem hr, hsub⟩
    have hvisited' : r.name.name :: stack ⊆ r.name.name :: w.visited :=
      List.cons_subset_cons _ hvisited
    have hrest : ∀ (s : Rule) (v : LeftWalk), s ∈ rules → s.name.name ∉ r.name.name :: stack →
        r.name.name :: stack ⊆ v.visited → rules.find? (·.name.name == s.name.name) = some s →
        Explored rules nullableOnes (r.name.name :: stack) v
            (rule rules nullableOnes fuel (r.name.name :: stack) s v) ∧
          s.name.name ∈ (rule rules nullableOnes fuel (r.name.name :: stack) s v).visited := by
      intro s v hs' hns hv hds
      have := ih _ s v hnd' hsub' (by rw [List.length_cons]; omega) hs' hns hv hds
      exact ⟨this.1.of_cons, this.2⟩
    obtain ⟨hexplored, hall⟩ := foldl_follow_explored (follow_followed hrest)
      (r.expr.leftmost nullableOnes) { w with visited := r.name.name :: w.visited } hvisited'
    -- `r` itself leads where its references lead
    have hown : ∀ b, LeftEdge rules nullableOnes r.name.name b → ∃ reference ∈
        r.expr.leftmost nullableOnes, reference.name.name = b := by
      rintro b ⟨s, hfs, hreference⟩
      rw [hdef] at hfs
      cases hfs
      exact hreference
    refine ⟨⟨fun a ha => hexplored.kept (List.mem_cons_of_mem _ ha), hexplored.errors, ?_, ?_⟩,
      hexplored.kept (List.mem_cons_self ..)⟩
    · intro a ha hn b hb
      by_cases har : a = r.name.name
      · subst har
        obtain ⟨reference, href, rfl⟩ := hown b hb
        exact (hall reference href).1
      · exact hexplored.leads a ha (by simp [har, hn]) b hb
    · intro a ha hn b hb hedge
      by_cases har : a = r.name.name
      · subst har
        obtain ⟨reference, href, rfl⟩ := hown b hedge
        exact (hall reference href).2 hb
      · exact hexplored.tells a ha (by simp [har, hn]) b hb hedge

/-- **What visits and reports keep is kept by the walk of a rule.**  `S` is what holds of the stack
and the rule whenever a rule is walked. -/
theorem rule_keeps {I : LeftWalk → Prop} {S : List String → Rule → Prop}
    (visit : ∀ w name, I w → I { w with visited := name :: w.visited })
    (report : ∀ (stack : List String) (r : Rule) (reference : Reference) (w : LeftWalk),
      S stack r → reference ∈ r.expr.leftmost nullableOnes →
      reference.name.name ∈ r.name.name :: stack → I w →
      I (w.report (.leftRecursion (pathBack (r.name.name :: stack) reference.name.name)
        reference.span)))
    (enter : ∀ (stack : List String) (r : Rule) (reference : Reference) (next : Rule),
      S stack r → reference ∈ r.expr.leftmost nullableOnes →
      reference.name.name ∉ r.name.name :: stack →
      rules.find? (·.name.name == reference.name.name) = some next →
      S (r.name.name :: stack) next)
    (fuel : Nat) : ∀ (stack : List String) (r : Rule) (w : LeftWalk), S stack r → I w →
      I (rule rules nullableOnes fuel stack r w) := by
  induction fuel with
  | zero => exact fun _ _ _ _ h => h
  | succ fuel ih =>
    intro stack r w hwalked hw
    rw [rule_succ]
    have hfollow : ∀ w, ∀ reference ∈ r.expr.leftmost nullableOnes, I w →
        I (follow rules nullableOnes fuel (r.name.name :: stack) w reference) := by
      intro w reference href hw
      unfold follow
      simp only
      split
      · rename_i hs
        exact report stack r reference w hwalked href hs hw
      · rename_i hs
        split
        · exact hw
        · split
          · rename_i next hnext
            exact ih _ next w (enter stack r reference next hwalked href hs hnext) hw
          · exact hw
    have hfold : ∀ (l : List Reference) (w : LeftWalk), (∀ r' ∈ l, r' ∈ r.expr.leftmost nullableOnes) →
        I w → I (l.foldl (follow rules nullableOnes fuel (r.name.name :: stack)) w) := by
      intro l
      induction l with
      | nil => exact fun _ _ h => h
      | cons reference l ihl =>
        intro w hl hw
        rw [List.forall_mem_cons] at hl
        exact ihl _ hl.2 (hfollow w reference hl.1 hw)
    exact hfold _ _ (fun _ h => h) (visit w r.name.name hw)

theorem errors_subset_rule (fuel : Nat) (stack : List String) (r : Rule) (w : LeftWalk) :
    w.errors ⊆ (rule rules nullableOnes fuel stack r w).errors :=
  rule_keeps (I := fun w' => w.errors ⊆ w'.errors) (S := fun _ _ => True)
    (fun _ _ h => h) (fun _ _ _ _ _ _ _ h => fun _ hd => errors_subset_report _ _ (h hd))
    (fun _ _ _ _ _ _ _ _ => trivial) fuel stack r w trivial fun _ h => h

end LeftWalk

namespace Grammar

variable {g : Grammar}

/-- The walk of one root leaves no trace but its errors. -/
def leftRoot (g : Grammar) (w : LeftWalk) (r : Rule) : LeftWalk :=
  LeftWalk.rule g.definitions g.nullableRules (g.definitions.length + 1) [] r
    { w with visited := [] }

theorem leftRecursion_eq (g : Grammar) :
    g.leftRecursion = (g.rules.foldl g.leftRoot ⟨[], []⟩).errors := rfl

/-- The edges between the rules of a grammar. -/
abbrev Leads (g : Grammar) : String → String → Prop := LeftEdge g.definitions g.nullableRules

theorem Leads.exists_rule? {a b : String} (h : g.Leads a b) : ∃ r, g.rule? a = some r := by
  obtain ⟨r, hr, -⟩ := h
  exact ⟨r, by rw [← find?_definitions]; exact hr⟩

/-- **The walk from a root tells a cycle through it, if there is one.** -/
theorem leftRoot_tells (w : LeftWalk) {r : Rule} (hr : g.rule? r.name.name = some r)
    (hcycle : Relation.TransGen g.Leads r.name.name r.name.name) :
    (g.leftRoot w r).Tells r.name.name := by
  obtain ⟨hexplored, hself⟩ : LeftWalk.Explored g.definitions g.nullableRules [r.name.name]
      { w with visited := [] } (g.leftRoot w r) ∧ r.name.name ∈ (g.leftRoot w r).visited :=
    LeftWalk.rule_explored _ [] r { w with visited := [] } List.nodup_nil (List.nil_subset _)
      (by rw [List.length_nil]; omega) (mem_definitions_iff.2 hr) List.not_mem_nil
      (List.nil_subset _) (by rw [find?_definitions]; exact hr)
  have hstep : ∀ y, Relation.ReflTransGen g.Leads r.name.name y → (∃ s, g.rule? y = some s) →
      y ∈ (g.leftRoot w r).visited := by
    intro y hy
    induction hy with
    | refl => exact fun _ => hself
    | tail _ hyz ih =>
      rintro ⟨s, hs⟩
      rcases hexplored.leads _ (ih hyz.exists_rule?) List.not_mem_nil _ hyz with hv | hn
      · exact hv
      · rw [find?_definitions, hs] at hn
        exact absurd hn (by simp)
  -- the last rule of the cycle was visited, and it leads back to `r`
  obtain ⟨z, hrz, hzr⟩ := Relation.TransGen.tail'_iff.1 hcycle
  exact hexplored.tells z (hstep z hrz hzr.exists_rule?) List.not_mem_nil _
    (List.mem_singleton_self _) hzr

theorem errors_subset_leftRoot (w : LeftWalk) (r : Rule) : w.errors ⊆ (g.leftRoot w r).errors :=
  LeftWalk.errors_subset_rule _ [] r { w with visited := [] }

theorem errors_subset_foldl_leftRoot (rules : List Rule) (w : LeftWalk) :
    w.errors ⊆ (rules.foldl g.leftRoot w).errors := by
  induction rules generalizing w with
  | nil => exact fun _ h => h
  | cons r rules ih => exact fun d hd => ih _ (errors_subset_leftRoot w r hd)

/-- **Every rule on a cycle is told.** -/
theorem exists_leftRecursion_of_cycle {a : String} (hcycle : Relation.TransGen g.Leads a a) :
    ∃ between span, .leftRecursion (a :: (between ++ [a])) span ∈ g.leftRecursion := by
  obtain ⟨b, hab, -⟩ := Relation.TransGen.head'_iff.1 hcycle
  obtain ⟨r, hr⟩ := hab.exists_rule?
  have hname := name_of_rule? hr
  subst hname
  obtain ⟨before, after, hsplit⟩ := List.append_of_mem (List.mem_of_find?_eq_some hr)
  rw [leftRecursion_eq, hsplit, List.foldl_append, List.foldl_cons]
  exact (leftRoot_tells (before.foldl g.leftRoot ⟨[], []⟩) hr hcycle).mono
    (errors_subset_foldl_leftRoot after _)

end Grammar

end Packrat

import Mathlib.Data.List.Chain
import Packrat.Proofs.Grammar.LeftEdges
import Packrat.Proofs.GrammarText.Yields

/-!
# The reports about left recursion

* `Grammar.LeftCycle` — a path back to where it begins, along the edges that rules have before they
  consume input.
* `LeftWalk.pathBack_cycle` — the path from a rule on the stack to the top and back is such a cycle.
* `Grammar.leftRecursion_exact` — for a grammar whose rules have different names the rules on cycles
  are those with a report, each report is a cycle, and none is made twice.
-/

set_option autoImplicit false

namespace Packrat

/-- **A cycle**: a path along the edges, back to where it begins, on which no rule but the first comes
twice.  `span` is where the last edge stands in the body of its rule. -/
structure Grammar.LeftCycle (g : Grammar) (path : List String) (span : Span) : Prop where
  closed : path.head? = path.getLast?
  edges : path.IsChain g.Refers
  distinct : path.dropLast.Nodup
  last : ∃ r ∈ g.rules, path.dropLast.getLast? = some r.name.name ∧
    ∃ reference, g.Reaches r.expr reference ∧ path.getLast? = some reference.name.name ∧
      reference.span = span

namespace LeftWalk

variable {stack : List String} {name : String}

/-- What lies above a name on the stack. -/
theorem exists_stack_eq (h : name ∈ stack) :
    ∃ below, stack = stack.takeWhile (· != name) ++ name :: below := by
  induction stack with
  | nil => cases h
  | cons a stack ih =>
    by_cases ha : a = name
    · exact ⟨stack, by simp [ha]⟩
    · obtain ⟨below, hbelow⟩ := ih ((List.mem_cons.1 h).resolve_left fun he => ha he.symm)
      refine ⟨below, ?_⟩
      rw [List.takeWhile_cons_of_pos (by simpa using ha), List.cons_append, ← hbelow]

/-- The path back is what lies above the name, from below, and the name again. -/
theorem pathBack_eq (stack : List String) (name : String) :
    pathBack stack name = (stack.takeWhile (· != name) ++ [name]).reverse ++ [name] := by
  rw [pathBack, List.reverse_append, List.reverse_singleton, List.singleton_append,
    List.cons_append]

variable {g : Grammar} {r : Rule} {reference : Reference}

/-- **From a rule on the stack to the top and back is a cycle**, where the stack goes along edges and
the rule on top comes to a reference back. -/
theorem pathBack_cycle (hchain : (r.name.name :: stack).IsChain fun a b => g.Refers b a)
    (hnodup : (r.name.name :: stack).Nodup) (hr : g.rule? r.name.name = some r)
    (href : g.Reaches r.expr reference) (hmem : reference.name.name ∈ r.name.name :: stack) :
    g.LeftCycle (pathBack (r.name.name :: stack) reference.name.name) reference.span := by
  obtain ⟨below, hbelow⟩ := exists_stack_eq hmem
  have hpath := pathBack_eq (r.name.name :: stack) reference.name.name
  generalize (r.name.name :: stack).takeWhile (· != reference.name.name) = above at hbelow hpath
  have hsplit : r.name.name :: stack = (above ++ [reference.name.name]) ++ below := by
    rw [hbelow, List.append_assoc, List.singleton_append]
  -- the stack down to the name, which ends with the rule on top when it is read from below
  have htop : (above ++ [reference.name.name]).reverse.getLast? = some r.name.name := by
    rw [List.getLast?_reverse]
    cases above with
    | nil => exact congrArg List.head? hsplit.symm
    | cons a above => exact congrArg List.head? hsplit.symm
  rw [hsplit] at hchain hnodup
  rw [hpath]
  refine ⟨?_, ?_, ?_, r, List.mem_of_find?_eq_some hr, ?_, reference, href, ?_, rfl⟩
  · rw [List.getLast?_append, List.getLast?_singleton, List.reverse_append]
    rfl
  · refine List.isChain_append.2 ⟨List.isChain_reverse.2 hchain.left_of_append,
      List.isChain_singleton _, fun a ha b hb => ?_⟩
    rw [htop] at ha
    cases ha
    cases hb
    exact ⟨r, hr, reference, href, rfl⟩
  · rw [List.dropLast_concat]
    exact List.nodup_reverse.2 (List.nodup_append.1 hnodup).1
  · rw [List.dropLast_concat]
    exact htop
  · rw [List.getLast?_append, List.getLast?_singleton]
    rfl

end LeftWalk

namespace Grammar

variable {g : Grammar}

/-- A report about a cycle. -/
def ReportsCycle (g : Grammar) (d : Diagnostic) : Prop :=
  ∃ path span, d = .leftRecursion path span ∧ g.LeftCycle path span

/-- Reports about cycles, each of them once. -/
structure Reported (g : Grammar) (errors : List Diagnostic) : Prop where
  cycles : ∀ d ∈ errors, g.ReportsCycle d
  once : errors.Nodup

theorem Reported.report {w : LeftWalk} {d : Diagnostic} (h : g.Reported w.errors)
    (hd : g.ReportsCycle d) : g.Reported (w.report d).errors := by
  unfold LeftWalk.report
  split
  · exact h
  · rename_i hnew
    refine ⟨fun e he => ?_, ?_⟩
    · rcases List.mem_append.1 he with he | he
      · exact h.cycles e he
      · rw [List.mem_singleton.1 he]
        exact hd
    · exact List.nodup_append.2 ⟨h.once, List.nodup_singleton d, fun a ha b hb hab => by
        rw [List.mem_singleton.1 hb] at hab
        exact hnew (hab ▸ ha)⟩

/-- A rule is walked on a stack of different rules, each of which refers to the one above it. -/
structure Walked (g : Grammar) (stack : List String) (r : Rule) : Prop where
  chain : (r.name.name :: stack).IsChain fun a b => g.Refers b a
  nodup : (r.name.name :: stack).Nodup
  defined : g.rule? r.name.name = some r

/-- **The walk of a root reports cycles only.** -/
theorem Reported.leftRoot {w : LeftWalk} (h : g.Reported w.errors) {r : Rule}
    (hr : g.rule? r.name.name = some r) : g.Reported (g.leftRoot w r).errors := by
  refine LeftWalk.rule_keeps (I := fun w => g.Reported w.errors) (S := g.Walked) ?_ ?_ ?_ _ []
    r { w with visited := [] } ⟨List.isChain_singleton _, List.nodup_singleton _, hr⟩ h
  · exact fun w name hw => hw
  · intro stack r reference w hwalked href hmem hw
    exact hw.report ⟨_, _, rfl, LeftWalk.pathBack_cycle hwalked.chain hwalked.nodup hwalked.defined
      ((mem_leftmost_iff r.expr).1 href) hmem⟩
  · intro stack r reference next hwalked href hnot hnext
    rw [find?_definitions] at hnext
    have hname := name_of_rule? hnext
    refine ⟨List.isChain_cons_cons.2 ⟨?_, hwalked.chain⟩, ?_, hname ▸ hnext⟩
    · exact ⟨r, hwalked.defined, reference, (mem_leftmost_iff r.expr).1 href, hname.symm⟩
    · rw [hname]
      exact List.nodup_cons.2 ⟨hnot, hwalked.nodup⟩

/-- Where the names of the rules differ, cycles are reported and nothing else, each once. -/
theorem leftRecursion_reported (hnames : g.ruleNames.Nodup) : g.Reported g.leftRecursion := by
  have hfold : ∀ (rules : List Rule) (w : LeftWalk), (∀ r ∈ rules, r ∈ g.rules) →
      g.Reported w.errors → g.Reported (rules.foldl g.leftRoot w).errors := by
    intro rules
    induction rules with
    | nil => exact fun _ _ h => h
    | cons r rules ih =>
      intro w hrules hw
      rw [List.forall_mem_cons] at hrules
      exact ih _ hrules.2 (hw.leftRoot (rule?_of_nodup hnames hrules.1))
  exact hfold g.rules ⟨[], []⟩ (fun _ h => h)
    ⟨fun d hd => absurd hd List.not_mem_nil, List.nodup_nil⟩

/-- The first rule of a cycle comes back to itself. -/
theorem LeftCycle.transGen {path : List String} {span : Span} {a : String}
    (h : g.LeftCycle path span) (ha : path.head? = some a) : Relation.TransGen g.Refers a a := by
  obtain ⟨r, -, hlast, -⟩ := h.last
  cases path with
  | nil => cases ha
  | cons a' rest =>
    cases ha
    cases rest with
    | nil => cases hlast
    | cons b rest =>
      obtain ⟨hab, hrest⟩ := List.isChain_cons_cons.1 h.edges
      have hend : (b :: rest).getLast (List.cons_ne_nil b rest) = a := by
        have hclosed := h.closed
        rw [List.head?_cons, List.getLast?_cons_cons,
          List.getLast?_eq_some_getLast (List.cons_ne_nil b rest)] at hclosed
        exact (Option.some.inj hclosed).symm
      exact .head' hab (List.relationReflTransGen_of_exists_isChain_cons rest hrest hend)

/-- **The reports about left recursion are exact** where the rules have different names: a rule lies
on a cycle exactly if a path from it back to it is reported, every report is a cycle, and no report is
made twice. -/
theorem leftRecursion_exact (hnames : g.ruleNames.Nodup) :
    (∀ a, Relation.TransGen g.Refers a a ↔ ∃ path span,
      .leftRecursion path span ∈ g.leftRecursion ∧ path.head? = some a ∧ path.getLast? = some a) ∧
    (∀ d ∈ g.leftRecursion, ∃ path span, d = .leftRecursion path span ∧ g.LeftCycle path span) ∧
    g.leftRecursion.Nodup := by
  have hreported := leftRecursion_reported hnames
  refine ⟨fun a => ⟨fun hcycle => ?_, ?_⟩, hreported.cycles, hreported.once⟩
  · have hleads : g.Leads = g.Refers := funext fun a => funext fun b => propext (g.leads_iff a b)
    obtain ⟨between, span, hmem⟩ := exists_leftRecursion_of_cycle (g := g) (a := a) (hleads ▸ hcycle)
    refine ⟨_, span, hmem, rfl, ?_⟩
    rw [← List.cons_append, List.getLast?_append, List.getLast?_singleton]
    rfl
  · rintro ⟨path, span, hmem, hhead, -⟩
    obtain ⟨path', span', heq, hpath⟩ := hreported.cycles _ hmem
    cases heq
    exact hpath.transGen hhead

/-- Whether a diagnostic is a report of a path from a rule back to it. -/
def reportsFrom (a : String) : Diagnostic → Bool
  | .leftRecursion path _ => path.head? == some a && path.getLast? == some a
  | _ => false

theorem any_reportsFrom_iff (a : String) (ds : List Diagnostic) :
    ds.any (reportsFrom a) = true ↔ ∃ path span, .leftRecursion path span ∈ ds ∧
      path.head? = some a ∧ path.getLast? = some a := by
  rw [List.any_eq_true]
  constructor
  · rintro ⟨d, hd, h⟩
    cases d with
    | leftRecursion path span =>
      obtain ⟨hhead, hlast⟩ := Bool.and_eq_true_iff.1 h
      exact ⟨path, span, hd, by simpa using hhead, by simpa using hlast⟩
    | _ => cases h
  · rintro ⟨path, span, hd, hhead, hlast⟩
    exact ⟨_, hd, by simp [reportsFrom, hhead, hlast]⟩

/-- Overlapping cycles through a lookahead and past elements that may match nothing; `S` is on none of
them. -/
theorem leftRecursion_exact_overlapping : ∃ g, GrammarText.readGrammar
      "S <- A 'x'\nA <- 'a'? B / C\nB <- !C A\nC <- &'c' D\nD <- C? B".toList = .ok g ∧
    g.ruleNames.Nodup ∧ Relation.TransGen g.Refers "D" "D" ∧ ¬ Relation.TransGen g.Refers "S" "S" := by
  obtain ⟨g, hg, htest⟩ := GrammarText.exists_of_readsAs (show GrammarText.readsAs
    "S <- A 'x'\nA <- 'a'? B / C\nB <- !C A\nC <- &'c' D\nD <- C? B".toList (fun g =>
      decide g.ruleNames.Nodup && (g.leftRecursion.any (reportsFrom "D") &&
        !g.leftRecursion.any (reportsFrom "S"))) = true by decide +kernel)
  simp only [Bool.and_eq_true, decide_eq_true_eq, Bool.not_eq_true'] at htest
  obtain ⟨hnames, hd, hs⟩ := htest
  refine ⟨g, hg, hnames, ?_, fun hcycle => ?_⟩
  · exact ((leftRecursion_exact hnames).1 "D").2 ((any_reportsFrom_iff _ _).1 hd)
  · have htold := (any_reportsFrom_iff _ _).2 (((leftRecursion_exact hnames).1 "S").1 hcycle)
    rw [hs] at htold
    cases htold

end Grammar

end Packrat

import Packrat.Proofs.GrammarText.Follow
import Packrat.Proofs.Template.Instantiations

/-!
# The names of instances

Where no parameters are in force, a reference is resolved to the way it is displayed, which is grammar
notation.  So it can be read back, and references with one name are one reference.

* `Reference.letters`, `Reference.toList_display` — a reference letter by letter.
* `Reference.resolve_nil` — a reference is resolved to the way it is displayed.
* `Reference.display_eq_iff` — references are displayed alike if and only if they differ in spans only.
* `Reference.resolve_canonical` — the names of instances are canonical, and collide with no others.
-/

set_option autoImplicit false

namespace Packrat

open Reader GrammarText

namespace Reference

mutual

/-- A reference letter by letter: its name, and its arguments, if it has any, between angle brackets. -/
def letters : Reference → List Char
  | .mk _ name [] => name.name.toList
  | .mk _ name (a :: rest) => name.name.toList ++ '<' :: (a.letters ++ lettersAfter rest)

/-- The further arguments, each after a comma and a blank, and the closing bracket. -/
def lettersAfter : List Reference → List Char
  | [] => ['>']
  | a :: rest => ',' :: ' ' :: (a.letters ++ lettersAfter rest)

end

mutual

/-- The display of a reference is written letter by letter. -/
theorem toList_display (r : Reference) : r.display.toList = r.letters := by
  match r with
  | .mk span name [] => rfl
  | .mk span name (a :: rest) =>
    rw [toList_display_args span name (List.cons_ne_nil a rest), letters, List.map_cons,
      intercalate_cons, List.append_assoc, lettersAfter_eq rest, toList_display a]

theorem lettersAfter_eq (rs : List Reference) :
    ((rs.map (·.display.toList)).map ([',', ' '] ++ ·)).flatten ++ ['>'] = lettersAfter rs := by
  match rs with
  | [] => rfl
  | r :: rest =>
    rw [lettersAfter, ← toList_display r, ← lettersAfter_eq rest, List.map_cons, List.map_cons,
      List.flatten_cons, List.append_assoc, List.append_assoc]
    rfl

end

mutual

/-- **Without parameters a reference is resolved to the way it is displayed.** -/
theorem resolve_nil (r : Reference) : Scope.resolve [] r = r.display := by
  match r with
  | .mk span name [] => rfl
  | .mk span name (a :: rest) =>
    show instanceName name.name (Scope.resolveAll [] (a :: rest)) = _
    rw [resolveAll_nil (a :: rest)]
    rfl

theorem resolveAll_nil (rs : List Reference) : Scope.resolveAll [] rs = displayAll rs := by
  match rs with
  | [] => rfl
  | r :: rest => rw [Scope.resolveAll, displayAll, resolve_nil r, resolveAll_nil rest]

end

mutual

/-- The display does not tell where a reference stands. -/
theorem display_unplaced (r : Reference) : r.unplaced.display = r.display := by
  match r with
  | .mk span name args => rw [unplaced, display, display, displayAll_unplaced args]; rfl

theorem displayAll_unplaced (rs : List Reference) : displayAll (unplacedAll rs) = displayAll rs := by
  match rs with
  | [] => rfl
  | r :: rest => rw [unplacedAll, displayAll, displayAll, display_unplaced r, displayAll_unplaced rest]

end

variable {a b : Reference}

/-- **References are displayed alike if and only if they differ in their spans only**: the display is read
back. -/
theorem display_eq_iff (ha : a.Writable) (hb : b.Writable) :
    a.display = b.display ↔ a.unplaced = b.unplaced := by
  constructor
  · intro h
    have hends : EndsReference [] := ⟨nofun, by decide⟩
    have hreads := display_reads a ha (Nat.lt_succ_self _) hends
    have hreads' := display_reads b hb (Nat.lt_succ_self _) hends
    rw [h] at hreads
    obtain ⟨x, c, hx, -, hxa⟩ := hreads ⟨0, _⟩ rfl
    obtain ⟨y, c', hy, -, hyb⟩ := hreads' ⟨0, _⟩ rfl
    cases hx.symm.trans hy
    rw [← hxa, hyb]
  · intro h
    rw [← display_unplaced a, h, display_unplaced b]

/-- The instance that a reference with arguments stands for where no parameters are in force. -/
def instanceOf (r : Reference) : Instance := ⟨r.name.name, Scope.resolveAll [] r.args⟩

/-- An instance is named as the reference that stands for it is displayed. -/
theorem name_instanceOf (hargs : a.args ≠ []) : a.instanceOf.name = a.display := by
  obtain ⟨span, name, args⟩ := a
  cases args with
  | nil => exact absurd rfl hargs
  | cons first rest =>
    rw [← resolve_nil]
    rfl

theorem exists_lastTemplate? {g : Grammar} {name : String}
    (h : ∃ t ∈ g.templates, t.name.name = name) : ∃ t, g.lastTemplate? name = some t := by
  obtain ⟨t, ht, rfl⟩ := h
  refine Option.isSome_iff_exists.1 (List.find?_isSome.2 ⟨t, List.mem_reverse.2 ht, ?_⟩)
  exact beq_self_eq_true _

/-- **The names of instances are canonical and collide with no others.**  Where no parameters are in force
a reference is resolved to its display, letter by letter; if all its parts with arguments name templates,
each of them becomes a rule that is named as the part is displayed; references of one name differ in their
spans only; and no plain rule is named as a reference with arguments. -/
theorem resolve_canonical (g : Grammar) :
    (∀ a : Reference, Scope.resolve [] a = a.display ∧ a.display.toList = a.letters) ∧
    (∀ a : Reference,
      (∀ x, a.Writes x → x.args ≠ [] → ∃ t ∈ g.templates, t.name.name = x.name.name) →
        ∀ x, a.Writes x → x.args ≠ [] → ∃ i ∈ Scope.refInstances [] a, ∃ t,
          g.lastTemplate? i.template = some t ∧ (Grammar.instanceRule t i).name.name = x.display) ∧
    (∀ a b : Reference, a.Writable → b.Writable →
      (Scope.resolve [] a = Scope.resolve [] b ↔ a.unplaced = b.unplaced)) ∧
    ∀ a : Reference, a.Writable → a.args ≠ [] →
      ∀ r ∈ g.rules, IsIdent r.name.name → Scope.resolve [] a ≠ r.name.name := by
  refine ⟨fun a => ⟨resolve_nil a, toList_display a⟩, fun a htemplates x hx hargs => ?_,
    fun a b ha hb => ?_, fun a ha hargs r _ hr heq => ?_⟩
  · obtain ⟨t, ht⟩ := exists_lastTemplate? (htemplates x hx hargs)
    exact ⟨x.instanceOf, Scope.mem_refInstances_iff a |>.2 ⟨x, hx, hargs, rfl⟩, t, ht,
      name_instanceOf hargs⟩
  · rw [resolve_nil, resolve_nil]
    exact display_eq_iff ha hb
  · -- the name of a plain rule is the display of a reference without arguments
    have hplain : (Reference.mk .nowhere r.name []).Writable := ⟨hr, trivial⟩
    rw [resolve_nil] at heq
    have hsame := congrArg Reference.args ((display_eq_iff ha hplain).1 heq)
    obtain ⟨span, name, args⟩ := a
    cases args with
    | nil => exact hargs rfl
    | cons first rest => cases hsame

/-- The reference `Pair<A, List<A>>` at the place `lo`. -/
def pairOfLists (lo : Nat) : Reference :=
  .mk ⟨lo, lo + 15⟩ ⟨"Pair", ⟨lo, lo + 4⟩⟩
    [.mk ⟨lo + 5, lo + 6⟩ ⟨"A", ⟨lo + 5, lo + 6⟩⟩ [],
      .mk ⟨lo + 8, lo + 15⟩ ⟨"List", ⟨lo + 8, lo + 12⟩⟩
        [.mk ⟨lo + 13, lo + 14⟩ ⟨"A", ⟨lo + 13, lo + 14⟩⟩ []]]

/-- A rule and the two templates of which the reference makes instances. -/
def pairGrammar : Grammar where
  preamble := none
  items :=
    [.rule ⟨⟨0, 8⟩, ⟨"A", ⟨0, 1⟩⟩, .literal ⟨5, 8⟩ "a"⟩,
     .template ⟨⟨9, 22⟩, ⟨"List", ⟨9, 13⟩⟩, [⟨"X", ⟨14, 15⟩⟩],
       .star ⟨20, 22⟩ (.ref (.mk ⟨20, 21⟩ ⟨"X", ⟨20, 21⟩⟩ []))⟩,
     .template ⟨⟨23, 40⟩, ⟨"Pair", ⟨23, 27⟩⟩, [⟨"X", ⟨28, 29⟩⟩, ⟨"Y", ⟨31, 32⟩⟩],
       .seq ⟨37, 40⟩ [.ref (.mk ⟨37, 38⟩ ⟨"X", ⟨37, 38⟩⟩ []), .ref (.mk ⟨39, 40⟩ ⟨"Y", ⟨39, 40⟩⟩ [])]⟩]

theorem resolve_canonical_pair :
    (pairOfLists 50).Writable ∧ (pairOfLists 50).display = "Pair<A, List<A>>" ∧
    Scope.resolve [] (pairOfLists 50) = "Pair<A, List<A>>" ∧
    Scope.resolve [] (pairOfLists 50) = Scope.resolve [] (pairOfLists 90) ∧
    (∃ i ∈ Scope.refInstances [] (pairOfLists 50), ∃ t, pairGrammar.lastTemplate? i.template = some t ∧
      (Grammar.instanceRule t i).name.name = "Pair<A, List<A>>") ∧
    ∀ r ∈ pairGrammar.rules, Scope.resolve [] (pairOfLists 50) ≠ r.name.name := by
  obtain ⟨hresolve, hnames, hunique, hplain⟩ := resolve_canonical pairGrammar
  have hpair : IsIdent "Pair" := by decide
  have hlist : IsIdent "List" := by decide
  have ha : IsIdent "A" := by decide
  have hwritable : ∀ lo, (pairOfLists lo).Writable := fun lo =>
    ⟨hpair, ⟨ha, trivial⟩, ⟨hlist, ⟨ha, trivial⟩, trivial⟩, trivial⟩
  have hdisplay : (pairOfLists 50).display = "Pair<A, List<A>>" := by decide
  have hinstances : Scope.refInstances [] (pairOfLists 50) =
      [⟨"List", ["A"]⟩, ⟨"Pair", ["A", "List<A>"]⟩] := by decide
  have htemplates : ∀ x, (pairOfLists 50).Writes x → x.args ≠ [] →
      ∃ t ∈ pairGrammar.templates, t.name.name = x.name.name := by
    intro x hx hargs
    have hmem : x.instanceOf ∈ Scope.refInstances [] (pairOfLists 50) :=
      (Scope.mem_refInstances_iff _).2 ⟨x, hx, hargs, rfl⟩
    rw [hinstances] at hmem
    rcases List.mem_cons.1 hmem with h | h
    · exact ⟨_, List.mem_cons_self, (congrArg Instance.template h).symm⟩
    · exact ⟨_, List.mem_cons_of_mem _ List.mem_cons_self,
        (congrArg Instance.template (List.mem_singleton.1 h)).symm⟩
  obtain ⟨i, hi, t, ht, hname⟩ := hnames _ htemplates _ (.self _) (List.cons_ne_nil _ _)
  refine ⟨hwritable 50, hdisplay, (hresolve _).1.trans hdisplay,
    (hunique _ _ (hwritable 50) (hwritable 90)).2 rfl, ⟨i, hi, t, ht, hname.trans hdisplay⟩, ?_⟩
  exact fun r hr => hplain _ (hwritable 50) (List.cons_ne_nil _ _) r hr (by
    cases List.mem_singleton.1 hr
    decide)

end Reference

end Packrat

import Packrat.Grammar.References
import Packrat.Proofs.GrammarText.Levels

/-!
# Writing grammars

* `Expr.write`, `Item.write`, `Grammar.write` — a grammar in its notation: one definition in a line,
  characters of literals, types and classes by their code points, references as they are displayed.
* `Expr.level`, `Expr.Writable`, `Grammar.Writable` — the expressions that can be written without
  parentheses of their own: each part is of a level that may stand in its place.
-/

set_option autoImplicit false

namespace Packrat

open Reader GrammarText

/-! ### The notation -/

/-- Code between its braces. -/
def Code.write (k : Code) : List Char := '\x7b' :: (k.text.toList ++ ['\x7d'])

/-- An action: the type of its result, a colon and its code. -/
def writeAction (hint : String) (k : Code) : List Char := writeQuoted hint ++ ':' :: k.write

mutual

/-- An expression in grammar notation. -/
def Expr.write : Expr → List Char
  | .literal _ text => writeQuoted text
  | .charClass _ k => writeClass k
  | .anyChar _ => ['.']
  | .ref reference => reference.display.toList
  | .seq _ elements => [' '].intercalate (Expr.writeAll elements)
  | .choice _ branches => [' ', '/', ' '].intercalate (Expr.writeAll branches)
  | .star _ body => body.write ++ ['*']
  | .plus _ body => body.write ++ ['+']
  | .opt _ body => body.write ++ ['?']
  | .lookahead _ polarity body => markOf polarity :: body.write
  | .codePredicate _ polarity k => markOf polarity :: k.write
  | .label _ name body => name.name.toList ++ ':' :: body.write
  | .action _ hint k body => body.write ++ ' ' :: writeAction hint k
  | .bareAction _ hint k => writeAction hint k
  | .group _ body => '(' :: (body.write ++ [')'])

/-- Several expressions, each in grammar notation. -/
def Expr.writeAll : List Expr → List (List Char)
  | [] => []
  | x :: xs => x.write :: Expr.writeAll xs

end

theorem Expr.writeAll_eq (xs : List Expr) : writeAll xs = xs.map write := by
  induction xs with
  | nil => rfl
  | cons x xs ih => rw [writeAll, ih, List.map_cons]

/-- A definition in grammar notation. -/
def Item.write : Item → List Char
  | .rule r => r.name.name.toList ++ ([' ', '<', '-', ' '] ++ r.expr.write)
  | .template t =>
    t.name.name.toList ++ ('<' :: ([',', ' '].intercalate (t.params.map (·.name.toList)) ++
      ('>' :: ([' ', '<', '-', ' '] ++ t.expr.write))))

/-- A grammar in its notation: the leading code and then the definitions, each in a line of its own. -/
def Grammar.write (g : Grammar) : List Char :=
  (g.preamble.elim [] fun k => k.write ++ ['\n']) ++ g.items.flatMap fun i => i.write ++ ['\n']

/-! ### What can be written -/

/-- A name of the notation: a letter or underscore, then letters, digits and underscores. -/
def IsIdent (s : String) : Prop :=
  ∃ x cs, s.toList = x :: cs ∧ startsName x = true ∧ ∀ y ∈ cs, continuesName y = true

theorem isIdent_iff {s : String} : IsIdent s ↔
    (s.toList.head?.any startsName && s.toList.tail.all continuesName) = true := by
  unfold IsIdent
  cases s.toList with
  | nil => simp
  | cons x cs =>
    simp only [List.head?_cons, Option.any_some, List.tail_cons, Bool.and_eq_true, List.all_eq_true]
    constructor
    · rintro ⟨y, ds, heq, h⟩
      cases heq
      exact h
    · exact fun h => ⟨x, cs, rfl, h⟩

instance (s : String) : Decidable (IsIdent s) := decidable_of_iff' _ isIdent_iff

/-- The braces of the code come in pairs. -/
def Code.Balanced (k : Code) : Prop := closes 0 k.text.toList = true

instance (k : Code) : Decidable k.Balanced := inferInstanceAs (Decidable (_ = true))

mutual

/-- All names in the reference are names of the notation. -/
def Reference.Writable : Reference → Prop
  | .mk _ name args => IsIdent name.name ∧ Reference.WritableAll args

/-- `Reference.Writable` for each of several references. -/
def Reference.WritableAll : List Reference → Prop
  | [] => True
  | r :: rs => r.Writable ∧ Reference.WritableAll rs

end

theorem Reference.writableAll_iff {rs : List Reference} : WritableAll rs ↔ ∀ r ∈ rs, r.Writable := by
  induction rs with
  | nil => simp [WritableAll]
  | cons r rs ih => simp [WritableAll, ih]

/-- The level of an expression in the notation: operands (0), repetitions, predicates, labels, sequences,
actions and choices (6). -/
def Expr.level : Expr → Nat
  | .choice _ _ => 6
  | .action _ _ _ _ => 5
  | .bareAction _ _ _ => 5
  | .seq _ _ => 4
  | .label _ _ _ => 3
  | .lookahead _ _ _ => 2
  | .star _ _ => 1
  | .plus _ _ => 1
  | .opt _ _ => 1
  | _ => 0

theorem Expr.level_le (e : Expr) : e.level ≤ 6 := by cases e <;> simp [level]

mutual

/-- An expression that the notation can express as it is: its names are names, its ranges ascend, the
braces of its code come in pairs, its sequences and choices have two parts at least, and every part is
of a level that may stand where it stands. -/
def Expr.Writable : Expr → Prop
  | .literal _ _ => True
  | .charClass _ k => Ascends k
  | .anyChar _ => True
  | .ref reference => reference.Writable
  | .seq _ elements => 2 ≤ elements.length ∧ Expr.WritableAll 3 elements
  | .choice _ branches => 2 ≤ branches.length ∧ Expr.WritableAll 5 branches
  | .star _ body => body.level ≤ 1 ∧ body.Writable
  | .plus _ body => body.level ≤ 1 ∧ body.Writable
  | .opt _ body => body.level ≤ 1 ∧ body.Writable
  | .lookahead _ _ body => body.level ≤ 1 ∧ body.Writable
  | .codePredicate _ _ k => k.Balanced
  | .label _ name body => IsIdent name.name ∧ body.level ≤ 2 ∧ body.Writable
  | .action _ _ k body => k.Balanced ∧ body.level ≤ 4 ∧ body.Writable
  | .bareAction _ _ k => k.Balanced
  | .group _ body => body.Writable

/-- Each of several expressions is of a level up to `level` and can be written. -/
def Expr.WritableAll (level : Nat) : List Expr → Prop
  | [] => True
  | x :: xs => (x.level ≤ level ∧ x.Writable) ∧ Expr.WritableAll level xs

end

theorem Expr.writableAll_iff {level : Nat} {xs : List Expr} :
    WritableAll level xs ↔ ∀ x ∈ xs, x.level ≤ level ∧ x.Writable := by
  induction xs with
  | nil => simp [WritableAll]
  | cons x xs ih => simp [WritableAll, ih]

/-- A definition that the notation can express. -/
def Item.Writable : Item → Prop
  | .rule r => IsIdent r.name.name ∧ r.expr.Writable
  | .template t =>
    IsIdent t.name.name ∧ t.params ≠ [] ∧ (∀ p ∈ t.params, IsIdent p.name) ∧ t.expr.Writable

/-- A grammar that the notation can express. -/
def Grammar.Writable (g : Grammar) : Prop :=
  (∀ k ∈ g.preamble, k.Balanced) ∧ ∀ i ∈ g.items, i.Writable

end Packrat

import Packrat.Proofs.GrammarText.Longer
import Packrat.Proofs.GrammarText.Places

/-!
# How a definition goes on in a longer text

The body of a definition ends where its last sequence ends, and the sequence takes every element that
it can get.  An action after the sequence ends it.

* `Expr.endsInAction` — nothing can be added to the expression.
* `GoesOn`, `EndsAt` — what is added to an expression of the text that follows it.
* `expr_extends`, `item_extends` — what is read is read in the longer text, with what is added to it.
* `expr_stops` — where an expression that does not end in an action stops, no element begins.
-/

set_option autoImplicit false

namespace Packrat

open Reader GrammarText

/-- The expression is an action. -/
def Expr.isAction : Expr → Bool
  | .action _ _ _ _ => true
  | .bareAction _ _ _ => true
  | _ => false

/-- The expression, or the last one of its alternatives, is an action. -/
def Expr.endsInAction : Expr → Bool
  | .choice _ branches => branches.getLast?.any isAction
  | x => x.isAction

theorem Expr.isAction_eq_false {x : Expr} (h : x.level ≤ 4) : x.isAction = false := by
  cases x <;> simp_all [level, isAction]

theorem Expr.endsInAction_eq {x : Expr} (h : x.level ≤ 5) : x.endsInAction = x.isAction := by
  cases x <;> simp_all [level, endsInAction]

theorem Expr.endsInAction_flatten (s : Span) {xs : List Expr} (h : ∀ x ∈ xs, x.level ≤ 5) :
    (flatten (.choice s) xs).endsInAction = xs.getLast?.any isAction := by
  match xs, h with
  | [], _ => rfl
  | [x], h => exact endsInAction_eq (h x List.mem_cons_self)
  | _ :: _ :: _, _ => rfl

namespace GrammarText

/-! ### The levels of what is read -/

section Levels

variable (inner : Reader Expr)

theorem operand_yields : (operand inner).Yields (·.level = 0) := by
  refine .firstOf ?_
  simp only [List.forall_mem_cons]
  refine ⟨(yields_true _).bind fun _ _ => .pure rfl, (yields_true _).bind fun _ _ => .pure rfl,
    (yields_true _).bind fun _ _ => .pure rfl, ?_, ?_, (yields_true _).bind fun _ _ => .pure rfl,
    (yields_true _).bind fun _ _ => .pure rfl, List.forall_mem_nil _⟩
  · exact (yields_true _).bind fun _ _ => (yields_true _).bind fun _ _ => (yields_true _).bind fun _ _ => .pure rfl
  · exact (yields_true _).bind fun _ _ => (yields_true _).bind fun _ _ => (yields_true _).bind fun _ _ =>
      (yields_true _).bind fun _ _ => .pure rfl

theorem foldl_apply_level (lo : Nat) (ms : List (Repetition × Nat)) {x : Expr} (hx : x.level ≤ 1) :
    (ms.foldl (fun x m => m.1.apply ⟨lo, m.2⟩ x) x).level ≤ 1 := by
  induction ms generalizing x with
  | nil => exact hx
  | cons m ms ih =>
    obtain ⟨mark, hi⟩ := m
    refine ih ?_
    cases mark <;> exact Nat.le_refl 1

theorem repeated_yields : (repeated inner).Yields (·.level ≤ 1) :=
  (yields_true _).bind fun lo _ => (operand_yields inner).bind fun _ hx => (yields_true _).bind fun ms _ =>
    .pure (foldl_apply_level lo ms (Nat.le_trans (Nat.le_of_eq hx) (Nat.zero_le 1)))

theorem predicate_yields : (predicate inner).Yields (·.level ≤ 2) := by
  refine .firstOf ?_
  simp only [List.forall_mem_cons]
  refine ⟨(yields_true _).bind fun _ _ => .pure (Nat.le_refl 2),
    (yields_true _).bind fun _ _ => .pure (Nat.le_refl 2), ?_, List.forall_mem_nil _⟩
  exact fun c r hr => Nat.le_succ_of_le (repeated_yields inner c r hr)

theorem labelled_yields : (labelled inner).Yields (·.level ≤ 3) :=
  .orElse ((yields_true _).bind fun _ _ => .pure (Nat.le_refl 3))
    fun c r hr => Nat.le_succ_of_le (predicate_yields inner c r hr)

theorem sequence_yields : (sequence inner).Yields (·.level ≤ 4) := by
  refine (spanned_yields ((labelled_yields inner).sepBy1_forall blanks)).bind ?_
  rintro ⟨xs, s⟩ hxs
  refine .pure ?_
  match xs, hxs with
  | [], _ => exact Nat.le_refl 4
  | [x], hxs => exact Nat.le_succ_of_le (hxs x List.mem_cons_self)
  | _ :: _ :: _, _ => exact Nat.le_refl 4

theorem acted_yields : (acted inner).Yields (·.level ≤ 5) := by
  rw [acted_eq]
  refine .orElse ((spanned_yields ((sequence_yields inner).bind fun x hx => (yields_true _).bind fun tail _ =>
    (Yields.pure hx : (Pure.pure (x, tail) : Reader (Expr × Option (String × Code))).Yields
      (·.1.level ≤ 4)))).bind ?_) ((yields_true _).bind fun _ _ => .pure (Nat.le_refl 5))
  rintro ⟨⟨x, tail⟩, s⟩ hx
  refine .pure ?_
  cases tail with
  | none => exact Nat.le_succ_of_le hx
  | some r => exact Nat.le_refl 5

end Levels

/-! ### What is added to an expression -/

/-- The elements that stand between `r` and `s` are added to a sequence that ends before `r`, and no
action follows them.  With `keep` there are no such elements. -/
structure GoesOn (keep : Prop) (r s : List Char) : Prop where
  bracket : (afterBlanks r).head? ≠ some '<'
  elements (inner : Reader Expr) (htakes : inner.Takes 0) :
    (many (blanks >>= fun _ => labelled inner)).Reads r s fun xs => keep → xs = []
  action : actionTail.Refuses (afterBlanks s)

/-- To an expression that ends before `r` is added what stands before `s`: nothing, if it is closed by an
action. -/
inductive EndsAt (keep : Prop) (r : List Char) : (closed : Bool) → List Char → Prop where
  | closed : EndsAt keep r true r
  | open {s : List Char} (h : GoesOn keep r s) : EndsAt keep r false s

variable {keep : Prop} {r s t cs cs₁ : List Char}

/-- Nothing is added if neither an element nor an action follows. -/
theorem GoesOn.stop (hbracket : (afterBlanks r).head? ≠ some '<')
    (helement : ∀ inner, (labelled inner).Refuses (afterBlanks r))
    (haction : actionTail.Refuses (afterBlanks r)) : GoesOn keep r r := by
  refine ⟨hbracket, fun inner _ => ?_, haction⟩
  refine (many_reads_nil (.bind_right (blanks_reads r) fun _ _ => helement inner)).mono ?_
  rintro xs rfl _
  rfl

/-- Nothing is added if what follows is no bracket and begins no expression. -/
theorem GoesOn.of_head (h : ∀ x ∈ (afterBlanks r).head?, x ≠ '<' ∧ ¬ StartsOperand x) :
    GoesOn keep r r := by
  refine .stop (fun hx => (h _ hx).1 rfl) (fun inner => (labelled_starts inner).refuses fun x hx => (h x hx).2)
    (actionTail_starts.refuses fun x hx hhint => (h x hx).2 (.inl hhint))

/-- Nothing is added before the head of a definition, unless it is loose. -/
theorem GoesOn.of_definition {i : Ident} (hname : ident.Reads (afterBlanks r) cs (·.unplaced = i))
    (htail : HeadTail cs) (hloose : ¬ Loose cs) : GoesOn keep r r :=
  .stop (head_ne_of_ident hname (by decide)) (fun inner => labelled_refuses_of_head hname htail hloose)
    (actionTail_refuses_of_head hname htail)

/-- **The name of a loose head is added.** -/
theorem GoesOn.of_loose {i : Ident} (hname : ident.Reads (afterBlanks r) cs (·.unplaced = i))
    (hloose : Loose cs) : GoesOn False r cs := by
  have hnext : ∀ x ∈ (afterBlanks cs).head?, x = '<' := by
    rw [hloose.afterBlanks_head]
    rintro x ⟨⟩
    rfl
  have hangle : ¬ StartsOperand '<' := by decide
  refine ⟨head_ne_of_ident hname (by decide), fun inner htakes => ?_, ?_⟩
  · have hone : Reader.Reads (blanks >>= fun _ => labelled inner) r cs fun _ => True :=
      (blanks_reads r).bind fun _ _ => labelled_reads_of_loose hname hloose
    have hnone : Reader.Refuses (blanks >>= fun _ => labelled inner) cs :=
      .bind_right (blanks_reads cs) fun _ _ => (labelled_starts inner).refuses fun x hx => by
        rw [hnext x hx]
        exact hangle
    exact (many_reads_cons (blanksLabelled_takes htakes) hone (many_reads_nil hnone)).mono
      fun _ _ => False.elim
  · exact actionTail_starts.refuses fun x hx => by
      rw [hnext x hx]
      exact fun h => hangle (.inl h)

theorem EndsAt.stop (h : GoesOn keep r r) (closed : Bool) : EndsAt keep r closed r := by
  cases closed with
  | true => exact .closed
  | false => exact .open h

/-! ### Actions are read on -/

theorem actionTail_eq_some {c c' : Cursor} {hint : String} {k : Code}
    (h : (actionTail c).result = some ((hint, k), c')) :
    ∃ (c₁ : Cursor) (ds : List Char) (c₂ : Cursor), (actionType c).result = some (hint, c₁) ∧
      c₁.rest = ':' :: ds ∧ c₂.rest = afterBlanks ds ∧ (code c₂).result = some (k, c') := by
  unfold actionTail at h
  simp only [bind_eq_some, pure_eq_some] at h
  obtain ⟨_, d₁, h₁, _, d₂, h₂, _, d₃, h₃, _, d₄, h₄, heq⟩ := h
  cases heq
  exact ⟨d₁, d₂.rest, d₃, h₁, exactly_eq_cons h₂, blanks_eq_some h₃, h₄⟩

/-- An action is read on, and it is no element of a sequence. -/
theorem actionTail_extends {c c' : Cursor} {hint : String} {k : Code}
    (h : (actionTail c).result = some ((hint, k), c')) (inner : Reader Expr) :
    actionTail.Reads (c.rest ++ '\n' :: t) (c'.rest ++ '\n' :: t)
        (fun r => r.1 = hint ∧ r.2.unplaced = k.unplaced) ∧
      (labelled inner).Refuses (c.rest ++ '\n' :: t) := by
  obtain ⟨c₁, ds, c₂, hhint, hc₁, hc₂, hcode⟩ := actionTail_eq_some h
  have hhint' := (actionType_alike (head_line t)).reads hhint
  rw [hc₁, List.cons_append] at hhint'
  have hcode' := code_extends hcode ('\n' :: t)
  rw [← afterBlanks_extend_of_starts code_starts hcode hc₂] at hcode'
  exact ⟨actionTail_reads hhint' hcode', labelled_refuses_action hhint' hcode'⟩

/-! ### Expressions are read on -/

/-- What is read at the level of actions is a sequence and what was read after it, or an action on its
own. -/
theorem acted_eq_some {inner : Reader Expr} {c c' : Cursor} {x : Expr}
    (h : (acted inner c).result = some (x, c')) :
    (∃ y d tail span, (sequence inner c).result = some (y, d) ∧
        (optional (do blanks; actionTail) d).result = some (tail, c') ∧ x = actedOf span y tail) ∨
      ∃ hint k span, (actionTail c).result = some ((hint, k), c') ∧ x = .bareAction span hint k := by
  rw [acted_eq] at h
  rcases orElse_eq_some.1 h with hx | ⟨-, hx⟩
  · simp only [bind_eq_some, pure_eq_some] at hx
    obtain ⟨⟨⟨y, tail⟩, span⟩, c₁, hy, heq⟩ := hx
    cases heq
    have hbody := spanned_eq_some hy
    simp only [actedParts, bind_eq_some, pure_eq_some] at hbody
    obtain ⟨_, d₁, hsequence, _, d₂, htail, heq⟩ := hbody
    cases heq
    exact .inl ⟨_, _, _, _, hsequence, htail, rfl⟩
  · simp only [bind_eq_some, pure_eq_some] at hx
    obtain ⟨⟨⟨hint, k⟩, span⟩, c₁, hr, heq⟩ := hx
    cases heq
    exact .inr ⟨_, _, _, spanned_eq_some hr, rfl⟩

section Expressions

variable {inner inner' : Reader Expr} (hinner : Extends t inner inner')
include hinner

theorem sequence_extends {c c' : Cursor} {x : Expr} (h : (sequence inner c).result = some (x, c'))
    (hbracket : (afterBlanks (c'.rest ++ '\n' :: t)).head? ≠ some '<')
    (hmore : (many (blanks >>= fun _ => labelled inner')).Reads (c'.rest ++ '\n' :: t) s
      fun xs => keep → xs = []) :
    (sequence inner').Reads (c.rest ++ '\n' :: t) s fun y => keep → y.unplaced = x.unplaced := by
  unfold sequence at h
  simp only [bind_eq_some, pure_eq_some] at h
  obtain ⟨⟨xs, span⟩, c₁, hxs, heq⟩ := h
  cases heq
  have hsep : ∀ {d d' : Cursor} {u : Unit} {q : Expr × Cursor}, (blanks d).result = some (u, d') →
      (labelled inner d').result = some q →
        blanks.Reads (d.rest ++ '\n' :: t) (d'.rest ++ '\n' :: t) (fun _ => True) ∧
          (afterBlanks (d.rest ++ '\n' :: t)).head? ≠ some '<' := by
    intro d d' u q hu hy
    have hread := blanks_reads (d.rest ++ '\n' :: t)
    rw [afterBlanks_extend_of_starts (labelled_starts inner) hy (blanks_eq_some hu)] at hread
    exact ⟨hread, head_ne_extend_of_starts (labelled_starts inner) hy (blanks_eq_some hu) (by decide)⟩
  have hparts := sepBy1_extends (R := fun a b => b.unplaced = a.unplaced)
    (fun _ r s => s = r ++ '\n' :: t ∧ (afterBlanks (r ++ '\n' :: t)).head? ≠ some '<')
    (blanksLabelled_takes hinner.takes) (blanksLabelled_takes hinner.takes')
    (by rintro d d' y s hy ⟨rfl, hnext⟩; exact labelled_extends hinner hy hnext)
    (fun hu hy => ⟨(hsep hu hy).1, fun _ => ⟨rfl, (hsep hu hy).2⟩⟩) (spanned_eq_some hxs)
    (fun _ _ => ⟨rfl, hbracket⟩) hmore
  refine (spanned_reads hparts).bind ?_
  rintro ⟨ys, span'⟩ ⟨ys₁, ys₂, rfl, hys, hnone⟩
  refine .pure fun hkeep => ?_
  rw [hnone hkeep, List.append_nil, flatten_seq_unplaced, flatten_seq_unplaced, map_eq_of_forall₂ hys]

/-- **A sequence with an action, and an action on its own, end with the code.** -/
theorem acted_extends {c c' : Cursor} {x : Expr} (h : (acted inner c).result = some (x, c'))
    (hend : EndsAt keep (c'.rest ++ '\n' :: t) x.isAction s) :
    (acted inner').Reads (c.rest ++ '\n' :: t) s fun y => keep → y.unplaced = x.unplaced := by
  rcases acted_eq_some h with ⟨y, d₁, tail, span, hsequence, htail, rfl⟩ | ⟨hint, k, span, hr, rfl⟩
  · rcases optional_eq_some.1 htail with ⟨⟨hint, k⟩, rfl, hsome⟩ | ⟨rfl, rfl, -⟩
    · obtain ⟨u, d₃, hu, haction⟩ := bind_eq_some.1 hsome
      have hends : EndsAt keep (c'.rest ++ '\n' :: t) true s := hend
      cases hends
      obtain ⟨hread, hrefuses⟩ := actionTail_extends haction inner'
      have hblanks := afterBlanks_extend_of_starts (t := t) actionTail_starts haction (blanks_eq_some hu)
      rw [← hblanks] at hread hrefuses
      have hbracket : (afterBlanks (d₁.rest ++ '\n' :: t)).head? ≠ some '<' :=
        head_ne_extend_of_starts actionTail_starts haction (blanks_eq_some hu) (by decide)
      have hnone : (many (blanks >>= fun _ => labelled inner')).Reads (d₁.rest ++ '\n' :: t)
          (d₁.rest ++ '\n' :: t) fun xs => True → xs = [] :=
        (many_reads_nil (.bind_right (blanks_reads _) fun _ _ => hrefuses)).mono fun _ hxs _ => hxs
      have hsequence' := (sequence_extends hinner hsequence hbracket hnone).mono fun _ hz => hz trivial
      refine (acted_reads_action hsequence' hread).mono fun z hz _ => ?_
      rw [hz, actedOf, Expr.unplaced]
    · have hopen : y.isAction = false := Expr.isAction_eq_false (sequence_yields inner _ _ hsequence)
      rw [actedOf, hopen] at hend
      cases hend with
      | «open» hgo =>
        exact acted_reads_sequence
          (sequence_extends hinner hsequence hgo.bracket (hgo.elements inner' hinner.takes')) hgo.action
  · have hends : EndsAt keep (c'.rest ++ '\n' :: t) true s := hend
    cases hends
    obtain ⟨hread, hrefuses⟩ := actionTail_extends hr inner'
    refine (acted_reads_bareAction hrefuses hread).mono fun z hz _ => ?_
    rw [hz, Expr.unplaced]

theorem alternatives_extends {c c' : Cursor} {x : Expr} (h : (alternatives inner c).result = some (x, c'))
    (hend : EndsAt keep (c'.rest ++ '\n' :: t) x.endsInAction s)
    (hslash : (afterBlanks s).head? ≠ some '/') :
    (alternatives inner').Reads (c.rest ++ '\n' :: t) s fun y => keep → y.unplaced = x.unplaced := by
  unfold alternatives at h
  simp only [bind_eq_some, pure_eq_some] at h
  obtain ⟨⟨xs, span⟩, c₁, hxs, heq⟩ := h
  cases heq
  have hbranches := spanned_eq_some hxs
  have hlast : ∀ x ∈ xs.getLast?, EndsAt keep (c'.rest ++ '\n' :: t) x.isAction s := by
    intro x hx
    rw [Expr.endsInAction_flatten _ ((acted_yields inner).sepBy1_forall _ _ _ hbranches), hx] at hend
    exact hend
  have hsep : ∀ {d d' : Cursor} {u : Unit} {q : Expr × Cursor}, (separator '/' d).result = some (u, d') →
      (acted inner d').result = some q →
        (separator '/').Reads (d.rest ++ '\n' :: t) (d'.rest ++ '\n' :: t) (fun _ => True) ∧
          GoesOn keep (d.rest ++ '\n' :: t) (d.rest ++ '\n' :: t) := by
    intro d d' u q hu hy
    obtain ⟨z, ds, hds, -⟩ := acted_starts inner _ _ hy
    obtain ⟨es, hes, -⟩ := separator_eq_some hu
    refine ⟨separator_extends (head_line t) hu (by rw [hds]; exact List.cons_ne_nil _ _), .of_head ?_⟩
    rw [afterBlanks_extend_cons (head_line t) hes]
    rintro w ⟨⟩
    decide
  have hparts := sepBy1_extends (R := fun a b => keep → b.unplaced = a.unplaced)
    (fun x r s => EndsAt keep (r ++ '\n' :: t) x.isAction s)
    (separatorActed_takes hinner.takes) (separatorActed_takes hinner.takes')
    (fun hy hends => acted_extends hinner hy hends)
    (fun hu hy => ⟨(hsep hu hy).1, fun _ => .stop (hsep hu hy).2 _⟩) hbranches hlast
    (many_reads_nil (.bind_left (separator_refuses hslash)))
  refine (spanned_reads hparts).bind ?_
  rintro ⟨ys, span'⟩ ⟨ys₁, ys₂, rfl, hys, rfl⟩
  refine .pure fun hkeep => ?_
  rw [List.append_nil, flatten_choice_unplaced, flatten_choice_unplaced,
    map_eq_of_forall₂ (hys.imp fun _ _ hab => hab hkeep)]

end Expressions

/-- **An expression is read on**, with what is added to it. -/
theorem exprWithin_extends {fuel fuel' : Nat} (hf : fuel ≤ fuel') {c c' : Cursor} {x : Expr}
    (h : (exprWithin fuel c).result = some (x, c'))
    (hend : EndsAt keep (c'.rest ++ '\n' :: t) x.endsInAction s)
    (hslash : (afterBlanks s).head? ≠ some '/') :
    (exprWithin fuel').Reads (c.rest ++ '\n' :: t) s fun y => keep → y.unplaced = x.unplaced := by
  induction fuel generalizing fuel' c c' x keep s with
  | zero => cases h
  | succ fuel ih =>
    obtain ⟨fuel', rfl⟩ : ∃ n, fuel' = n + 1 := ⟨fuel' - 1, by omega⟩
    have hinner : Extends t (exprWithin fuel) (exprWithin fuel') := by
      refine ⟨exprWithin_starts fuel, exprWithin_takes fuel, exprWithin_takes fuel', fun hx hclose => ?_⟩
      have hends := afterBlanks_extend_cons (head_line t) hclose
      have hstop : GoesOn True _ _ := .of_head (by rw [hends]; rintro y ⟨⟩; decide)
      exact (ih (by omega) hx (.stop hstop _) (by rw [hends]; simp)).mono fun y hy => hy trivial
    exact fun d hd => alternatives_extends hinner h hend hslash d hd

theorem expr_extends {c c' : Cursor} {x : Expr} (h : (expr c).result = some (x, c'))
    (hend : EndsAt keep (c'.rest ++ '\n' :: t) x.endsInAction s)
    (hslash : (afterBlanks s).head? ≠ some '/') :
    expr.Reads (c.rest ++ '\n' :: t) s fun y => keep → y.unplaced = x.unplaced := by
  intro d hd
  have hf : c.rest.length + 1 ≤ d.rest.length + 1 := by
    rw [hd, List.length_append]
    omega
  exact exprWithin_extends hf h hend hslash d hd

/-! ### Where expressions stop -/

section Stops

variable {inner : Reader Expr}

/-- Parts with separators end where the last part ends. -/
theorem exists_last_of_sepBy1 {α : Type} {p : Reader α} {sep : Reader Unit}
    (tp : Reader.Takes 1 (sep >>= fun _ => p)) {c c' : Cursor} {as : List α}
    (h : (sepBy1 p sep c).result = some (as, c')) :
    ∃ a d, as.getLast? = some a ∧ (p d).result = some (a, c') := by
  obtain ⟨a, as', c₁, rfl, ha, hm⟩ := (sepBy1_eq_some tp).1 h
  clear h
  induction hm generalizing a c with
  | stop _ => exact ⟨a, c, rfl, ha⟩
  | more hstep _ ih =>
    obtain ⟨u, d, -, hb⟩ := bind_eq_some.1 hstep
    obtain ⟨b, e, hlast, hb'⟩ := ih _ hb
    exact ⟨b, e, by rw [List.getLast?_cons_cons, hlast], hb'⟩

/-- After blanks no element begins. -/
def Stops (inner : Reader Expr) (cs : List Char) : Prop :=
  ∃ d : Cursor, d.rest = afterBlanks cs ∧ (labelled inner d).result = none

/-- **A sequence takes every element that it can get.** -/
theorem sequence_stops (htakes : inner.Takes 0) {c c' : Cursor} {x : Expr}
    (h : (sequence inner c).result = some (x, c')) : Stops inner c'.rest := by
  unfold sequence at h
  simp only [bind_eq_some, pure_eq_some] at h
  obtain ⟨⟨xs, span⟩, c₁, hxs, heq⟩ := h
  cases heq
  obtain ⟨_, _, _, -, -, hm⟩ := (sepBy1_eq_some (blanksLabelled_takes htakes)).1 (spanned_eq_some hxs)
  obtain ⟨u, d, hd, hrest, -⟩ := blanks_reads c'.rest c' rfl
  refine ⟨d, hrest, ?_⟩
  have hnone := hm.stops
  rw [bind_result, hd] at hnone
  exact hnone

theorem acted_stops (htakes : inner.Takes 0) {c c' : Cursor} {x : Expr}
    (h : (acted inner c).result = some (x, c')) (hx : x.isAction = false) : Stops inner c'.rest := by
  rcases acted_eq_some h with ⟨y, d, tail, span, hsequence, htail, rfl⟩ | ⟨hint, k, span, -, rfl⟩
  · rcases optional_eq_some.1 htail with ⟨⟨hint, k⟩, rfl, -⟩ | ⟨rfl, rfl, -⟩
    · cases hx
    · exact sequence_stops htakes hsequence
  · cases hx

/-- **Where an expression stops that does not end in an action, no element begins.** -/
theorem expr_stops {c c' : Cursor} {x : Expr} (h : (expr c).result = some (x, c'))
    (hx : x.endsInAction = false) : ∃ inner, Stops inner c'.rest := by
  have htakes := exprWithin_takes c.rest.length
  have h' : (alternatives (exprWithin c.rest.length) c).result = some (x, c') := h
  unfold alternatives at h'
  simp only [bind_eq_some, pure_eq_some] at h'
  obtain ⟨⟨xs, span⟩, c₁, hxs, heq⟩ := h'
  cases heq
  have hbranches := spanned_eq_some hxs
  obtain ⟨y, d, hlast, hy⟩ := exists_last_of_sepBy1 (separatorActed_takes htakes) hbranches
  rw [Expr.endsInAction_flatten _ ((acted_yields _).sepBy1_forall _ _ _ hbranches), hlast] at hx
  exact ⟨_, acted_stops htakes hy hx⟩

end Stops

end GrammarText

end Packrat

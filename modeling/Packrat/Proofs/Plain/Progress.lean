import Packrat.Grammar.LeftRecursion
import Packrat.Proofs.Plain.Visits
import Packrat.Proofs.Text.Boundary

/-!
# Progress of a plain evaluation

* `Plain.Advances` — a match ends at a boundary, not before its start, and at its start only if a
  condition holds.
* `Plain.expr_advances` — every match advances; one that consumes nothing is of an expression that is
  nullable.
* `Plain.rule_advances` — the same for rules.
-/

set_option autoImplicit false

namespace Packrat.Plain

open Step

variable {c : Plain} {current : String} {known : List String}

/-- A match from `p` to `stop`. -/
structure Advances (c : Plain) (p stop : Nat) (empty : Prop) : Prop where
  le : p ≤ stop
  boundary : Boundary c.text stop
  nullable : stop = p → empty

theorem Advances.refl {p : Nat} {empty : Prop} (hp : Boundary c.text p) (h : empty) :
    c.Advances p p empty := ⟨Nat.le_refl p, hp, fun _ => h⟩

/-- One match after the other. -/
theorem Advances.trans {p next stop : Nat} {first second : Prop} (h : c.Advances p next first)
    (h' : c.Advances next stop second) : c.Advances p stop (first ∧ second) := by
  have hle := h.le
  have hle' := h'.le
  exact ⟨by omega, h'.boundary, fun hs => ⟨h.nullable (by omega), h'.nullable (by omega)⟩⟩

theorem Advances.imp {p stop : Nat} {empty empty' : Prop} (h : c.Advances p stop empty)
    (himp : empty → empty') : c.Advances p stop empty' :=
  ⟨h.le, h.boundary, fun hs => himp (h.nullable hs)⟩

/-- The rules whose bodies are nullable are known. -/
def KnowsNullable (c : Plain) (known : List String) : Prop :=
  ∀ name r, c.rules.find? (·.name.name == name) = some r → nullable known r.expr = true →
    name ∈ known

/-- What is to be shown of the visits: they advance from boundaries. -/
def VisitAdvances (c : Plain) (known : List String) (v : Visit) : Prop :=
  Boundary c.text v.offset → ∀ stop value, v.outcome = .matched stop value →
    c.Advances v.offset stop (v.name ∈ known)

theorem lookahead_eq_matched {polarity : Polarity} {body : Outcome} {p stop : Nat} {v : Value}
    (h : lookahead polarity body p = .matched stop v) : stop = p := by
  cases polarity <;> cases body <;> cases h <;> rfl

theorem predicate_eq_matched {polarity : Polarity} {holds : Bool} {p stop : Nat} {v : Value}
    (h : predicate polarity holds p = .matched stop v) : stop = p := by
  cases polarity <;> cases holds <;> cases h <;> rfl

/-- A character that matches consumes input. -/
theorem advances_char {rest : List Char} {x : Char} {p : Nat} {empty : Prop}
    (hrest : dropBytes? c.text p = some rest) (hx : rest.head? = some x) :
    c.Advances p (p + x.utf8Size) empty := by
  have hsize := x.utf8Size_pos
  obtain ⟨tail, rfl⟩ := List.head?_eq_some_iff.1 hx
  exact ⟨Nat.le_add_right _ _, .char hrest, fun hs => by omega⟩

theorem iterate_advances_of {body : Expr}
    (hbody : ∀ labels p t, c.expr current body labels p = some t → Boundary c.text p →
      (∀ v ∈ visitsAll t.steps, c.VisitAdvances known v) → ∀ stop value,
        t.result = .matched stop value → c.Advances p stop (nullable known body = true))
    {labels : Bindings} {p : Nat} {t : Trial (Nat × List Value)}
    (h : c.iterate current body labels p = some t) (hp : Boundary c.text p)
    (hvisits : ∀ v ∈ visitsAll t.steps, c.VisitAdvances known v) :
    c.Advances p t.result.1 (t.result.2 ≠ [] → nullable known body = true) := by
  revert hp hvisits
  refine iterate_induction (motive := fun _ p t => Boundary c.text p →
    (∀ v ∈ visitsAll t.steps, c.VisitAdvances known v) →
      c.Advances p t.result.1 (t.result.2 ≠ [] → nullable known body = true)) ?_ ?_ ?_ h
  · exact fun labels p u _ _ hp _ => .refl hp fun hne => absurd rfl hne
  · exact fun labels p u v hu hres hp hvisits =>
      (hbody labels p u hu hp hvisits p v hres).imp fun hn _ => hn
  · intro labels p u next v w hu hres _ _ ih hp hvisits
    obtain ⟨hbefore, hafter⟩ := forall_visitsAll_append.1 hvisits
    have hfirst := hbody labels p u hu hp hbefore next v hres
    have hrest := ih hfirst.boundary hafter
    exact (hfirst.trans hrest).imp fun hn _ => hn.1

mutual

theorem expr_advances_of (e : Expr) (labels : Bindings) (p : Nat) (t : Trial Outcome)
    (h : c.expr current e labels p = some t) (hp : Boundary c.text p)
    (hvisits : ∀ v ∈ visitsAll t.steps, c.VisitAdvances known v) :
    ∀ stop value, t.result = .matched stop value →
      c.Advances p stop (nullable known e = true) := by
  intro stop value hres
  cases e with
  | literal span text =>
    rw [expr] at h
    obtain ⟨rest, hrest, ⟨hpre, rfl⟩ | ⟨-, rfl⟩⟩ := literal_cases h
    · cases hres
      refine ⟨Nat.le_add_right _ _, .literal hrest hpre, fun hs => ?_⟩
      have hempty : text.toList = [] := byteLength_eq_zero.1 (by omega)
      rw [nullable, String.isEmpty_iff, ← String.toList_eq_nil_iff]
      exact hempty
    · cases hres
  | charClass span k =>
    rw [expr] at h
    obtain ⟨rest, hrest, ⟨x, hx, -, rfl⟩ | ⟨-, rfl⟩⟩ := oneChar_cases h
    · cases hres
      exact advances_char hrest hx
    · cases hres
  | anyChar span =>
    rw [expr] at h
    obtain ⟨rest, hrest, ⟨x, hx, -, rfl⟩ | ⟨-, rfl⟩⟩ := oneChar_cases h
    · cases hres
      exact advances_char hrest hx
    · cases hres
  | ref reference =>
    obtain ⟨o, inside, -, rfl⟩ := expr_ref h
    refine (hvisits ⟨reference.name.name, p, o, inside⟩ (by simp) hp stop value hres).imp fun hn => ?_
    rw [nullable]
    exact List.contains_iff_mem.2 hn
  | seq span es =>
    obtain ⟨u, hu, ⟨-, rfl⟩ | ⟨stop', vs, hsome, rfl⟩⟩ := expr_seq h
    · cases hres
    · cases hres
      rw [nullable]
      exact sequence_advances_of es labels p u hu hp hvisits stop vs hsome
  | choice span es =>
    rw [expr] at h
    rw [nullable]
    exact choice_advances_of es labels p t h hp hvisits stop value hres
  | star span body =>
    obtain ⟨u, hu, ⟨-, rfl⟩ | ⟨hne, rfl⟩⟩ := expr_star h
    · cases hres
      exact .refl hp (by rw [nullable])
    · cases hres
      exact (iterate_advances_of (expr_advances_of body) hu hp hvisits).imp
        fun _ => by rw [nullable]
  | plus span body =>
    obtain ⟨u, hu, ⟨-, rfl⟩ | ⟨hne, rfl⟩⟩ := expr_plus h
    · cases hres
    · cases hres
      exact (iterate_advances_of (expr_advances_of body) hu hp hvisits).imp
        fun hn => by rw [nullable]; exact hn hne
  | opt span body =>
    obtain ⟨u, hu, ⟨-, rfl⟩ | ⟨stop', v, -, rfl⟩⟩ := expr_opt h
    · cases hres
      exact .refl hp (by rw [nullable])
    · exact (expr_advances_of body labels p t hu hp hvisits stop value hres).imp
        fun _ => by rw [nullable]
  | lookahead span polarity body =>
    obtain ⟨u, -, rfl⟩ := expr_lookahead h
    obtain rfl := lookahead_eq_matched hres
    exact .refl hp (by rw [nullable])
  | codePredicate span polarity code =>
    rw [expr] at h
    cases h
    obtain rfl := predicate_eq_matched hres
    exact .refl hp (by rw [nullable])
  | label span name body =>
    obtain ⟨u, hu, ⟨-, rfl⟩ | ⟨stop', v, hmatch, rfl⟩⟩ := expr_label h
    · cases hres
    · cases hres
      rw [nullable]
      exact expr_advances_of body labels p u hu hp hvisits stop value hmatch
  | action span hint code body =>
    obtain ⟨u, hu, ⟨-, rfl⟩ | ⟨stop', v, hmatch, rfl⟩⟩ := expr_action h
    · cases hres
    · cases hres
      rw [nullable]
      rw [askAction_steps] at hvisits
      obtain ⟨hbefore, -⟩ := forall_visitsAll_append.1 hvisits
      exact expr_advances_of body labels p u hu hp hbefore stop v hmatch
  | bareAction span hint code =>
    rw [expr] at h
    cases h
    cases hres
    exact .refl hp (by rw [nullable])
  | group span body =>
    rw [expr] at h
    rw [nullable]
    exact expr_advances_of body labels p t h hp hvisits stop value hres

theorem sequence_advances_of (es : List Expr) (labels : Bindings) (p : Nat)
    (t : Trial (Option (Nat × List Value))) (h : c.sequence current es labels p = some t)
    (hp : Boundary c.text p) (hvisits : ∀ v ∈ visitsAll t.steps, c.VisitAdvances known v) :
    ∀ stop vs, t.result = some (stop, vs) →
      c.Advances p stop (allNullable known es = true) := by
  intro stop vs hres
  cases es with
  | nil =>
    rw [sequence] at h
    cases h
    cases hres
    exact .refl hp (by rw [allNullable])
  | cons e rest =>
    obtain ⟨u, hu, ⟨-, rfl⟩ | ⟨next, v, w, hmatch, hw, rfl⟩⟩ := sequence_cons h
    · cases hres
    · obtain ⟨⟨stop', vs'⟩, hsome, he⟩ := Option.map_eq_some_iff.1 hres
      cases he
      obtain ⟨hbefore, hafter⟩ := forall_visitsAll_append.1 hvisits
      have hfirst := expr_advances_of e labels p u hu hp hbefore next v hmatch
      have hrest :=
        sequence_advances_of rest u.labels next w hw hfirst.boundary hafter stop vs' hsome
      refine (hfirst.trans hrest).imp fun hn => ?_
      rw [allNullable, hn.1, hn.2, Bool.and_true]

theorem choice_advances_of (es : List Expr) (labels : Bindings) (p : Nat) (t : Trial Outcome)
    (h : c.choice current es labels p = some t) (hp : Boundary c.text p)
    (hvisits : ∀ v ∈ visitsAll t.steps, c.VisitAdvances known v) :
    ∀ stop value, t.result = .matched stop value →
      c.Advances p stop (anyNullable known es = true) := by
  intro stop value hres
  cases es with
  | nil =>
    rw [choice] at h
    cases h
    cases hres
  | cons e rest =>
    obtain ⟨u, hu, ⟨stop', v, -, rfl⟩ | ⟨w, -, hw, rfl⟩⟩ := choice_cons h
    · refine (expr_advances_of e labels p t hu hp hvisits stop value hres).imp fun hn => ?_
      rw [anyNullable, hn, Bool.true_or]
    · obtain ⟨-, hafter⟩ := forall_visitsAll_append.1 hvisits
      refine (choice_advances_of rest labels p w hw hp hafter stop value hres).imp fun hn => ?_
      rw [anyNullable, hn, Bool.or_true]

end

/-- **A rule advances**, and without consuming input it matches only if it is known. -/
theorem rule_advances (hknown : c.KnowsNullable known) {v : Visit} (hv : c.Holds v) :
    c.VisitAdvances known v := by
  refine rule_induction (fun v hv ih => ?_) v hv
  intro hp stop value hmatch
  obtain ⟨r, t, hr, ht, hres, hsteps⟩ := rule_cases hv
  rw [← hsteps] at ih
  rw [← hres] at hmatch
  exact (expr_advances_of r.expr [] v.offset t ht hp ih stop value hmatch).imp
    fun hn => hknown v.name r hr hn

section

variable {p : Nat} {labels : Bindings}

/-- **Every match advances**, and without consuming input only if the expression is nullable. -/
theorem expr_advances (hknown : c.KnowsNullable known) {e : Expr} {t : Trial Outcome}
    (h : c.expr current e labels p = some t) (hp : Boundary c.text p) {stop : Nat} {value : Value}
    (hres : t.result = .matched stop value) : c.Advances p stop (nullable known e = true) :=
  expr_advances_of e labels p t h hp
    (fun v hv => rule_advances hknown (visits_hold e labels p t h v hv)) stop value hres

end

end Packrat.Plain

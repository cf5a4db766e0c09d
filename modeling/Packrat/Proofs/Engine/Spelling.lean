import Packrat.Proofs.Engine.Safety
import Packrat.Proofs.Engine.Triples
import Packrat.Proofs.Grammar.Refs

/-!
# What values spell

Without actions, the value of a match is the text that was matched, cut into pieces: its texts, one
after the other, are what lies between the two ends of the match.

* `Value.spelled?` — the texts in a value, in order.
* `Expr.acts` — whether an expression contains an action.
* `Matcher.eval_spells`, `Matcher.invoke_spells` — what is matched is what the value spells.
* `Grammar.run_spells` — a match of a rule that needs no rule with an action spells a beginning of
  the input.
-/

set_option autoImplicit false

namespace Packrat

variable {σ : Type}

/-! ## Values -/

namespace Value

mutual

/-- The characters of the texts in a value, in order.  Absent values and truth values have none, and
what no match has by itself does not count as spelled. -/
def spelled? : Value → Option (List Char)
  | .absent => some []
  | .bool _ => some []
  | .text s => some s.toList
  | .list items => spelledAll? items
  | .int _ | .float _ | .map _ => none

/-- The same for several values. -/
def spelledAll? : List Value → Option (List Char)
  | [] => some []
  | v :: rest => do return (← v.spelled?) ++ (← spelledAll? rest)

end

end Value

/-- A value spells what lies between two offsets of a text. -/
def Value.Spells (text : List Char) (p stop : Nat) (v : Value) : Prop :=
  ∃ cs, v.spelled? = some cs ∧ Slice text p stop cs

/-- A match spells what was matched. -/
def Outcome.Spells (text : List Char) (p : Nat) : Outcome → Prop
  | .matched stop v => v.Spells text p stop
  | .failed => True

namespace Value.Spells

variable {text : List Char} {p next stop : Nat} {v : Value} {vs : List Value}

theorem boundary (h : v.Spells text p stop) : Boundary text stop := by
  obtain ⟨cs, -, hslice⟩ := h
  exact hslice.boundary

theorem of_nil (hv : v.spelled? = some []) (hp : Boundary text p) : v.Spells text p p :=
  ⟨[], hv, .nil hp⟩

theorem list_nil (hp : Boundary text p) : (Value.list []).Spells text p p := of_nil rfl hp

theorem list_cons (hv : v.Spells text p next) (hvs : (Value.list vs).Spells text next stop) :
    (Value.list (v :: vs)).Spells text p stop := by
  obtain ⟨cs, hcs, hslice⟩ := hv
  obtain ⟨ds, hds, hslice'⟩ := hvs
  refine ⟨cs ++ ds, ?_, hslice.append hslice'⟩
  rw [spelled?] at hds
  rw [spelled?, spelledAll?, hcs, hds]
  rfl

end Value.Spells

/-! ## Expressions without actions -/

mutual

/-- Whether there is an action in an expression. -/
def Expr.acts : Expr → Bool
  | .action .. | .bareAction .. => true
  | .literal .. | .charClass .. | .anyChar _ | .ref _ | .codePredicate .. => false
  | .seq _ elements => Expr.actsAny elements
  | .choice _ branches => Expr.actsAny branches
  | .star _ body | .plus _ body | .opt _ body | .lookahead _ _ body | .label _ _ body
  | .group _ body => body.acts

/-- Whether there is an action in one of several expressions. -/
def Expr.actsAny : List Expr → Bool
  | [] => false
  | e :: rest => e.acts || Expr.actsAny rest

end

/-- An expression without actions that refers to certain rules only. -/
structure Expr.Quiet (known : String → Prop) (e : Expr) : Prop where
  acts : e.acts = false
  refs : ∀ reference ∈ e.refs, known reference.name.name

/-- The same for several expressions. -/
structure Expr.QuietAll (known : String → Prop) (es : List Expr) : Prop where
  acts : Expr.actsAny es = false
  refs : ∀ reference ∈ Expr.refsAll es, known reference.name.name

theorem Expr.QuietAll.cons {known : String → Prop} {e : Expr} {es : List Expr}
    (h : QuietAll known (e :: es)) : e.Quiet known ∧ QuietAll known es := by
  obtain ⟨hacts, hrefs⟩ := h
  rw [actsAny, Bool.or_eq_false_iff] at hacts
  rw [refsAll, List.forall_mem_append] at hrefs
  exact ⟨⟨hacts.1, hrefs.1⟩, hacts.2, hrefs.2⟩

/-! ## Matching -/

/-- What the memory knows of certain rules spells what they have matched. -/
def Memo.Spelled (text : List Char) (known : String → Prop) (memo : Memo) : Prop :=
  ∀ name p o, known name → Boundary text p → memo.find? name p = some (.done o) → o.Spells text p

namespace Memo.Spelled

variable {text : List Char} {known : String → Prop} {memo : Memo}

theorem empty (text : List Char) (known : String → Prop) : Memo.empty.Spelled text known := by
  intro name p o _ _ h
  rw [find?_empty] at h
  cases h

theorem inProgress (h : memo.Spelled text known) (name : String) (p : Nat) :
    (memo.insert name p .inProgress).Spelled text known := by
  intro name' p' o hknown hp ho
  rw [find?_insert] at ho
  split at ho
  · cases ho
  · exact h name' p' o hknown hp ho

theorem done (h : memo.Spelled text known) (name : String) {p : Nat} {o : Outcome}
    (ho : o.Spells text p) : (memo.insert name p (.done o)).Spelled text known := by
  intro name' p' o' hknown hp ho'
  rw [find?_insert] at ho'
  split at ho'
  · rename_i heq
    cases ho'
    rw [heq.2]
    exact ho
  · exact h name' p' o' hknown hp ho'

end Memo.Spelled

namespace Matcher

open Run

variable {m : Matcher σ} {call : String → Nat → Run σ Outcome} {known : String → Prop} {p : Nat}

section

variable {M : Memo → Prop}

theorem literal_spells (text : String) (hp : Boundary m.input.text p) :
    Upholds M (Outcome.Spells m.input.text p) (m.literal text p) := by
  obtain ⟨rest, hrest⟩ := boundary_iff_dropBytes?.1 hp
  rw [literal, Input.holdsAt_of_dropBytes? hrest]
  split
  · rename_i hpre
    obtain ⟨after, rfl⟩ := List.isPrefixOf_iff_prefix.1 hpre
    exact .pure ⟨text.toList, rfl, after, hrest, rfl⟩
  · exact (upholds_failAt p _).imp fun o ho => by rw [ho]; trivial

theorem oneChar_spells (t : Terminal) (test : Char → Bool) (hp : Boundary m.input.text p) :
    Upholds M (Outcome.Spells m.input.text p) (m.oneChar t test p) := by
  obtain ⟨rest, hrest⟩ := boundary_iff_dropBytes?.1 hp
  have hmissed : Upholds (σ := σ) M (Outcome.Spells m.input.text p) (failAt p t) :=
    (upholds_failAt p t).imp fun o ho => by rw [ho]; trivial
  rw [oneChar, Input.charAt?_of_dropBytes? hrest]
  cases rest with
  | nil => exact hmissed
  | cons c rest =>
    simp only [List.head?_cons]
    split
    · refine .pure ⟨[c], ?_, rest, hrest, ?_⟩
      · simp [Value.spelled?]
      · simp [byteLength]
    · exact hmissed

theorem verdict_spells (holds : Bool) (hp : Boundary m.input.text p) :
    (verdict holds p).Spells m.input.text p := by
  cases holds with
  | true => exact .of_nil rfl hp
  | false => trivial

theorem repeatFrom_spells {body : Nat → Run σ Outcome}
    (hbody : ∀ q, Boundary m.input.text q → Upholds M (Outcome.Spells m.input.text q) (body q))
    (bound : Nat) : ∀ p, Boundary m.input.text p →
      Upholds M (fun r => (Value.list r.2).Spells m.input.text p r.1)
        (repeatFrom body bound p) := by
  induction bound with
  | zero => exact fun _ _ => .throw _
  | succ bound ih =>
    intro p hp
    refine upholds_height.bind fun mark _ => (hbody p hp).bind fun o ho => ?_
    cases o with
    | failed => exact (upholds_cut mark).bind fun _ _ => .pure (.list_nil hp)
    | matched next v =>
      simp only
      have hv : v.Spells m.input.text p next := ho
      split
      · rename_i hstays
        rw [hstays] at hv
        exact .pure (hv.list_cons (.list_nil hp))
      · exact (ih next hv.boundary).bind fun r hr => .pure (hv.list_cons hr)

/-- Trying one of certain rules, at a boundary, matches what the value spells. -/
def CallsSpell (m : Matcher σ) (M : Memo → Prop) (known : String → Prop)
    (call : String → Nat → Run σ Outcome) : Prop :=
  ∀ name, known name → ∀ p, Boundary m.input.text p →
    Upholds M (Outcome.Spells m.input.text p) (call name p)

mutual

/-- **What an expression without actions matches is what its value spells**, if this holds of the
rules that it refers to. -/
theorem eval_spells (hcall : m.CallsSpell M known call) (e : Expr) (he : e.Quiet known) (p : Nat)
    (hp : Boundary m.input.text p) :
    Upholds M (Outcome.Spells m.input.text p) (m.eval call e p) := by
  obtain ⟨hacts, hrefs⟩ := he
  cases e with
  | literal span text => exact literal_spells text hp
  | charClass span k => exact oneChar_spells _ _ hp
  | anyChar span => exact oneChar_spells _ _ hp
  | ref reference =>
    exact hcall reference.name.name (hrefs reference (List.mem_singleton_self _)) p hp
  | seq span elements =>
    refine upholds_height.bind fun mark _ =>
      (evalSeq_spells hcall elements ⟨hacts, hrefs⟩ p hp).bind fun r hr => ?_
    cases r with
    | none => exact (upholds_cut mark).bind fun _ _ => .pure trivial
    | some r => exact .pure (hr r rfl)
  | choice span branches => exact evalChoice_spells hcall branches ⟨hacts, hrefs⟩ p hp
  | star span body =>
    refine (repeatFrom_spells (eval_spells hcall body ⟨hacts, hrefs⟩) _ p hp).bind fun r hr => ?_
    obtain ⟨stop, vs⟩ := r
    cases vs with
    | nil => exact .pure (.of_nil rfl hp)
    | cons v vs => exact .pure hr
  | plus span body =>
    refine (repeatFrom_spells (eval_spells hcall body ⟨hacts, hrefs⟩) _ p hp).bind fun r hr => ?_
    obtain ⟨stop, vs⟩ := r
    cases vs with
    | nil => exact .pure trivial
    | cons v vs => exact .pure hr
  | opt span body =>
    refine (eval_spells hcall body ⟨hacts, hrefs⟩ p hp).bind fun o ho => ?_
    cases o with
    | failed => exact .pure (.of_nil rfl hp)
    | matched stop v => exact .pure ho
  | lookahead span polarity body =>
    -- what a lookahead has matched is dropped with its value
    exact upholds_height.bind fun mark _ => upholds_mute.bind fun _ _ =>
      (eval_spells hcall body ⟨hacts, hrefs⟩ p hp).bind fun o _ => upholds_unmute.bind fun _ _ =>
        (upholds_cut mark).bind fun _ _ => .pure (verdict_spells _ hp)
  | codePredicate span polarity code =>
    exact (upholds_ask _ _ _).bind fun _ _ => .pure (verdict_spells _ hp)
  | label span name body =>
    refine (eval_spells hcall body ⟨hacts, hrefs⟩ p hp).bind fun o ho => ?_
    cases o with
    | failed => exact .pure trivial
    | matched stop v => exact (upholds_bindLabel _ v).bind fun _ _ => .pure ho
  | action span hint code body => cases hacts
  | bareAction span hint code => cases hacts
  | group span body => exact eval_spells hcall body ⟨hacts, hrefs⟩ p hp

theorem evalSeq_spells (hcall : m.CallsSpell M known call) (es : List Expr)
    (hes : Expr.QuietAll known es) (p : Nat) (hp : Boundary m.input.text p) :
    Upholds M (fun r => ∀ x, r = some x → (Value.list x.2).Spells m.input.text p x.1)
      (m.evalSeq call es p) := by
  cases es with
  | nil =>
    refine .pure fun x hx => ?_
    cases hx
    exact .list_nil hp
  | cons e rest =>
    obtain ⟨he, hrest⟩ := hes.cons
    refine (eval_spells hcall e he p hp).bind fun o ho => ?_
    cases o with
    | failed => exact .pure fun x hx => by cases hx
    | matched next v =>
      have hv : v.Spells m.input.text p next := ho
      refine (evalSeq_spells hcall rest hrest next hv.boundary).bind fun r hr => ?_
      cases r with
      | none => exact .pure fun x hx => by cases hx
      | some r =>
        refine .pure fun x hx => ?_
        cases hx
        exact hv.list_cons (hr r rfl)

theorem evalChoice_spells (hcall : m.CallsSpell M known call) (es : List Expr)
    (hes : Expr.QuietAll known es) (p : Nat) (hp : Boundary m.input.text p) :
    Upholds M (Outcome.Spells m.input.text p) (m.evalChoice call es p) := by
  cases es with
  | nil => exact .pure trivial
  | cons e rest =>
    obtain ⟨he, hrest⟩ := hes.cons
    refine upholds_height.bind fun mark _ => (eval_spells hcall e he p hp).bind fun o ho => ?_
    cases o with
    | failed => exact (upholds_cut mark).bind fun _ _ => evalChoice_spells hcall rest hrest p hp
    | matched stop v => exact .pure ho

end

end

/-- **A rule spells what it matches**, be it now or from the memory, if all rules that it needs are
without actions. -/
theorem invoke_spells (m : Matcher σ)
    (hknown : ∀ name r, known name → m.rule? name = some r → r.expr.Quiet known) (fuel : Nat) :
    m.CallsSpell (fun memo => memo.Spelled m.input.text known) known (m.invoke fuel) := by
  induction fuel with
  | zero => exact fun _ _ _ _ => .throw _
  | succ fuel ih =>
    intro name hname p hp s hs
    split
    · rename_i o t heq
      obtain ⟨n, r, hn, hr, ⟨hf, rfl⟩ | ⟨hf, u, hbody, rfl⟩⟩ := invoke_cases heq
      · exact ⟨hs name p o hname hp hf, hs⟩
      · cases hn
        have hopened : (s.opened name p).memo.Spelled m.input.text known := hs.inProgress name p
        obtain ⟨ho, hu⟩ := (eval_spells ih r.expr (hknown name r hname hr) p hp).of_ok hopened hbody
        exact ⟨ho, hu.done name ho⟩
    · trivial

end Matcher

/-! ## Runs -/

namespace Grammar

variable {g : Grammar} {start : String} {h : Handlers σ} {user : σ} {input : List Char}

theorem fromStart_of_run {stop : Nat} {v : Value}
    (hmatch : (g.run h user start input).answer = .ok (.ok (.matched stop v))) :
    ∃ t, (g.matcher h input).fromStart start (.init user) = .ok (.matched stop v) t := by
  unfold run at hmatch
  split at hmatch
  · cases hmatch
  · obtain ⟨t, ht⟩ := Run.eq_ok_of_report hmatch
    obtain ⟨o, ho, heq⟩ := Run.map_eq_ok ht
    cases heq
    exact ⟨t, ho⟩

/-- **A match spells what it has matched.**  If no rule that the start rule needs contains an
action, the texts in the value of a match, one after the other, are the beginning of the input up to
where the match ends.  Predicates may answer what they like. -/
theorem run_spells (hquiet : ∀ name r, g.Needs start name → g.rule? name = some r →
    r.expr.acts = false) {stop : Nat} {v : Value}
    (hmatch : (g.run h user start input).answer = .ok (.ok (.matched stop v))) :
    ∃ cs, v.spelled? = some cs ∧ takeBytes? input stop = some cs := by
  obtain ⟨t, ht⟩ := fromStart_of_run hmatch
  have hknown : ∀ name r, g.Needs start name → (g.matcher h input).rule? name = some r →
      r.expr.Quiet (g.Needs start) :=
    fun name r hname hr => ⟨hquiet name r hname hr, fun _ href => hname.ref hr href⟩
  have hspells := (g.matcher h input).invoke_spells hknown (g.matcher h input).fuel start .start 0
    (.zero input)
  have hempty : (RunState.init user).memo.Spelled input (g.Needs start) := .empty input _
  obtain ⟨⟨cs, hcs, hslice⟩, -⟩ := hspells.of_ok hempty ht
  exact ⟨cs, hcs, hslice.takeBytes?⟩

/-- Backtracking, a rule from the memory, a predicate, a last round that matches nothing, and a
lookahead; a character of two bytes. -/
theorem run_spells_rounds : ∃ g v, (compile "rounds.peg"
      "S <- (A 'x' / A &{ ok } / 'é' / B?)* &'!'\nA <- 'a' [b]*\nB <- 'q'".toList).answer =
        .ok (.ok g) ∧
      (∀ name r, g.Needs "S" name → g.rule? name = some r → r.expr.acts = false) ∧
      (g.run (.ofFunctions (fun _ _ => .absent) fun _ _ => true) () "S" "abxaé!".toList).answer =
        .ok (.ok (.matched 6 v)) ∧ v.spelled? = some "abxaé".toList := by
  obtain ⟨g, hg, -, hchecks⟩ := exists_of_acceptedWith? (show (acceptedWith? "rounds.peg"
    "S <- (A 'x' / A &{ ok } / 'é' / B?)* &'!'\nA <- 'a' [b]*\nB <- 'q'".toList "S").any
      (fun g => g.rules.all (fun r => !r.expr.acts) &&
        (g.run (.ofFunctions (fun _ _ => .absent) fun _ _ => true) () "S" "abxaé!".toList).stop? ==
          some 6) = true by decide +kernel)
  obtain ⟨hacts, hmatch⟩ := (Bool.and_eq_true _ _).mp hchecks
  have hquiet : ∀ name r, g.Needs "S" name → g.rule? name = some r → r.expr.acts = false := by
    intro name r _ hr
    simpa using List.all_eq_true.1 hacts r (List.mem_of_find?_eq_some hr)
  obtain ⟨v, hv⟩ := Report.exists_of_stop? (eq_of_beq hmatch)
  obtain ⟨cs, hcs, htake⟩ := run_spells hquiet hv
  have hconsumed : takeBytes? "abxaé!".toList 6 = some "abxaé".toList := by decide
  rw [hconsumed] at htake
  cases htake
  exact ⟨g, v, hg, hquiet, hv, hcs⟩

end Grammar

end Packrat

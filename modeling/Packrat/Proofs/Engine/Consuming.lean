import Packrat.Proofs.Engine.Safety
import Packrat.Proofs.Engine.Triples
import Packrat.Proofs.Grammar.LeastNullable
import Packrat.Proofs.Text.Boundary

/-!
# What matches without consuming input

The engine never goes back before the offset at which it has begun, and where it has not gone on, the
expression is nullable.  Handlers may answer what they like.

* `Forward` — from an offset to one that is not before it, and to the same only on a condition.
* `Matcher.eval_forward`, `Matcher.invoke_forward` — every match goes forward, if what the memory
  tells does.
* `Matcher.Covered` — an expression that matches without consuming input is nullable.
* `Grammar.nullable_covers` — so it is with the least list of nullable rules, found in any order.
-/

set_option autoImplicit false

namespace Packrat

variable {σ : Type}

/-- From an offset to one that is not before it, and only if `empty` holds to the same. -/
structure Forward (p stop : Nat) (empty : Prop) : Prop where
  le : p ≤ stop
  stays : stop = p → empty

namespace Forward

variable {p next stop : Nat} {empty first second : Prop}

theorem refl (h : empty) : Forward p p empty := ⟨Nat.le_refl p, fun _ => h⟩

theorem of_lt (h : p < stop) : Forward p stop empty :=
  ⟨Nat.le_of_lt h, fun hs => absurd hs (Nat.ne_of_gt h)⟩

/-- One match after the other stays only if both do. -/
theorem trans (h : Forward p next first) (h' : Forward next stop second) :
    Forward p stop (first ∧ second) := by
  have hle := h.le
  have hle' := h'.le
  exact ⟨by omega, fun hs => ⟨h.stays (by omega), h'.stays (by omega)⟩⟩

theorem imp (h : Forward p stop first) (himp : first → second) : Forward p stop second :=
  ⟨h.le, fun hs => himp (h.stays hs)⟩

end Forward

/-- A match goes forward, and stays only if `empty` holds. -/
def Outcome.Forward (p : Nat) (empty : Prop) : Outcome → Prop
  | .matched stop _ => Packrat.Forward p stop empty
  | .failed => True

theorem Outcome.Forward.imp {p : Nat} {first second : Prop} {o : Outcome} (h : o.Forward p first)
    (himp : first → second) : o.Forward p second := by
  cases o with
  | matched stop v => exact Packrat.Forward.imp h himp
  | failed => trivial

/-- All matches that are known go forward, and only those of certain rules stay. -/
def Memo.Forward (known : List String) (memo : Memo) : Prop :=
  ∀ name p o, memo.find? name p = some (.done o) → o.Forward p (name ∈ known)

namespace Memo.Forward

variable {known : List String} {memo : Memo}

theorem empty (known : List String) : Memo.empty.Forward known := by
  intro name p o ho
  rw [find?_empty] at ho
  cases ho

theorem inProgress (h : memo.Forward known) (name : String) (p : Nat) :
    (memo.insert name p .inProgress).Forward known := by
  intro name' p' o ho
  rw [find?_insert] at ho
  split at ho
  · cases ho
  · exact h name' p' o ho

theorem done (h : memo.Forward known) {name : String} {p : Nat} {o : Outcome}
    (ho : o.Forward p (name ∈ known)) : (memo.insert name p (.done o)).Forward known := by
  intro name' p' o' ho'
  rw [find?_insert] at ho'
  split at ho'
  · rename_i heq
    cases ho'
    rw [heq.1, heq.2]
    exact ho
  · exact h name' p' o' ho'

end Memo.Forward

namespace Matcher

open Run

variable {m : Matcher σ} {call : String → Nat → Run σ Outcome} {known : List String}

/-! ## Expressions and rules -/

section

variable {M : Memo → Prop}

theorem literal_forward (text : String) (p : Nat) :
    Upholds M (Outcome.Forward p (text.isEmpty = true)) (m.literal text p) := by
  unfold literal
  split
  · refine .pure ⟨Nat.le_add_right _ _, fun hstays => ?_⟩
    have hempty : text.toList = [] := byteLength_eq_zero.1 (by omega)
    rw [String.isEmpty_iff, ← String.toList_eq_nil_iff]
    exact hempty
  · exact (upholds_failAt p _).imp fun o ho => by rw [ho]; trivial

/-- A character that matches is consumed. -/
theorem oneChar_forward (t : Terminal) (test : Char → Bool) (p : Nat) (empty : Prop) :
    Upholds M (Outcome.Forward p empty) (m.oneChar t test p) := by
  have hmissed : Upholds (σ := σ) M (Outcome.Forward p empty) (failAt p t) :=
    (upholds_failAt p t).imp fun o ho => by rw [ho]; trivial
  unfold oneChar
  split
  · exact .throw _
  · exact hmissed
  · rename_i c _
    split
    · exact .pure (.of_lt (Nat.lt_add_of_pos_right c.utf8Size_pos))
    · exact hmissed

theorem verdict_forward (holds : Bool) (p : Nat) {empty : Prop} (h : empty) :
    (verdict holds p).Forward p empty := by
  cases holds with
  | true => exact Forward.refl h
  | false => trivial

/-- A repetition of at least one round stays only if the body can. -/
theorem repeatFrom_forward {body : Nat → Run σ Outcome} {empty : Prop}
    (hbody : ∀ q, Upholds M (Outcome.Forward q empty) (body q)) (bound : Nat) :
    ∀ p, Upholds M (fun r => Forward p r.1 (r.2 ≠ [] → empty)) (repeatFrom body bound p) := by
  induction bound with
  | zero => exact fun _ => .throw _
  | succ bound ih =>
    intro p
    refine upholds_height.bind fun mark _ => (hbody p).bind fun o ho => ?_
    cases o with
    | failed =>
      exact (upholds_cut mark).bind fun _ _ => .pure (.refl fun hne => absurd rfl hne)
    | matched next v =>
      have hfirst : Forward p next empty := ho
      simp only
      split
      · rename_i hstays
        exact .pure (.refl fun _ => hfirst.stays hstays)
      · exact (ih next).bind fun r hrest => .pure ((hfirst.trans hrest).imp fun h _ => h.1)

mutual

/-- **Every match goes forward, and stays only if the expression is nullable**, if this holds of the
rules that are called. -/
theorem eval_forward (hcall : ∀ name p, Upholds M (Outcome.Forward p (name ∈ known)) (call name p))
    (e : Expr) (p : Nat) :
    Upholds M (Outcome.Forward p (nullable known e = true)) (m.eval call e p) := by
  cases e with
  | literal span text => exact literal_forward text p
  | charClass span k => exact oneChar_forward _ _ p _
  | anyChar span => exact oneChar_forward _ _ p _
  | ref reference =>
    exact (hcall reference.name.name p).imp fun o ho => ho.imp List.contains_iff_mem.2
  | seq span elements =>
    refine upholds_height.bind fun mark _ => (evalSeq_forward hcall elements p).bind fun r hr => ?_
    cases r with
    | none => exact (upholds_cut mark).bind fun _ _ => .pure trivial
    | some r => exact .pure (hr r rfl)
  | choice span branches => exact evalChoice_forward hcall branches p
  | star span body =>
    refine (repeatFrom_forward (eval_forward hcall body) _ p).bind fun r hr => ?_
    obtain ⟨stop, vs⟩ := r
    cases vs with
    | nil => exact .pure (Forward.refl rfl)
    | cons v vs => exact .pure (hr.imp fun _ => rfl)
  | plus span body =>
    refine (repeatFrom_forward (eval_forward hcall body) _ p).bind fun r hr => ?_
    obtain ⟨stop, vs⟩ := r
    cases vs with
    | nil => exact .pure trivial
    | cons v vs => exact .pure (hr.imp fun h => h (List.cons_ne_nil v vs))
  | opt span body =>
    refine (eval_forward hcall body p).bind fun o ho => ?_
    cases o with
    | failed => exact .pure (Forward.refl rfl)
    | matched stop v => exact .pure (Outcome.Forward.imp ho fun _ => rfl)
  | lookahead span polarity body =>
    exact upholds_height.bind fun mark _ => upholds_mute.bind fun _ _ =>
      (eval_forward hcall body p).bind fun o _ => upholds_unmute.bind fun _ _ =>
        (upholds_cut mark).bind fun _ _ => .pure (verdict_forward _ p rfl)
  | codePredicate span polarity code =>
    exact (upholds_ask _ _ _).bind fun _ _ => .pure (verdict_forward _ p rfl)
  | label span name body =>
    refine (eval_forward hcall body p).bind fun o ho => ?_
    cases o with
    | failed => exact .pure trivial
    | matched stop v => exact (upholds_bindLabel _ v).bind fun _ _ => .pure ho
  | action span hint code body =>
    refine (eval_forward hcall body p).bind fun o ho => ?_
    cases o with
    | failed => exact .pure trivial
    | matched stop v => exact (upholds_ask _ _ _).bind fun _ _ => .pure ho
  | bareAction span hint code =>
    exact (upholds_ask _ _ _).bind fun _ _ => .pure (Forward.refl rfl)
  | group span body => exact eval_forward hcall body p

theorem evalSeq_forward
    (hcall : ∀ name p, Upholds M (Outcome.Forward p (name ∈ known)) (call name p)) (es : List Expr)
    (p : Nat) :
    Upholds M (fun r => ∀ x, r = some x → Forward p x.1 (allNullable known es = true))
      (m.evalSeq call es p) := by
  cases es with
  | nil =>
    refine .pure fun x hx => ?_
    cases hx
    exact .refl rfl
  | cons e rest =>
    refine (eval_forward hcall e p).bind fun o ho => ?_
    cases o with
    | failed => exact .pure fun x hx => by cases hx
    | matched next v =>
      have hfirst : Forward p next (nullable known e = true) := ho
      refine (evalSeq_forward hcall rest next).bind fun r hr => ?_
      cases r with
      | none => exact .pure fun x hx => by cases hx
      | some r =>
        refine .pure fun x hx => ?_
        cases hx
        exact (hfirst.trans (hr r rfl)).imp fun h => Bool.and_eq_true_iff.2 h

theorem evalChoice_forward
    (hcall : ∀ name p, Upholds M (Outcome.Forward p (name ∈ known)) (call name p)) (es : List Expr)
    (p : Nat) :
    Upholds M (Outcome.Forward p (anyNullable known es = true)) (m.evalChoice call es p) := by
  cases es with
  | nil => exact .pure trivial
  | cons e rest =>
    refine upholds_height.bind fun mark _ => (eval_forward hcall e p).bind fun o ho => ?_
    cases o with
    | failed =>
      exact (upholds_cut mark).bind fun _ _ => (evalChoice_forward hcall rest p).imp
        fun o ho => ho.imp fun h => Bool.or_eq_true_iff.2 (.inr h)
    | matched stop v => exact .pure (Outcome.Forward.imp ho fun h => Bool.or_eq_true_iff.2 (.inl h))

end

end

/-- **Every rule goes forward, and stays only if it is known to be nullable**, be it now or from the
memory. -/
theorem invoke_forward (hknown : Settled m.rules known) (fuel : Nat) :
    ∀ name p, Upholds (Memo.Forward known) (Outcome.Forward p (name ∈ known))
      (m.invoke fuel name p) := by
  induction fuel with
  | zero => exact fun _ _ => .throw _
  | succ fuel ih =>
    intro name p s hs
    split
    · rename_i o t heq
      obtain ⟨n, r, hn, hr, ⟨hf, rfl⟩ | ⟨hf, u, hbody, rfl⟩⟩ := invoke_cases heq
      · exact ⟨hs name p o hf, hs⟩
      · cases hn
        obtain ⟨ho, hu⟩ := (eval_forward ih r.expr p).of_ok (hs.inProgress name p) hbody
        have hrule : nullable known r.expr = true → name ∈ known := by
          have hname : r.name.name = name := by simpa using List.find?_some hr
          rw [← hname]
          exact hknown r (List.mem_of_find?_eq_some hr)
        exact ⟨ho.imp hrule, hu.done (ho.imp hrule)⟩
    · trivial

/-! ## Expressions that match without consuming input -/

/-- **An expression that matches without consuming input is nullable**: any expression that is
evaluated while nothing is known, and every part of the body of a rule wherever a pass comes to it. -/
structure Covered (m : Matcher σ) (known : List String) : Prop where
  alone : ∀ fuel e p s v t, s.memo = .empty →
    m.eval (m.invoke fuel) e p s = .ok (.matched p v) t → nullable known e = true
  within : ∀ start user s₀, m.Starts start user s₀ →
    ∀ fuel r path e p s v t, m.Comes start s₀ fuel r path e p s →
      m.eval (m.invoke fuel) e p s = .ok (.matched p v) t → nullable known e = true

theorem covered (m : Matcher σ) (hknown : Settled m.rules known) : m.Covered known := by
  have heval : ∀ fuel e p, Upholds (Memo.Forward known)
      (Outcome.Forward p (nullable known e = true)) (m.eval (m.invoke fuel) e p) :=
    fun fuel => eval_forward (invoke_forward hknown fuel)
  refine ⟨fun fuel e p s v t hs h => ?_, fun start user s₀ hstart fuel r path e p s v t hcomes h => ?_⟩
  · have hmemo : s.memo.Forward known := hs ▸ .empty known
    obtain ⟨ho, -⟩ := (heval fuel e p).of_ok hmemo h
    exact Forward.stays ho rfl
  · have hbegins : s₀.memo.Forward known := by
      cases hstart <;> exact .empty known
    have hmemo := hcomes.memory (fun fuel e p => (heval fuel e p).imp fun _ _ => trivial)
      (fun _ name p hm => hm.inProgress name p) hbegins
    obtain ⟨ho, -⟩ := (heval fuel e p).of_ok hmemo h
    exact Forward.stays ho rfl

end Matcher

namespace Grammar

/-- **Nullability is the least solution, and it covers the engine.**  Where the names of the rules
differ, going round them in any order ends with the least list of names from which no rule is missing;
so it has the same names in every order.  An expression that the engine matches without consuming
input is nullable with these rules, whatever handlers answer. -/
theorem nullable_covers (g : Grammar) (hnames : g.ruleNames.Nodup) {order : List Rule}
    (horder : order.Perm g.rules) :
    (∀ found, NullableLoop order [] found ↔ found = nullableAmong order) ∧
      g.LeastNullable (nullableAmong order) ∧
      (∀ name, name ∈ nullableAmong order ↔ name ∈ g.nullableRules) ∧
      ∀ {σ : Type} (h : Handlers σ) (input : List Char),
        (g.matcher h input).Covered (nullableAmong order) := by
  have hleast := leastNullable_nullableAmong horder
  exact ⟨nullableLoop_iff order, hleast, hleast.mem_iff (leastNullable_nullableRules hnames),
    fun h input => (g.matcher h input).covered hleast.settled⟩

/-- In their own order the rules of this grammar need three rounds and come out in another order than
in the reverse one, which needs one round. -/
theorem nullable_covers_rounds : ∃ g, (compile "rounds.peg"
      "S <- A ',' S / B\nA <- B C\nB <- 'x' / C\nC <- !'y' D?\nD <- 'z' A".toList).answer = .ok (.ok g) ∧
      g.ruleNames.Nodup ∧ g.rules.Perm g.rules ∧ nullableAmong g.rules = ["A", "S", "B", "C"] ∧
      g.nullableRules = ["S", "A", "B", "C"] ∧ g.LeastNullable ["A", "S", "B", "C"] := by
  obtain ⟨g, hg, -, hchecks⟩ := exists_of_acceptedWith? (show (acceptedWith? "rounds.peg"
    "S <- A ',' S / B\nA <- B C\nB <- 'x' / C\nC <- !'y' D?\nD <- 'z' A".toList "S").any
      (fun g => decide g.ruleNames.Nodup && nullableAmong g.rules == ["A", "S", "B", "C"] &&
        g.nullableRules == ["S", "A", "B", "C"]) = true by decide +kernel)
  simp only [Bool.and_eq_true, decide_eq_true_eq, beq_iff_eq] at hchecks
  obtain ⟨⟨hnames, hfound⟩, hreverse⟩ := hchecks
  obtain ⟨-, hleast, -⟩ := g.nullable_covers hnames (List.Perm.refl g.rules)
  exact ⟨g, hg, hnames, .refl _, hfound, hreverse, hfound ▸ hleast⟩

end Grammar

end Packrat

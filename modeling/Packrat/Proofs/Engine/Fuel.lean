import Mathlib.Data.Finset.Card
import Mathlib.Data.Finset.Prod
import Packrat.Proofs.Engine.Triples
import Packrat.Proofs.Text.Boundary

/-!
# How much fuel a pass needs

Rules that wait for one another are in progress at different places, and no place is tried twice.
So a rule that is called while `k` places are untried never has more than `k` calls below it, and
all amounts of fuel above `k` do the same, whether rules are left recursive or not.

* `Memo.untried` — the places of which nothing is known.
* `Memo.Within` — fewer than so many places are untried, and what is known ends within the input.
* `Run.Alike` — two computations that do the same from memories with a property.
* `Matcher.eval_alike`, `Matcher.invoke_alike` — all sufficient amounts of fuel do the same.
* `Matcher.fromStart_eq_invoke` — at the beginning of a pass the fuel suffices.
-/

set_option autoImplicit false

namespace Packrat

variable {σ α β : Type}

/-- A match ends at `size` or before. -/
def Outcome.EndsWithin (size : Nat) : Outcome → Prop
  | .matched stop _ => stop ≤ size
  | .failed => True

/-! ## Places that are untried -/

namespace Memo

/-- The rules and offsets of which nothing is known. -/
def untried (names : List String) (size : Nat) (memo : Memo) : Finset (String × Nat) :=
  (names.toFinset ×ˢ Finset.range (size + 1)).filter fun x => (memo.find? x.1 x.2).isNone = true

variable {names : List String} {size k : Nat} {memo : Memo} {name : String} {p : Nat}

theorem mem_untried : (name, p) ∈ memo.untried names size ↔
    (name ∈ names ∧ p ≤ size) ∧ memo.find? name p = none := by
  rw [untried, Finset.mem_filter, Finset.mem_product, List.mem_toFinset, Finset.mem_range, Nat.lt_succ_iff,
    Option.isNone_iff_eq_none]

theorem card_untried_le (names : List String) (size : Nat) (memo : Memo) :
    (memo.untried names size).card ≤ names.length * (size + 1) := by
  refine (Finset.card_filter_le _ _).trans ?_
  rw [Finset.card_product, Finset.card_range]
  exact Nat.mul_le_mul_right _ names.toFinset_card_le

/-- What becomes known is no longer untried. -/
theorem untried_insert_subset (name : String) (p : Nat) (entry : MemoEntry) :
    (memo.insert name p entry).untried names size ⊆ memo.untried names size := by
  rintro ⟨name', p'⟩ h
  rw [mem_untried, find?_insert] at h
  refine mem_untried.2 ⟨h.1, ?_⟩
  split at h
  · cases h.2
  · exact h.2

theorem card_untried_insert_lt (hname : name ∈ names) (hp : p ≤ size)
    (hf : memo.find? name p = none) (entry : MemoEntry) :
    ((memo.insert name p entry).untried names size).card < (memo.untried names size).card := by
  apply Finset.card_lt_card
  refine (Finset.ssubset_iff_of_subset (untried_insert_subset name p entry)).2
    ⟨(name, p), mem_untried.2 ⟨⟨hname, hp⟩, hf⟩, fun h => ?_⟩
  rw [mem_untried, find?_insert, if_pos ⟨rfl, rfl⟩] at h
  cases h.2

/-- Fewer than `k` places are untried, and all matches that are known end within the input. -/
structure Within (names : List String) (size k : Nat) (memo : Memo) : Prop where
  room : (memo.untried names size).card < k
  ends : ∀ name p o, memo.find? name p = some (.done o) → o.EndsWithin size

theorem Within.empty (h : names.length * (size + 1) < k) : Memo.empty.Within names size k where
  room := Nat.lt_of_le_of_lt (card_untried_le _ _ _) h
  ends := by
    intro name p o ho
    rw [find?_empty] at ho
    cases ho

/-- A place is tried: there is one untried place less. -/
theorem Within.inProgress (h : memo.Within names size (k + 1)) (hname : name ∈ names)
    (hp : p ≤ size) (hf : memo.find? name p = none) :
    (memo.insert name p .inProgress).Within names size k where
  room := Nat.lt_of_lt_of_le (card_untried_insert_lt hname hp hf _) (Nat.lt_succ_iff.1 h.room)
  ends := by
    intro name' p' o ho
    rw [find?_insert] at ho
    split at ho
    · cases ho
    · exact h.ends name' p' o ho

/-- A place was tried. -/
theorem Within.done (h : memo.Within names size k) (name : String) (p : Nat) {o : Outcome}
    (ho : o.EndsWithin size) : (memo.insert name p (.done o)).Within names size (k + 1) where
  room := by
    have hsub : (memo.insert name p (.done o)).untried names size ⊆ memo.untried names size :=
      untried_insert_subset name p _
    have hle := Finset.card_le_card hsub
    have hroom := h.room
    omega
  ends := by
    intro name' p' o' ho'
    rw [find?_insert] at ho'
    split at ho'
    · cases ho'
      exact ho
    · exact h.ends name' p' o' ho'

end Memo

/-! ## Computations that do the same -/

namespace Run

variable {M : Memo → Prop} {P : α → Prop} {x y : Run σ α}

/-- Two computations that do the same from memories with a property; they uphold it. -/
structure Alike (M : Memo → Prop) (P : α → Prop) (x y : Run σ α) : Prop where
  upholds : Upholds M P x
  same : ∀ s, M s.memo → x s = y s

theorem Upholds.alike (h : Upholds M P x) : Alike M P x x := ⟨h, fun _ _ => rfl⟩

theorem Alike.pure {a : α} (h : P a) :
    Alike M P (Pure.pure a : Run σ α) (Pure.pure a) :=
  Upholds.alike (.pure h)

theorem Alike.bind {Q : β → Prop} {f g : α → Run σ β} (hx : Alike M P x y)
    (hf : ∀ a, P a → Alike M Q (f a) (g a)) : Alike M Q (x >>= f) (y >>= g) where
  upholds := hx.upholds.bind fun a ha => (hf a ha).upholds
  same := by
    intro s hs
    have hxy := hx.same s hs
    cases hxs : x s with
    | ok a t =>
      obtain ⟨ha, ht⟩ := Triple.of_ok hx.upholds hs hxs
      rw [bind_ok hxs, bind_ok (hxy.symm.trans hxs)]
      exact (hf a ha).same t ht
    | error e t => rw [bind_error hxs, bind_error (hxy.symm.trans hxs)]

end Run

namespace Matcher

open Run

variable {m : Matcher σ} {M : Memo → Prop} {call call' : String → Nat → Run σ Outcome}

theorem literal_endsWithin (text : String) (p : Nat) (hp : p ≤ m.input.size) :
    Upholds M (Outcome.EndsWithin m.input.size) (m.literal text p) := by
  unfold literal
  split
  · rename_i hholds
    apply Upholds.pure
    show p + byteLength text.toList ≤ m.input.size
    cases htext : text.toList with
    | nil => exact hp
    | cons c cs =>
      rw [htext, Input.holdsAt] at hholds
      split at hholds
      · rename_i rest hrest
        rw [Input.at?_eq] at hrest
        rw [Input.size_eq]
        exact (Boundary.literal hrest hholds).le_byteLength
      · cases hholds
  · exact (upholds_failAt p _).imp fun o ho => by rw [ho]; trivial

theorem oneChar_endsWithin (t : Terminal) (test : Char → Bool) (p : Nat) :
    Upholds M (Outcome.EndsWithin m.input.size) (m.oneChar t test p) := by
  have hmissed : Upholds (σ := σ) M (Outcome.EndsWithin m.input.size) (failAt p t) :=
    (upholds_failAt p t).imp fun o ho => by rw [ho]; trivial
  unfold oneChar
  split
  · exact .throw _
  · exact hmissed
  · rename_i c hc
    split
    · apply Upholds.pure
      show p + c.utf8Size ≤ m.input.size
      obtain ⟨rest, hrest, hhead⟩ := Option.map_eq_some_iff.1 hc
      obtain ⟨tail, rfl⟩ := List.head?_eq_some_iff.1 hhead
      rw [Input.at?_eq] at hrest
      rw [Input.size_eq]
      exact (Boundary.char hrest).le_byteLength
    · exact hmissed

theorem verdict_endsWithin {p size : Nat} (hp : p ≤ size) (holds : Bool) :
    (verdict holds p).EndsWithin size := by
  cases holds
  · trivial
  · exact hp

theorem repeatFrom_alike {body body' : Nat → Run σ Outcome} {size : Nat}
    (hbody : ∀ p ≤ size, Alike M (Outcome.EndsWithin size) (body p) (body' p)) (bound : Nat) :
    ∀ p ≤ size, Alike M (fun r => r.1 ≤ size) (repeatFrom body bound p)
      (repeatFrom body' bound p) := by
  induction bound with
  | zero => exact fun _ _ => Upholds.alike (.throw _)
  | succ bound ih =>
    intro p hp
    refine upholds_height.alike.bind fun mark _ => (hbody p hp).bind fun o ho => ?_
    cases o with
    | failed => exact (upholds_cut mark).alike.bind fun _ _ => .pure hp
    | matched next v =>
      simp only
      split
      · exact .pure hp
      · exact (ih next ho).bind fun r hr => .pure hr

mutual

/-- **An expression does the same with two ways to try rules** that do the same. -/
theorem eval_alike (hcall : ∀ name, ∀ p ≤ m.input.size,
      Alike M (Outcome.EndsWithin m.input.size) (call name p) (call' name p)) (e : Expr) (p : Nat)
    (hp : p ≤ m.input.size) :
    Alike M (Outcome.EndsWithin m.input.size) (m.eval call e p) (m.eval call' e p) := by
  cases e with
  | literal span text => exact (literal_endsWithin text p hp).alike
  | charClass span k => exact (oneChar_endsWithin _ _ p).alike
  | anyChar span => exact (oneChar_endsWithin _ _ p).alike
  | ref reference => exact hcall reference.name.name p hp
  | seq span elements =>
    refine upholds_height.alike.bind fun mark _ =>
      (evalSeq_alike hcall elements p hp).bind fun r hr => ?_
    cases r with
    | none => exact (upholds_cut mark).alike.bind fun _ _ => .pure trivial
    | some r => exact .pure (hr r rfl)
  | choice span branches => exact evalChoice_alike hcall branches p hp
  | star span body =>
    refine (repeatFrom_alike (eval_alike hcall body) _ p hp).bind fun r hr => ?_
    obtain ⟨stop, vs⟩ := r
    cases vs
    · exact .pure hp
    · exact .pure hr
  | plus span body =>
    refine (repeatFrom_alike (eval_alike hcall body) _ p hp).bind fun r hr => ?_
    obtain ⟨stop, vs⟩ := r
    cases vs
    · exact .pure trivial
    · exact .pure hr
  | opt span body =>
    refine (eval_alike hcall body p hp).bind fun o ho => ?_
    cases o
    · exact .pure ho
    · exact .pure hp
  | lookahead span polarity body =>
    exact upholds_height.alike.bind fun mark _ => upholds_mute.alike.bind fun _ _ =>
      (eval_alike hcall body p hp).bind fun o _ => upholds_unmute.alike.bind fun _ _ =>
        (upholds_cut mark).alike.bind fun _ _ => .pure (verdict_endsWithin hp _)
  | codePredicate span polarity code =>
    exact (upholds_ask _ _ _).alike.bind fun _ _ => .pure (verdict_endsWithin hp _)
  | label span name body =>
    refine (eval_alike hcall body p hp).bind fun o ho => ?_
    cases o with
    | failed => exact .pure trivial
    | matched stop v => exact (upholds_bindLabel _ v).alike.bind fun _ _ => .pure ho
  | action span hint code body =>
    refine (eval_alike hcall body p hp).bind fun o ho => ?_
    cases o with
    | failed => exact .pure trivial
    | matched stop v => exact (upholds_ask _ _ _).alike.bind fun _ _ => .pure ho
  | bareAction span hint code => exact (upholds_ask _ _ _).alike.bind fun _ _ => .pure hp
  | group span body => exact eval_alike hcall body p hp

theorem evalSeq_alike (hcall : ∀ name, ∀ p ≤ m.input.size,
      Alike M (Outcome.EndsWithin m.input.size) (call name p) (call' name p)) (es : List Expr)
    (p : Nat) (hp : p ≤ m.input.size) :
    Alike M (fun r => ∀ x, r = some x → x.1 ≤ m.input.size) (m.evalSeq call es p)
      (m.evalSeq call' es p) := by
  cases es with
  | nil =>
    refine .pure fun x hx => ?_
    cases hx
    exact hp
  | cons e rest =>
    refine (eval_alike hcall e p hp).bind fun o ho => ?_
    cases o with
    | failed => exact .pure fun x hx => by cases hx
    | matched next v =>
      refine (evalSeq_alike hcall rest next ho).bind fun r hr => ?_
      cases r with
      | none => exact .pure fun x hx => by cases hx
      | some r =>
        refine .pure fun x hx => ?_
        cases hx
        exact hr r rfl

theorem evalChoice_alike (hcall : ∀ name, ∀ p ≤ m.input.size,
      Alike M (Outcome.EndsWithin m.input.size) (call name p) (call' name p)) (es : List Expr)
    (p : Nat) (hp : p ≤ m.input.size) :
    Alike M (Outcome.EndsWithin m.input.size) (m.evalChoice call es p)
      (m.evalChoice call' es p) := by
  cases es with
  | nil => exact .pure trivial
  | cons e rest =>
    refine upholds_height.alike.bind fun mark _ => (eval_alike hcall e p hp).bind fun o ho => ?_
    cases o with
    | failed => exact (upholds_cut mark).alike.bind fun _ _ => evalChoice_alike hcall rest p hp
    | matched stop v => exact .pure ho

end

/-- The names of the rules. -/
def ruleNames (m : Matcher σ) : List String := m.rules.map (·.name.name)

theorem mem_ruleNames {name : String} {r : Rule} (h : m.rule? name = some r) :
    name ∈ m.ruleNames := by
  obtain rfl : r.name.name = name := by simpa using List.find?_some h
  exact List.mem_map_of_mem (List.mem_of_find?_eq_some h)

/-- **While fewer than `k` places are untried, all amounts of fuel from `k` on do the same.** -/
theorem invoke_alike (k : Nat) : ∀ n n', k ≤ n → k ≤ n' → ∀ name, ∀ p ≤ m.input.size,
    Alike (Memo.Within m.ruleNames m.input.size k) (Outcome.EndsWithin m.input.size)
      (m.invoke n name p) (m.invoke n' name p) := by
  induction k with
  | zero =>
    intro n n' _ _ name p _
    exact ⟨fun s hs => absurd hs.room (Nat.not_lt_zero _),
      fun s hs => absurd hs.room (Nat.not_lt_zero _)⟩
  | succ k ih =>
    intro n n' hn hn' name p hp
    obtain ⟨n, rfl⟩ := Nat.exists_eq_add_of_lt (Nat.lt_of_succ_le hn)
    obtain ⟨n', rfl⟩ := Nat.exists_eq_add_of_lt (Nat.lt_of_succ_le hn')
    have hbody : ∀ r : Rule, Alike (Memo.Within m.ruleNames m.input.size k)
        (Outcome.EndsWithin m.input.size) (m.eval (m.invoke (k + n)) r.expr p)
        (m.eval (m.invoke (k + n')) r.expr p) := fun r =>
      eval_alike (ih _ _ (Nat.le_add_right k n) (Nat.le_add_right k n')) r.expr p hp
    constructor
    · intro s hs
      split
      · rename_i o t heq
        obtain ⟨a, r, ha, hr, ⟨hf, rfl⟩ | ⟨hf, u, hu, rfl⟩⟩ := invoke_cases heq
        · exact ⟨hs.ends name p o hf, hs⟩
        · cases ha
          obtain ⟨ho, hmemo⟩ := Triple.of_ok (hbody r).upholds
            (hs.inProgress (mem_ruleNames hr) hp hf) hu
          exact ⟨ho, hmemo.done name p ho⟩
      · trivial
    · intro s hs
      cases hr : m.rule? name with
      | none => rw [invoke, invoke, hr]
      | some r =>
        cases hf : s.memo.find? name p with
        | none =>
          rw [invoke_of_none hr hf, invoke_of_none hr hf,
            (hbody r).same (s.opened name p) (hs.inProgress (mem_ruleNames hr) hp hf)]
        | some entry =>
          cases entry with
          | inProgress => rw [invoke_of_inProgress hr hf, invoke_of_inProgress hr hf]
          | done o => rw [invoke_of_done hr hf, invoke_of_done hr hf]

/-- **At the beginning of a pass the fuel suffices**: more of it does the same. -/
theorem fromStart_eq_invoke {n : Nat} (hn : m.fuel ≤ n) (start : String) {s : RunState σ}
    (hs : s.memo = .empty) : m.fromStart start s = m.invoke n start 0 s := by
  refine (invoke_alike m.fuel _ _ (Nat.le_refl _) hn start 0 (Nat.zero_le _)).same s ?_
  rw [hs]
  apply Memo.Within.empty
  rw [ruleNames, List.length_map]
  exact Nat.lt_succ_self _

end Matcher

end Packrat

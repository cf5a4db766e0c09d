import Packrat.Proofs.Grammar.Refs
import Packrat.Proofs.Plain.Progress

/-!
# Evaluations that end

The rules of a grammar without left recursion are numbered so that the numbers fall along the
references at the left edge.  A rule at an offset is weighed by what is left of the text and then by
its number; all rules that its evaluation visits weigh less.

* `Plain.Ranked` — such a numbering, for rules whose references are all defined.
* `Plain.weight` — the weight of a rule at an offset.
* `Plain.expr_total` — an expression has an answer if the rules that weigh less than a bound have one.
* `Plain.rule_total` — every rule has an answer at every boundary.
* `Plain.rule_visits_light` — what a rule visits weighs less.
-/

set_option autoImplicit false

namespace Packrat.Plain

open Step

variable {c : Plain} {current : String} {known : List String} {rank : String → Nat} {bound : Nat}

/-- A rule of that name exists. -/
def Defines (c : Plain) (name : String) : Prop :=
  ∃ r, c.rules.find? (·.name.name == name) = some r

/-- Rules whose references are defined, numbered so that the numbers fall at the left edge. -/
structure Ranked (c : Plain) (known : List String) (rank : String → Nat) : Prop where
  closed : ∀ name r, c.rules.find? (·.name.name == name) = some r →
    ∀ reference ∈ r.expr.refs, c.Defines reference.name.name
  falls : ∀ name r, c.rules.find? (·.name.name == name) = some r →
    ∀ reference ∈ r.expr.leftmost known, rank reference.name.name < rank name
  bounded : ∀ name, c.Defines name → rank name < c.rules.length
  nullable : c.KnowsNullable known

/-- How much there is to do for a rule at an offset. -/
def weight (c : Plain) (rank : String → Nat) (name : String) (p : Nat) : Nat :=
  (byteLength c.text - p) * c.rules.length + rank name

/-- Where less text is left, every rule weighs less. -/
theorem weight_lt_of_lt (h : c.Ranked known rank) {a b : String} {p q : Nat} (hb : c.Defines b)
    (hpq : p < q) (hq : Boundary c.text q) : c.weight rank b q < c.weight rank a p := by
  have hrank := h.bounded b hb
  have hsize := hq.le_byteLength
  have hle : (byteLength c.text - q + 1) * c.rules.length ≤
      (byteLength c.text - p) * c.rules.length := Nat.mul_le_mul_right _ (by omega)
  rw [Nat.add_mul, Nat.one_mul] at hle
  unfold weight
  omega

/-- No rule at a boundary weighs as much as there are pairs of rules and offsets. -/
theorem weight_lt (h : c.Ranked known rank) {name : String} (hname : c.Defines name) (p : Nat) :
    c.weight rank name p < c.rules.length * (byteLength c.text + 1) := by
  have hrank := h.bounded name hname
  have hle : (byteLength c.text - p) * c.rules.length ≤ byteLength c.text * c.rules.length :=
    Nat.mul_le_mul_right _ (Nat.sub_le _ _)
  rw [Nat.mul_add, Nat.mul_one, Nat.mul_comm c.rules.length]
  unfold weight
  omega

/-- A visit at a boundary that weighs less than a bound. -/
structure Light (c : Plain) (rank : String → Nat) (bound : Nat) (v : Visit) : Prop where
  boundary : Boundary c.text v.offset
  weight : c.weight rank v.name v.offset < bound

/-- All that can be visited from `p` weighs less than a bound: `left` at `p` itself, and every rule
further on. -/
structure Room (c : Plain) (rank : String → Nat) (bound p : Nat) (left : List Reference) :
    Prop where
  boundary : Boundary c.text p
  here : ∀ reference ∈ left, c.weight rank reference.name.name p < bound
  later : ∀ name q, c.Defines name → p < q → Boundary c.text q → c.weight rank name q < bound

theorem Room.mono {p : Nat} {left left' : List Reference} (h : c.Room rank bound p left)
    (hsub : left' ⊆ left) : c.Room rank bound p left' :=
  ⟨h.boundary, fun r hr => h.here r (hsub hr), h.later⟩

/-- After a match there is room for what comes next, which is reached at once only if the match may
be empty. -/
theorem Room.advance {p next : Nat} {left left' : List Reference} {empty : Prop}
    (h : c.Room rank bound p left) (hadv : c.Advances p next empty)
    (hdef : ∀ r ∈ left', c.Defines r.name.name) (hsub : empty → left' ⊆ left) :
    c.Room rank bound next left' := by
  have hle := hadv.le
  refine ⟨hadv.boundary, fun r hr => ?_, fun name q hname hq hbq => h.later name q hname (by omega) hbq⟩
  rcases Nat.lt_or_ge p next with hlt | hge
  · exact h.later _ next (hdef r hr) hlt hadv.boundary
  · have heq : next = p := by omega
    rw [heq]
    exact h.here r (hsub (hadv.nullable heq) hr)

/-- There is room for a body at all offsets from where there is room for it. -/
theorem Room.again {body : Expr} {p q : Nat} (h : c.Room rank bound p (body.leftmost known))
    (hdef : ∀ r ∈ body.refs, c.Defines r.name.name) (hpq : p ≤ q) (hq : Boundary c.text q) :
    c.Room rank bound q (body.leftmost known) := by
  have hleftmost : ∀ r ∈ body.leftmost known, c.Defines r.name.name :=
    fun r hr => hdef r (Expr.leftmost_subset known body hr)
  exact h.advance ⟨hpq, hq, fun _ => trivial⟩ hleftmost fun _ _ hr => hr

/-- The rules that weigh less than a bound have answers. -/
def Answers (c : Plain) (rank : String → Nat) (bound : Nat) : Prop :=
  ∀ name q, c.Defines name → Boundary c.text q → c.weight rank name q < bound →
    ∃ r, c.rule name q = some r

theorem iterate_total {body : Expr} {p : Nat} (hnullable : c.KnowsNullable known)
    (hbody : ∀ labels q, p ≤ q → Boundary c.text q → ∃ t, c.expr current body labels q = some t ∧
      ∀ v ∈ visitsAll t.steps, c.Light rank bound v)
    (labels : Bindings) (q : Nat) (hpq : p ≤ q) (hq : Boundary c.text q) :
    ∃ t, c.iterate current body labels q = some t ∧
      ∀ v ∈ visitsAll t.steps, c.Light rank bound v := by
  -- every round but the last one leaves less text
  induction hn : byteLength c.text - q using Nat.strongRecOn generalizing labels q with
  | _ n ih =>
    obtain ⟨u, hu, hlight⟩ := hbody labels q hpq hq
    cases hres : u.result with
    | failed => exact ⟨⟨(q, []), labels, u.steps⟩, by rw [iterate, hu]; simp [hres], hlight⟩
    | matched next value =>
      by_cases hstay : next = q
      · exact ⟨⟨(q, [value]), u.labels, u.steps⟩, by rw [iterate, hu]; simp [hres, hstay], hlight⟩
      · have hadv := expr_advances hnullable hu hq hres
        have hle := hadv.le
        have hend := hadv.boundary.le_byteLength
        obtain ⟨w, hw, hrest⟩ := ih _ (by omega) u.labels next (by omega) hadv.boundary rfl
        refine ⟨⟨(w.result.1, value :: w.result.2), w.labels, u.steps ++ w.steps⟩,
          by rw [iterate, hu]; simp [hres, hstay, hw], ?_⟩
        exact forall_visitsAll_append.2 ⟨hlight, hrest⟩

theorem light_of_visitsAll_eq_nil {steps : List Step} (h : visitsAll steps = []) :
    ∀ v ∈ visitsAll steps, c.Light rank bound v := by
  intro v hv
  rw [h] at hv
  cases hv

theorem visitsAll_missed (t : Terminal) (p : Nat) (labels : Bindings) :
    visitsAll (missed t p labels).steps = [] := by
  rw [missed_steps, visitsAll_cons, visits_failure, visitsAll_nil, List.append_nil]

theorem literal_total (text : String) (labels : Bindings) {p : Nat} (hp : Boundary c.text p) :
    ∃ t, c.literal text labels p = some t ∧ ∀ v ∈ visitsAll t.steps, c.Light rank bound v := by
  obtain ⟨rest, hrest⟩ := boundary_iff_dropBytes?.1 hp
  rw [literal, hrest]
  show ∃ t, (if text.toList.isPrefixOf rest then _ else _) = some t ∧ _
  split
  · exact ⟨_, rfl, light_of_visitsAll_eq_nil visitsAll_nil⟩
  · exact ⟨_, rfl, light_of_visitsAll_eq_nil (visitsAll_missed ..)⟩

theorem oneChar_total (terminal : Terminal) (test : Char → Bool) (labels : Bindings) {p : Nat}
    (hp : Boundary c.text p) : ∃ t, c.oneChar terminal test labels p = some t ∧
      ∀ v ∈ visitsAll t.steps, c.Light rank bound v := by
  obtain ⟨rest, hrest⟩ := boundary_iff_dropBytes?.1 hp
  rw [oneChar, hrest]
  cases rest with
  | nil => exact ⟨_, rfl, light_of_visitsAll_eq_nil (visitsAll_missed ..)⟩
  | cons x rest =>
    show ∃ t, (if test x then _ else _) = some t ∧ _
    split
    · exact ⟨_, rfl, light_of_visitsAll_eq_nil visitsAll_nil⟩
    · exact ⟨_, rfl, light_of_visitsAll_eq_nil (visitsAll_missed ..)⟩

mutual

/-- **An expression has an answer if there is room for it.** -/
theorem expr_total (hranked : c.Ranked known rank) (hanswers : c.Answers rank bound)
    (e : Expr) (labels : Bindings) (p : Nat)
    (hdef : ∀ r ∈ e.refs, c.Defines r.name.name)
    (hroom : c.Room rank bound p (e.leftmost known)) :
    ∃ t, c.expr current e labels p = some t ∧ ∀ v ∈ visitsAll t.steps, c.Light rank bound v := by
  cases e with
  | literal span text =>
    rw [expr]
    exact literal_total text labels hroom.boundary
  | charClass span k =>
    rw [expr]
    exact oneChar_total (.charClass k) k.admits labels hroom.boundary
  | anyChar span =>
    rw [expr]
    exact oneChar_total .anyChar (fun _ => true) labels hroom.boundary
  | ref reference =>
    have hlt := hroom.here reference (by rw [Expr.leftmost]; exact List.mem_singleton_self _)
    obtain ⟨⟨o, inside⟩, hr⟩ := hanswers reference.name.name p
      (hdef reference (by rw [Expr.refs]; exact List.mem_singleton_self _)) hroom.boundary hlt
    refine ⟨⟨o, labels, [.rule reference.name.name p o inside]⟩, by rw [expr, hr]; rfl,
      fun v hv => ?_⟩
    rw [visitsAll_cons, visits_rule, visitsAll_nil, List.append_nil, List.mem_singleton] at hv
    rw [hv]
    exact ⟨hroom.boundary, hlt⟩
  | seq span es =>
    obtain ⟨u, hu, hlight⟩ := sequence_total hranked hanswers es labels p hdef hroom
    cases hres : u.result with
    | none => exact ⟨⟨.failed, labels, u.steps⟩, by rw [expr, hu]; simp [hres], hlight⟩
    | some r =>
      exact ⟨⟨.matched r.1 (.list r.2), u.labels, u.steps⟩, by rw [expr, hu]; simp [hres], hlight⟩
  | choice span es =>
    rw [expr]
    exact choice_total hranked hanswers es labels p hdef hroom
  | star span body =>
    obtain ⟨u, hu, hlight⟩ := iterate_total hranked.nullable
      (fun labels q hpq hq => expr_total hranked hanswers body labels q hdef
        (hroom.again hdef hpq hq))
      labels p (Nat.le_refl p) hroom.boundary
    obtain ⟨⟨stop, vs⟩, bs, steps⟩ := u
    cases vs with
    | nil => exact ⟨⟨.matched p .absent, labels, steps⟩, by rw [expr, hu]; rfl, hlight⟩
    | cons v vs => exact ⟨⟨.matched stop (.list (v :: vs)), bs, steps⟩, by rw [expr, hu]; rfl, hlight⟩
  | plus span body =>
    obtain ⟨u, hu, hlight⟩ := iterate_total hranked.nullable
      (fun labels q hpq hq => expr_total hranked hanswers body labels q hdef
        (hroom.again hdef hpq hq))
      labels p (Nat.le_refl p) hroom.boundary
    obtain ⟨⟨stop, vs⟩, bs, steps⟩ := u
    cases vs with
    | nil => exact ⟨⟨.failed, labels, steps⟩, by rw [expr, hu]; rfl, hlight⟩
    | cons v vs => exact ⟨⟨.matched stop (.list (v :: vs)), bs, steps⟩, by rw [expr, hu]; rfl, hlight⟩
  | opt span body =>
    obtain ⟨u, hu, hlight⟩ := expr_total hranked hanswers body labels p hdef hroom
    cases hres : u.result with
    | failed => exact ⟨⟨.matched p .absent, labels, u.steps⟩, by rw [expr, hu]; simp [hres], hlight⟩
    | matched stop v => exact ⟨u, by rw [expr, hu]; simp [hres], hlight⟩
  | lookahead span polarity body =>
    obtain ⟨u, hu, hlight⟩ := expr_total hranked hanswers body labels p hdef hroom
    refine ⟨_, by rw [expr, hu]; rfl, ?_⟩
    rw [visitsAll_cons, visits_lookahead, visitsAll_nil, List.append_nil]
    exact hlight
  | codePredicate span polarity code =>
    exact ⟨_, by rw [expr], by simp [askPredicate]⟩
  | label span name body =>
    obtain ⟨u, hu, hlight⟩ := expr_total hranked hanswers body labels p hdef hroom
    cases hres : u.result with
    | failed => exact ⟨⟨.failed, labels, u.steps⟩, by rw [expr, hu]; simp [hres], hlight⟩
    | matched stop v =>
      exact ⟨⟨.matched stop v, u.labels ++ [(name.name, v)], u.steps⟩,
        by rw [expr, hu]; simp [hres], hlight⟩
  | action span hint code body =>
    obtain ⟨u, hu, hlight⟩ := expr_total hranked hanswers body labels p hdef hroom
    cases hres : u.result with
    | failed => exact ⟨⟨.failed, labels, u.steps⟩, by rw [expr, hu]; simp [hres], hlight⟩
    | matched stop v =>
      refine ⟨c.askAction current hint code u.labels stop u.steps, by rw [expr, hu]; simp [hres], ?_⟩
      simpa [askAction_steps] using hlight
  | bareAction span hint code =>
    exact ⟨_, by rw [expr], by simp [askAction_steps]⟩
  | group span body =>
    rw [expr]
    exact expr_total hranked hanswers body labels p hdef hroom

theorem sequence_total (hranked : c.Ranked known rank) (hanswers : c.Answers rank bound)
    (es : List Expr) (labels : Bindings) (p : Nat)
    (hdef : ∀ r ∈ Expr.refsAll es, c.Defines r.name.name)
    (hroom : c.Room rank bound p (Expr.leftmostOf known es)) :
    ∃ t, c.sequence current es labels p = some t ∧
      ∀ v ∈ visitsAll t.steps, c.Light rank bound v := by
  cases es with
  | nil => exact ⟨_, by rw [sequence], by simp⟩
  | cons e rest =>
    have hdefs : ∀ r ∈ Expr.refsAll rest, c.Defines r.name.name := fun r hr =>
      hdef r (by rw [Expr.refsAll]; exact List.mem_append_right _ hr)
    obtain ⟨u, hu, hlight⟩ := expr_total hranked hanswers e labels p
      (fun r hr => hdef r (by rw [Expr.refsAll]; exact List.mem_append_left _ hr))
      (hroom.mono fun r hr => by rw [Expr.leftmostOf]; exact List.mem_append_left _ hr)
    cases hres : u.result with
    | failed => exact ⟨⟨none, labels, u.steps⟩, by rw [sequence, hu]; simp [hres], hlight⟩
    | matched next v =>
      have hadv := expr_advances hranked.nullable hu hroom.boundary hres
      obtain ⟨w, hw, hrest⟩ := sequence_total hranked hanswers rest u.labels next hdefs
        (hroom.advance hadv (fun r hr => hdefs r (Expr.leftmostOf_subset known rest hr))
          fun hn r hr => by
            rw [Expr.leftmostOf, if_pos hn]
            exact List.mem_append_right _ hr)
      refine ⟨⟨w.result.map fun (stop, vs) => (stop, v :: vs), w.labels, u.steps ++ w.steps⟩,
        by rw [sequence, hu]; simp [hres, hw], ?_⟩
      exact forall_visitsAll_append.2 ⟨hlight, hrest⟩

theorem choice_total (hranked : c.Ranked known rank) (hanswers : c.Answers rank bound)
    (es : List Expr) (labels : Bindings) (p : Nat)
    (hdef : ∀ r ∈ Expr.refsAll es, c.Defines r.name.name)
    (hroom : c.Room rank bound p (Expr.leftmostAny known es)) :
    ∃ t, c.choice current es labels p = some t ∧
      ∀ v ∈ visitsAll t.steps, c.Light rank bound v := by
  cases es with
  | nil => exact ⟨_, by rw [choice], by simp⟩
  | cons e rest =>
    obtain ⟨u, hu, hlight⟩ := expr_total hranked hanswers e labels p
      (fun r hr => hdef r (by rw [Expr.refsAll]; exact List.mem_append_left _ hr))
      (hroom.mono fun r hr => by rw [Expr.leftmostAny]; exact List.mem_append_left _ hr)
    cases hres : u.result with
    | matched stop v => exact ⟨u, by rw [choice, hu]; simp [hres], hlight⟩
    | failed =>
      obtain ⟨w, hw, hrest⟩ := choice_total hranked hanswers rest labels p
        (fun r hr => hdef r (by rw [Expr.refsAll]; exact List.mem_append_right _ hr))
        (hroom.mono fun r hr => by rw [Expr.leftmostAny]; exact List.mem_append_right _ hr)
      refine ⟨⟨w.result, w.labels, u.steps ++ w.steps⟩, by rw [choice, hu]; simp [hres, hw], ?_⟩
      exact forall_visitsAll_append.2 ⟨hlight, hrest⟩

end

/-- At a boundary there is room for the body of a rule below the weight of the rule. -/
theorem Ranked.room (hranked : c.Ranked known rank) {name : String} {r : Rule} {p : Nat}
    (hr : c.rules.find? (·.name.name == name) = some r) (hp : Boundary c.text p) :
    c.Room rank (c.weight rank name p) p (r.expr.leftmost known) := by
  refine ⟨hp, fun reference href => ?_, fun other q hother hpq hq =>
    weight_lt_of_lt hranked hother hpq hq⟩
  have hfalls := hranked.falls name r hr reference href
  unfold weight
  omega

/-- **Every rule has an answer at every boundary.** -/
theorem rule_total (hranked : c.Ranked known rank) {name : String} {p : Nat}
    (hname : c.Defines name) (hp : Boundary c.text p) : ∃ r, c.rule name p = some r := by
  induction hn : c.weight rank name p using Nat.strongRecOn generalizing name p with
  | _ n ih =>
    obtain ⟨r, hr⟩ := hname
    have hanswers : c.Answers rank (c.weight rank name p) := fun other q hother hq hlt =>
      ih _ (by omega) hother hq rfl
    obtain ⟨t, ht, -⟩ : ∃ t, c.expr name r.expr [] p = some t ∧
        ∀ v ∈ visitsAll t.steps, c.Light rank (c.weight rank name p) v :=
      expr_total hranked hanswers r.expr [] p (hranked.closed name r hr) (hranked.room hr hp)
    exact ⟨(t.result, t.steps), by rw [rule, hr]; simp [ht]⟩

/-- **What a rule visits weighs less than the rule.** -/
theorem rule_visits_light (hranked : c.Ranked known rank) {v : Visit} (hv : c.Holds v)
    (hp : Boundary c.text v.offset) :
    ∀ w ∈ visitsAll v.inside, c.Light rank (c.weight rank v.name v.offset) w := by
  obtain ⟨r, t, hr, ht, -, hsteps⟩ := rule_cases hv
  have hanswers : c.Answers rank (c.weight rank v.name v.offset) := fun _ _ hother hq _ =>
    rule_total hranked hother hq
  obtain ⟨t', ht', hlight⟩ : ∃ t, c.expr v.name r.expr [] v.offset = some t ∧
      ∀ w ∈ visitsAll t.steps, c.Light rank (c.weight rank v.name v.offset) w :=
    expr_total hranked hanswers r.expr [] v.offset (hranked.closed v.name r hr)
      (hranked.room hr hp)
  rw [ht] at ht'
  cases ht'
  rw [← hsteps]
  exact hlight

end Packrat.Plain

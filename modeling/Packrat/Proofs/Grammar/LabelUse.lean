import Packrat.Proofs.Grammar.Closed
import Packrat.Proofs.Grammar.Errors

/-!
# What labels a match binds

The checker goes through an expression as it is written; a match goes through it branch by branch
and round by round.

* `Expr.Binds` — the labels that a match of an expression binds, in order.
* `Expr.Sees` — the labels that are bound since its beginning when code in an expression is called.
* `Expr.Loops`, `Expr.Outlives` — a repetition may bind a label in each of its rounds; of the elements
  of one sequence an earlier one may bind a label in a choice, and a later one may bind it again.
* `Expr.Single.elements_pairwise` — what the absence of both says about the elements of a sequence.
* `Expr.Sees.count_le_one` — if no label is bound again as the checker sees it, these are the only
  labels that code can see twice.
* `compile_apart` — in the rules of an accepted grammar no label is bound again as the checker sees
  it.
-/

set_option autoImplicit false

namespace Packrat

namespace Expr

variable {e x y : Expr} {name : String} {p q : List Nat} {ns ms : List String} {k : Nat}

/-! ## Labels of a match -/

mutual

/-- While an expression is matched, the labels `ns` are bound, in this order.  What fails binds
none, and no more does a lookahead. -/
inductive Binds : Expr → List String → Prop where
  | literal {span : Span} {text : String} : Binds (.literal span text) []
  | charClass {span : Span} {k : CharClass} : Binds (.charClass span k) []
  | anyChar {span : Span} : Binds (.anyChar span) []
  | ref {reference : Reference} : Binds (.ref reference) []
  | seq {span : Span} {es : List Expr} {ns : List String} (elements : BindsAll es ns) :
      Binds (.seq span es) ns
  | choice {span : Span} {es : List Expr} {e : Expr} {ns : List String} (mem : e ∈ es)
      (branch : Binds e ns) : Binds (.choice span es) ns
  | star {span : Span} {body : Expr} {nss : List (List String)}
      (rounds : ∀ ns ∈ nss, Binds body ns) :
      Binds (.star span body) nss.flatten
  | plus {span : Span} {body : Expr} {nss : List (List String)}
      (rounds : ∀ ns ∈ nss, Binds body ns) :
      Binds (.plus span body) nss.flatten
  | optNone {span : Span} {body : Expr} : Binds (.opt span body) []
  | opt {span : Span} {body : Expr} {ns : List String} (of : Binds body ns) :
      Binds (.opt span body) ns
  | lookahead {span : Span} {polarity : Polarity} {body : Expr} :
      Binds (.lookahead span polarity body) []
  | codePredicate {span : Span} {polarity : Polarity} {code : Code} :
      Binds (.codePredicate span polarity code) []
  | label {span : Span} {own : Ident} {body : Expr} {ns : List String} (of : Binds body ns) :
      Binds (.label span own body) (ns ++ [own.name])
  | action {span : Span} {hint : String} {code : Code} {body : Expr} {ns : List String}
      (of : Binds body ns) : Binds (.action span hint code body) ns
  | bareAction {span : Span} {hint : String} {code : Code} : Binds (.bareAction span hint code) []
  | group {span : Span} {body : Expr} {ns : List String} (of : Binds body ns) :
      Binds (.group span body) ns

/-- The labels that are bound while expressions are matched one after the other. -/
inductive BindsAll : List Expr → List String → Prop where
  | nil : BindsAll [] []
  | cons {e : Expr} {es : List Expr} {ns ms : List String} (first : Binds e ns)
      (rest : BindsAll es ms) :
      BindsAll (e :: es) (ns ++ ms)

end

mutual

/-- When an action or a predicate in an expression is called, the labels `ns` were bound since the
expression was begun. -/
inductive Sees : Expr → List String → Prop where
  | seq {span : Span} {es : List Expr} {ns : List String} (elements : SeesAll es ns) :
      Sees (.seq span es) ns
  | choice {span : Span} {es : List Expr} {e : Expr} {ns : List String} (mem : e ∈ es)
      (branch : Sees e ns) : Sees (.choice span es) ns
  | star {span : Span} {body : Expr} {nss : List (List String)} {ns : List String}
      (rounds : ∀ ns ∈ nss, Binds body ns) (last : Sees body ns) :
      Sees (.star span body) (nss.flatten ++ ns)
  | plus {span : Span} {body : Expr} {nss : List (List String)} {ns : List String}
      (rounds : ∀ ns ∈ nss, Binds body ns) (last : Sees body ns) :
      Sees (.plus span body) (nss.flatten ++ ns)
  | opt {span : Span} {body : Expr} {ns : List String} (of : Sees body ns) :
      Sees (.opt span body) ns
  | lookahead {span : Span} {polarity : Polarity} {body : Expr} {ns : List String}
      (of : Sees body ns) :
      Sees (.lookahead span polarity body) ns
  | codePredicate {span : Span} {polarity : Polarity} {code : Code} :
      Sees (.codePredicate span polarity code) []
  | label {span : Span} {own : Ident} {body : Expr} {ns : List String} (of : Sees body ns) :
      Sees (.label span own body) ns
  | actionBody {span : Span} {hint : String} {code : Code} {body : Expr} {ns : List String}
      (of : Sees body ns) : Sees (.action span hint code body) ns
  | action {span : Span} {hint : String} {code : Code} {body : Expr} {ns : List String}
      (after : Binds body ns) : Sees (.action span hint code body) ns
  | bareAction {span : Span} {hint : String} {code : Code} : Sees (.bareAction span hint code) []
  | group {span : Span} {body : Expr} {ns : List String} (of : Sees body ns) :
      Sees (.group span body) ns

/-- The same while expressions are matched one after the other. -/
inductive SeesAll : List Expr → List String → Prop where
  | head {e : Expr} {es : List Expr} {ns : List String} (of : Sees e ns) : SeesAll (e :: es) ns
  | tail {e : Expr} {es : List Expr} {ns ms : List String} (first : Binds e ns)
      (rest : SeesAll es ms) :
      SeesAll (e :: es) (ns ++ ms)

end

/-! ## Labels that occur more than once -/

/-- A match may bind a label. -/
def MayBind (e : Expr) (name : String) : Prop := ∃ ns, e.Binds ns ∧ name ∈ ns

/-- A label may be bound by a match, or while code in the expression is called. -/
def MayShow (e : Expr) (name : String) : Prop := ∃ ns, (e.Binds ns ∨ e.Sees ns) ∧ name ∈ ns

/-- A repetition. -/
def IsRepetition (e : Expr) : Prop :=
  (∃ span body, e = .star span body) ∨ ∃ span body, e = .plus span body

/-- A match of a repetition may bind a label, and so bind it again in the next round. -/
def Loops (e : Expr) (name : String) : Prop :=
  ∃ above c, e.at? above = some c ∧ c.IsRepetition ∧ c.MayBind name

/-- **A label is bound in a choice and again after the choice.**  Of two elements of one sequence, so
that both take part in the same match, the earlier may bind it, although only branches of choices
there mention it, and the later may bind it or show it to code inside. -/
def Outlives (e : Expr) (name : String) : Prop :=
  ∃ (above : List Nat) (span : Span) (es : List Expr) (i j : Nat) (x y : Expr),
    e.at? above = some (.seq span es) ∧ i < j ∧ es[i]? = some x ∧ es[j]? = some y ∧
      x.MayBind name ∧ ¬ x.Leaves name ∧ y.MayShow name

/-- No label is bound again as the checker sees it, and neither repetitions nor choices let a
certain label be bound twice. -/
structure Single (name : String) (e : Expr) : Prop where
  apart : ¬ e.Clashes
  once : ¬ e.Loops name
  ends : ¬ e.Outlives name

theorem at?_cons_of_some (hx : e.parts[k]? = some x) : e.at? (k :: p) = x.at? p := by
  rw [at?, hx, Option.bind_some]

theorem Loops.of_part (hx : e.parts[k]? = some x) (h : x.Loops name) : e.Loops name := by
  obtain ⟨above, c, hc, hrest⟩ := h
  exact ⟨k :: above, c, by rw [at?_cons_of_some hx, hc], hrest⟩

theorem Outlives.of_part (hx : e.parts[k]? = some x) (h : x.Outlives name) : e.Outlives name := by
  obtain ⟨above, span, es, i, j, first, later, hseq, hrest⟩ := h
  exact ⟨k :: above, span, es, i, j, first, later, by rw [at?_cons_of_some hx, hseq], hrest⟩

/-! ## What is bound is mentioned -/

theorem Mentions.of_part (hx : x ∈ e.parts) (h : x.Mentions name) : e.Mentions name :=
  mentions_iff.2 (.inr ⟨x, hx, h⟩)

theorem BindsAll.exists_mentions {es : List Expr}
    (hes : ∀ e ∈ es, ∀ ns, e.Binds ns → name ∈ ns → e.Mentions name) (h : BindsAll es ns)
    (hn : name ∈ ns) : ∃ e ∈ es, e.Mentions name := by
  induction es generalizing ns with
  | nil =>
    cases h
    cases hn
  | cons e es ih =>
    obtain ⟨he, hrest⟩ := List.forall_mem_cons.1 hes
    cases h with
    | cons first rest =>
      rcases List.mem_append.1 hn with hn | hn
      · exact ⟨e, List.mem_cons_self .., he _ first hn⟩
      · obtain ⟨x, hx, hm⟩ := ih hrest rest hn
        exact ⟨x, List.mem_cons_of_mem _ hx, hm⟩

theorem Binds.mentions (h : e.Binds ns) (hn : name ∈ ns) : e.Mentions name := by
  induction e using parts_induction generalizing ns with
  | h e ih =>
    cases h with
    | literal | charClass | anyChar | ref | optNone | lookahead | codePredicate | bareAction =>
      cases hn
    | seq elements =>
      obtain ⟨x, hx, hm⟩ := elements.exists_mentions (fun x hx ns h hn => ih x hx h hn) hn
      exact .of_part hx hm
    | choice mem branch => exact .of_part mem (ih _ mem branch hn)
    | star rounds | plus rounds =>
      obtain ⟨ns, hns, hn⟩ := List.mem_flatten.1 hn
      have hbody := ih _ (List.mem_singleton_self _) (rounds ns hns) hn
      exact .of_part (List.mem_singleton_self _) hbody
    | label of =>
      rcases List.mem_append.1 hn with hn | hn
      · exact .of_part (List.mem_singleton_self _) (ih _ (List.mem_singleton_self _) of hn)
      · exact mentions_iff.2 (.inl (congrArg some (List.mem_singleton.1 hn).symm))
    | opt of | action of | group of =>
      exact .of_part (List.mem_singleton_self _) (ih _ (List.mem_singleton_self _) of hn)

theorem SeesAll.exists_mentions {es : List Expr}
    (hes : ∀ e ∈ es, ∀ ns, e.Sees ns → name ∈ ns → e.Mentions name) (h : SeesAll es ns)
    (hn : name ∈ ns) : ∃ e ∈ es, e.Mentions name := by
  induction es generalizing ns with
  | nil => cases h
  | cons e es ih =>
    obtain ⟨he, hrest⟩ := List.forall_mem_cons.1 hes
    cases h with
    | head of => exact ⟨e, List.mem_cons_self .., he _ of hn⟩
    | tail first rest =>
      rcases List.mem_append.1 hn with hn | hn
      · exact ⟨e, List.mem_cons_self .., first.mentions hn⟩
      · obtain ⟨x, hx, hm⟩ := ih hrest rest hn
        exact ⟨x, List.mem_cons_of_mem _ hx, hm⟩

theorem Sees.mentions (h : e.Sees ns) (hn : name ∈ ns) : e.Mentions name := by
  induction e using parts_induction generalizing ns with
  | h e ih =>
    cases h with
    | codePredicate | bareAction => cases hn
    | seq elements =>
      obtain ⟨x, hx, hm⟩ := elements.exists_mentions (fun x hx ns h hn => ih x hx h hn) hn
      exact .of_part hx hm
    | choice mem branch => exact .of_part mem (ih _ mem branch hn)
    | star rounds last | plus rounds last =>
      refine .of_part (List.mem_singleton_self _) ?_
      rcases List.mem_append.1 hn with hn | hn
      · obtain ⟨ns, hns, hn⟩ := List.mem_flatten.1 hn
        exact (rounds ns hns).mentions hn
      · exact ih _ (List.mem_singleton_self _) last hn
    | action after => exact .of_part (List.mem_singleton_self _) (after.mentions hn)
    | opt of | lookahead of | label of | actionBody of | group of =>
      exact .of_part (List.mem_singleton_self _) (ih _ (List.mem_singleton_self _) of hn)

theorem MayShow.mentions (h : e.MayShow name) : e.Mentions name := by
  obtain ⟨ns, hbinds | hsees, hn⟩ := h
  · exact hbinds.mentions hn
  · exact hsees.mentions hn

theorem MayBind.mayShow (h : e.MayBind name) : e.MayShow name := by
  obtain ⟨ns, hbinds, hn⟩ := h
  exact ⟨ns, .inl hbinds, hn⟩

/-! ## Elements of a sequence -/

namespace Single

theorem part (h : Single name e) (hx : x ∈ e.parts) : Single name x := by
  obtain ⟨k, hk⟩ := List.mem_iff_getElem?.1 hx
  exact ⟨fun hc => h.apart (clashes_iff.2 (.inr (.inl ⟨x, hx, hc⟩))),
    fun hl => h.once (hl.of_part hk), fun ho => h.ends (ho.of_part hk)⟩

/-- A repetition does not bind the label. -/
theorem not_mayBind (h : Single name e) (he : e.IsRepetition) : ¬ e.MayBind name :=
  fun hbind => h.once ⟨[], e, rfl, he, hbind⟩

/-- **Of two elements of a sequence, the earlier does not bind the label or the later does not show
it.**  If the earlier one leaves it bound for the checker, the later one would bind it again; and if
not, it would outlive a choice. -/
theorem elements_pairwise {span : Span} {es : List Expr} (h : Single name (.seq span es)) :
    es.Pairwise fun x y => ¬ (x.MayBind name ∧ y.MayShow name) := by
  rw [List.pairwise_iff_getElem]
  rintro i j hi hj hij ⟨hbind, hshow⟩
  have hx : (Expr.seq span es).parts[i]? = some es[i] := List.getElem?_eq_getElem hi
  have hy : (Expr.seq span es).parts[j]? = some es[j] := List.getElem?_eq_getElem hj
  by_cases hleaves : es[i].Leaves name
  · obtain ⟨p, hp⟩ := hleaves
    obtain ⟨q, hq⟩ := hshow.mentions
    have hseq : ¬ (Expr.seq span es).IsChoice := by
      rintro ⟨_, _, hc⟩
      cases hc
    exact h.apart ⟨name, i :: p, j :: q, (rebinds_apart_iff hij hx hy).2 ⟨hseq, hp, hq⟩⟩
  · exact h.ends ⟨[], span, es, i, j, es[i], es[j], rfl, hij, hx, hy, hbind, hleaves, hshow⟩

/-- The label of an expression is not bound inside it. -/
theorem not_mayBind_body {span : Span} {own : Ident} {body : Expr}
    (h : Single name (.label span own body)) : ¬ body.MayBind own.name := fun ⟨_, hbinds, hn⟩ =>
  h.apart (clashes_iff.2
    (.inl ⟨own.name, rfl, body, List.mem_singleton_self _, hbinds.mentions hn⟩))

end Single

/-! ## No label twice -/

/-- Labels that come from two sides, of which at most one has the name. -/
theorem count_append_le_one (hns : ns.count name ≤ 1) (hms : ms.count name ≤ 1)
    (h : ¬ (name ∈ ns ∧ name ∈ ms)) : (ns ++ ms).count name ≤ 1 := by
  rw [List.count_append]
  by_cases hn : name ∈ ns
  · have hm : ms.count name = 0 := List.count_eq_zero.2 fun hm => h ⟨hn, hm⟩
    omega
  · have hn : ns.count name = 0 := List.count_eq_zero.2 hn
    omega

theorem BindsAll.exists_mayBind {es : List Expr} (h : BindsAll es ns) (hn : name ∈ ns) :
    ∃ e ∈ es, e.MayBind name := by
  induction es generalizing ns with
  | nil =>
    cases h
    cases hn
  | cons e es ih =>
    cases h with
    | cons first rest =>
      rcases List.mem_append.1 hn with hn | hn
      · exact ⟨e, List.mem_cons_self .., _, first, hn⟩
      · obtain ⟨x, hx, hbind⟩ := ih rest hn
        exact ⟨x, List.mem_cons_of_mem _ hx, hbind⟩

theorem SeesAll.exists_mayShow {es : List Expr} (h : SeesAll es ns) (hn : name ∈ ns) :
    ∃ e ∈ es, e.MayShow name := by
  induction es generalizing ns with
  | nil => cases h
  | cons e es ih =>
    cases h with
    | head of => exact ⟨e, List.mem_cons_self .., _, .inr of, hn⟩
    | tail first rest =>
      rcases List.mem_append.1 hn with hn | hn
      · exact ⟨e, List.mem_cons_self .., _, .inl first, hn⟩
      · obtain ⟨x, hx, hshow⟩ := ih rest hn
        exact ⟨x, List.mem_cons_of_mem _ hx, hshow⟩

theorem BindsAll.count_le_one {es : List Expr}
    (hes : ∀ e ∈ es, ∀ ns, e.Binds ns → ns.count name ≤ 1)
    (hapart : es.Pairwise fun x y => ¬ (x.MayBind name ∧ y.MayShow name)) (h : BindsAll es ns) :
    ns.count name ≤ 1 := by
  induction es generalizing ns with
  | nil =>
    cases h
    exact Nat.zero_le 1
  | cons e es ih =>
    obtain ⟨he, hrest⟩ := List.forall_mem_cons.1 hes
    obtain ⟨hfirst, hlater⟩ := List.pairwise_cons.1 hapart
    cases h with
    | cons first rest =>
      refine count_append_le_one (he _ first) (ih hrest hlater rest) fun ⟨hn, hm⟩ => ?_
      obtain ⟨x, hx, hbind⟩ := rest.exists_mayBind hm
      exact hfirst x hx ⟨⟨_, first, hn⟩, hbind.mayShow⟩

theorem SeesAll.count_le_one {es : List Expr}
    (hbinds : ∀ e ∈ es, ∀ ns, e.Binds ns → ns.count name ≤ 1)
    (hes : ∀ e ∈ es, ∀ ns, e.Sees ns → ns.count name ≤ 1)
    (hapart : es.Pairwise fun x y => ¬ (x.MayBind name ∧ y.MayShow name)) (h : SeesAll es ns) :
    ns.count name ≤ 1 := by
  induction es generalizing ns with
  | nil => cases h
  | cons e es ih =>
    obtain ⟨hb, hbinds⟩ := List.forall_mem_cons.1 hbinds
    obtain ⟨he, hrest⟩ := List.forall_mem_cons.1 hes
    obtain ⟨hfirst, hlater⟩ := List.pairwise_cons.1 hapart
    cases h with
    | head of => exact he _ of
    | tail first rest =>
      refine count_append_le_one (hb _ first) (ih hbinds hrest hlater rest) fun ⟨hn, hm⟩ => ?_
      obtain ⟨x, hx, hshow⟩ := rest.exists_mayShow hm
      exact hfirst x hx ⟨⟨_, first, hn⟩, hshow⟩

/-- A match binds such a label at most once. -/
theorem Binds.count_le_one (h : e.Binds ns) (he : Single name e) : ns.count name ≤ 1 := by
  induction e using parts_induction generalizing ns with
  | h e ih =>
    have hbinds := h
    cases h with
    | literal | charClass | anyChar | ref | optNone | lookahead | codePredicate | bareAction =>
      exact Nat.zero_le 1
    | seq elements =>
      exact elements.count_le_one (fun x hx ns h => ih x hx h (he.part hx)) he.elements_pairwise
    | choice mem branch => exact ih _ mem branch (he.part mem)
    | star rounds =>
      have hn : name ∉ _ := fun hn => he.not_mayBind (.inl ⟨_, _, rfl⟩) ⟨_, hbinds, hn⟩
      rw [List.count_eq_zero.2 hn]
      exact Nat.zero_le 1
    | plus rounds =>
      have hn : name ∉ _ := fun hn => he.not_mayBind (.inr ⟨_, _, rfl⟩) ⟨_, hbinds, hn⟩
      rw [List.count_eq_zero.2 hn]
      exact Nat.zero_le 1
    | @label span own body ns of =>
      have hmem : body ∈ (Expr.label span own body).parts := List.mem_singleton_self _
      refine count_append_le_one (ih body hmem of (he.part hmem)) ?_ fun ⟨hn, hown⟩ => ?_
      · rw [List.count_singleton]
        split <;> omega
      · cases List.mem_singleton.1 hown
        exact he.not_mayBind_body ⟨_, of, hn⟩
    | opt of | action of | group of =>
      exact ih _ (List.mem_singleton_self _) of (he.part (List.mem_singleton_self _))

/-- **Code sees such a label at most once.** -/
theorem Sees.count_le_one (h : e.Sees ns) (he : Single name e) : ns.count name ≤ 1 := by
  induction e using parts_induction generalizing ns with
  | h e ih =>
    cases h with
    | codePredicate | bareAction => exact Nat.zero_le 1
    | seq elements =>
      exact elements.count_le_one (fun x hx ns h => h.count_le_one (he.part hx))
        (fun x hx ns h => ih x hx h (he.part hx)) he.elements_pairwise
    | choice mem branch => exact ih _ mem branch (he.part mem)
    -- Of the rounds that are over none has bound the label.
    | star rounds last =>
      have hlast := ih _ (List.mem_singleton_self _) last (he.part (List.mem_singleton_self _))
      exact count_append_le_one (Binds.star rounds |>.count_le_one he) hlast
        fun ⟨hn, _⟩ => he.not_mayBind (.inl ⟨_, _, rfl⟩) ⟨_, .star rounds, hn⟩
    | plus rounds last =>
      have hlast := ih _ (List.mem_singleton_self _) last (he.part (List.mem_singleton_self _))
      exact count_append_le_one (Binds.plus rounds |>.count_le_one he) hlast
        fun ⟨hn, _⟩ => he.not_mayBind (.inr ⟨_, _, rfl⟩) ⟨_, .plus rounds, hn⟩
    | action after => exact after.count_le_one (he.part (List.mem_singleton_self _))
    | opt of | lookahead of | label of | actionBody of | group of =>
      exact ih _ (List.mem_singleton_self _) of (he.part (List.mem_singleton_self _))

end Expr

/-! ## Expanded expressions -/

namespace Scope

variable {scope : Scope} {e : Expr} {path : List Nat}

theorem linkAll_eq (scope : Scope) (es : List Expr) : scope.linkAll es = es.map scope.link := by
  induction es with
  | nil => rfl
  | cons e es ih => rw [linkAll, ih, List.map_cons]

theorem parts_link (scope : Scope) (e : Expr) : (scope.link e).parts = e.parts.map scope.link := by
  cases e with
  | seq span es | choice span es => exact linkAll_eq scope es
  | literal | charClass | anyChar | ref | codePredicate | bareAction => rfl
  | star | plus | opt | lookahead | label | action | group => rfl

/-- A linked expression has the same paths. -/
theorem at?_link (scope : Scope) (e : Expr) (path : List Nat) :
    (scope.link e).at? path = (e.at? path).map scope.link := by
  induction path generalizing e with
  | nil => rfl
  | cons k path ih =>
    rw [Expr.at?, Expr.at?, parts_link, List.getElem?_map]
    cases e.parts[k]? with
    | none => rfl
    | some x => exact ih x

theorem labelAt?_link (scope : Scope) (e : Expr) (path : List Nat) :
    (scope.link e).labelAt? path = e.labelAt? path := by
  unfold Expr.labelAt?
  rw [at?_link]
  cases e.at? path with
  | none => rfl
  | some x => cases x <;> rfl

theorem isChoice_link : (scope.link e).IsChoice ↔ e.IsChoice := by
  constructor
  · rintro ⟨span, branches, h⟩
    cases e <;> cases h
    exact ⟨_, _, rfl⟩
  · rintro ⟨span, branches, rfl⟩
    exact ⟨span, scope.linkAll branches, rfl⟩

theorem branchAt_link : (scope.link e).BranchAt path ↔ e.BranchAt path := by
  constructor
  · rintro ⟨above, k, c, rfl, hc, hchoice⟩
    rw [at?_link] at hc
    obtain ⟨x, hx, rfl⟩ := Option.map_eq_some_iff.1 hc
    exact ⟨above, k, x, rfl, hx, isChoice_link.1 hchoice⟩
  · rintro ⟨above, k, c, rfl, hc, hchoice⟩
    exact ⟨above, k, scope.link c, rfl, by rw [at?_link, hc]; rfl, isChoice_link.2 hchoice⟩

/-- Linking changes nothing about labels. -/
theorem clashes_link (h : (scope.link e).Clashes) : e.Clashes := by
  obtain ⟨name, p, q, h⟩ := h
  exact ⟨name, p, q, labelAt?_link scope e p ▸ h.earlier, labelAt?_link scope e q ▸ h.later,
    h.before, fun branch hb => h.shared branch (branchAt_link.2 hb)⟩

end Scope

/-- The rules of an accepted grammar bind no label again, as the checker sees it. -/
theorem compile_apart {depth : Nat} {source : String} {cs : List Char} {g : Grammar}
    (hg : (compileWithin depth source cs).answer = .ok (.ok g)) {r : Rule} (hr : r ∈ g.rules) :
    ¬ r.expr.Clashes := by
  obtain ⟨⟨read, instances, hread, hcheck, hexpand⟩, -⟩ := compile_cases hg
  obtain ⟨is, his, rfl, -⟩ := Grammar.expandWithin_ok.1 hexpand
  have hitem : ∀ i ∈ read.items, ¬ i.expr.Clashes := fun i hi =>
    ((exprErrors_eq_nil_iff i.expr []).1 ((check_eq_nil_iff_errors.1 hcheck).2.2 i hi)).apart
  rw [Grammar.rules_withInstances] at hr
  rcases List.mem_append.1 hr with hr | hr
  · obtain ⟨s, hs, rfl⟩ := List.mem_map.1 hr
    exact fun h => hitem _ (Grammar.mem_rules.1 hs) (Scope.clashes_link h)
  · obtain ⟨i, hi, t, ht, rfl⟩ := Grammar.mem_instanceRules.1 hr
    have hmem := (Grammar.mem_of_lastTemplate? ht).1
    exact fun h => hitem _ (Grammar.mem_templates.1 hmem) (Scope.clashes_link h)

end Packrat

import Packrat.Proofs.GrammarText.Continued

/-!
# Joining grammar texts

Definitions have no terminator.  A text with the definitions of another text after it, in a line of
their own, is read as both texts are, with one exception: between the name of a template and the
bracket that opens its parameters there are blanks, and the definition before it does not end in an
action.  Then that definition takes the name, and nothing can be read from the bracket on.

* `LooseHead` — the text begins with such a name.
* `Grammar.Joins` — definitions can be followed by a text.
* `readGrammar_append` — the definitions of both texts, if they can, and otherwise an error.
-/

set_option autoImplicit false

namespace Packrat

open Reader GrammarText

/-- A text begins with a name, and between the name and an opening bracket, which begins no arrow, there
are blanks. -/
def GrammarText.LooseHead (cs : List Char) : Prop :=
  ∃ x ds, afterBlanks cs = x :: ds ∧ startsName x = true ∧ Loose (afterName ds)

theorem GrammarText.looseHead_iff {cs : List Char} : LooseHead cs ↔
    (afterBlanks cs).head?.any startsName = true ∧ Loose (afterName (afterBlanks cs).tail) := by
  unfold LooseHead
  cases afterBlanks cs with
  | nil => simp
  | cons x ds =>
    simp only [List.head?_cons, Option.any_some, List.tail_cons]
    constructor
    · rintro ⟨y, es, heq, h⟩
      cases heq
      exact h
    · exact fun h => ⟨x, ds, rfl, h⟩

instance (cs : List Char) : Decidable (LooseHead cs) := decidable_of_iff' _ looseHead_iff

/-- The last definition of a grammar ends in an action, or the text that follows it does not begin with
a loose head. -/
def Grammar.Joins (g : Grammar) (cs : List Char) : Prop :=
  LooseHead cs → ∀ i ∈ g.items.getLast?, i.expr.endsInAction = true

instance (g : Grammar) (cs : List Char) : Decidable (g.Joins cs) := inferInstanceAs (Decidable (_ → _))

namespace GrammarText

variable {keep : Prop} {s t cs ds : List Char}

theorem LooseHead.of_reads {P : Ident → Prop} (hname : ident.Reads (afterBlanks cs) ds P) (hloose : Loose ds) :
    LooseHead cs := by
  obtain ⟨x, es, hes, hx⟩ := ident_starts.of_reads hname
  rw [hes] at hname
  rw [hname.unique (ident_reads hx es)] at hloose
  exact ⟨x, es, hes, hx, hloose⟩

/-! ### Definitions are read on -/

section Definitions

theorem params_eq_some {c c' : Cursor} {ps : List Ident} (h : (params c).result = some (ps, c')) :
    ∃ (ds : List Char) (c₁ c₂ : Cursor), afterBlanks c.rest = '<' :: ds ∧ c₁.rest = afterBlanks ds ∧
      (sepBy1 ident (separator ',') c₁).result = some (ps, c₂) ∧ afterBlanks c₂.rest = '>' :: c'.rest := by
  unfold params at h
  simp only [bind_eq_some, pure_eq_some] at h
  obtain ⟨_, d₁, h₁, _, d₂, h₂, _, d₃, h₃, _, d₄, h₄, _, d₅, h₅, _, d₆, h₆, heq⟩ := h
  cases heq
  have hopen := exactly_eq_cons h₂
  have hclose := exactly_eq_cons h₆
  rw [blanks_eq_some h₁] at hopen
  rw [blanks_eq_some h₅] at hclose
  exact ⟨d₂.rest, d₃, d₄, hopen, blanks_eq_some h₃, h₄, hclose⟩

theorem item_eq_some {c c' : Cursor} {i : Item} (h : (item c).result = some (i, c')) :
    ∃ (name : Ident) (ps : Option (List Ident)) (x : Expr) (span : Span) (c₁ c₂ c₃ : Cursor)
      (ds : List Char), (ident c).result = some (name, c₁) ∧ (optional params c₁).result = some (ps, c₂) ∧
        afterBlanks c₂.rest = '<' :: '-' :: ds ∧ c₃.rest = afterBlanks ds ∧
        (expr c₃).result = some (x, c') ∧ i = itemOf span name x ps := by
  rw [item_eq] at h
  simp only [bind_eq_some, pure_eq_some] at h
  obtain ⟨⟨⟨name, ps, x⟩, span⟩, d, hparts, heq⟩ := h
  cases heq
  have hbody := spanned_eq_some hparts
  simp only [itemParts, bind_eq_some, pure_eq_some] at hbody
  obtain ⟨_, d₁, h₁, _, d₂, h₂, _, d₃, h₃, _, d₄, h₄, _, d₅, h₅, _, d₆, h₆, heq⟩ := hbody
  cases heq
  obtain ⟨ds, harrow, heq⟩ := exactly_eq_some.1 h₄
  cases heq
  rw [blanks_eq_some h₃] at harrow
  exact ⟨name, ps, x, span, d₁, d₂, d₅, ds, h₁, h₂, harrow, blanks_eq_some h₅, h₆, rfl⟩

theorem itemOf_expr (span : Span) (name : Ident) (x : Expr) (ps : Option (List Ident)) :
    (itemOf span name x ps).expr = x := by
  cases ps <;> rfl

/-- **What is read as a definition begins with a head.** -/
theorem item_head {c c' : Cursor} {i : Item} (h : (item c).result = some (i, c')) :
    ∃ (name : Ident) (cs : List Char), ident.Reads c.rest cs (·.unplaced = name) ∧ HeadTail cs := by
  obtain ⟨name, ps, x, span, c₁, c₂, c₃, ds, hname, hps, harrow, -, -, -⟩ := item_eq_some h
  have hread := (ident_alike head_nil).reads hname
  rw [List.append_nil, List.append_nil] at hread
  refine ⟨_, _, hread, ?_⟩
  rcases optional_eq_some.1 hps with ⟨names, rfl, hsome⟩ | ⟨rfl, rfl, -⟩
  · obtain ⟨es, d₁, d₂, hopen, hd₁, hnames, hclose⟩ := params_eq_some hsome
    have htakes : Reader.Takes 1 (separator ',' >>= fun _ => ident) :=
      (separator_takes _).then fun _ => ident_takes.mono (Nat.zero_le 1)
    have hall := ((ident_alike head_nil).sepBy1 (separator_alike ',') htakes).reads hnames
    rw [List.append_nil, List.append_nil, hd₁] at hall
    exact .template hopen (hall.mono fun _ _ => trivial) hclose harrow
  · exact .rule harrow

theorem names_extend {c c' : Cursor} {ps : List Ident}
    (h : (sepBy1 ident (separator ',') c).result = some (ps, c')) (hclose : afterBlanks c'.rest = '>' :: ds) :
    (sepBy1 ident (separator ',')).Reads (c.rest ++ '\n' :: t) (c'.rest ++ '\n' :: t)
      fun names => names.map Ident.unplaced = ps.map Ident.unplaced :=
  (arguments_extends (head_line t) ident_takes ident_takes ident_starts (fun hi _ => ident_extends hi) h
    hclose).mono fun _ => map_eq_of_forall₂

theorem afterBlanks_ne_nil {x : Char} (h : afterBlanks cs = x :: ds) : afterBlanks cs ≠ [] := by
  rw [h]
  exact List.cons_ne_nil _ _

/-- The head of a definition is one in the longer text. -/
theorem HeadTail.extend (h : HeadTail cs) : HeadTail (cs ++ '\n' :: t) := by
  cases h with
  | rule harrow => exact .rule (afterBlanks_extend_cons (head_line t) harrow)
  | @template ds es fs body hopen hnames hclose harrow =>
    obtain ⟨ps, c', hres, rfl, -⟩ := hnames ⟨0, afterBlanks ds⟩ rfl
    have hread := names_extend (t := t) hres hclose
    obtain ⟨x, gs, hgs, -⟩ := ident_starts.sepBy1.of_reads hnames
    rw [← afterBlanks_extend (head_line t) (afterBlanks_ne_nil hgs)] at hread
    exact .template (afterBlanks_extend_cons (head_line t) hopen) (hread.mono fun _ _ => trivial)
      (afterBlanks_extend_cons (head_line t) hclose) (afterBlanks_extend_cons (head_line t) harrow)

/-- A head that is loose in the longer text is loose. -/
theorem Loose.of_extend (h : Loose (cs ++ '\n' :: t)) (hne : afterBlanks cs ≠ []) : Loose cs := by
  obtain ⟨hhead, ds, hopen, hdash⟩ := h
  obtain ⟨x, es, hes⟩ := List.exists_cons_of_ne_nil hne
  rw [afterBlanks_extend_cons (head_line t) hes] at hopen
  cases hopen
  refine ⟨fun hcs => hhead ?_, es, hes, fun hes' => hdash ?_⟩
  · rw [List.head?_append, hcs]
    rfl
  · rw [List.head?_append, hes']
    rfl

/-- **A definition is read on**, with what is added to its body. -/
theorem item_extends {c c' : Cursor} {i : Item} (h : (item c).result = some (i, c'))
    (hend : EndsAt keep (c'.rest ++ '\n' :: t) i.expr.endsInAction s)
    (hslash : (afterBlanks s).head? ≠ some '/') :
    item.Reads (c.rest ++ '\n' :: t) s fun j => keep → j.unplaced = i.unplaced := by
  obtain ⟨name, ps, x, span, c₁, c₂, c₃, ds, hname, hps, harrow, hc₃, hx, rfl⟩ := item_eq_some h
  rw [itemOf_expr] at hend
  have hbody := expr_extends hx hend hslash
  rw [← afterBlanks_extend_of_starts expr_starts hx hc₃] at hbody
  rcases optional_eq_some.1 hps with ⟨names, rfl, hsome⟩ | ⟨rfl, rfl, -⟩
  · obtain ⟨es, d₁, d₂, hopen, hd₁, hnames, hclose⟩ := params_eq_some hsome
    have hread := names_extend (t := t) hnames hclose
    rw [← afterBlanks_extend_of_starts ident_starts.sepBy1 hnames hd₁] at hread
    have hparams := params_reads (afterBlanks_extend_cons (head_line t) hopen) hread (afterBlanks_extend_cons (head_line t) hclose)
    refine (item_reads_template (ident_extends hname) hparams (afterBlanks_extend_cons (head_line t) harrow) hbody).mono ?_
    rintro j ⟨y, hy, hj⟩ hkeep
    rw [hj, hy hkeep, itemOf, Item.unplaced, Template.unplaced]
  · refine (item_reads_rule (ident_extends hname) (afterBlanks_extend_cons (head_line t) harrow) hbody).mono ?_
    rintro j ⟨y, hy, hj⟩ hkeep
    rw [hj, hy hkeep, itemOf, Item.unplaced, Rule.unplaced]

theorem item_stops {c c' : Cursor} {i : Item} (h : (item c).result = some (i, c'))
    (hi : i.expr.endsInAction = false) : ∃ inner, Stops inner c'.rest := by
  obtain ⟨name, ps, x, span, c₁, c₂, c₃, ds, -, -, -, -, hx, rfl⟩ := item_eq_some h
  rw [itemOf_expr] at hi
  exact expr_stops hx hi

/-- **A definition is read on before another one that is read after it.** -/
theorem item_extends_of_item {c c' d d' : Cursor} {i j : Item} (hi : (item c).result = some (i, c'))
    (hd : d.rest = afterBlanks c'.rest) (hj : (item d).result = some (j, d')) :
    item.Reads (c.rest ++ '\n' :: t) (c'.rest ++ '\n' :: t) (·.unplaced = i.unplaced) := by
  obtain ⟨name, cs, hname, htail⟩ := item_head hj
  have hblanks := afterBlanks_extend_of_starts (t := t) item_starts hj hd
  have hslash : (afterBlanks (c'.rest ++ '\n' :: t)).head? ≠ some '/' :=
    head_ne_extend_of_starts item_starts hj hd (by simp [startsName_eq_false (show '/' ∈ marks by decide)])
  refine (item_extends hi ?_ hslash).mono fun _ h => h trivial
  cases hends : i.expr.endsInAction with
  | true => exact .closed
  | false =>
    -- the head is no element in the text that was read, so it is not loose there, and nowhere
    obtain ⟨inner, e, he, hnone⟩ := item_stops hi hends
    have hloose : ¬ Loose cs := by
      intro hloose
      have hone : (labelled inner).Reads d.rest cs fun _ => True := labelled_reads_of_loose hname hloose
      obtain ⟨y, e', hy, -⟩ := hone e (he.trans hd.symm)
      rw [hnone] at hy
      cases hy
    obtain ⟨k, e', hk, rfl, rfl⟩ := hname d rfl
    have hne : afterBlanks e'.rest ≠ [] := by
      intro hnil
      have hhead := htail.afterBlanks_head
      rw [hnil] at hhead
      cases hhead
    have hname' := ident_extends (t := t) hk
    rw [← hblanks] at hname'
    exact .open (.of_definition hname' htail.extend fun h => hloose (h.of_extend hne))

end Definitions

/-! ### Grammars are read on -/

theorem thenBlanks_eq_some {α : Type} {p : Reader α} {c c' : Cursor} {a : α}
    (h : (thenBlanks p c).result = some (a, c')) :
    ∃ d, (p c).result = some (a, d) ∧ c'.rest = afterBlanks d.rest := by
  unfold thenBlanks at h
  simp only [bind_eq_some, pure_eq_some] at h
  obtain ⟨_, d₁, h₁, _, d₂, h₂, heq⟩ := h
  cases heq
  exact ⟨d₁, h₁, blanks_eq_some h₂⟩

theorem manyItems_takes : Reader.Takes 1 (thenBlanks item) := thenBlanks_takes item_takes

/-- **Definitions are read on**, if the last one of them is with what follows it. -/
theorem items_extend {more : List Item} {c c' : Cursor} {is : List Item}
    (h : Many (thenBlanks item) c is c') (hrest : c'.rest = []) (hne : is ≠ [])
    (hlast : ∀ {d d' : Cursor} {i : Item}, is.getLast? = some i → (item d).result = some (i, d') →
      afterBlanks d'.rest = [] →
        (many (thenBlanks item)).Reads (d.rest ++ '\n' :: t) s
          fun js => keep → js.map Item.unplaced = i.unplaced :: more) :
    (many (thenBlanks item)).Reads (c.rest ++ '\n' :: t) s
      fun js => keep → js.map Item.unplaced = is.map Item.unplaced ++ more := by
  induction h with
  | stop _ => exact absurd rfl hne
  | @more c c₁ c₂ i is hi hm ih =>
    obtain ⟨d, hitem, hc₁⟩ := thenBlanks_eq_some hi
    cases hm with
    | stop _ => exact hlast rfl hitem (hc₁.symm.trans hrest)
    | @more _ e _ j is hj hm =>
      obtain ⟨d', hitem', -⟩ := thenBlanks_eq_some hj
      have hall := ih hrest (List.cons_ne_nil _ _) fun hk => hlast (by rwa [List.getLast?_cons_cons])
      have hone := thenBlanks_reads (item_extends_of_item (t := t) hitem hc₁ hitem')
      rw [afterBlanks_extend_of_starts item_starts hitem' hc₁] at hone
      refine (many_reads_cons manyItems_takes hone hall).mono ?_
      rintro js ⟨k, ks, rfl, hk, hks⟩ hkeep
      rw [List.map_cons, hk, hks hkeep]
      rfl

theorem grammar_eq_some {c c' : Cursor} {g : Grammar} (h : (grammar c).result = some (g, c')) :
    ∃ c₁ c₂ : Cursor, c₁.rest = afterBlanks c.rest ∧
      (optional (thenBlanks code) c₁).result = some (g.preamble, c₂) ∧
        Many (thenBlanks item) c₂ g.items c' := by
  unfold grammar at h
  simp only [bind_eq_some, pure_eq_some] at h
  obtain ⟨_, d₁, h₁, preamble, d₂, h₂, items, d₃, h₃, heq⟩ := h
  cases heq
  exact ⟨d₁, d₂, blanks_eq_some h₁, h₂, (many_eq_some_iff manyItems_takes).1 h₃⟩

section Added

variable {more : List Item} (hcode : (thenBlanks code).Refuses (afterBlanks t))
include hcode

/-- What follows the blanks that a longer text has before its definitions: no code, and the definitions of
both texts. -/
theorem definitions_extend {c c' : Cursor} {is : List Item} (h : Many (thenBlanks item) c is c')
    (hrest : c'.rest = [])
    (hnone : is = [] → (many (thenBlanks item)).Reads (afterBlanks t) s
      fun js => keep → js.map Item.unplaced = more)
    (hlast : ∀ {d d' : Cursor} {i : Item}, is.getLast? = some i → (item d).result = some (i, d') →
      afterBlanks d'.rest = [] →
        (many (thenBlanks item)).Reads (d.rest ++ '\n' :: t) s
          fun js => keep → js.map Item.unplaced = i.unplaced :: more)
    {r : List Char} (hr : c.rest = afterBlanks r) :
    (thenBlanks code).Refuses (afterBlanks (r ++ '\n' :: t)) ∧
      (many (thenBlanks item)).Reads (afterBlanks (r ++ '\n' :: t)) s
        fun js => keep → js.map Item.unplaced = is.map Item.unplaced ++ more := by
  cases h with
  | stop _ =>
    rw [afterBlanks_append, if_pos (hr.symm.trans hrest)]
    exact ⟨hcode, hnone rfl⟩
  | more hi hm =>
    obtain ⟨d, hitem, -⟩ := thenBlanks_eq_some hi
    have hbrace : (afterBlanks (r ++ '\n' :: t)).head? ≠ some '\x7b' :=
      head_ne_extend_of_starts item_starts hitem hr (by simp [startsName_eq_false (show '\x7b' ∈ marks by decide)])
    refine ⟨.bind_left (code_starts.refuses fun x hx heq => hbrace (heq ▸ hx)), ?_⟩
    rw [afterBlanks_extend_of_starts item_starts hitem hr]
    exact items_extend (.more hi hm) hrest (List.cons_ne_nil _ _) hlast

/-- **A grammar is read on**, if its last definition is, or without definitions what follows is read. -/
theorem grammar_extends {c c' : Cursor} {g : Grammar} (h : (grammar c).result = some (g, c'))
    (hrest : c'.rest = [])
    (hnone : g.items = [] → (many (thenBlanks item)).Reads (afterBlanks t) s
      fun js => keep → js.map Item.unplaced = more)
    (hlast : ∀ {d d' : Cursor} {i : Item}, g.items.getLast? = some i → (item d).result = some (i, d') →
      afterBlanks d'.rest = [] →
        (many (thenBlanks item)).Reads (d.rest ++ '\n' :: t) s
          fun js => keep → js.map Item.unplaced = i.unplaced :: more) :
    grammar.Reads (c.rest ++ '\n' :: t) s
      fun k => keep → k.unplaced = ⟨g.preamble.map Code.unplaced, g.items.map Item.unplaced ++ more⟩ := by
  obtain ⟨c₁, c₂, hc₁, hpreamble, hm⟩ := grammar_eq_some h
  refine (blanks_reads _).bind fun _ _ => ?_
  rcases optional_eq_some.1 hpreamble with ⟨k, hk, hsome⟩ | ⟨hk, rfl, -⟩
  · obtain ⟨d, hd, hc₂⟩ := thenBlanks_eq_some hsome
    obtain ⟨-, hmany⟩ := definitions_extend hcode hm hrest hnone hlast hc₂
    have hread := thenBlanks_reads (code_extends hd ('\n' :: t))
    rw [← afterBlanks_extend_of_starts code_starts hd hc₁] at hread
    refine (optional_reads_some hread).bind fun o ho => hmany.bind fun js hjs => .pure fun hkeep => ?_
    obtain ⟨k', rfl, hk'⟩ := ho
    rw [Grammar.unplaced, hjs hkeep, Option.map_some, hk', hk, Option.map_some]
  · obtain ⟨hrefuses, hmany⟩ := definitions_extend hcode hm hrest hnone hlast hc₁
    refine (optional_reads_none hrefuses).bind fun o ho => hmany.bind fun js hjs => .pure fun hkeep => ?_
    rw [Grammar.unplaced, hjs hkeep, ho, hk]

end Added

/-! ### The text that is added -/

/-- What is known of a text that is added: it is read as definitions, and begins with no code. -/
structure Follows (t : List Char) (h : Grammar) : Prop where
  items : (many (thenBlanks item)).Reads (afterBlanks t) []
    fun js => js.map Item.unplaced = h.items.map Item.unplaced
  code : (thenBlanks GrammarText.code).Refuses (afterBlanks t)
  head (hne : afterBlanks t ≠ []) :
    ∃ (name : Ident) (cs : List Char), ident.Reads (afterBlanks t) cs (·.unplaced = name) ∧ HeadTail cs

theorem Follows.of_readGrammar {h : Grammar} (hh : readGrammar t = .ok h) (hpre : h.preamble = none) :
    Follows t h := by
  obtain ⟨c', hres, hrest⟩ := readGrammar_eq_ok hh
  obtain ⟨c₁, c₂, hc₁, hpreamble, hm⟩ := grammar_eq_some hres
  rw [hpre] at hpreamble
  rcases optional_eq_some.1 hpreamble with ⟨k, hk, -⟩ | ⟨-, rfl, hcode⟩
  · cases hk
  have hc₂ : c₂.rest = afterBlanks t := hc₁
  have hitems := (Alike.many (thenBlanks_alike item_alike) manyItems_takes).reads
    ((many_eq_some_iff manyItems_takes).2 hm)
  have hrefuses := (thenBlanks_alike code_alike).refuses hcode
  rw [List.append_nil, hc₂] at hitems hrefuses
  rw [hrest] at hitems
  refine ⟨hitems, hrefuses, fun hne => ?_⟩
  match h.items, hm with
  | _, .stop _ => exact absurd (hc₂.symm.trans hrest) hne
  | _, .more hi _ =>
    obtain ⟨d, hitem, -⟩ := thenBlanks_eq_some hi
    rw [← hc₂]
    exact item_head hitem

variable {h : Grammar}

theorem Follows.head_ne (ht : Follows t h) {x : Char} (hx : x ∈ marks) : (afterBlanks t).head? ≠ some x := by
  intro heq
  have hne : afterBlanks t ≠ [] := by
    intro hnil
    rw [hnil] at heq
    cases heq
  obtain ⟨name, cs, hname, -⟩ := ht.head hne
  exact head_ne_of_ident hname hx heq

/-- **The last definition is read before the text that is added**, if the text does not begin with a
loose head or the definition ends in an action. -/
theorem Follows.reads (ht : Follows t h) {c c' : Cursor} {i : Item} (hi : (item c).result = some (i, c'))
    (hrest : afterBlanks c'.rest = []) (hjoin : LooseHead t → i.expr.endsInAction = true) :
    (many (thenBlanks item)).Reads (c.rest ++ '\n' :: t) []
      fun js => js.map Item.unplaced = i.unplaced :: h.items.map Item.unplaced := by
  have hblanks : afterBlanks (c'.rest ++ '\n' :: t) = afterBlanks t := by
    rw [afterBlanks_append, if_pos hrest]
  have hends : EndsAt True (c'.rest ++ '\n' :: t) i.expr.endsInAction (c'.rest ++ '\n' :: t) := by
    cases hclosed : i.expr.endsInAction with
    | true => exact .closed
    | false =>
      refine .open ?_
      by_cases hnil : afterBlanks t = []
      · refine .of_head ?_
        rw [hblanks, hnil]
        rintro x ⟨⟩
      · obtain ⟨name, cs, hname, htail⟩ := ht.head hnil
        refine .of_definition (by rwa [hblanks]) htail fun hloose => ?_
        rw [hjoin (.of_reads hname hloose)] at hclosed
        cases hclosed
  have hone := thenBlanks_reads ((item_extends hi hends (by rw [hblanks]; exact ht.head_ne (by decide))).mono
    fun _ hj => hj trivial)
  rw [hblanks] at hone
  refine (many_reads_cons manyItems_takes hone ht.items).mono ?_
  rintro js ⟨k, ks, rfl, hk, hks⟩
  rw [List.map_cons, hk, hks]

/-- **A loose head is not read after a definition that does not end in an action**: a bracket is left. -/
theorem Follows.reads_loose {c c' : Cursor} {i : Item} {x : Char} {es : List Char}
    (hes : afterBlanks t = x :: es) (hx : startsName x = true) (hloose : Loose (afterName es))
    (hi : (item c).result = some (i, c')) (hrest : afterBlanks c'.rest = [])
    (hclosed : i.expr.endsInAction = false) :
    (many (thenBlanks item)).Reads (c.rest ++ '\n' :: t) (afterBlanks (afterName es)) fun _ => True := by
  have hname := ident_reads hx es
  rw [← hes] at hname
  have hblanks : afterBlanks (c'.rest ++ '\n' :: t) = afterBlanks t := by
    rw [afterBlanks_append, if_pos hrest]
  rw [← hblanks] at hname
  have hends : EndsAt False (c'.rest ++ '\n' :: t) i.expr.endsInAction (afterName es) := by
    rw [hclosed]
    exact .open (.of_loose hname hloose)
  have hone := thenBlanks_reads (item_extends hi hends (by rw [hloose.afterBlanks_head]; simp))
  have hnone : (thenBlanks item).Refuses (afterBlanks (afterName es)) := by
    refine .bind_left (item_starts.refuses ?_)
    rw [hloose.afterBlanks_head]
    rintro y ⟨⟩
    rw [startsName_eq_false (by decide)]
    simp
  exact (many_reads_cons manyItems_takes hone (many_reads_nil hnone)).mono fun _ _ => trivial

end GrammarText

/-- **A grammar text that is read, and another one in the lines after it**, are read together as the
definitions of the one and then those of the other, if they can be joined; otherwise they are not
read. -/
theorem Grammar.readGrammar_append {cs ds : List Char} {g h : Grammar} (hg : readGrammar cs = .ok g)
    (hh : readGrammar ds = .ok h) (hpre : h.preamble = none) :
    (g.Joins ds → ∃ k, readGrammar (cs ++ '\n' :: ds) = .ok k ∧
      k.unplaced = (⟨g.preamble, g.items ++ h.items⟩ : Grammar).unplaced) ∧
    (¬ g.Joins ds → ∃ e, readGrammar (cs ++ '\n' :: ds) = .error e) := by
  have ht := Follows.of_readGrammar hh hpre
  obtain ⟨c', hres, hrest⟩ := readGrammar_eq_ok hg
  constructor
  · intro hjoins
    refine readGrammar_of_reads ((grammar_extends ht.code hres hrest
      (fun _ => ht.items.mono fun _ hjs (_ : True) => hjs) fun hlast hi hd' => ?_).mono fun k hk => ?_)
    · exact (ht.reads hi hd' fun hloose => hjoins hloose _ hlast).mono fun _ hjs _ => hjs
    · rw [hk trivial, Grammar.unplaced, List.map_append]
  · intro hjoins
    obtain ⟨⟨x, es, hes, hx, hloose⟩, j, hj, hopen⟩ : LooseHead ds ∧ ∃ i ∈ g.items.getLast?,
        i.expr.endsInAction ≠ true := by
      simpa [Grammar.Joins] using hjoins
    obtain ⟨fs, hfs⟩ := List.head?_eq_some_iff.1 hloose.afterBlanks_head
    have hread : grammar.Reads (cs ++ '\n' :: ds) (afterBlanks (afterName es)) fun k =>
        False → k.unplaced = ⟨g.preamble.map Code.unplaced, g.items.map Item.unplaced ++ []⟩ := by
      refine grammar_extends ht.code hres hrest (fun hnil => ?_) fun hlast hi hd' => ?_
      · rw [hnil] at hj
        cases hj
      · cases hj.symm.trans hlast
        exact (Follows.reads_loose hes hx hloose hi hd' (by simpa using hopen)).mono fun _ _ => False.elim
    rw [hfs] at hread
    exact readGrammar_error_of_reads hread

/-- A template with a blank before its parameters stands before a rule, but not after it. -/
theorem Grammar.readGrammar_append_blank : ∃ g h, readGrammar "S <- 'a'".toList = .ok g ∧
    readGrammar "T <x> <- x".toList = .ok h ∧
    (∃ k, readGrammar ("T <x> <- x".toList ++ '\n' :: "S <- 'a'".toList) = .ok k ∧
      k.unplaced = (⟨none, h.items ++ g.items⟩ : Grammar).unplaced) ∧
    ∃ e, readGrammar ("S <- 'a'".toList ++ '\n' :: "T <x> <- x".toList) = .error e := by
  obtain ⟨g, hg, hgtest⟩ := exists_of_readsAs (show readsAs "S <- 'a'".toList (fun g =>
    g.preamble.isNone && !decide (g.Joins "T <x> <- x".toList)) = true by decide +kernel)
  obtain ⟨h, hh, hhtest⟩ := exists_of_readsAs (show readsAs "T <x> <- x".toList (fun h =>
    h.preamble.isNone && decide (h.Joins "S <- 'a'".toList)) = true by decide +kernel)
  simp only [Bool.and_eq_true, Option.isNone_iff_eq_none, decide_eq_true_eq, Bool.not_eq_true',
    decide_eq_false_iff_not] at hgtest hhtest
  obtain ⟨k, hk, hitems⟩ := (readGrammar_append hh hg hgtest.1).1 hhtest.2
  rw [hhtest.1] at hitems
  exact ⟨g, h, hg, hh, ⟨k, hk, hitems⟩, (readGrammar_append hg hh hhtest.1).2 hgtest.2⟩

end Packrat

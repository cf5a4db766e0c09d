import Packrat.Proofs.Grammar.Parts
import Packrat.Proofs.Text.Boundary

/-!
# The nodes of a grammar

Whatever has a span is a node: definitions, names, code, references and expressions.

* `Node`, `Node.children` — the nodes, and those directly inside a node from left to right.
* `Grammar.roots`, `Grammar.HasNode` — the outermost nodes of a grammar, and all its nodes.
* `Node.Truthful` — a span that is what it should be in a text.
* `Node.Sound` — truthful all the way down.
* `Laid` — sound nodes one after the other, the form in which a reader comes across them.
* `Encloses` — a span around such nodes, from which the node with that span is sound.
-/

set_option autoImplicit false

namespace Packrat

/-- A part of a grammar that has a span. -/
inductive Node where
  | item (i : Item)
  | ident (i : Ident)
  | code (k : Code)
  | reference (r : Reference)
  | expr (e : Expr)

namespace Node

/-- Where a node stands. -/
def span : Node → Span
  | item i => i.span
  | ident i => i.span
  | code k => k.span
  | reference r => r.span
  | expr e => e.span

/-- The text that a node is made from, where the grammar keeps it. -/
def text? : Node → Option (List Char)
  | ident i => some i.name.toList
  | code k => some ('\x7b' :: (k.text.toList ++ ['\x7d']))
  | item _ | reference _ | expr _ => none

/-- The nodes directly inside a node, from left to right. -/
def children : Node → List Node
  | item i => ident i.name :: (i.params.map ident ++ [expr i.expr])
  | reference r => ident r.name :: r.args.map reference
  | expr (.ref r) => [reference r]
  | expr (.codePredicate _ _ k) | expr (.bareAction _ _ k) => [code k]
  | expr (.label _ name body) => [ident name, expr body]
  | expr (.action _ _ k body) => [expr body, code k]
  | expr e => e.parts.map expr
  | ident _ | code _ => []

end Node

/-- The outermost nodes of a grammar, from first to last. -/
def Grammar.roots (g : Grammar) : List Node := g.preamble.toList.map .code ++ g.items.map .item

/-- The nodes of a grammar. -/
inductive Grammar.HasNode (g : Grammar) : Node → Prop
  | root {n : Node} (h : n ∈ g.roots) : HasNode g n
  | child {n m : Node} (h : HasNode g n) (hm : m ∈ n.children) : HasNode g m

namespace Node

/-- The span of a node tells the truth about a text. -/
structure Truthful (cs : List Char) (n : Node) : Prop where
  /-- The span begins at a boundary of the text, -/
  lo : Boundary cs n.span.lo
  /-- and ends at one, -/
  hi : Boundary cs n.span.hi
  /-- not before it begins. -/
  le : n.span.lo ≤ n.span.hi
  /-- A name and code stand there. -/
  text : ∀ t ∈ n.text?, Slice cs n.span.lo n.span.hi t
  /-- The span goes around those of the nodes inside, -/
  around : ∀ m ∈ n.children, n.span.lo ≤ m.span.lo ∧ m.span.hi ≤ n.span.hi
  /-- of which each ends before the next ones begin. -/
  ordered : n.children.Pairwise fun a b => a.span.hi ≤ b.span.lo

/-- The spans of a node and of all nodes inside it tell the truth. -/
inductive Sound (cs : List Char) : Node → Prop
  | mk {n : Node} (h : n.Truthful cs) (hc : ∀ m ∈ n.children, Sound cs m) : Sound cs n

variable {cs : List Char} {n : Node}

theorem Sound.truthful (h : n.Sound cs) : n.Truthful cs := by
  cases h with
  | mk h _ => exact h

theorem Sound.child (h : n.Sound cs) {m : Node} (hm : m ∈ n.children) : m.Sound cs := by
  cases h with
  | mk _ hc => exact hc m hm

end Node

/-- If the roots of a grammar are sound, all its nodes are. -/
theorem Grammar.HasNode.sound {cs : List Char} {g : Grammar} {n : Node} (hroots : ∀ r ∈ g.roots, r.Sound cs)
    (h : g.HasNode n) : n.Sound cs := by
  induction h with
  | root h => exact hroots _ h
  | child _ hm ih => exact ih.child hm

/-! ### Nodes one after the other -/

/-- Sound nodes stand one after the other between two offsets. -/
def Laid (cs : List Char) : (lo : Nat) → List Node → (hi : Nat) → Prop
  | lo, [], hi => lo ≤ hi
  | lo, n :: ns, hi => lo ≤ n.span.lo ∧ n.Sound cs ∧ Laid cs n.span.hi ns hi

section Laid

variable {cs : List Char} {lo lo' mid hi hi' : Nat} {ns ms : List Node} {n : Node}

theorem Laid.singleton (h : n.Sound cs) : Laid cs n.span.lo [n] n.span.hi :=
  ⟨Nat.le_refl _, h, Nat.le_refl _⟩

theorem Laid.le (h : Laid cs lo ns hi) : lo ≤ hi := by
  induction ns generalizing lo with
  | nil => exact h
  | cons n ns ih => exact Nat.le_trans h.1 (Nat.le_trans h.2.1.truthful.le (ih h.2.2))

theorem Laid.widen (h : Laid cs lo ns hi) (hlo : lo' ≤ lo) (hhi : hi ≤ hi') : Laid cs lo' ns hi' := by
  induction ns generalizing lo lo' with
  | nil => exact Nat.le_trans hlo (Nat.le_trans h hhi)
  | cons n ns ih => exact ⟨Nat.le_trans hlo h.1, h.2.1, ih h.2.2 (Nat.le_refl _)⟩

theorem Laid.append (h : Laid cs lo ns mid) (h' : Laid cs mid ms hi) : Laid cs lo (ns ++ ms) hi := by
  induction ns generalizing lo with
  | nil => exact h'.widen h (Nat.le_refl _)
  | cons n ns ih => exact ⟨h.1, h.2.1, ih h.2.2⟩

theorem Laid.sound (h : Laid cs lo ns hi) : ∀ n ∈ ns, n.Sound cs := by
  induction ns generalizing lo with
  | nil => exact List.forall_mem_nil _
  | cons n ns ih => exact List.forall_mem_cons.2 ⟨h.2.1, ih h.2.2⟩

theorem Laid.around (h : Laid cs lo ns hi) : ∀ n ∈ ns, lo ≤ n.span.lo ∧ n.span.hi ≤ hi := by
  induction ns generalizing lo with
  | nil => exact List.forall_mem_nil _
  | cons n ns ih =>
    refine List.forall_mem_cons.2 ⟨⟨h.1, h.2.2.le⟩, ih (h.2.2.widen ?_ (Nat.le_refl _))⟩
    exact Nat.le_trans h.1 h.2.1.truthful.le

theorem Laid.ordered (h : Laid cs lo ns hi) : ns.Pairwise fun a b => a.span.hi ≤ b.span.lo := by
  induction ns generalizing lo with
  | nil => exact .nil
  | cons n ns ih => exact .cons (fun m hm => (h.2.2.around m hm).1) (ih h.2.2)

end Laid

/-- A span between two boundaries of the text goes around sound nodes. -/
structure Encloses (cs : List Char) (s : Span) (ns : List Node) : Prop where
  lo : Boundary cs s.lo
  hi : Boundary cs s.hi
  laid : Laid cs s.lo ns s.hi

section Encloses

variable {cs : List Char} {s : Span} {lo hi : Nat} {n m : Node} {ns : List Node}

/-- **A node is sound whose span goes around the nodes inside it.** -/
theorem Encloses.node (h : Encloses cs s ns) (hspan : n.span = s) (hchildren : n.children = ns)
    (htext : n.text? = none) : Laid cs s.lo [n] s.hi := by
  subst hspan hchildren
  exact .singleton ⟨⟨h.lo, h.hi, h.laid.le, by simp [htext], h.laid.around, h.laid.ordered⟩, h.laid.sound⟩

/-- A node without nodes inside is sound if its text stands at its span. -/
theorem Slice.node {t : List Char} (h : Slice cs lo hi t) (hlo : Boundary cs lo) (n : Node)
    (hspan : n.span = ⟨lo, hi⟩) (hchildren : n.children = []) (htext : n.text? = some t) :
    Laid cs lo [n] hi := by
  have hle : lo ≤ hi := by
    obtain ⟨-, -, hhi⟩ := h
    exact hhi ▸ Nat.le_add_right _ _
  have htrue : n.Truthful cs := by
    constructor <;> simp [hspan, hchildren, htext, hlo, h, h.boundary, hle]
  have hn := Laid.singleton ⟨htrue, by simp [hchildren]⟩
  rwa [hspan] at hn

/-- A node with the span of the single node inside it. -/
theorem Laid.wrap (h : Laid cs lo [m] hi) (hspan : n.span = m.span) (hchildren : n.children = [m])
    (htext : n.text? = none) : Laid cs lo [n] hi := by
  obtain ⟨hlo, hm, hhi⟩ := h
  have hinside : Encloses cs m.span [m] := ⟨hm.truthful.lo, hm.truthful.hi, .singleton hm⟩
  exact (hinside.node hspan hchildren htext).widen hlo hhi

end Encloses

end Packrat

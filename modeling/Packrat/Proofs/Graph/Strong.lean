import Mathlib.Logic.Relation
import Packrat.Proofs.Graph.Components

/-!
# Nodes of one component lead to each other

A node stays on the stack as long as it may lead to an earlier node of the stack, and the nodes on
the stack lead to the node that is being visited.  So the nodes that leave the stack together lead to
each other; and since edges never lead to components with greater numbers, no other nodes do.

* `Connected` — one node can be reached from another one.
* `ComponentWalk.Returns` — after the visit of a node, the new nodes on the stack are connected with
  it in both directions.
* `ComponentWalk.visit_returns` — every visit is of this kind.
* `components_eq_iff` — two nodes have one component if and only if they can be reached from each other.
-/

set_option autoImplicit false

namespace Packrat

/-- The second node can be reached from the first one. -/
def Connected (next : Nat → List Nat) : Nat → Nat → Prop :=
  Relation.ReflTransGen fun x y => y ∈ next x

namespace ComponentWalk

variable {next : Nat → List Nat} {n : Nat} {w : ComponentWalk} {r : Nat × ComponentWalk}
  {v u : Nat}

/-- Nodes of one complete component can be reached from each other. -/
def Joined (next : Nat → List Nat) (w : ComponentWalk) : Prop :=
  ∀ x y a, w.component.lookup x = some a → w.component.lookup y = some a → Connected next x y

/-- What the visit of `v` from the walk `w` leaves: the new nodes on the stack are connected with `v`
in both directions, and `v` is connected with the node whose order is answered. -/
structure Returns (next : Nat → List Nat) (w : ComponentWalk) (v : Nat) (r : Nat × ComponentWalk) :
    Prop where
  joined : r.2.Joined next
  back : ∀ x ∈ r.2.stack, w.order.lookup x = none → Connected next v x ∧ Connected next x v
  low : r.1 = w.order.length ∨
    ∃ y ∈ w.stack, w.order.lookup y = some r.1 ∧ Connected next v y

/-- All nodes on the stack lead to the one that is visited, if those that were there before do. -/
theorem Returns.connected (h : Returns next w v r) (hgrows : w.Grows r.2)
    (hpre : ∀ x ∈ w.stack, Connected next x v) : ∀ x ∈ r.2.stack, Connected next x v := by
  intro x hx
  rcases hgrows.mem_stack_or hx with hx' | hnew
  · exact hpre x hx'
  · exact (h.back x hx hnew).2

theorem see_returns (hw : w.Consistent next n) (hjoined : w.Joined next) :
    Returns next w v (w.order.length, w.see v) where
  joined := hjoined
  back := by
    intro x hx hnone
    rcases List.mem_cons.1 hx with rfl | hx
    · exact ⟨.refl, .refl⟩
    · exact absurd hx (hw.not_mem_stack hnone)
  low := .inl rfl

/-- **Following an edge** keeps what a visit leaves. -/
theorem follow_returns {edges : Nat → List Nat} {visit : Nat → ComponentWalk → Nat × ComponentWalk}
    (hw : w.Consistent next n) (hpre : ∀ x ∈ w.stack, Connected next x v) (hedge : u ∈ next v)
    (h : Visited next edges n w r) (hret : Returns next w v r)
    (hvisit : r.2.order.lookup u = none → (∀ x ∈ r.2.stack, Connected next x u) →
      r.2.Grows (visit u r.2).2 ∧ Returns next r.2 u (visit u r.2) ∧
        ((visit u r.2).1 = r.2.order.length → (visit u r.2).2.stack = r.2.stack)) :
    Returns next w v (follow visit r u) := by
  have huv : Connected next v u := .single hedge
  have hall := hret.connected h.grows hpre
  unfold follow
  cases ho : r.2.order.lookup u with
  | none =>
    obtain ⟨hgrows, hchild, hclosed⟩ := hvisit ho fun x hx => (hall x hx).trans huv
    simp only
    refine ⟨hchild.joined, fun x hx hnone => ?_, ?_⟩
    · rcases hgrows.mem_stack_or hx with hold | hnew
      · exact hret.back x hold hnone
      · -- `u` is not closed, so it leads to a node that was on the stack before
        obtain ⟨hux, hxu⟩ := hchild.back x hx hnew
        rcases hchild.low with hlow | ⟨y, hy, -, huy⟩
        · rw [hclosed hlow] at hx
          exact hret.back x hx hnone
        · exact ⟨huv.trans hux, (hxu.trans huy).trans (hall y hy)⟩
    · by_cases hle : r.1 ≤ (visit u r.2).1
      · rw [Nat.min_eq_left hle]
        exact hret.low
      · rw [Nat.min_eq_right (by omega)]
        rcases hchild.low with hlow | ⟨y, hy, hlow, huy⟩
        · have hlength := h.grows.length
          have hbound := h.low_le
          omega
        · obtain ⟨hmem, hold⟩ := h.mem_stack_of_lt hw hy hlow (by omega)
          exact .inr ⟨y, hmem, hold, huv.trans huy⟩
  | some o =>
    simp only
    split
    · rename_i hmem
      refine ⟨hret.joined, hret.back, ?_⟩
      by_cases hle : r.1 ≤ o
      · rw [Nat.min_eq_left hle]
        exact hret.low
      · rw [Nat.min_eq_right (by omega)]
        obtain ⟨hstack, hold⟩ := h.mem_stack_of_lt hw hmem ho (by omega)
        exact .inr ⟨u, hstack, hold, huv⟩
    · exact hret

/-- Following several edges. -/
theorem foldl_follow_returns {visit : Nat → ComponentWalk → Nat × ComponentWalk}
    (hw : w.Consistent next n) (hpre : ∀ x ∈ w.stack, Connected next x v)
    (hvisit : ∀ u ∈ next v, ∀ w', w'.Consistent next n → (w.see v).Grows w' → w'.Joined next →
      w'.order.lookup u = none →
        (Visited next next n w' (visit u w') ∧ ∃ o, (visit u w').2.order.lookup u = some o) ∧
          ((visit u w').1 = w'.order.length → (visit u w').2.stack = w'.stack) ∧
          ((∀ x ∈ w'.stack, Connected next x u) → Returns next w' u (visit u w')))
    (us : List Nat) : ∀ (followed : List Nat) (r : Nat × ComponentWalk), us ⊆ next v →
      Visited next (partly next v followed) n w r → (w.see v).Grows r.2 → Returns next w v r →
        Returns next w v (us.foldl (follow visit) r) := by
  induction us with
  | nil => exact fun _ _ _ _ _ hret => hret
  | cons u us ih =>
    intro followed r hsub h hsee hret
    have hu : u ∈ next v := hsub (List.mem_cons_self ..)
    have hchild := hvisit u hu r.2 h.consistent hsee hret.joined
    obtain ⟨h', hsee'⟩ := follow_visited hw (fun hnone => (hchild hnone).1) h hsee
    have hret' : Returns next w v (follow visit r u) :=
      follow_returns hw hpre hu h hret fun hnone hall =>
        ⟨(hchild hnone).1.1.grows, (hchild hnone).2.2 hall, (hchild hnone).2.1⟩
    exact ih (followed ++ [u]) _ (fun x hx => hsub (List.mem_cons_of_mem _ hx)) h' hsee' hret'

/-- The new nodes on the stack form a component. -/
theorem Returns.close (hw : w.Consistent next n) (hv : w.order.lookup v = none)
    (h : Visited next next n w r) (hsee : (w.see v).Grows r.2) (hret : Returns next w v r)
    (hlow : r.1 = w.order.length) : Returns next w v (w.order.length, r.2.close v) := by
  obtain ⟨above, hstack, hv', hunseen⟩ := hsee.exists_above hv
  have hmember : ∀ x ∈ above ++ [v], Connected next v x ∧ Connected next x v :=
    fun x hx => hret.back x (mem_stack_of_closed hstack hx) (hunseen x hx)
  refine ⟨fun x y a hx hy => ?_, fun x hx hnone => ?_, .inl rfl⟩
  · rw [lookup_close hstack hv'] at hx hy
    -- the number of the new component is not the number of an old one
    have hfresh : ∀ z, r.2.component.lookup z = some r.2.complete → False := fun z hz =>
      absurd (h.consistent.numbered z _ hz) (Nat.lt_irrefl _)
    split at hx <;> split at hy
    · rename_i hxm hym
      exact (hmember x hxm).2.trans (hmember y hym).1
    · cases hx
      exact (hfresh y hy).elim
    · cases hy
      exact (hfresh x hx).elim
    · exact hret.joined x y a hx hy
  · rw [(h.close hw hv hsee hlow).2] at hx
    exact absurd hx (hw.not_mem_stack hnone)

/-- **Visiting a node** to which all nodes on the stack lead. -/
theorem visit_returns (hnext : ∀ x, ∀ y ∈ next x, y < n) (fuel : Nat) : ∀ (v : Nat)
    (w : ComponentWalk), w.Consistent next n → w.Joined next → w.order.lookup v = none → v < n →
      n ≤ fuel + w.order.length → (∀ x ∈ w.stack, Connected next x v) →
        Returns next w v (visit next fuel v w) := by
  induction fuel with
  | zero =>
    intro v w hw _ hv hlt hfuel _
    have hless := length_order_lt hw hv hlt
    omega
  | succ fuel ih =>
    intro v w hw hjoined hv hlt hfuel hpre
    have hvisit : ∀ u ∈ next v, ∀ w', w'.Consistent next n → (w.see v).Grows w' →
        w'.order.lookup u = none → n ≤ fuel + w'.order.length := by
      intro u _ w' _ hsee _
      have hlength : w.order.length + 1 ≤ w'.order.length := hsee.length
      omega
    have hchild : ∀ u ∈ next v, ∀ w', w'.Consistent next n → (w.see v).Grows w' →
        w'.order.lookup u = none →
          Visited next next n w' (ComponentWalk.visit next fuel u w') ∧
            ∃ o, (ComponentWalk.visit next fuel u w').2.order.lookup u = some o := by
      intro u hu w' hw' hsee hnone
      obtain ⟨hvisited, hseen, -⟩ :=
        visit_visited hnext fuel u w' hw' hnone (hnext v u hu) (hvisit u hu w' hw' hsee hnone)
      exact ⟨hvisited, hseen⟩
    have hstart := see_visited hw hv hlt
    obtain ⟨hall, hsee⟩ :=
      foldl_follow_visited hw hchild (next v) [] _ (fun _ hx => hx) hstart (.refl _)
    have hret := foldl_follow_returns hw hpre (fun u hu w' hw' hsee' hjoined' hnone => by
      have hbound := hvisit u hu w' hw' hsee' hnone
      exact ⟨hchild u hu w' hw' hsee' hnone,
        (visit_visited hnext fuel u w' hw' hnone (hnext v u hu) hbound).2.2,
        ih u w' hw' hjoined' hnone (hnext v u hu) hbound⟩)
      (next v) [] _ (fun _ hx => hx) hstart (.refl _) (see_returns hw hjoined)
    rw [List.nil_append] at hall
    rw [visit]
    split
    · rename_i hlow
      exact hret.close hw hv hall.all hsee hlow
    · exact hret

/-! ## The whole walk -/

theorem visitNew_joined (hnext : ∀ x, ∀ y ∈ next x, y < n) (hw : w.Resting next n)
    (hjoined : w.Joined next) (hv : v < n) : (visitNew next n w v).Joined next := by
  unfold visitNew
  cases ho : w.order.lookup v with
  | some o => exact hjoined
  | none =>
    have hpre : ∀ x ∈ w.stack, Connected next x v := by
      rw [hw.stack]
      exact fun x hx => absurd hx List.not_mem_nil
    exact (visit_returns hnext n v w hw.consistent hjoined ho hv (Nat.le_add_right _ _) hpre).joined

theorem foldl_visitNew_joined (hnext : ∀ x, ∀ y ∈ next x, y < n) (vs : List Nat) :
    ∀ w : ComponentWalk, w.Resting next n → w.Joined next → (∀ v ∈ vs, v < n) →
      (vs.foldl (visitNew next n) w).Joined next := by
  induction vs with
  | nil => exact fun _ _ hjoined _ => hjoined
  | cons v vs ih =>
    intro w hw hjoined hlt
    obtain ⟨hlt, hrest⟩ := List.forall_mem_cons.1 hlt
    exact ih _ (visitNew_resting hnext hw hlt).1 (visitNew_joined hnext hw hjoined hlt) hrest

theorem walkAll_joined (hnext : ∀ x, ∀ y ∈ next x, y < n) : (walkAll next n).Joined next :=
  foldl_visitNew_joined hnext (List.range n) init ⟨.init next n, rfl⟩
    (fun _ _ _ h => by cases h) fun _ hv => List.mem_range.1 hv

end ComponentWalk

section

variable {next : Nat → List Nat} {n x y : Nat}

theorem Connected.lt (hnext : ∀ x, ∀ y ∈ next x, y < n) (h : Connected next x y) (hx : x < n) :
    y < n := by
  cases h.cases_tail with
  | inl heq => exact heq ▸ hx
  | inr h =>
    obtain ⟨z, -, hz⟩ := h
    exact hnext z y hz

/-- Where a path leads the numbers of the components are no greater. -/
theorem components_le_of_connected (hnext : ∀ x, ∀ y ∈ next x, y < n) (hx : x < n)
    (h : Connected next x y) : ∀ a b, (components next n).lookup x = some a →
      (components next n).lookup y = some b → b ≤ a := by
  induction h with
  | refl =>
    intro a b ha hb
    cases ha.symm.trans hb
    exact Nat.le_refl _
  | tail path edge ih =>
    intro a b ha hb
    obtain ⟨c, -, hc⟩ := components_numbered hnext (Connected.lt hnext path hx)
    exact Nat.le_trans (components_descending hnext edge hc hb) (ih a c ha hc)

/-- **Two nodes have one component if and only if they can be reached from each other.** -/
theorem components_eq_iff (hnext : ∀ x, ∀ y ∈ next x, y < n) (hx : x < n) (hy : y < n) :
    (components next n).lookup x = (components next n).lookup y ↔
      Connected next x y ∧ Connected next y x := by
  obtain ⟨a, -, ha⟩ := components_numbered hnext hx
  obtain ⟨b, -, hb⟩ := components_numbered hnext hy
  constructor
  · intro heq
    rw [ha, hb] at heq
    cases heq
    have hjoined := ComponentWalk.walkAll_joined hnext
    exact ⟨hjoined x y a ha hb, hjoined y x a hb ha⟩
  · rintro ⟨hxy, hyx⟩
    have hba := components_le_of_connected hnext hx hxy a b ha hb
    have hab := components_le_of_connected hnext hy hyx b a hb ha
    rw [ha, hb, Nat.le_antisymm hab hba]

end

end Packrat

import Mathlib.Data.List.Perm.Subperm
import Packrat.Graph.Components

/-!
# The numbers of components go down along edges

A component is complete only when all components that it leads to are, so an edge never leads to a
component with a greater number.

* `ComponentWalk.Consistent` — what holds of a walk at all times.
* `ComponentWalk.Grows` — what a walk has found is kept when it goes on.
* `ComponentWalk.Met` — a node is in a complete component, or on the stack and not below an order.
* `ComponentWalk.visit_visited` — the walk from a node meets all that the nodes lead to which it
  leaves on the stack.
* `components_numbered`, `components_descending` — every node has a component, and edges do not lead
  to greater numbers.
-/

set_option autoImplicit false

namespace Packrat

namespace ComponentWalk

variable {next : Nat → List Nat} {n : Nat}

/-- What holds at all times: a node that was seen is either on the stack or in a complete component,
complete components lead only to complete ones with no greater numbers, and there are no more
components than nodes. -/
structure Consistent (next : Nat → List Nat) (n : Nat) (w : ComponentWalk) : Prop where
  seenOnStack : ∀ x ∈ w.stack, ∃ o, w.order.lookup x = some o
  seenComplete : ∀ x b, w.component.lookup x = some b → ∃ o, w.order.lookup x = some o
  placed : ∀ x o, w.order.lookup x = some o → x ∈ w.stack ∨ ∃ b, w.component.lookup x = some b
  apart : ∀ x ∈ w.stack, w.component.lookup x = none
  ordered : ∀ x o, w.order.lookup x = some o → o < w.order.length
  numbered : ∀ x b, w.component.lookup x = some b → b < w.complete
  descending : ∀ x a, w.component.lookup x = some a →
    ∀ y ∈ next x, ∃ b ≤ a, w.component.lookup y = some b
  count : w.complete + w.stack.length ≤ w.order.length
  nodup : (w.order.map (·.1)).Nodup
  inside : ∀ x o, (x, o) ∈ w.order → x < n

theorem Consistent.init (next : Nat → List Nat) (n : Nat) : init.Consistent next n := by
  constructor <;> simp [ComponentWalk.init]

/-- What was not seen is not on the stack. -/
theorem Consistent.not_mem_stack {w : ComponentWalk} (hw : w.Consistent next n) {x : Nat}
    (hx : w.order.lookup x = none) : x ∉ w.stack := by
  intro hmem
  obtain ⟨o, ho⟩ := hw.seenOnStack x hmem
  rw [hx] at ho
  cases ho

/-- What a walk has found is kept: the orders, the complete components, and the stack, on which there
are further nodes that were not seen before. -/
structure Grows (w w' : ComponentWalk) : Prop where
  order : ∀ x o, w.order.lookup x = some o → w'.order.lookup x = some o
  later : ∀ x o, w.order.lookup x = none → w'.order.lookup x = some o → w.order.length ≤ o
  length : w.order.length ≤ w'.order.length
  component : ∀ x b, w.component.lookup x = some b → w'.component.lookup x = some b
  stack : ∃ more, w'.stack = more ++ w.stack ∧ ∀ x ∈ more, w.order.lookup x = none

theorem Grows.refl (w : ComponentWalk) : w.Grows w where
  order := fun _ _ h => h
  later := fun _ _ hnone hsome => by rw [hnone] at hsome; cases hsome
  length := Nat.le_refl _
  component := fun _ _ h => h
  stack := ⟨[], rfl, fun _ hx => absurd hx List.not_mem_nil⟩

theorem Grows.unseen {w w' : ComponentWalk} (h : w.Grows w') {x : Nat}
    (hx : w'.order.lookup x = none) : w.order.lookup x = none := by
  cases hw : w.order.lookup x with
  | none => rfl
  | some o =>
    rw [h.order x o hw] at hx
    cases hx

theorem Grows.trans {w w' w'' : ComponentWalk} (h : w.Grows w') (h' : w'.Grows w'') :
    w.Grows w'' where
  order := fun x o hx => h'.order x o (h.order x o hx)
  later := by
    intro x o hnone hsome
    cases hx : w'.order.lookup x with
    | none => exact Nat.le_trans h.length (h'.later x o hx hsome)
    | some o' =>
      rw [h'.order x o' hx] at hsome
      cases hsome
      exact h.later x o hnone hx
  length := Nat.le_trans h.length h'.length
  component := fun x b hx => h'.component x b (h.component x b hx)
  stack := by
    obtain ⟨more, hmore, hnew⟩ := h.stack
    obtain ⟨more', hmore', hnew'⟩ := h'.stack
    refine ⟨more' ++ more, by rw [hmore', hmore, List.append_assoc], ?_⟩
    rw [List.forall_mem_append]
    exact ⟨fun x hx => h.unseen (hnew' x hx), hnew⟩

theorem Grows.mem_stack {w w' : ComponentWalk} (h : w.Grows w') {x : Nat} (hx : x ∈ w.stack) :
    x ∈ w'.stack := by
  obtain ⟨more, hmore, -⟩ := h.stack
  rw [hmore]
  exact List.mem_append_right _ hx

/-- The nodes on the stack that were not there before had not been seen. -/
theorem Grows.mem_stack_or {w w' : ComponentWalk} (h : w.Grows w') {x : Nat} (hx : x ∈ w'.stack) :
    x ∈ w.stack ∨ w.order.lookup x = none := by
  obtain ⟨more, hmore, hnew⟩ := h.stack
  rw [hmore, List.mem_append] at hx
  rcases hx with hx | hx
  · exact .inr (hnew x hx)
  · exact .inl hx

/-! ## Seeing a node -/

section

variable {w : ComponentWalk} {v : Nat}

theorem lookup_see (w : ComponentWalk) (v x : Nat) :
    (w.see v).order.lookup x = if x = v then some w.order.length else w.order.lookup x := by
  rw [see, List.lookup_cons]
  by_cases h : x = v
  · rw [if_pos h, beq_iff_eq.2 h]
  · rw [if_neg h, beq_eq_false_iff_ne.2 h]

theorem lookup_component_of_unseen (hw : w.Consistent next n) (hv : w.order.lookup v = none) :
    w.component.lookup v = none := by
  cases hc : w.component.lookup v with
  | none => rfl
  | some b =>
    obtain ⟨o, ho⟩ := hw.seenComplete v b hc
    rw [hv] at ho
    cases ho

theorem see_grows (hv : w.order.lookup v = none) : w.Grows (w.see v) where
  order := by
    intro x o hx
    rw [lookup_see, if_neg]
    · exact hx
    · rintro rfl
      rw [hv] at hx
      cases hx
  later := by
    intro x o hnone hsome
    rw [lookup_see] at hsome
    split at hsome
    · cases hsome
      exact Nat.le_refl _
    · rw [hnone] at hsome
      cases hsome
  length := Nat.le_succ _
  component := fun _ _ h => h
  stack := ⟨[v], rfl, by simpa using hv⟩

/-- While a walk goes on from `v`, the new nodes on the stack are `v` and what is above it. -/
theorem Grows.exists_above {w' : ComponentWalk} (h : (w.see v).Grows w')
    (hv : w.order.lookup v = none) : ∃ above, w'.stack = above ++ v :: w.stack ∧ v ∉ above ∧
      ∀ x ∈ above ++ [v], w.order.lookup x = none := by
  obtain ⟨above, hstack, hnew⟩ := h.stack
  refine ⟨above, hstack, fun hmem => ?_, List.forall_mem_append.2
    ⟨fun x hx => (see_grows hv).unseen (hnew x hx), List.forall_mem_singleton.2 hv⟩⟩
  have hnone := hnew v hmem
  rw [lookup_see, if_pos rfl] at hnone
  cases hnone

theorem see_consistent (hw : w.Consistent next n) (hv : w.order.lookup v = none) (hlt : v < n) :
    (w.see v).Consistent next n where
  seenOnStack := by
    intro x hx
    rw [lookup_see]
    split
    · exact ⟨_, rfl⟩
    · rename_i hne
      rcases List.mem_cons.1 hx with rfl | hx
      · exact absurd rfl hne
      · exact hw.seenOnStack x hx
  seenComplete := by
    intro x b hx
    obtain ⟨o, ho⟩ := hw.seenComplete x b hx
    exact ⟨o, (see_grows hv).order x o ho⟩
  placed := by
    intro x o hx
    rw [lookup_see] at hx
    split at hx
    · rename_i heq
      exact .inl (heq ▸ List.mem_cons_self ..)
    · rcases hw.placed x o hx with hmem | hc
      · exact .inl (List.mem_cons_of_mem _ hmem)
      · exact .inr hc
  apart := by
    intro x hx
    show w.component.lookup x = none
    rcases List.mem_cons.1 hx with rfl | hx
    · exact lookup_component_of_unseen hw hv
    · exact hw.apart x hx
  ordered := by
    intro x o hx
    show o < w.order.length + 1
    rw [lookup_see] at hx
    split at hx
    · cases hx
      exact Nat.lt_succ_self _
    · exact Nat.lt_succ_of_lt (hw.ordered x o hx)
  numbered := hw.numbered
  descending := hw.descending
  count := by
    have hcount := hw.count
    show w.complete + (w.stack.length + 1) ≤ w.order.length + 1
    omega
  nodup := by
    rw [see, List.map_cons, List.nodup_cons]
    refine ⟨fun hmem => ?_, hw.nodup⟩
    obtain ⟨⟨x, o⟩, hx, rfl⟩ := List.mem_map.1 hmem
    exact absurd (beq_self_eq_true x) (by
      simpa using List.lookup_eq_none_iff.1 hv (x, o) hx)
  inside := by
    intro x o hx
    rcases List.mem_cons.1 hx with heq | hx
    · cases heq
      exact hlt
    · exact hw.inside x o hx

theorem Consistent.length_order_le (hw : w.Consistent next n) : w.order.length ≤ n := by
  have hsub : w.order.map (·.1) ⊆ List.range n := by
    intro x hx
    obtain ⟨⟨x, o⟩, hmem, rfl⟩ := List.mem_map.1 hx
    exact List.mem_range.2 (hw.inside x o hmem)
  have hle := (List.subperm_of_subset hw.nodup hsub).length_le
  rwa [List.length_map, List.length_range] at hle

/-- While a node is not seen, fewer than all nodes are. -/
theorem length_order_lt (hw : w.Consistent next n) (hv : w.order.lookup v = none) (hlt : v < n) :
    w.order.length < n :=
  (see_consistent hw hv hlt).length_order_le

end

/-! ## Closing a component -/

section

variable {w : ComponentWalk} {v : Nat} {above below : List Nat}

/-- A component is closed: the nodes from the top of the stack down to `v` leave it. -/
theorem close_eq (h : w.stack = above ++ v :: below) (hv : v ∉ above) :
    w.close v = { w with
      stack := below
      component := (above ++ [v]).map (fun u => (u, w.complete)) ++ w.component
      complete := w.complete + 1 } := by
  have hne : ∀ x ∈ above, (x != v) = true := fun x hx =>
    bne_iff_ne.2 fun heq => hv (heq ▸ hx)
  have hstop : (v != v) = false := bne_self_eq_false v
  simp only [close, h, List.takeWhile_append_of_pos hne, List.dropWhile_append_of_pos hne,
    List.takeWhile_cons, List.dropWhile_cons, hstop, Bool.false_eq_true, if_false,
    List.append_nil, List.drop_one, List.tail_cons]

theorem lookup_map_const (xs : List Nat) (c x : Nat) :
    (xs.map fun u => (u, c)).lookup x = if x ∈ xs then some c else none := by
  induction xs with
  | nil => simp
  | cons y xs ih =>
    rw [List.map_cons, List.lookup_cons, ih]
    by_cases h : x = y
    · simp [h]
    · have hne : (x == y) = false := beq_eq_false_iff_ne.2 h
      simp [hne, h]

theorem lookup_close (h : w.stack = above ++ v :: below) (hv : v ∉ above) (x : Nat) :
    (w.close v).component.lookup x =
      if x ∈ above ++ [v] then some w.complete else w.component.lookup x := by
  rw [close_eq h hv]
  simp only
  rw [List.lookup_append, lookup_map_const]
  split <;> rfl

theorem mem_stack_of_closed (h : w.stack = above ++ v :: below) {x : Nat} (hx : x ∈ above ++ [v]) :
    x ∈ w.stack := by
  rw [h, List.append_cons]
  exact List.mem_append_left _ hx

theorem close_grows (hw : w.Consistent next n) (h : w.stack = above ++ v :: below)
    (hv : v ∉ above) : ∀ x b, w.component.lookup x = some b →
      (w.close v).component.lookup x = some b := by
  intro x b hx
  rw [lookup_close h hv, if_neg]
  · exact hx
  · intro hmem
    rw [hw.apart x (mem_stack_of_closed h hmem)] at hx
    cases hx

/-- A component may be closed if its nodes lead only into it and to complete ones. -/
theorem close_consistent (hw : w.Consistent next n) (h : w.stack = above ++ v :: below)
    (hv : v ∉ above) (hnodup : ∀ x ∈ below, x ∉ above ++ [v])
    (hleads : ∀ x ∈ above ++ [v], ∀ y ∈ next x,
      y ∈ above ++ [v] ∨ ∃ b, w.component.lookup y = some b) :
    (w.close v).Consistent next n := by
  have hlookup := lookup_close h hv
  have hkept := close_grows hw h hv
  have hclose := close_eq h hv
  have horder : (w.close v).order = w.order := rfl
  have hstack : (w.close v).stack = below := by rw [hclose]
  have hcomplete : (w.close v).complete = w.complete + 1 := rfl
  have hbelow : ∀ x ∈ below, x ∈ w.stack := fun x hx => by
    rw [h]
    exact List.mem_append_right _ (List.mem_cons_of_mem _ hx)
  constructor
  case seenOnStack =>
    rw [hstack, horder]
    exact fun x hx => hw.seenOnStack x (hbelow x hx)
  case seenComplete =>
    intro x b hx
    rw [hlookup] at hx
    split at hx
    · rename_i hmem
      exact hw.seenOnStack x (mem_stack_of_closed h hmem)
    · exact hw.seenComplete x b hx
  case placed =>
    intro x o hx
    rw [hstack]
    by_cases hmem : x ∈ above ++ [v]
    · exact .inr ⟨w.complete, by rw [hlookup, if_pos hmem]⟩
    · rcases hw.placed x o hx with hx | ⟨b, hb⟩
      · rw [h] at hx
        simp only [List.mem_append, List.mem_cons] at hmem hx
        exact .inl (by tauto)
      · exact .inr ⟨b, hkept x b hb⟩
  case apart =>
    intro x hx
    rw [hstack] at hx
    rw [hlookup, if_neg (hnodup x hx)]
    exact hw.apart x (hbelow x hx)
  case ordered => exact hw.ordered
  case numbered =>
    intro x b hx
    rw [hcomplete]
    rw [hlookup] at hx
    split at hx
    · cases hx
      exact Nat.lt_succ_self _
    · exact Nat.lt_succ_of_lt (hw.numbered x b hx)
  case descending =>
    intro x a hx y hy
    rw [hlookup] at hx
    split at hx
    · rename_i hmem
      cases hx
      rcases hleads x hmem y hy with hy | ⟨b, hb⟩
      · exact ⟨w.complete, Nat.le_refl _, by rw [hlookup, if_pos hy]⟩
      · exact ⟨b, Nat.le_of_lt (hw.numbered y b hb), hkept y b hb⟩
    · obtain ⟨b, hle, hb⟩ := hw.descending x a hx y hy
      exact ⟨b, hle, hkept y b hb⟩
  case count =>
    have hcount := hw.count
    rw [hcomplete, hstack, horder]
    rw [h, List.length_append, List.length_cons] at hcount
    omega
  case nodup => exact hw.nodup
  case inside => exact hw.inside

end

/-! ## Visiting a node -/

/-- After a walk from `w` to `w'` a node is in a complete component, or it is on the stack and, if it
was seen before the walk, not below the order `low`. -/
def Met (w w' : ComponentWalk) (low y : Nat) : Prop :=
  (∃ b, w'.component.lookup y = some b) ∨
    (y ∈ w'.stack ∧ ∀ o, w.order.lookup y = some o → low ≤ o)

theorem Met.mono {w w' w'' : ComponentWalk} {low low' y : Nat} (h : w.Met w' low y)
    (hgrows : w'.Grows w'') (hle : low' ≤ low) : w.Met w'' low' y := by
  rcases h with ⟨b, hb⟩ | ⟨hmem, ho⟩
  · exact .inl ⟨b, hgrows.component y b hb⟩
  · exact .inr ⟨hgrows.mem_stack hmem, fun o hy => Nat.le_trans hle (ho o hy)⟩

/-- What is met after a later part of a walk is met after the whole walk. -/
theorem Met.before {w₀ w w' : ComponentWalk} {low y : Nat} (h : w.Met w' low y)
    (hgrows : w₀.Grows w) : w₀.Met w' low y := by
  rcases h with hb | ⟨hmem, ho⟩
  · exact .inl hb
  · exact .inr ⟨hmem, fun o hy => ho o (hgrows.order y o hy)⟩

/-- What holds after a walk from `w` with the answer `low`: it has met what the new nodes on the stack
lead to, where `edges` counts as far as it was followed.  If `low` is not the order of the first new
node, it is the order of a node that was on the stack before. -/
structure Visited (next edges : Nat → List Nat) (n : Nat) (w : ComponentWalk)
    (r : Nat × ComponentWalk) : Prop where
  consistent : r.2.Consistent next n
  grows : w.Grows r.2
  low_le : r.1 ≤ w.order.length
  attained : r.1 = w.order.length ∨ ∃ y ∈ w.stack, w.order.lookup y = some r.1
  met : ∀ x ∈ r.2.stack, w.order.lookup x = none → ∀ y ∈ edges x, w.Met r.2 r.1 y

/-- The edges of a graph, of which only some are followed from one node. -/
def partly (next : Nat → List Nat) (v : Nat) (followed : List Nat) (x : Nat) : List Nat :=
  if x = v then followed else next x

section

variable {edges : Nat → List Nat} {w : ComponentWalk} {r : Nat × ComponentWalk} {v u o : Nat}

/-- If a node that is on the stack has a smaller order than was reached so far, it was on the stack
before. -/
theorem Visited.mem_stack_of_lt (h : Visited next edges n w r) (hw : w.Consistent next n)
    (hu : u ∈ r.2.stack) (ho : r.2.order.lookup u = some o) (hlt : o < r.1) :
    u ∈ w.stack ∧ w.order.lookup u = some o := by
  rcases h.grows.mem_stack_or hu with hmem | hnone
  · obtain ⟨o', ho'⟩ := hw.seenOnStack u hmem
    have hsame := h.grows.order u o' ho'
    rw [ho] at hsame
    cases hsame
    exact ⟨hmem, ho'⟩
  · have hlater := h.grows.later u o hnone ho
    have hlow := h.low_le
    omega

/-- The lesser of what the walk has reached and the order of a node on the stack is attained, too. -/
theorem Visited.attained_min (h : Visited next edges n w r) (hw : w.Consistent next n)
    (hu : u ∈ r.2.stack) (ho : r.2.order.lookup u = some o) :
    min r.1 o = w.order.length ∨ ∃ y ∈ w.stack, w.order.lookup y = some (min r.1 o) := by
  by_cases hle : r.1 ≤ o
  · rw [Nat.min_eq_left hle]
    exact h.attained
  · rw [Nat.min_eq_right (by omega)]
    obtain ⟨hmem, hold⟩ := h.mem_stack_of_lt hw hu ho (by omega)
    exact .inr ⟨u, hmem, hold⟩

/-- A node that was seen is met, if it is not below `low` or not on the stack. -/
theorem met_of_seen {w' : ComponentWalk} {low : Nat} (hw' : w'.Consistent next n)
    (hgrows : w.Grows w') (ho : w'.order.lookup u = some o) (hle : u ∈ w'.stack → low ≤ o) :
    w.Met w' low u := by
  rcases hw'.placed u o ho with hmem | hb
  · refine .inr ⟨hmem, fun o' ho' => ?_⟩
    have hsame := hgrows.order u o' ho'
    rw [ho] at hsame
    cases hsame
    exact hle hmem
  · exact .inl hb

/-- A walk goes on to `u`: the nodes that were new before lead to what they led to, and to `u`. -/
theorem Visited.met_extend {followed : List Nat} {w' : ComponentWalk} {low : Nat}
    (h : Visited next (partly next v followed) n w r) (hgrows : r.2.Grows w') (hle : low ≤ r.1)
    (hu : w.Met w' low u) {x : Nat} (hx : x ∈ r.2.stack) (hnone : w.order.lookup x = none) :
    ∀ y ∈ partly next v (followed ++ [u]) x, w.Met w' low y := by
  intro y hy
  have hold : y ∈ partly next v followed x ∨ y = u := by
    unfold partly at hy ⊢
    split at hy
    · rename_i hxv
      rw [if_pos hxv]
      simpa using hy
    · rename_i hxv
      rw [if_neg hxv]
      exact .inl hy
  rcases hold with hy | rfl
  · exact (h.met x hx hnone y hy).mono hgrows hle
  · exact hu

/-- **Following an edge.** -/
theorem follow_visited {visit : Nat → ComponentWalk → Nat × ComponentWalk} {followed : List Nat}
    (hw : w.Consistent next n) (hvisit : r.2.order.lookup u = none →
      Visited next next n r.2 (visit u r.2) ∧ ∃ o, (visit u r.2).2.order.lookup u = some o)
    (h : Visited next (partly next v followed) n w r) (hsee : (w.see v).Grows r.2) :
    Visited next (partly next v (followed ++ [u])) n w (follow visit r u) ∧
      (w.see v).Grows (follow visit r u).2 := by
  unfold follow
  cases ho : r.2.order.lookup u with
  | none =>
    obtain ⟨hchild, o, hseen⟩ := hvisit ho
    simp only
    have hle : min r.1 (visit u r.2).1 ≤ r.1 := Nat.min_le_left _ _
    refine ⟨⟨hchild.consistent, h.grows.trans hchild.grows, Nat.le_trans hle h.low_le, ?_, ?_⟩,
      hsee.trans hchild.grows⟩
    · -- attained
      rcases hchild.attained with heq | ⟨y, hy, hlow⟩
      · have hlength := h.grows.length
        have hlow := h.low_le
        rw [show min r.1 (visit u r.2).1 = r.1 by omega]
        exact h.attained
      · exact h.attained_min hw hy hlow
    · have hmet : w.Met (visit u r.2).2 (min r.1 (visit u r.2).1) u := by
        refine met_of_seen hchild.consistent (h.grows.trans hchild.grows) hseen fun _ => ?_
        have hlater := hchild.grows.later u o ho hseen
        have hlength := h.grows.length
        have hlow := h.low_le
        omega
      intro x hx hnone
      rcases hchild.grows.mem_stack_or hx with hold | hnew
      · exact h.met_extend hchild.grows hle hmet hold hnone
      · intro y hy
        have hxv : x ≠ v := by
          rintro rfl
          have hseenv := hsee.order x w.order.length (by rw [lookup_see, if_pos rfl])
          rw [hnew] at hseenv
          cases hseenv
        rw [partly, if_neg hxv] at hy
        exact ((hchild.met x hx hnew y hy).mono (.refl _) (Nat.min_le_right _ _)).before h.grows
  | some o =>
    simp only
    split
    · rename_i hmem
      have hle : min r.1 o ≤ r.1 := Nat.min_le_left _ _
      refine ⟨⟨h.consistent, h.grows, Nat.le_trans hle h.low_le, h.attained_min hw hmem ho, ?_⟩, hsee⟩
      intro x hx hnone
      exact h.met_extend (.refl _) hle
        (met_of_seen h.consistent h.grows ho fun _ => Nat.min_le_right _ _) hx hnone
    · rename_i hmem
      refine ⟨⟨h.consistent, h.grows, h.low_le, h.attained, fun x hx hnone => ?_⟩, hsee⟩
      exact h.met_extend (.refl _) (Nat.le_refl _)
        (met_of_seen h.consistent h.grows ho fun hu => absurd hu hmem) hx hnone

/-- Following several edges. -/
theorem foldl_follow_visited {visit : Nat → ComponentWalk → Nat × ComponentWalk}
    (hw : w.Consistent next n)
    (hvisit : ∀ u ∈ next v, ∀ w', w'.Consistent next n → (w.see v).Grows w' →
      w'.order.lookup u = none →
        Visited next next n w' (visit u w') ∧ ∃ o, (visit u w').2.order.lookup u = some o)
    (us : List Nat) : ∀ (followed : List Nat) (r : Nat × ComponentWalk), us ⊆ next v →
      Visited next (partly next v followed) n w r → (w.see v).Grows r.2 →
        Visited next (partly next v (followed ++ us)) n w (us.foldl (follow visit) r) ∧
          (w.see v).Grows (us.foldl (follow visit) r).2 := by
  induction us with
  | nil =>
    intro followed r _ h hsee
    rw [List.append_nil]
    exact ⟨h, hsee⟩
  | cons u us ih =>
    intro followed r hsub h hsee
    obtain ⟨h', hsee'⟩ := follow_visited hw
      (hvisit u (hsub (List.mem_cons_self ..)) r.2 h.consistent hsee) h hsee
    have hrest := ih (followed ++ [u]) _ (fun x hx => hsub (List.mem_cons_of_mem _ hx)) h' hsee'
    rwa [List.append_assoc] at hrest

theorem see_visited (hw : w.Consistent next n) (hv : w.order.lookup v = none) (hlt : v < n) :
    Visited next (partly next v []) n w (w.order.length, w.see v) where
  consistent := see_consistent hw hv hlt
  grows := see_grows hv
  low_le := Nat.le_refl _
  attained := .inl rfl
  met := by
    intro x hx hnone y hy
    rcases List.mem_cons.1 hx with rfl | hx
    · rw [partly, if_pos rfl] at hy
      cases hy
    · exact absurd hx (hw.not_mem_stack hnone)

/-- What was followed from `v` are all its edges, so the walk has met what all new nodes lead to. -/
theorem Visited.all (h : Visited next (partly next v (next v)) n w r) :
    Visited next next n w r where
  consistent := h.consistent
  grows := h.grows
  low_le := h.low_le
  attained := h.attained
  met := by
    intro x hx hnone y hy
    refine h.met x hx hnone y ?_
    unfold partly
    split
    · rename_i hxv
      exact hxv ▸ hy
    · exact hy

/-- If nothing that was on the stack before is reached, the new nodes lead to one another and to
complete components. -/
theorem Visited.leads_inside (hw : w.Consistent next n) (h : Visited next next n w r)
    (hlow : r.1 = w.order.length) {above : List Nat} (hstack : r.2.stack = above ++ v :: w.stack)
    (hunseen : ∀ x ∈ above ++ [v], w.order.lookup x = none) :
    ∀ x ∈ above ++ [v], ∀ y ∈ next x,
      y ∈ above ++ [v] ∨ ∃ b, r.2.component.lookup y = some b := by
  intro x hx y hy
  rcases h.met x (mem_stack_of_closed hstack hx) (hunseen x hx) y hy with hb | ⟨hyr, hle⟩
  · exact .inr hb
  · rw [hstack, List.append_cons] at hyr
    rcases List.mem_append.1 hyr with hy | hy
    · exact .inl hy
    · -- the order of a node that was on the stack before is less than that of `v`
      obtain ⟨o, ho⟩ := hw.seenOnStack y hy
      have hlt := hw.ordered y o ho
      have hle := hle o ho
      omega

/-- **Then the new nodes form complete components**, and the stack is as it was. -/
theorem Visited.close (hw : w.Consistent next n) (hv : w.order.lookup v = none)
    (h : Visited next next n w r) (hsee : (w.see v).Grows r.2) (hlow : r.1 = w.order.length) :
    Visited next next n w (w.order.length, r.2.close v) ∧ (r.2.close v).stack = w.stack := by
  obtain ⟨above, hstack, hv', hunseen⟩ := hsee.exists_above hv
  have hseen : ∀ x ∈ w.stack, x ∉ above ++ [v] :=
    fun x hx hmem => hw.not_mem_stack (hunseen x hmem) hx
  have hclosed := close_eq hstack hv'
  have hkept : (r.2.close v).stack = w.stack := by rw [hclosed]
  have hgrows : w.Grows (r.2.close v) := {
    order := h.grows.order
    later := h.grows.later
    length := h.grows.length
    component := fun x b hx => close_grows h.consistent hstack hv' x b (h.grows.component x b hx)
    stack := ⟨[], hkept, fun x hx => absurd hx List.not_mem_nil⟩ }
  have hconsistent := close_consistent h.consistent hstack hv' hseen
    (h.leads_inside hw hlow hstack hunseen)
  refine ⟨⟨hconsistent, hgrows, Nat.le_refl _, .inl rfl, ?_⟩, hkept⟩
  intro x hx hnone
  rw [hkept] at hx
  exact absurd hx (hw.not_mem_stack hnone)

end

/-- **Visiting a node** that was not seen, with fuel for all nodes that are not.  If it reaches nothing
that was on the stack before, nothing new stays there. -/
theorem visit_visited (hnext : ∀ x, ∀ y ∈ next x, y < n) (fuel : Nat) : ∀ (v : Nat)
    (w : ComponentWalk), w.Consistent next n → w.order.lookup v = none → v < n →
      n ≤ fuel + w.order.length → Visited next next n w (visit next fuel v w) ∧
        (∃ o, (visit next fuel v w).2.order.lookup v = some o) ∧
        ((visit next fuel v w).1 = w.order.length → (visit next fuel v w).2.stack = w.stack) := by
  induction fuel with
  | zero =>
    intro v w hw hv hlt hfuel
    have hless := length_order_lt hw hv hlt
    omega
  | succ fuel ih =>
    intro v w hw hv hlt hfuel
    have hvisit : ∀ u ∈ next v, ∀ w', w'.Consistent next n → (w.see v).Grows w' →
        w'.order.lookup u = none → Visited next next n w' (visit next fuel u w') ∧
          ∃ o, (visit next fuel u w').2.order.lookup u = some o := by
      intro u hu w' hw' hsee hnone
      have hlength : w.order.length + 1 ≤ w'.order.length := hsee.length
      obtain ⟨hchild, hseen, -⟩ := ih u w' hw' hnone (hnext v u hu) (by omega)
      exact ⟨hchild, hseen⟩
    obtain ⟨hall, hsee⟩ := foldl_follow_visited hw hvisit (next v) [] _ (fun _ hx => hx)
      (see_visited hw hv hlt) (.refl _)
    rw [List.nil_append] at hall
    have hseen := hsee.order v w.order.length (by rw [lookup_see, if_pos rfl])
    rw [visit]
    split
    · rename_i hlow
      obtain ⟨hclosed, hstack⟩ := hall.all.close hw hv hsee hlow
      exact ⟨hclosed, ⟨_, hseen⟩, fun _ => hstack⟩
    · rename_i hlow
      exact ⟨hall.all, ⟨_, hseen⟩, fun heq => absurd heq hlow⟩

/-! ## The whole walk -/

/-- What holds between the visits of the whole walk: no component is open. -/
structure Resting (next : Nat → List Nat) (n : Nat) (w : ComponentWalk) : Prop where
  consistent : w.Consistent next n
  stack : w.stack = []

theorem visitNew_resting (hnext : ∀ x, ∀ y ∈ next x, y < n) {w : ComponentWalk} {v : Nat}
    (hw : w.Resting next n) (hv : v < n) : (visitNew next n w v).Resting next n ∧
      w.Grows (visitNew next n w v) ∧ ∃ o, (visitNew next n w v).order.lookup v = some o := by
  unfold visitNew
  cases ho : w.order.lookup v with
  | some o => exact ⟨hw, .refl w, o, ho⟩
  | none =>
    simp only
    obtain ⟨hvisited, hseen, hstack⟩ :=
      visit_visited hnext n v w hw.consistent ho hv (Nat.le_add_right _ _)
    refine ⟨⟨hvisited.consistent, ?_⟩, hvisited.grows, hseen⟩
    rcases hvisited.attained with hlow | ⟨y, hy, -⟩
    · rw [hstack hlow, hw.stack]
    · rw [hw.stack] at hy
      cases hy

theorem foldl_visitNew_resting (hnext : ∀ x, ∀ y ∈ next x, y < n) (vs : List Nat) :
    ∀ w : ComponentWalk, w.Resting next n → (∀ v ∈ vs, v < n) →
      (vs.foldl (visitNew next n) w).Resting next n ∧ w.Grows (vs.foldl (visitNew next n) w) ∧
        ∀ v ∈ vs, ∃ o, (vs.foldl (visitNew next n) w).order.lookup v = some o := by
  induction vs with
  | nil => exact fun w hw _ => ⟨hw, .refl w, fun _ hv => absurd hv List.not_mem_nil⟩
  | cons v vs ih =>
    intro w hw hlt
    obtain ⟨hlt, hrest⟩ := List.forall_mem_cons.1 hlt
    obtain ⟨hw', hgrows, o, ho⟩ := visitNew_resting hnext hw hlt
    obtain ⟨hw'', hgrows', hseen⟩ := ih _ hw' hrest
    refine ⟨hw'', hgrows.trans hgrows', List.forall_mem_cons.2 ⟨⟨o, hgrows'.order v o ho⟩, hseen⟩⟩

/-- At the end all nodes were seen, and no component is open. -/
theorem walkAll_resting (hnext : ∀ x, ∀ y ∈ next x, y < n) : (walkAll next n).Resting next n ∧
    ∀ v < n, ∃ o, (walkAll next n).order.lookup v = some o := by
  obtain ⟨hw, -, hseen⟩ := foldl_visitNew_resting hnext (List.range n) init ⟨.init next n, rfl⟩
    fun v hv => List.mem_range.1 hv
  exact ⟨hw, fun v hv => hseen v (List.mem_range.2 hv)⟩

end ComponentWalk

section

variable {next : Nat → List Nat} {n : Nat}

open ComponentWalk

/-- **Every node has a component**, whose number is less than the number of nodes. -/
theorem components_numbered (hnext : ∀ x, ∀ y ∈ next x, y < n) {v : Nat} (hv : v < n) :
    ∃ c < n, (components next n).lookup v = some c := by
  obtain ⟨hw, hseen⟩ := walkAll_resting hnext
  obtain ⟨o, ho⟩ := hseen v hv
  have hcount := hw.consistent.count
  have hlength := hw.consistent.length_order_le
  rcases hw.consistent.placed v o ho with hmem | ⟨c, hc⟩
  · rw [hw.stack] at hmem
    cases hmem
  · have hless := hw.consistent.numbered v c hc
    exact ⟨c, by omega, hc⟩

/-- **Edges do not lead to components with greater numbers.** -/
theorem components_descending (hnext : ∀ x, ∀ y ∈ next x, y < n) {x y a b : Nat}
    (hy : y ∈ next x) (ha : (components next n).lookup x = some a)
    (hb : (components next n).lookup y = some b) : b ≤ a := by
  obtain ⟨hw, -⟩ := walkAll_resting hnext
  obtain ⟨b', hle, hb'⟩ := hw.consistent.descending x a ha y hy
  cases hb.symm.trans hb'
  exact hle

end

end Packrat

import Packrat.Proofs.Graph.Components

/-!
# The search for components ends

The search of a graph is a recursion without a bound on its depth.  A node is visited when it is seen
first, and never again, so that the search ends; the bound of `ComponentWalk.visit` is never reached.

* `ComponentWalk.Follows`, `ComponentWalk.Visits` — following edges and visiting a node, however deep
  this goes, with the nodes that are visited one after the other.
* `ComponentWalk.Searches` — going through nodes, of which those are visited that were not seen.
* `ComponentWalk.Follows.nodes` — what is visited is what is seen.
* `ComponentWalk.visit_visits` — with fuel for all nodes, a visit is one without a bound.
* `ComponentWalk.searches_iff` — the search ends in one way, and has visited every node once.
-/

set_option autoImplicit false

namespace Packrat.ComponentWalk

/-- The end of the visit of `v`, whose order is `own`: its component is complete if nothing before `v` was
reached. -/
def finish (own v : Nat) (r : Nat × ComponentWalk) : Nat × ComponentWalk :=
  if r.1 = own then (own, r.2.close v) else r

/-- **Following edges** to `us` from what was reached so far, with the nodes that are visited on the way.
A node that was seen counts if it is on the stack; a new one is visited, and its own edges are followed
first. -/
inductive Follows (next : Nat → List Nat) :
    (us : List Nat) → (r : Nat × ComponentWalk) → (visited : List Nat) → (r' : Nat × ComponentWalk) → Prop
  | done (r : Nat × ComponentWalk) : Follows next [] r [] r
  | seen {u o : Nat} {us visited : List Nat} {r r' : Nat × ComponentWalk}
      (known : r.2.order.lookup u = some o)
      (rest : Follows next us (if u ∈ r.2.stack then (min r.1 o, r.2) else r) visited r') :
      Follows next (u :: us) r visited r'
  | new {u : Nat} {us below visited : List Nat} {r inner r' : Nat × ComponentWalk}
      (unseen : r.2.order.lookup u = none)
      (deeper : Follows next (next u) (r.2.order.length, r.2.see u) below inner)
      (rest : Follows next us (min r.1 (finish r.2.order.length u inner).1,
        (finish r.2.order.length u inner).2) visited r') :
      Follows next (u :: us) r (u :: (below ++ visited)) r'

/-- **Visiting a node**, with the nodes that are visited. -/
inductive Visits (next : Nat → List Nat) (v : Nat) (w : ComponentWalk) :
    (visited : List Nat) → (r : Nat × ComponentWalk) → Prop
  | intro {below : List Nat} {inner : Nat × ComponentWalk}
      (edges : Follows next (next v) (w.order.length, w.see v) below inner) :
      Visits next v w (v :: below) (finish w.order.length v inner)

/-- **Searching** from the nodes `vs`, of which those are visited that were not seen before. -/
inductive Searches (next : Nat → List Nat) :
    (vs : List Nat) → (w : ComponentWalk) → (visited : List Nat) → (w' : ComponentWalk) → Prop
  | done (w : ComponentWalk) : Searches next [] w [] w
  | seen {v o : Nat} {vs visited : List Nat} {w w' : ComponentWalk} (known : w.order.lookup v = some o)
      (rest : Searches next vs w visited w') : Searches next (v :: vs) w visited w'
  | new {v : Nat} {vs below visited : List Nat} {w w' : ComponentWalk} {r : Nat × ComponentWalk}
      (unseen : w.order.lookup v = none) (visit : Visits next v w below r)
      (rest : Searches next vs r.2 visited w') : Searches next (v :: vs) w (below ++ visited) w'

variable {next : Nat → List Nat} {n v : Nat} {us vs visited visited' : List Nat}
  {w w' w'' : ComponentWalk} {r r' r'' : Nat × ComponentWalk}

theorem Follows.of_visits {u : Nat} {below : List Nat} (unseen : r.2.order.lookup u = none)
    (h : Visits next u r.2 below r') (rest : Follows next us (min r.1 r'.1, r'.2) visited r'') :
    Follows next (u :: us) r (below ++ visited) r'' := by
  obtain ⟨deeper⟩ := h
  exact .new unseen deeper rest

/-! ### There is one way -/

theorem Follows.unique (h : Follows next us r visited r') (h' : Follows next us r visited' r'') :
    visited = visited' ∧ r' = r'' := by
  induction h generalizing visited' r'' with
  | done r =>
    cases h'
    exact ⟨rfl, rfl⟩
  | seen known _ ih =>
    cases h' with
    | seen known' rest =>
      cases known.symm.trans known'
      exact ih rest
    | new unseen _ _ => cases known.symm.trans unseen
  | new unseen _ _ ihdeeper ihrest =>
    cases h' with
    | seen known _ => cases known.symm.trans unseen
    | new _ deeper rest =>
      obtain ⟨rfl, rfl⟩ := ihdeeper deeper
      obtain ⟨rfl, rfl⟩ := ihrest rest
      exact ⟨rfl, rfl⟩

theorem Visits.unique (h : Visits next v w visited r) (h' : Visits next v w visited' r') :
    visited = visited' ∧ r = r' := by
  obtain ⟨edges⟩ := h
  obtain ⟨edges'⟩ := h'
  obtain ⟨rfl, rfl⟩ := edges.unique edges'
  exact ⟨rfl, rfl⟩

theorem Searches.unique (h : Searches next vs w visited w') (h' : Searches next vs w visited' w'') :
    visited = visited' ∧ w' = w'' := by
  induction h generalizing visited' w'' with
  | done w =>
    cases h'
    exact ⟨rfl, rfl⟩
  | seen known _ ih =>
    cases h' with
    | seen _ rest => exact ih rest
    | new unseen _ _ => cases known.symm.trans unseen
  | new unseen visit _ ih =>
    cases h' with
    | seen known _ => cases known.symm.trans unseen
    | new _ visit' rest =>
      obtain ⟨rfl, rfl⟩ := visit.unique visit'
      obtain ⟨rfl, rfl⟩ := ih rest
      exact ⟨rfl, rfl⟩

/-! ### What is visited is what is seen -/

/-- The nodes that were seen, the latest first. -/
def nodes (w : ComponentWalk) : List Nat := w.order.map (·.1)

theorem nodes_see (w : ComponentWalk) (v : Nat) : (w.see v).nodes = v :: w.nodes := rfl

theorem nodes_finish (own v : Nat) (r : Nat × ComponentWalk) : (finish own v r).2.nodes = r.2.nodes := by
  unfold finish
  split <;> rfl

theorem Follows.nodes (h : Follows next us r visited r') : r'.2.nodes = visited.reverse ++ r.2.nodes := by
  induction h with
  | done r => rfl
  | seen _ _ ih =>
    rw [ih]
    split <;> rfl
  | new _ _ _ ihdeeper ihrest =>
    rw [ihrest, nodes_finish, ihdeeper, nodes_see, List.reverse_cons, List.reverse_append]
    simp only [List.append_assoc, List.singleton_append]

theorem Visits.nodes (h : Visits next v w visited r) : r.2.nodes = visited.reverse ++ w.nodes := by
  obtain ⟨edges⟩ := h
  rw [nodes_finish, edges.nodes, nodes_see, List.reverse_cons, List.append_assoc, List.singleton_append]

theorem Searches.nodes (h : Searches next vs w visited w') : w'.nodes = visited.reverse ++ w.nodes := by
  induction h with
  | done w => rfl
  | seen _ _ ih => exact ih
  | new _ visit _ ih => rw [ih, visit.nodes, List.reverse_append, List.append_assoc]

/-! ### With enough fuel nothing is cut off -/

theorem visit_succ (next : Nat → List Nat) (fuel v : Nat) (w : ComponentWalk) :
    visit next (fuel + 1) v w =
      finish w.order.length v ((next v).foldl (follow (visit next fuel)) (w.order.length, w.see v)) :=
  rfl

/-- Following several edges, if the nodes that are new are visited without a bound. -/
theorem foldl_follow_follows {visit : Nat → ComponentWalk → Nat × ComponentWalk}
    (hw : w.Consistent next n)
    (hvisit : ∀ u ∈ next v, ∀ w', w'.Consistent next n → (w.see v).Grows w' →
      w'.order.lookup u = none →
        (Visited next next n w' (visit u w') ∧ ∃ o, (visit u w').2.order.lookup u = some o) ∧
          ∃ visited, Visits next u w' visited (visit u w'))
    (us : List Nat) : ∀ (followed : List Nat) (r : Nat × ComponentWalk), us ⊆ next v →
      Visited next (partly next v followed) n w r → (w.see v).Grows r.2 →
        ∃ visited, Follows next us r visited (us.foldl (follow visit) r) := by
  induction us with
  | nil => exact fun _ r _ _ _ => ⟨[], .done r⟩
  | cons u us ih =>
    intro followed r hsub h hsee
    have hchild := hvisit u (hsub (List.mem_cons_self ..)) r.2 h.consistent hsee
    obtain ⟨h', hsee'⟩ := follow_visited hw (fun hnone => (hchild hnone).1) h hsee
    obtain ⟨visited, hrest⟩ :=
      ih (followed ++ [u]) _ (fun x hx => hsub (List.mem_cons_of_mem _ hx)) h' hsee'
    rw [List.foldl_cons]
    cases ho : r.2.order.lookup u with
    | some o =>
      have hfollow : follow visit r u = if u ∈ r.2.stack then (min r.1 o, r.2) else r := by
        rw [follow, ho]
      refine ⟨visited, .seen ho ?_⟩
      rw [← hfollow]
      exact hrest
    | none =>
      obtain ⟨-, below, hdeeper⟩ := hchild ho
      have hfollow : follow visit r u = (min r.1 (visit u r.2).1, (visit u r.2).2) := by
        rw [follow, ho]
      rw [hfollow] at hrest ⊢
      exact ⟨below ++ visited, .of_visits ho hdeeper hrest⟩

/-- **A visit with fuel for all nodes that were not seen is a visit without a bound.** -/
theorem visit_visits (hnext : ∀ x, ∀ y ∈ next x, y < n) (fuel : Nat) : ∀ (v : Nat)
    (w : ComponentWalk), w.Consistent next n → w.order.lookup v = none → v < n →
      n ≤ fuel + w.order.length → ∃ visited, Visits next v w visited (visit next fuel v w) := by
  induction fuel with
  | zero =>
    intro v w hw hv hlt hfuel
    have hless := length_order_lt hw hv hlt
    omega
  | succ fuel ih =>
    intro v w hw hv hlt hfuel
    obtain ⟨below, hbelow⟩ := foldl_follow_follows hw (fun u hu w' hw' hsee hnone => by
      have hlength : w.order.length + 1 ≤ w'.order.length := hsee.length
      have hbound : n ≤ fuel + w'.order.length := by omega
      obtain ⟨hvisited, hseen, -⟩ := visit_visited hnext fuel u w' hw' hnone (hnext v u hu) hbound
      exact ⟨⟨hvisited, hseen⟩, ih u w' hw' hnone (hnext v u hu) hbound⟩)
      (next v) [] _ (fun _ hx => hx) (see_visited hw hv hlt) (.refl _)
    exact ⟨v :: below, visit_succ next fuel v w ▸ .intro hbelow⟩

theorem foldl_visitNew_searches (hnext : ∀ x, ∀ y ∈ next x, y < n) (vs : List Nat) :
    ∀ w : ComponentWalk, w.Resting next n → (∀ v ∈ vs, v < n) →
      ∃ visited, Searches next vs w visited (vs.foldl (visitNew next n) w) := by
  induction vs with
  | nil => exact fun w _ _ => ⟨[], .done w⟩
  | cons v vs ih =>
    intro w hw hlt
    obtain ⟨hlt, hrest⟩ := List.forall_mem_cons.1 hlt
    obtain ⟨visited, hsearches⟩ := ih _ (visitNew_resting hnext hw hlt).1 hrest
    rw [List.foldl_cons]
    cases ho : w.order.lookup v with
    | some o =>
      have hnew : visitNew next n w v = w := by rw [visitNew, ho]
      rw [hnew] at hsearches ⊢
      exact ⟨visited, .seen ho hsearches⟩
    | none =>
      have hnew : visitNew next n w v = (visit next n v w).2 := by rw [visitNew, ho]
      rw [hnew] at hsearches ⊢
      obtain ⟨below, hvisits⟩ :=
        visit_visits hnext n v w hw.consistent ho hlt (Nat.le_add_right _ _)
      exact ⟨below ++ visited, .new ho hvisits hsearches⟩

/-- What has been seen in the end are all nodes, each of them once. -/
theorem nodes_walkAll_perm (hnext : ∀ x, ∀ y ∈ next x, y < n) :
    (walkAll next n).nodes.Perm (List.range n) := by
  obtain ⟨hw, hseen⟩ := walkAll_resting hnext
  refine (List.perm_ext_iff_of_nodup hw.consistent.nodup List.nodup_range).2 fun v => ?_
  rw [List.mem_range]
  constructor
  · intro hv
    obtain ⟨⟨v, o⟩, hmem, rfl⟩ := List.mem_map.1 hv
    exact hw.consistent.inside v o hmem
  · intro hv
    obtain ⟨o, ho⟩ := hseen v hv
    obtain ⟨earlier, later, horder, -⟩ := List.lookup_eq_some_iff.1 ho
    rw [horder]
    exact List.mem_map.2 ⟨(v, o), List.mem_append_right _ List.mem_cons_self, rfl⟩

/-- **The search of a graph ends in one way, and has visited every node once.** -/
theorem searches_iff (hnext : ∀ x, ∀ y ∈ next x, y < n) : ∃ visited : List Nat,
    visited.Perm (List.range n) ∧
      ∀ vs w, Searches next (List.range n) init vs w ↔ vs = visited ∧ w = walkAll next n := by
  obtain ⟨visited, h⟩ := foldl_visitNew_searches hnext (List.range n) init ⟨.init next n, rfl⟩
    fun v hv => List.mem_range.1 hv
  have hnodes : (walkAll next n).nodes = visited.reverse := by
    rw [walkAll, h.nodes]
    exact List.append_nil _
  refine ⟨visited, ?_, fun vs w => ⟨fun h' => h'.unique h, ?_⟩⟩
  · exact (List.reverse_perm visited).symm.trans (hnodes ▸ nodes_walkAll_perm hnext)
  · rintro ⟨rfl, rfl⟩
    exact h

end Packrat.ComponentWalk

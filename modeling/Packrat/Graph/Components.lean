/-!
# Strongly connected components

Two nodes of a graph belong to one component if each is reachable from the other.  A depth-first
walk finds the components: a node stays on a stack until its component is complete.

* `ComponentWalk` — the nodes seen so far, the stack, and the components that are complete.
* `ComponentWalk.visit` — the walk from a node; it answers the least order that the node reaches on
  the stack.
* `components` — the component of each node of a graph.
-/

set_option autoImplicit false

namespace Packrat

/-- The state of a walk through a graph whose nodes are numbers. -/
structure ComponentWalk where
  /-- The nodes seen so far, each with the number of those seen before it. -/
  order : List (Nat × Nat)
  /-- The nodes whose components are not complete, the latest on top. -/
  stack : List Nat
  /-- The nodes of complete components, with the number of the component. -/
  component : List (Nat × Nat)
  /-- How many components are complete. -/
  complete : Nat
  deriving DecidableEq, Repr

namespace ComponentWalk

/-- Nothing is seen. -/
def init : ComponentWalk := ⟨[], [], [], 0⟩

/-- See a node. -/
def see (w : ComponentWalk) (v : Nat) : ComponentWalk :=
  { w with order := (v, w.order.length) :: w.order, stack := v :: w.stack }

/-- Complete a component: it consists of `v` and all nodes above it on the stack. -/
def close (w : ComponentWalk) (v : Nat) : ComponentWalk :=
  let members := w.stack.takeWhile (· != v) ++ [v]
  { w with
    stack := (w.stack.dropWhile (· != v)).drop 1
    component := members.map (fun u => (u, w.complete)) ++ w.component
    complete := w.complete + 1 }

/-- Follow one edge to `u`, given the least order reached so far: a new node is visited, and a node
that was seen before counts if it is still on the stack. -/
def follow (visit : Nat → ComponentWalk → Nat × ComponentWalk) (reached : Nat × ComponentWalk)
    (u : Nat) : Nat × ComponentWalk :=
  match reached.2.order.lookup u with
  | none =>
    let r := visit u reached.2
    (min reached.1 r.1, r.2)
  | some o => if u ∈ reached.2.stack then (min reached.1 o, reached.2) else reached

/-- Visit a node that was not seen; `fuel` bounds how many nodes come below one another.  The answer
is the least order that the node reaches on the stack.  If this is its own, it was the first of its
component to be seen. -/
def visit (next : Nat → List Nat) : (fuel : Nat) → (v : Nat) → ComponentWalk → Nat × ComponentWalk
  | 0, _, w => (w.order.length, w)
  | fuel + 1, v, w =>
    let own := w.order.length
    let reached := (next v).foldl (follow (visit next fuel)) (own, w.see v)
    if reached.1 = own then (own, reached.2.close v) else reached

/-- Visit a node unless it was seen. -/
def visitNew (next : Nat → List Nat) (fuel : Nat) (w : ComponentWalk) (v : Nat) : ComponentWalk :=
  match w.order.lookup v with
  | none => (visit next fuel v w).2
  | some _ => w

/-- The walk through all nodes below `n`.  No more than `n` nodes come below one another. -/
def walkAll (next : Nat → List Nat) (n : Nat) : ComponentWalk :=
  (List.range n).foldl (visitNew next n) init

end ComponentWalk

/-- Each node below `n` with the number of its component. -/
def components (next : Nat → List Nat) (n : Nat) : List (Nat × Nat) :=
  (ComponentWalk.walkAll next n).component

end Packrat

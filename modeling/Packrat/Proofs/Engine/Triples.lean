import Packrat.Proofs.Engine.Moves

/-!
# Triples

What holds of the state before a computation, of its result with the state after it, and of the
state in which it stops at a fault.

* `Run.Triple` — the three together; handlers may answer what they like.
* `Run.Triple.bind` — one computation after another.
* `Run.Triple.of_and`, `Run.Triple.of_exists` — facts and witnesses out of the state before.
* `Run.Upholds` — a computation that keeps something true of the memory, with a fact about its
  result.
* `Matcher.Comes.memory` — what evaluations uphold holds of the memory wherever a pass comes to.
-/

set_option autoImplicit false

namespace Packrat.Run

variable {σ α β : Type} {pre pre' : RunState σ → Prop} {x : Run σ α}
  {post post' : α → RunState σ → Prop} {stops : RunState σ → Prop}

/-- From a state with `pre` a computation ends with a result and a state that have `post`, or it
stops at a fault in a state that has `stops`. -/
def Triple (pre : RunState σ → Prop) (x : Run σ α) (post : α → RunState σ → Prop)
    (stops : RunState σ → Prop) : Prop :=
  ∀ s, pre s → match x s with
    | .ok a t => post a t
    | .error _ t => stops t

namespace Triple

theorem pure {a : α} (h : ∀ s, pre s → post a s) : Triple pre (Pure.pure a) post stops := h

theorem throw {f : Fault} (h : ∀ s, pre s → stops s) :
    Triple pre (throw f : Run σ α) post stops := h

theorem bind {mid : α → RunState σ → Prop} {f : α → Run σ β} {post : β → RunState σ → Prop}
    (hx : Triple pre x mid stops) (hf : ∀ a, Triple (mid a) (f a) post stops) :
    Triple pre (x >>= f) post stops := by
  intro s hs
  have hmid := hx s hs
  cases heq : x s with
  | ok a t =>
    rw [heq] at hmid
    rw [bind_ok heq]
    exact hf a t hmid
  | error e t =>
    rw [heq] at hmid
    rw [bind_error heq]
    exact hmid

theorem imp (h : Triple pre x post stops) (hpre : ∀ s, pre' s → pre s)
    (hpost : ∀ a s, post a s → post' a s) : Triple pre' x post' stops := by
  intro s hs
  have hend := h s (hpre s hs)
  split at hend
  · exact hpost _ _ hend
  · exact hend

/-- A fact that does not depend on the state. -/
theorem of_and {φ : Prop} (h : φ → Triple pre x post stops) :
    Triple (fun s => φ ∧ pre s) x post stops := fun s hs => h hs.1 s hs.2

/-- Something of which only the existence is known before. -/
theorem of_exists {ι : Type} {pre : ι → RunState σ → Prop} (h : ∀ i, Triple (pre i) x post stops) :
    Triple (fun s => ∃ i, pre i s) x post stops := fun s ⟨i, hi⟩ => h i s hi

theorem of_ok (h : Triple pre x post stops) {s t : RunState σ} {a : α} (hs : pre s)
    (hx : x s = .ok a t) : post a t := by
  have hend := h s hs
  rw [hx] at hend
  exact hend

end Triple

/-! ## Properties of the memory -/

variable {M : Memo → Prop} {P : α → Prop}

/-- What holds of the memory before holds of it afterwards, and the result has a property. -/
def Upholds (M : Memo → Prop) (P : α → Prop) (x : Run σ α) : Prop :=
  Triple (fun s => M s.memo) x (fun a s => P a ∧ M s.memo) fun _ => True

namespace Upholds

theorem pure {a : α} (h : P a) : Upholds M P (Pure.pure a : Run σ α) :=
  Triple.pure fun _ hs => ⟨h, hs⟩

theorem throw (f : Fault) : Upholds M P (throw f : Run σ α) := Triple.throw fun _ _ => trivial

theorem bind {Q : β → Prop} {f : α → Run σ β} (hx : Upholds M P x)
    (hf : ∀ a, P a → Upholds M Q (f a)) : Upholds M Q (x >>= f) :=
  Triple.bind hx fun a => .of_and (hf a)

theorem imp {Q : α → Prop} (hx : Upholds M P x) (h : ∀ a, P a → Q a) : Upholds M Q x :=
  Triple.imp hx (fun _ hs => hs) fun a _ hs => ⟨h a hs.1, hs.2⟩

/-- What leaves the memory alone upholds everything. -/
theorem of_memo_eq (h : ∀ s a t, x s = .ok a t → P a ∧ t.memo = s.memo) : Upholds M P x := by
  intro s hs
  split
  · rename_i a t heq
    obtain ⟨ha, hmemo⟩ := h s a t heq
    exact ⟨ha, hmemo ▸ hs⟩
  · trivial

end Upholds

theorem upholds_height : Upholds (σ := σ) M (fun _ => True) height :=
  .of_memo_eq fun _ _ _ heq => by cases heq; exact ⟨trivial, rfl⟩

theorem upholds_cut (mark : Nat) : Upholds (σ := σ) M (fun _ => True) (cut mark) :=
  .of_memo_eq fun _ _ _ heq => by cases heq; exact ⟨trivial, rfl⟩

theorem upholds_bindLabel (label : String) (v : Value) :
    Upholds (σ := σ) M (fun _ => True) (bindLabel label v) :=
  .of_memo_eq fun _ _ _ heq => by cases heq; exact ⟨trivial, rfl⟩

theorem upholds_mute : Upholds (σ := σ) M (fun _ => True) mute :=
  .of_memo_eq fun _ _ _ heq => by cases heq; exact ⟨trivial, rfl⟩

theorem upholds_unmute : Upholds (σ := σ) M (fun _ => True) unmute :=
  .of_memo_eq fun _ _ _ heq => by cases heq; exact ⟨trivial, rfl⟩

theorem upholds_failAt (p : Nat) (t : Terminal) :
    Upholds (σ := σ) M (fun o => o = .failed) (failAt p t) :=
  .of_memo_eq fun _ _ _ heq => by cases heq; exact ⟨rfl, rfl⟩

theorem upholds_ask (hint : Option String) (code : String)
    (handler : Call → Bindings → σ → Response σ α) :
    Upholds M (fun _ => True) (ask hint code handler) := by
  refine .of_memo_eq fun s a t heq => ⟨trivial, ?_⟩
  obtain ⟨-, -, rfl⟩ := ask_eq_ok heq
  rfl

end Packrat.Run

namespace Packrat.Matcher

open Run

/-! ## All that a pass comes to -/

variable {σ : Type} {m : Matcher σ} {call : String → Nat → Run σ Outcome} {M : Memo → Prop} {fuel : Nat}
  {e e' : Expr} {p p' k : Nat} {s s' t : RunState σ}

theorem Iterates.memory {body : Nat → Run σ Outcome} {q : Nat}
    (hbody : ∀ q, Upholds M (fun _ => True) (body q)) (h : Iterates body p s q t) (hs : M s.memo) :
    M t.memo := by
  induction h with
  | first => exact hs
  | again before match_ moves ih => exact ((hbody _).of_ok ih match_).2

/-- What evaluations uphold holds when a part is begun, if it holds when the whole is. -/
theorem Begins.memory (heval : ∀ e p, Upholds M (fun _ => True) (m.eval call e p))
    (h : m.Begins call e p s k e' p' s') (hs : M s.memo) : M s'.memo := by
  cases h with
  | @seq span elements p s k e next vs t part before =>
    -- the elements before it are a sequence of their own
    have hwhole : m.eval call (.seq span (elements.take k)) p s = .ok (.matched p' (.list vs)) s' := by
      rw [eval, bind_ok (show height s = .ok s.labels.height s from rfl), bind_ok before]
      rfl
    exact ((heval _ p).of_ok hs hwhole).2
  | @choice span branches p s k e t part before =>
    have hwhole : m.eval call (.choice span (branches.take k)) p s = .ok .failed s' := by
      rw [eval, before]
    exact ((heval _ p).of_ok hs hwhole).2
  | star before => exact before.memory (heval e') hs
  | plus before => exact before.memory (heval e') hs
  | lookahead mute =>
    cases mute
    exact hs
  | opt | label | action | group => exact hs

/-- **What evaluations uphold holds of the memory wherever a pass comes to**, if it holds at its
beginning and no rule that is begun breaks it. -/
theorem Comes.memory {start : String} {s₀ : RunState σ} {r : Rule} {path : List Nat}
    (heval : ∀ fuel e p, Upholds M (fun _ => True) (m.eval (m.invoke fuel) e p))
    (hbegin : ∀ memo name p, M memo → M (memo.insert name p .inProgress))
    (h : m.Comes start s₀ fuel r path e p s) (h₀ : M s₀.memo) : M s.memo := by
  induction h with
  | start enough opens =>
    rw [opens.eq_opened]
    exact hbegin _ _ _ h₀
  | part whole begins ih => exact begins.memory (heval _) ih
  | body caller opens ih =>
    rw [opens.eq_opened]
    exact hbegin _ _ _ ih

end Packrat.Matcher

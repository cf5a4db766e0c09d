import Packrat.Engine.Eval
import Packrat.Proofs.Engine.Ledger
import Packrat.Proofs.Plain.Evaluator

/-!
# The operations of a run on the state of a ledger

Each operation of `Run` takes the state of a ledger to the state of another one.

* `Run.bind_ok`, `Run.bind_error` — a computation goes on after a result and stops at a fault.
* `Run.cut_state` — giving back the labels above a height of the current rule.
* `Run.enter_state`, `Run.leave_state` — the labels of a rule lie above those of its caller.
* `Run.askAction_state`, `Run.askPredicate_state` — pure handlers answer by their meaning.
-/

set_option autoImplicit false

namespace Packrat.Run

variable {σ α β : Type} {l : Ledger σ} {below visible : Bindings} {rule : String}

theorem bind_ok {x : Run σ α} {s s' : RunState σ} {a : α} (h : x s = .ok a s') (f : α → Run σ β) :
    (x >>= f) s = f a s' := by
  show EStateM.bind x f s = _
  rw [EStateM.bind, h]

theorem bind_error {x : Run σ α} {s s' : RunState σ} {e : Fault} (h : x s = .error e s')
    (f : α → Run σ β) : (x >>= f) s = .error e s' := by
  show EStateM.bind x f s = _
  rw [EStateM.bind, h]

theorem get_bind (f : RunState σ → Run σ β) (s : RunState σ) : (get >>= f) s = f s s := rfl

/-- A computation that ends with a result ends so in each of its parts. -/
theorem bind_eq_ok {x : Run σ α} {f : α → Run σ β} {s s' : RunState σ} {b : β}
    (h : (x >>= f) s = .ok b s') : ∃ a t, x s = .ok a t ∧ f a t = .ok b s' := by
  cases hx : x s with
  | ok a t =>
    rw [bind_ok hx] at h
    exact ⟨a, t, rfl, h⟩
  | error e t =>
    rw [bind_error hx] at h
    cases h

theorem map_eq_ok {x : Run σ α} {f : α → β} {s s' : RunState σ} {b : β}
    (h : (f <$> x) s = .ok b s') : ∃ a, x s = .ok a s' ∧ f a = b := by
  rw [map_eq_pure_bind] at h
  obtain ⟨a, t, hx, hb⟩ := bind_eq_ok h
  cases hb
  exact ⟨a, hx, rfl⟩

theorem tell_state (e : Event) :
    tell e (l.state below visible rule) = .ok () ((l.tell e).state below visible rule) := rfl

theorem failAt_state (p : Nat) (t : Terminal) :
    failAt p t (l.state below visible rule) = .ok .failed ((l.mark p t).state below visible rule) :=
  rfl

theorem mute_state : mute (l.state below visible rule) = .ok () (l.mute.state below visible rule) :=
  rfl

theorem unmute_state :
    unmute (l.state below visible rule) = .ok () (l.unmute.state below visible rule) := rfl

theorem remember_state (name : String) (p : Nat) (entry : MemoEntry) :
    remember name p entry (l.state below visible rule) =
      .ok () ((l.remember name p entry).state below visible rule) := rfl

theorem height_state : height (l.state below visible rule) =
    .ok (below.length + visible.length) (l.state below visible rule) := by
  show EStateM.Result.ok (below ++ visible).toArray.size (l.state below visible rule) = _
  rw [List.size_toArray, List.length_append]

/-- Labels that were added since a height are given back. -/
theorem cut_state {before : Bindings} (h : before <+: visible) :
    cut (below.length + before.length) (l.state below visible rule) =
      .ok () (l.state below before rule) := by
  obtain ⟨more, rfl⟩ := h
  have hcut : (⟨(below ++ (before ++ more)).toArray⟩ : LabelStack).cut
      (below.length + before.length) = ⟨(below ++ before).toArray⟩ := by
    apply LabelStack.ext_toList
    rw [LabelStack.toList_cut]
    show (below ++ (before ++ more)).take (below.length + before.length) = below ++ before
    rw [← List.append_assoc, ← List.length_append, List.take_left]
  show EStateM.Result.ok () { l.state below (before ++ more) rule with
    labels := (⟨(below ++ (before ++ more)).toArray⟩ : LabelStack).cut
      (below.length + before.length) } = _
  rw [hcut]
  rfl

theorem bindLabel_state (label : String) (v : Value) :
    bindLabel label v (l.state below visible rule) =
      .ok () (l.state below (visible ++ [(label, v)]) rule) := by
  have hpush : (⟨(below ++ visible).toArray⟩ : LabelStack).push label v =
      ⟨(below ++ (visible ++ [(label, v)])).toArray⟩ := by
    apply LabelStack.ext_toList
    rw [LabelStack.toList_push]
    exact List.append_assoc ..
  show EStateM.Result.ok () { l.state below visible rule with
    labels := (⟨(below ++ visible).toArray⟩ : LabelStack).push label v } = _
  rw [hpush]
  rfl

/-- A rule begins without labels: those of its caller lie below its own. -/
theorem enter_state (name : String) : enter name (l.state below visible rule) =
    .ok (rule, below.length) (l.state (below ++ visible) [] name) := by
  show EStateM.Result.ok (rule, below.length) { l.state below visible rule with
    rule := name, frame := (below ++ visible).toArray.size } = _
  rw [List.size_toArray, Ledger.state, Ledger.state, List.append_nil]

/-- At its end the labels of its caller are back. -/
theorem leave_state (own : Bindings) (name : String) :
    leave (rule, below.length) (l.state (below ++ visible) own name) =
      .ok () (l.state below visible rule) := by
  have hcut : (⟨(below ++ visible ++ own).toArray⟩ : LabelStack).cut (below ++ visible).length =
      ⟨(below ++ visible).toArray⟩ := by
    apply LabelStack.ext_toList
    rw [LabelStack.toList_cut]
    exact List.take_left
  show EStateM.Result.ok () { l.state (below ++ visible) own name with
    labels := (⟨(below ++ visible ++ own).toArray⟩ : LabelStack).cut (below ++ visible).length
    rule := rule
    frame := below.length } = _
  rw [hcut]
  rfl

/-- The labels that the current rule sees. -/
theorem visible_state : (l.state below visible rule).visible = visible := by
  rw [RunState.visible, LabelStack.above_eq]
  exact List.drop_left

theorem frame_le_height : ¬ (l.state below visible rule).labels.height <
    (l.state below visible rule).frame := by
  show ¬ (below ++ visible).toArray.size < below.length
  rw [List.size_toArray, List.length_append]
  omega

/-- A handler that answers. -/
theorem ask_state {handler : Call → Bindings → σ → Response σ α} {hint : Option String}
    {code : String} {a : α} (ha : (handler ⟨rule, hint, code⟩ visible l.user).answer = .ok a) :
    ask hint code handler (l.state below visible rule) =
      .ok a (Ledger.state { l with
        calls := l.calls.push ⟨⟨rule, hint, code⟩, visible⟩
        events := l.events ++ (handler ⟨rule, hint, code⟩ visible l.user).events.toArray
        user := (handler ⟨rule, hint, code⟩ visible l.user).state } below visible rule) := by
  rw [ask, if_neg frame_le_height, visible_state]
  simp only
  split
  · rename_i b hb
    cases hb.symm.trans ha
    rfl
  · rename_i e he
    cases he.symm.trans ha

section

variable {h : Handlers σ} {f : Meaning}

theorem askAction_state (hpure : h.Pure f) (hint code : String) :
    ask (some hint) code h.action (l.state below visible rule) =
      .ok (f.action ⟨rule, some hint, code⟩ visible)
        ((l.hear h ⟨⟨rule, some hint, code⟩, visible⟩).state below visible rule) :=
  ask_state (hpure.action _ _ _)

theorem askPredicate_state (hpure : h.Pure f) (code : String) :
    ask none code h.predicate (l.state below visible rule) =
      .ok (f.predicate ⟨rule, none, code⟩ visible)
        ((l.hear h ⟨⟨rule, none, code⟩, visible⟩).state below visible rule) :=
  ask_state (hpure.predicate _ _ _)

end

end Packrat.Run

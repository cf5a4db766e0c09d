import Packrat.Proofs.Engine.Safety
import Packrat.Proofs.Engine.Triples
import Packrat.Proofs.Grammar.LabelUse

/-!
# The labels that actions and predicates are handed

All rules that are being tried share one stack of labels; a call gets those above the frame of its
rule.  Whatever handlers answer, and also if a run stops at a fault, these are labels that the body
of the rule binds on the way to the call.

* `RunState.Holds` — the labels of the current rule, above those of the rules that wait for it.
* `Run.Scoped` — how a computation changes the labels of the current rule.
* `Matcher.eval_scoped`, `Matcher.invoke_scoped` — an expression adds the labels that it binds, and
  a rule none.
* `Grammar.calls_see` — every call gets labels that the body of its rule shows to its code.
* `compile_labels_once` — which labels a call can get twice.
-/

set_option autoImplicit false

namespace Packrat

variable {σ α β : Type}

/-- All calls so far have a property. -/
def RunState.Clear (P : CallRecord → Prop) (s : RunState σ) : Prop :=
  ∀ record ∈ s.calls.toList, P record

/-- The current rule has the labels `visible`, the rules that wait for it have the labels `below`,
and all calls so far have a property. -/
def RunState.Holds (P : CallRecord → Prop) (below visible : Bindings) (current : String)
    (s : RunState σ) : Prop :=
  ∃ l : Ledger σ, (∀ record ∈ l.calls.toList, P record) ∧ s = l.state below visible current

namespace Run

open RunState

variable {P : CallRecord → Prop} {below base start : Bindings} {current : String}

/-- With the labels `base` and `start` of the current rule before, a computation ends with the
labels `base` and others, of which something holds together with the result. -/
def Scoped (P : CallRecord → Prop) (below base : Bindings) (current : String) (start : Bindings)
    (x : Run σ α) (Q : α → Bindings → Prop) : Prop :=
  Triple (Holds P below (base ++ start) current) x
    (fun a s => ∃ more, Q a more ∧ Holds P below (base ++ more) current s) (Clear P)

namespace Scoped

variable {Q : α → Bindings → Prop} {R : β → Bindings → Prop}

theorem pure {a : α} (h : Q a start) :
    Scoped P below base current start (Pure.pure a : Run σ α) Q :=
  Triple.pure fun _ hs => ⟨start, h, hs⟩

theorem throw (f : Fault) : Scoped P below base current start (throw f : Run σ α) Q := by
  refine Triple.throw fun s hs => ?_
  obtain ⟨l, hl, rfl⟩ := hs
  exact hl

theorem bind {x : Run σ α} {f : α → Run σ β} (hx : Scoped P below base current start x Q)
    (hf : ∀ a more, Q a more → Scoped P below base current more (f a) R) :
    Scoped P below base current start (x >>= f) R :=
  Triple.bind hx fun a => .of_exists fun more => .of_and fun h => hf a more h

theorem imp {Q' : α → Bindings → Prop} {x : Run σ α} (hx : Scoped P below base current start x Q)
    (h : ∀ a more, Q a more → Q' a more) : Scoped P below base current start x Q' := by
  refine Triple.imp hx (fun _ hs => hs) fun a s hs => ?_
  obtain ⟨more, ha, hs⟩ := hs
  exact ⟨more, h a more ha, hs⟩

/-- The labels that are there already may count to those that a computation leaves alone. -/
theorem rebase {x : Run σ α} (hx : Scoped P below (base ++ start) current [] x Q) :
    Scoped P below base current start x
      fun a more => ∃ added, more = start ++ added ∧ Q a added := by
  refine Triple.imp hx (fun s hs => ?_) fun a s hs => ?_
  · rw [List.append_nil]
    exact hs
  · obtain ⟨added, ha, hs⟩ := hs
    rw [List.append_assoc] at hs
    exact ⟨start ++ added, ⟨added, rfl, ha⟩, hs⟩

/-- What changes a ledger and nothing else. -/
theorem of_ledger {x : Run σ α} {a : α} (f : Ledger σ → Ledger σ)
    (hx : ∀ l visible,
      x (l.state below visible current) = .ok a ((f l).state below visible current))
    (hcalls : ∀ l, (f l).calls = l.calls) (h : Q a start) :
    Scoped P below base current start x Q := by
  rintro s ⟨l, hl, rfl⟩
  rw [hx]
  exact ⟨start, h, f l, by rw [hcalls]; exact hl, rfl⟩

end Scoped

theorem scoped_height : Scoped (σ := σ) P below base current [] height
    fun mark more => mark = below.length + base.length ∧ more = [] := by
  rintro s ⟨l, hl, rfl⟩
  rw [List.append_nil, height_state]
  exact ⟨[], ⟨rfl, rfl⟩, l, hl, by rw [List.append_nil]⟩

/-- Giving back all labels above the base. -/
theorem scoped_cut : Scoped (σ := σ) P below base current start (cut (below.length + base.length))
    fun _ more => more = [] := by
  rintro s ⟨l, hl, rfl⟩
  rw [cut_state (List.prefix_append base start)]
  exact ⟨[], rfl, l, hl, by rw [List.append_nil]⟩

theorem scoped_bindLabel (label : String) (v : Value) :
    Scoped (σ := σ) P below base current start (bindLabel label v)
      fun _ more => more = start ++ [(label, v)] := by
  rintro s ⟨l, hl, rfl⟩
  rw [bindLabel_state, List.append_assoc]
  exact ⟨_, rfl, l, hl, rfl⟩

theorem scoped_failAt (p : Nat) (t : Terminal) :
    Scoped (σ := σ) P below base current start (failAt p t)
    fun o more => o = .failed ∧ more = start :=
  .of_ledger (fun l => l.mark p t) (fun _ _ => failAt_state p t) (fun _ => rfl) ⟨rfl, rfl⟩

theorem scoped_mute : Scoped (σ := σ) P below base current start mute fun _ more => more = start :=
  .of_ledger Ledger.mute (fun _ _ => mute_state) (fun _ => rfl) rfl

theorem scoped_unmute :
    Scoped (σ := σ) P below base current start unmute fun _ more => more = start :=
  .of_ledger Ledger.unmute (fun _ _ => unmute_state) (fun _ => rfl) rfl

theorem scoped_tell (e : Event) :
    Scoped (σ := σ) P below base current start (tell e) fun _ more => more = start :=
  .of_ledger (fun l => l.tell e) (fun _ _ => tell_state e) (fun _ => rfl) rfl

/-- A call, which has the property or else nothing is claimed. -/
theorem scoped_ask {hint : Option String} {code : String}
    {handler : Call → Bindings → σ → Response σ α}
    (hP : P ⟨⟨current, hint, code⟩, base ++ start⟩) :
    Scoped P below base current start (ask hint code handler) fun _ more => more = start := by
  rintro s ⟨l, hl, rfl⟩
  rw [ask, if_neg frame_le_height, visible_state]
  have hcalls :
      ∀ record ∈ (l.calls.push ⟨⟨current, hint, code⟩, base ++ start⟩).toList, P record := by
    rw [Array.toList_push, List.forall_mem_append]
    exact ⟨hl, List.forall_mem_singleton.2 hP⟩
  simp only
  split
  · rename_i heq
    split at heq <;> cases heq
    exact ⟨start, rfl, { l with
      calls := l.calls.push ⟨⟨current, hint, code⟩, base ++ start⟩
      events := l.events ++ (handler ⟨current, hint, code⟩ (base ++ start) l.user).events.toArray
      user := (handler ⟨current, hint, code⟩ (base ++ start) l.user).state }, hcalls, rfl⟩
  · rename_i heq
    split at heq <;> cases heq
    exact hcalls

end Run

namespace Matcher

open Run RunState

variable {m : Matcher σ} {call : String → Nat → Run σ Outcome} {P : CallRecord → Prop}
  {below visible : Bindings} {current : String}

/-- What fails adds no labels; a match adds labels that the expression binds. -/
def Adds (e : Expr) : Outcome → Bindings → Prop
  | .matched _ _, more => e.Binds more.labels
  | .failed, more => more = []

/-- Trying a rule leaves the labels of the current rule as they are. -/
def CallsScoped (P : CallRecord → Prop) (call : String → Nat → Run σ Outcome) : Prop :=
  ∀ name p below visible current,
    Scoped P below visible current [] (call name p) fun _ more => more = []

/-- The calls that are made with the labels `visible` and those that are seen since have a
property. -/
def Shown (P : CallRecord → Prop) (current : String) (visible : Bindings)
    (sees : List String → Prop) : Prop :=
  ∀ record ns, record.call.rule = current → record.bindings.labels = visible.labels ++ ns →
    sees ns → P record

theorem Shown.imp {sees sees' : List String → Prop} (h : Shown P current visible sees)
    (hsees : ∀ ns, sees' ns → sees ns) : Shown P current visible sees' :=
  fun record ns hrule hlabels hs => h record ns hrule hlabels (hsees ns hs)

/-- After more labels. -/
theorem Shown.after {sees sees' : List String → Prop} {more : Bindings}
    (h : Shown P current visible sees) (hsees : ∀ ns, sees' ns → sees (more.labels ++ ns)) :
    Shown P current (visible ++ more) sees' := by
  intro record ns hrule hlabels hs
  refine h record (more.labels ++ ns) hrule ?_ (hsees ns hs)
  rw [hlabels, Bindings.labels, List.map_append, List.append_assoc]
  rfl

theorem Shown.here {sees : List String → Prop} (h : Shown P current visible sees) (more : Bindings)
    (hsees : sees more.labels) (hint : Option String) (code : String) :
    P ⟨⟨current, hint, code⟩, visible ++ more⟩ :=
  h _ more.labels rfl (List.map_append ..) hsees

theorem literal_scoped (m : Matcher σ) (span : Span) (text : String) (p : Nat) :
    Scoped P below visible current [] (m.literal text p) (Adds (.literal span text)) := by
  unfold literal
  split
  · exact .pure .literal
  · exact (scoped_failAt p _).imp fun o more h => by rw [h.1, h.2]; rfl

theorem oneChar_scoped (m : Matcher σ) (t : Terminal) (test : Char → Bool) (p : Nat) {e : Expr}
    (he : e.Binds []) : Scoped P below visible current [] (m.oneChar t test p) (Adds e) := by
  have hmissed : Scoped (σ := σ) P below visible current [] (failAt p t) (Adds e) :=
    (scoped_failAt p t).imp fun o more h => by rw [h.1, h.2]; rfl
  unfold oneChar
  split
  · exact .throw _
  · exact hmissed
  · split
    · exact .pure he
    · exact hmissed

/-- The labels of several rounds of a repetition. -/
def Rounds (body : Expr) (ns : List String) : Prop :=
  ∃ nss : List (List String), (∀ ns ∈ nss, body.Binds ns) ∧ ns = nss.flatten

theorem Rounds.nil (body : Expr) : Rounds body [] := ⟨[], fun _ h => absurd h List.not_mem_nil, rfl⟩

theorem Rounds.append {body : Expr} {ns ms : List String} (h : Rounds body ns)
    (h' : Rounds body ms) : Rounds body (ns ++ ms) := by
  obtain ⟨nss, hnss, rfl⟩ := h
  obtain ⟨mss, hmss, rfl⟩ := h'
  exact ⟨nss ++ mss, List.forall_mem_append.2 ⟨hnss, hmss⟩, List.flatten_append.symm⟩

theorem Rounds.once {body : Expr} {ns : List String} (h : body.Binds ns) : Rounds body ns :=
  ⟨[ns], List.forall_mem_singleton.2 h, by simp⟩

theorem labels_append (before after : Bindings) :
    Bindings.labels (before ++ after) = before.labels ++ after.labels := List.map_append ..

/-- A repetition adds the labels of its rounds. -/
theorem repeatFrom_scoped {body : Nat → Run σ Outcome} {e : Expr} {G : Bindings → Prop}
    (hbody : ∀ visible q, G visible → Scoped P below visible current [] (body q) (Adds e))
    (hgood : ∀ visible more, G visible → e.Binds more.labels → G (visible ++ more)) (bound : Nat) :
    ∀ visible p, G visible → Scoped P below visible current [] (repeatFrom body bound p)
      fun r added => (r.2 = [] → added = []) ∧ Rounds e added.labels := by
  induction bound with
  | zero => exact fun _ _ _ => .throw _
  | succ bound ih =>
    intro visible p hvisible
    refine scoped_height.bind ?_
    rintro mark more ⟨rfl, rfl⟩
    refine (hbody visible p hvisible).bind fun o more ho => ?_
    cases o with
    | failed =>
      refine scoped_cut.bind ?_
      rintro _ more rfl
      exact .pure ⟨fun _ => rfl, .nil e⟩
    | matched next v =>
      simp only
      split
      · exact .pure ⟨fun h => (by cases h), .once ho⟩
      · refine (ih (visible ++ more) next (hgood visible more hvisible ho)).rebase.bind ?_
        rintro r _ ⟨added, rfl, -, hrounds⟩
        refine .pure ⟨fun h => (by cases h), ?_⟩
        rw [labels_append]
        exact (Rounds.once ho).append hrounds

/-- In each round the calls are handed the labels of the rounds before. -/
theorem rounds_scoped {body : Expr} (hbody : ∀ visible q, Shown P current visible body.Sees →
      Scoped P below visible current [] (m.eval call body q) (Adds body))
    (p : Nat) (hP : Shown P current visible fun ns =>
      ∃ before last, Rounds body before ∧ body.Sees last ∧ ns = before ++ last) :
    Scoped P below visible current [] (repeatFrom (m.eval call body) (m.input.size + 1) p)
      fun r added => (r.2 = [] → added = []) ∧ Rounds body added.labels := by
  refine repeatFrom_scoped (G := fun v => ∃ start : Bindings, v = visible ++ start ∧
    Rounds body start.labels) ?_ ?_ _ visible p ⟨[], by rw [List.append_nil], .nil body⟩
  · rintro _ q ⟨start, rfl, hstart⟩
    exact hbody (visible ++ start) q (hP.after fun ns hs => ⟨start.labels, ns, hstart, hs, rfl⟩)
  · rintro _ more ⟨start, rfl, hstart⟩ hmore
    refine ⟨start ++ more, by rw [List.append_assoc], ?_⟩
    rw [labels_append]
    exact hstart.append (.once hmore)

mutual

/-- **An expression adds the labels that it binds**, and its calls are handed labels that it
sees. -/
theorem eval_scoped (hcall : CallsScoped P call) (e : Expr) (p : Nat) (visible : Bindings)
    (hP : Shown P current visible e.Sees) :
    Scoped P below visible current [] (m.eval call e p) (Adds e) := by
  cases e with
  | literal span text => exact literal_scoped m span text p
  | charClass span k => exact oneChar_scoped m _ _ p .charClass
  | anyChar span => exact oneChar_scoped m _ _ p .anyChar
  | ref reference =>
    refine (hcall reference.name.name p below visible current).imp ?_
    rintro o _ rfl
    cases o with
    | failed => rfl
    | matched stop v => exact .ref
  | seq span elements =>
    refine scoped_height.bind ?_
    rintro mark _ ⟨rfl, rfl⟩
    refine (evalSeq_scoped hcall elements p visible (hP.imp fun _ => .seq)).bind fun r more hr => ?_
    cases r with
    | none =>
      refine scoped_cut.bind ?_
      rintro _ _ rfl
      exact .pure rfl
    | some r => exact .pure (.seq (hr r rfl))
  | choice span branches =>
    refine (evalChoice_scoped hcall branches p visible ?_).imp fun o more ho => ?_
    · exact hP.imp fun ns ⟨e, he, hs⟩ => .choice he hs
    · cases o with
      | failed => exact ho
      | matched stop v =>
        obtain ⟨e, he, hbinds⟩ := ho
        exact .choice he hbinds
  | star span body =>
    refine (rounds_scoped (fun visible q => eval_scoped hcall body q visible) p (hP.imp ?_)).bind ?_
    · rintro ns ⟨ms, last, ⟨nss, hnss, rfl⟩, hlast, rfl⟩
      exact .star hnss hlast
    · rintro ⟨stop, vs⟩ more ⟨hnil, nss, hnss, hmore⟩
      cases vs with
      | nil =>
        obtain rfl := hnil rfl
        have hnone : ∀ ns ∈ ([] : List (List String)), body.Binds ns :=
          fun _ h => absurd h List.not_mem_nil
        exact .pure (.star hnone)
      | cons v vs =>
        refine .pure ?_
        rw [Adds, hmore]
        exact .star hnss
  | plus span body =>
    refine (rounds_scoped (fun visible q => eval_scoped hcall body q visible) p (hP.imp ?_)).bind ?_
    · rintro ns ⟨ms, last, ⟨nss, hnss, rfl⟩, hlast, rfl⟩
      exact .plus hnss hlast
    · rintro ⟨stop, vs⟩ more ⟨hnil, nss, hnss, hmore⟩
      cases vs with
      | nil => exact .pure (hnil rfl)
      | cons v vs =>
        refine .pure ?_
        rw [Adds, hmore]
        exact .plus hnss
  | opt span body =>
    refine (eval_scoped hcall body p visible (hP.imp fun _ => .opt)).bind fun o more ho => ?_
    cases o with
    | failed =>
      obtain rfl : more = [] := ho
      exact .pure .optNone
    | matched stop v => exact .pure (.opt ho)
  | lookahead span polarity body =>
    refine scoped_height.bind ?_
    rintro mark _ ⟨rfl, rfl⟩
    refine scoped_mute.bind ?_
    rintro _ _ rfl
    refine (eval_scoped hcall body p visible (hP.imp fun _ => .lookahead)).bind fun o more _ => ?_
    refine scoped_unmute.bind ?_
    rintro _ _ rfl
    refine scoped_cut.bind ?_
    rintro _ _ rfl
    refine .pure ?_
    cases wants polarity o.isMatch with
    | false => rfl
    | true => exact .lookahead
  | codePredicate span polarity code =>
    refine (scoped_ask (hP.here [] .codePredicate none code.text)).bind ?_
    rintro holds _ rfl
    refine .pure ?_
    cases wants polarity holds with
    | false => rfl
    | true => exact .codePredicate
  | label span name body =>
    refine (eval_scoped hcall body p visible (hP.imp fun _ => .label)).bind fun o more ho => ?_
    cases o with
    | failed => exact .pure ho
    | matched stop v =>
      refine (scoped_bindLabel name.name v).bind ?_
      rintro _ _ rfl
      refine .pure ?_
      rw [Adds, labels_append]
      exact .label ho
  | action span hint code body =>
    refine (eval_scoped hcall body p visible (hP.imp fun _ => .actionBody)).bind fun o more ho => ?_
    cases o with
    | failed => exact .pure ho
    | matched stop v =>
      refine (scoped_ask (hP.here more (.action ho) (some hint) code.text)).bind ?_
      rintro w _ rfl
      exact .pure (.action ho)
  | bareAction span hint code =>
    refine (scoped_ask (hP.here [] .bareAction (some hint) code.text)).bind ?_
    rintro w _ rfl
    exact .pure .bareAction
  | group span body =>
    refine (eval_scoped hcall body p visible (hP.imp fun _ => .group)).imp fun o more ho => ?_
    cases o with
    | failed => exact ho
    | matched stop v => exact .group ho

theorem evalSeq_scoped (hcall : CallsScoped P call) (es : List Expr) (p : Nat) (visible : Bindings)
    (hP : Shown P current visible (Expr.SeesAll es)) :
    Scoped P below visible current [] (m.evalSeq call es p) fun r more =>
      ∀ x, r = some x → Expr.BindsAll es more.labels := by
  cases es with
  | nil => exact .pure fun _ _ => .nil
  | cons e rest =>
    refine (eval_scoped hcall e p visible (hP.imp fun _ => .head)).bind fun o more ho => ?_
    cases o with
    | failed => exact .pure fun x hx => by cases hx
    | matched next v =>
      refine (evalSeq_scoped hcall rest next (visible ++ more)
        (hP.after fun _ => .tail ho)).rebase.bind ?_
      rintro r _ ⟨added, rfl, hr⟩
      cases r with
      | none => exact .pure fun x hx => by cases hx
      | some r =>
        refine .pure fun x hx => ?_
        rw [labels_append]
        exact .cons ho (hr r rfl)

theorem evalChoice_scoped (hcall : CallsScoped P call) (es : List Expr) (p : Nat)
    (visible : Bindings) (hP : Shown P current visible fun ns => ∃ e ∈ es, e.Sees ns) :
    Scoped P below visible current [] (m.evalChoice call es p) fun o more =>
      match o with
      | .matched _ _ => ∃ e ∈ es, e.Binds more.labels
      | .failed => more = [] := by
  cases es with
  | nil => exact .pure rfl
  | cons e rest =>
    refine scoped_height.bind ?_
    rintro mark _ ⟨rfl, rfl⟩
    have hfirst : Shown P current visible e.Sees :=
      hP.imp fun ns hs => ⟨e, List.mem_cons_self .., hs⟩
    refine (eval_scoped hcall e p visible hfirst).bind fun o more ho => ?_
    cases o with
    | matched stop v => exact .pure ⟨e, List.mem_cons_self .., ho⟩
    | failed =>
      refine scoped_cut.bind ?_
      rintro _ _ rfl
      have hrest : Shown P current visible fun ns => ∃ e ∈ rest, e.Sees ns :=
        hP.imp fun ns ⟨e, he, hs⟩ => ⟨e, List.mem_cons_of_mem _ he, hs⟩
      refine (evalChoice_scoped hcall rest p visible hrest).imp fun o more ho => ?_
      cases o with
      | failed => exact ho
      | matched stop v =>
        obtain ⟨e, he, hbinds⟩ := ho
        exact ⟨e, List.mem_cons_of_mem _ he, hbinds⟩

end

/-! ## Rules -/

/-- A call from a rule, with labels that the body of the rule shows to its code. -/
def Shows (m : Matcher σ) (record : CallRecord) : Prop :=
  ∃ r, m.rule? record.call.rule = some r ∧ r.expr.Sees record.bindings.labels

theorem opened_state (l : Ledger σ) (name : String) (p : Nat) :
    (l.state below visible current).opened name p =
      ((l.remember name p .inProgress).tell (.attempt name p)).state (below ++ visible) []
        name := by
  simp [RunState.opened, Ledger.state, Ledger.remember, Ledger.tell, LabelStack.height]

theorem closed_state (l l' : Ledger σ) (own : Bindings) (name : String) (p : Nat) (o : Outcome) :
    (l.state below visible current).closed (l'.state (below ++ visible) own name) name p o =
      ((l'.tell (outcomeEvent name p o)).remember name p (.done o)).state below visible
        current := by
  have hcut : (⟨(below ++ visible ++ own).toArray⟩ : LabelStack).cut (below ++ visible).length =
      ⟨(below ++ visible).toArray⟩ := by
    apply LabelStack.ext_toList
    rw [LabelStack.toList_cut]
    exact List.take_left
  simp only [RunState.closed, Ledger.state, Ledger.remember, Ledger.tell, hcut]

/-- **A rule leaves the labels of its caller as they are**, and its calls are handed labels that its
body shows. -/
theorem invoke_scoped (m : Matcher σ) (fuel : Nat) : CallsScoped m.Shows (m.invoke fuel) := by
  induction fuel with
  | zero => exact fun _ _ _ _ _ => .throw _
  | succ fuel ih =>
    intro name p below visible current
    cases hr : m.rule? name with
    | none =>
      rw [invoke, hr]
      exact .throw _
    | some r =>
      rintro s ⟨l, hl, rfl⟩
      rw [List.append_nil]
      cases hf : (l.state below visible current).memo.find? name p with
      | none =>
        rw [invoke_of_none hr hf, opened_state]
        generalize hopened : (l.remember name p .inProgress).tell (.attempt name p) = opened
        have hcalls : ∀ record ∈ opened.calls.toList, m.Shows record := hopened ▸ hl
        -- the body begins without labels of its own, so it sees just what it binds
        have hshown : Shown m.Shows name [] r.expr.Sees := by
          intro record ns hrule hlabels hs
          refine ⟨r, hrule ▸ hr, ?_⟩
          rw [hlabels]
          exact hs
        have hbody : Scoped m.Shows (below ++ visible) [] name [] (m.eval (m.invoke fuel) r.expr p)
            (Adds r.expr) := eval_scoped ih r.expr p [] hshown
        have hend := hbody (opened.state (below ++ visible) [] name) ⟨opened, hcalls, rfl⟩
        cases heq : m.eval (m.invoke fuel) r.expr p (opened.state (below ++ visible) [] name) with
        | ok o t =>
          rw [heq] at hend
          obtain ⟨own, -, l', hl', rfl⟩ := hend
          simp only [List.nil_append, closed_state]
          exact ⟨[], rfl, (l'.tell (outcomeEvent name p o)).remember name p (.done o), hl',
            by rw [List.append_nil]⟩
        | error e t =>
          rw [heq] at hend
          exact hend
      | some entry =>
        cases entry with
        | done o =>
          rw [invoke_of_done hr hf]
          exact ⟨[], rfl, l.tell (cachedEvent name p o), hl, by rw [List.append_nil]; rfl⟩
        | inProgress =>
          rw [invoke_of_inProgress hr hf]
          exact hl

/-- Both passes of a parse leave no labels. -/
theorem wholeMatch_scoped (m : Matcher σ) (start : String) :
    Scoped m.Shows [] [] "" [] (m.wholeMatch start) fun _ more => more = [] := by
  refine (m.invoke_scoped m.fuel start 0 [] [] "").bind fun o more hmore => ?_
  cases o with
  | failed => exact .pure hmore
  | matched stop v =>
    simp only
    split
    · exact .pure hmore
    · exact (scoped_failAt stop .endOfInput).bind fun _ more h => .pure (h.2.trans hmore)

theorem mismatch_scoped (m : Matcher σ) :
    Scoped m.Shows [] [] "" [] m.mismatch fun _ more => more = [] := by
  rintro s ⟨l, hl, rfl⟩
  rw [List.append_nil, mismatch, get_bind]
  cases (l.state [] [] "").failures.error m.input.text with
  | ok e => exact ⟨[], rfl, l, hl, rfl⟩
  | error f => exact hl

theorem parse_scoped (m : Matcher σ) (start : String) :
    Scoped m.Shows [] [] "" [] (m.parse start) fun _ more => more = [] := by
  refine (m.wholeMatch_scoped start).bind ?_
  rintro first _ rfl
  cases first with
  | some v => exact .pure rfl
  | none =>
    have hsecond : Scoped m.Shows [] [] "" [] (modify RunState.secondPass : Run σ Unit)
        fun _ more => more = [] := by
      rintro s ⟨l, hl, rfl⟩
      exact ⟨[], rfl, l.secondPass, hl, rfl⟩
    refine hsecond.bind ?_
    rintro _ _ rfl
    refine (m.wholeMatch_scoped start).bind ?_
    rintro again _ rfl
    cases again with
    | some v => exact (scoped_tell _).bind fun _ _ h => .pure h
    | none => exact m.mismatch_scoped.bind fun _ _ h => .pure h

end Matcher

/-! ## Runs -/

theorem Run.Scoped.calls_report {P : CallRecord → Prop} {x : Run σ α} {Q : α → Bindings → Prop}
    (hx : Scoped P [] [] "" [] x Q) (f : α → β) (user : σ) :
    ∀ record ∈ ((f <$> x).report user).calls, P record := by
  have hmap : Scoped P [] [] "" [] (f <$> x) fun _ _ => True := by
    rw [map_eq_pure_bind]
    exact hx.bind fun _ _ _ => .pure trivial
  have hinit : RunState.Holds P [] ([] ++ []) "" (.init user) :=
    ⟨.init user, fun _ h => absurd h List.not_mem_nil, rfl⟩
  have hend := hmap (.init user) hinit
  unfold report
  split
  · rename_i a s heq
    rw [heq] at hend
    obtain ⟨-, -, l, hl, rfl⟩ := hend
    exact hl
  · rename_i e s heq
    rw [heq] at hend
    exact hend

namespace Grammar

variable {g : Grammar}

/-- **Every call of a run or a parse gets labels that the body of its rule shows to its code.** -/
theorem calls_see (g : Grammar) (h : Handlers σ) (user : σ) (start : String) (input : List Char) :
    ∀ record ∈ (g.run h user start input).calls ++ (g.parse h user start input).calls,
      ∃ r, g.rule? record.call.rule = some r ∧ r.expr.Sees record.bindings.labels := by
  rw [List.forall_mem_append]
  constructor
  · rw [run]
    split
    · exact fun _ h => absurd h List.not_mem_nil
    · exact ((g.matcher h input).invoke_scoped _ start 0 [] [] "").calls_report _ user
  · rw [parse]
    split
    · exact fun _ h => absurd h List.not_mem_nil
    · exact ((g.matcher h input).parse_scoped start).calls_report _ user

end Grammar

/-- **Which labels a call can be handed twice.**  In a run or a parse of a grammar that is accepted,
at whatever depth, a label that is bound twice for a call is bound by a repetition in the calling
rule, or by a choice in an element of a sequence and again by a later element of this sequence. -/
theorem compile_labels_once {depth : Nat} {source : String} {cs : List Char} {g : Grammar}
    (hg : (compileWithin depth source cs).answer = .ok (.ok g)) (h : Handlers σ) (user : σ)
    (start : String) (input : List Char) :
    ∀ record ∈ (g.run h user start input).calls ++ (g.parse h user start input).calls,
      ∃ r, g.rule? record.call.rule = some r ∧ ∀ name, 2 ≤ record.bindings.labels.count name →
        r.expr.Loops name ∨ r.expr.Outlives name := by
  intro record hrecord
  obtain ⟨r, hr, hsees⟩ := g.calls_see h user start input record hrecord
  refine ⟨r, hr, fun name htwice => ?_⟩
  have hapart := compile_apart hg (List.mem_of_find?_eq_some hr)
  by_contra hneither
  have hone := hsees.count_le_one
    ⟨hapart, fun hl => hneither (.inl hl), fun ho => hneither (.inr ho)⟩
  omega

/-- The first branch of the choice matches and keeps its label, which is bound again behind the
choice. -/
theorem compile_labels_once_branch : ∃ g, (compile "branch.peg"
      "S <- (a:'x' / 'y') a:'z' T:{ t }".toList).answer = .ok (.ok g) ∧
      ∃ record ∈ (g.run (.none Unit) () "S" "xz".toList).calls,
        record.bindings.labels = ["a", "a"] ∧
        ∃ r, g.rule? record.call.rule = some r ∧ (r.expr.Loops "a" ∨ r.expr.Outlives "a") := by
  obtain ⟨g, hg, -, hcalls⟩ := exists_of_acceptedWith? (show (acceptedWith? "branch.peg"
    "S <- (a:'x' / 'y') a:'z' T:{ t }".toList "S").any
      (fun g => (g.run (.none Unit) () "S" "xz".toList).calls.any
        fun record => record.bindings.labels == ["a", "a"]) = true by decide +kernel)
  obtain ⟨record, hrecord, hlabels⟩ := List.any_eq_true.1 hcalls
  have hlabels : record.bindings.labels = ["a", "a"] := eq_of_beq hlabels
  obtain ⟨r, hr, honce⟩ := compile_labels_once hg (.none Unit) () "S" "xz".toList record
    (List.mem_append_left _ hrecord)
  exact ⟨g, hg, record, hrecord, hlabels, r, hr, honce "a" (by rw [hlabels]; decide)⟩

end Packrat

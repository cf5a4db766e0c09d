import Packrat.Proofs.Engine.Safety
import Packrat.Proofs.Grammar.Equality
import Packrat.Proofs.Plain.Memory

/-!
# The furthest failure of a parse

* `Failures.markAll` — a record after several failures.
* `Step.performAll_failures` — the record of a pass has the failures of its steps with a memory.
* `ParseError.Tells` — an error gives the furthest of several failures, and all that failed there.
* `compile_tells_heard` — the error of a parse tells what fails if rules are remembered, and when this
  is what fails plainly.
-/

set_option autoImplicit false

namespace Packrat

variable {σ : Type}

/-! ## The record -/

namespace Failures

/-- A record after several failures. -/
def markAll (f : Failures) (fs : List (Nat × Terminal)) : Failures :=
  fs.foldl (fun f x => f.mark x.1 x.2.display) f

theorem markAll_append (f : Failures) (before after : List (Nat × Terminal)) :
    f.markAll (before ++ after) = (f.markAll before).markAll after := List.foldl_append ..

/-- In a lookahead nothing is recorded. -/
theorem markAll_of_muted {f : Failures} (h : f.muted ≠ 0) (fs : List (Nat × Terminal)) :
    f.markAll fs = f := by
  induction fs with
  | nil => rfl
  | cons x fs ih =>
    rw [markAll, List.foldl_cons, mark, if_pos h]
    exact ih

theorem unmute_mute (f : Failures) : f.mute.unmute = f := rfl

/-- The first pass finds the furthest failure. -/
theorem markAll_searching (q : Nat) (expected : ExpectedSet) (fs : List (Nat × Terminal)) :
    (⟨q, 0, false, expected⟩ : Failures).markAll fs =
      ⟨(fs.map (·.1)).foldl max q, 0, false, expected⟩ := by
  induction fs generalizing q with
  | nil => rfl
  | cons x fs ih =>
    have hmark : (⟨q, 0, false, expected⟩ : Failures).mark x.1 x.2.display =
        ⟨max q x.1, 0, false, expected⟩ := by
      unfold mark
      rw [if_neg (by simp), if_neg Bool.false_ne_true]
      simp only
      split
      · rename_i hlt
        rw [Nat.max_eq_right (Nat.le_of_lt hlt)]
      · rename_i hge
        rw [Nat.max_eq_left (Nat.not_lt.1 hge)]
    rw [markAll, List.foldl_cons, hmark]
    exact ih (max q x.1)

/-- The second pass collects what fails there. -/
theorem markAll_collecting (q : Nat) (expected : ExpectedSet) (fs : List (Nat × Terminal)) :
    ∃ tokens, (⟨q, 0, true, expected⟩ : Failures).markAll fs = ⟨q, 0, true, tokens⟩ ∧
      ∀ d, d ∈ tokens.tokens ↔ d ∈ expected.tokens ∨ ∃ t, (q, t) ∈ fs ∧ t.display = d := by
  induction fs generalizing expected with
  | nil => exact ⟨expected, rfl, fun d => by simp⟩
  | cons x fs ih =>
    obtain ⟨p, t⟩ := x
    rw [markAll, List.foldl_cons]
    by_cases hp : p = q
    · subst hp
      obtain ⟨tokens, hmark, htokens⟩ := ih (expected.insert t.display)
      refine ⟨tokens, ?_, fun d => ?_⟩
      · rw [mark, if_neg (by simp), if_pos rfl, if_pos rfl]
        exact hmark
      · rw [htokens d, ExpectedSet.mem_insert]
        constructor
        · rintro ((rfl | hd) | ⟨u, hu, rfl⟩)
          · exact .inr ⟨t, List.mem_cons_self .., rfl⟩
          · exact .inl hd
          · exact .inr ⟨u, List.mem_cons_of_mem _ hu, rfl⟩
        · rintro (hd | ⟨u, hu, rfl⟩)
          · exact .inl (.inr hd)
          · rcases List.mem_cons.1 hu with hu | hu
            · cases hu
              exact .inl (.inl rfl)
            · exact .inr ⟨u, hu, rfl⟩
    · obtain ⟨tokens, hmark, htokens⟩ := ih expected
      refine ⟨tokens, ?_, fun d => ?_⟩
      · rw [mark, if_neg (by simp), if_pos rfl, if_neg hp]
        exact hmark
      · rw [htokens d]
        have hmem : ∀ u, (q, u) ∈ (p, t) :: fs ↔ (q, u) ∈ fs := by
          intro u
          rw [List.mem_cons, Prod.mk.injEq]
          exact ⟨fun h => h.elim (fun h => absurd h.1.symm hp) id, .inr⟩
        simp only [hmem]

end Failures

/-! ## The record of a pass -/

/-- The rules and offsets of which something is known. -/
def Ledger.Remembers (l : Ledger σ) (seen : Seen) : Prop :=
  ∀ name p, (l.memo.find? name p).isSome = true ↔ (name, p) ∈ seen

theorem Ledger.Fresh.remembers {l : Ledger σ} (h : l.Fresh) : l.Remembers [] := by
  intro name p
  rw [h, Memo.find?_empty]
  simp

theorem Ledger.Remembers.insert {l : Ledger σ} {seen : Seen} (h : l.Remembers seen)
    (name : String) (p : Nat) (entry : MemoEntry) :
    (l.remember name p entry).Remembers ((name, p) :: seen) := by
  intro other q
  rw [memo_remember, Memo.find?_insert, List.mem_cons, Prod.mk.injEq]
  split
  · rename_i heq
    simp [heq]
  · rename_i hne
    rw [h other q]
    exact ⟨.inr, fun h => h.resolve_left hne⟩

/-- What is remembered of a rule may change. -/
theorem Ledger.Remembers.replace {l : Ledger σ} {seen : Seen} (h : l.Remembers seen)
    {name : String} {p : Nat} (hseen : (name, p) ∈ seen) (entry : MemoEntry) :
    (l.remember name p entry).Remembers seen := by
  intro other q
  rw [h.insert name p entry other q, List.mem_cons]
  exact ⟨fun h => h.elim (fun h => h ▸ hseen) id, .inr⟩

namespace Step

variable {h : Handlers σ}

mutual

theorem subset_prune (seen : Seen) (s : Step) : seen ⊆ (s.prune seen).2 := by
  cases s with
  | lookahead inside =>
    rw [prune]
    exact subset_pruneAll seen inside
  | rule name p o inside =>
    rw [prune]
    split
    · exact List.Subset.refl _
    · exact fun x hx => subset_pruneAll _ inside (List.mem_cons_of_mem _ hx)
  | failure | asked | known =>
    rw [prune]
    exact List.Subset.refl _

/-- What is remembered once stays so. -/
theorem subset_pruneAll (seen : Seen) (steps : List Step) : seen ⊆ (pruneAll seen steps).2 := by
  cases steps with
  | nil => exact List.Subset.refl _
  | cons s rest => exact fun x hx => subset_pruneAll _ rest (subset_prune seen s hx)

end

mutual

theorem perform_failures (s : Step) (l : Ledger σ) (seen : Seen) (hl : l.Remembers seen) :
    (s.perform h l).Remembers (s.prune seen).2 ∧
      (s.perform h l).failures = l.failures.markAll (s.prune seen).1.failures := by
  cases s with
  | failure p t =>
    rw [prune, failures]
    exact ⟨hl, rfl⟩
  | asked record =>
    rw [prune, failures]
    exact ⟨hl, rfl⟩
  | lookahead inside =>
    obtain ⟨hmemo, hfailures⟩ := performAll_failures inside l.mute seen hl
    rw [prune, perform]
    refine ⟨hmemo, ?_⟩
    rw [failures]
    show (performAll h inside l.mute).failures.unmute = l.failures
    rw [hfailures, Failures.markAll_of_muted (Nat.succ_ne_zero _)]
    exact Failures.unmute_mute l.failures
  | rule name p o inside =>
    rw [prune]
    cases hf : l.memo.find? name p with
    | some entry =>
      have hseen : (name, p) ∈ seen := (hl name p).1 (by rw [hf]; rfl)
      rw [if_pos hseen, perform_rule_of_some hf, failures]
      exact ⟨hl, rfl⟩
    | none =>
      have hnew : (name, p) ∉ seen := fun hseen => by
        have hsome := (hl name p).2 hseen
        rw [hf] at hsome
        cases hsome
      obtain ⟨hmemo, hfailures⟩ := performAll_failures inside
        ((l.remember name p .inProgress).tell (.attempt name p)) _ (hl.insert name p .inProgress)
      rw [if_neg hnew, perform_rule_of_none hf]
      refine ⟨hmemo.replace (subset_pruneAll _ inside (List.mem_cons_self ..)) _, ?_⟩
      rw [failures]
      exact hfailures
  | known name p o =>
    rw [prune, failures]
    exact ⟨hl, rfl⟩

/-- **The record of a pass has the failures of its steps with a memory.** -/
theorem performAll_failures (steps : List Step) (l : Ledger σ) (seen : Seen)
    (hl : l.Remembers seen) : (performAll h steps l).Remembers (pruneAll seen steps).2 ∧
      (performAll h steps l).failures =
        l.failures.markAll (failuresAll (pruneAll seen steps).1) := by
  cases steps with
  | nil =>
    rw [performAll_nil, pruneAll, failuresAll]
    exact ⟨hl, rfl⟩
  | cons s rest =>
    obtain ⟨hmemo, hfailures⟩ := perform_failures s l seen hl
    obtain ⟨hmemo', hfailures'⟩ := performAll_failures rest (s.perform h l) _ hmemo
    rw [performAll_cons, pruneAll]
    refine ⟨hmemo', ?_⟩
    simp only
    rw [failuresAll, Failures.markAll_append, hfailures', hfailures]

end

end Step

/-! ## The error of a parse -/

/-- The failures that are left outside lookaheads if rules are remembered. -/
def Step.heard (steps : List Step) : List (Nat × Terminal) :=
  Step.failuresAll (Step.pruneAll [] steps).1

/-- An error gives the furthest of several failures, or the start if there is none, and all that failed
there. -/
structure ParseError.Tells (e : ParseError) (fs : List (Nat × Terminal)) : Prop where
  furthest : ∀ x ∈ fs, x.1 ≤ e.location.offset
  reached : e.location.offset = 0 ∨ ∃ t, (e.location.offset, t) ∈ fs
  expected : ∀ d, d ∈ e.expected.tokens ↔ ∃ t, (e.location.offset, t) ∈ fs ∧ t.display = d

/-- The largest of several numbers that are not below `q`. -/
theorem foldl_max_spec (q : Nat) (ps : List Nat) :
    (∀ p ∈ ps, p ≤ ps.foldl max q) ∧ (ps.foldl max q = q ∨ ps.foldl max q ∈ ps) := by
  have hmax : (q :: ps).max? = some (ps.foldl max q) := List.max?_cons'
  obtain ⟨hmem, hle⟩ := List.max?_eq_some_iff.1 hmax
  exact ⟨fun p hp => hle p (List.mem_cons_of_mem _ hp), List.mem_cons.1 hmem⟩

theorem exists_furthest {fs : List (Nat × Terminal)} {x : Nat × Terminal} (hx : x ∈ fs) :
    ∃ y ∈ fs, ∀ z ∈ fs, z.1 ≤ y.1 := by
  obtain ⟨hle, hmem⟩ := foldl_max_spec x.1 (fs.map (·.1))
  have hmax : ∀ z ∈ fs, z.1 ≤ (fs.map (·.1)).foldl max x.1 :=
    fun z hz => hle _ (List.mem_map_of_mem hz)
  rcases hmem with heq | hmem
  · exact ⟨x, hx, heq ▸ hmax⟩
  · obtain ⟨y, hy, heq⟩ := List.mem_map.1 hmem
    exact ⟨y, hy, heq ▸ hmax⟩

/-- The failures that are told decide, of a longer list of failures, whether the error tells it. -/
theorem ParseError.Tells.iff_of_subset {e : ParseError} {heard fs : List (Nat × Terminal)}
    (h : e.Tells heard) (hsub : heard ⊆ fs) :
    e.Tells fs ↔ ∀ p t, (p, t) ∈ fs → (∀ x ∈ fs, x.1 ≤ p) →
      ∃ t', (p, t') ∈ heard ∧ t'.display = t.display := by
  constructor
  · intro hall p t hp hmax
    have hle := hall.furthest _ hp
    have heq : e.location.offset = p := by
      rcases hall.reached with hzero | ⟨u, hu⟩
      · simp only at hle
        omega
      · have hge := hmax _ hu
        simp only at hle hge
        omega
    obtain ⟨t', ht', hd⟩ := (h.expected t.display).1
      ((hall.expected t.display).2 ⟨t, heq ▸ hp, rfl⟩)
    exact ⟨t', heq ▸ ht', hd⟩
  · intro hheard
    have hreached : e.location.offset = 0 ∨ ∃ t, (e.location.offset, t) ∈ fs :=
      h.reached.imp id fun ⟨t, ht⟩ => ⟨t, hsub ht⟩
    have hfurthest : ∀ x ∈ fs, x.1 ≤ e.location.offset := by
      intro x hx
      -- the furthest of all failures is heard, so the error is at least as far
      obtain ⟨⟨p, t⟩, hp, hmax⟩ := exists_furthest hx
      obtain ⟨t', ht', -⟩ := hheard p t hp hmax
      have hle : p ≤ e.location.offset := h.furthest _ ht'
      exact Nat.le_trans (hmax x hx) hle
    refine ⟨hfurthest, hreached, fun d => ?_⟩
    rw [h.expected d]
    constructor
    · rintro ⟨t, ht, hd⟩
      exact ⟨t, hsub ht, hd⟩
    · rintro ⟨t, ht, rfl⟩
      exact hheard _ t ht hfurthest

/-- **Two passes tell the failures of their steps with a memory.** -/
theorem Step.performTwice_tells {h : Handlers σ} (steps : List Step) (user : σ) {input : List Char}
    {e : ParseError} (he : (performTwice h steps (.init user)).failures.error input = .ok e) :
    e.Tells (heard steps) := by
  have hfirst := (performAll_failures (h := h) steps (.init user) []
    (Ledger.fresh_init user).remembers).2
  have hsecond := (performAll_failures (h := h) steps (performAll h steps (.init user)).secondPass []
    (Ledger.fresh_secondPass _).remembers).2
  have hinit : (Ledger.init user).failures = ⟨0, 0, false, .empty⟩ := rfl
  rw [hinit, Failures.markAll_searching] at hfirst
  have hcollect : (performAll h steps (.init user)).secondPass.failures =
      (performAll h steps (.init user)).failures.collect := rfl
  rw [hcollect, hfirst] at hsecond
  obtain ⟨tokens, hmark, htokens⟩ := Failures.markAll_collecting
    (((heard steps).map (·.1)).foldl max 0) .empty
    (heard steps)
  have htwice : (performTwice h steps (.init user)).failures =
      ⟨((heard steps).map (·.1)).foldl max 0, 0, true, tokens⟩ :=
    hsecond.trans hmark
  rw [htwice, Failures.error] at he
  split at he
  · rename_i location hlocation
    cases he
    have hoffset := LineCol.offset_of_at? hlocation
    simp only at hoffset
    obtain ⟨hle, hmem⟩ := foldl_max_spec 0 ((heard steps).map (·.1))
    refine ⟨fun x hx => ?_, ?_, fun d => ?_⟩
    · rw [hoffset]
      exact hle _ (List.mem_map_of_mem hx)
    · rw [hoffset]
      refine hmem.imp id fun hmem => ?_
      obtain ⟨⟨p, t⟩, hp, heq⟩ := List.mem_map.1 hmem
      exact ⟨t, heq ▸ hp⟩
    · rw [hoffset, htokens d]
      simp [ExpectedSet.empty]
  · cases he

/-- **The error of a parse tells what fails if rules are remembered.**  That is what fails plainly if
and only if each of the furthest failures of the plain evaluation is still heard; it is so if every
rule that is met again outside lookaheads was first met outside of them. -/
theorem compile_tells_heard {depth : Nat} {source : String} {cs : List Char} {g : Grammar}
    {h : Handlers σ} {f : Meaning} {start : String}
    (hg : (compileWithin depth source cs).answer = .ok (.ok g)) (hf : h.Pure f)
    (hstart : start ∈ g.ruleNames) (user : σ) (input : List Char) {e : ParseError}
    (he : (g.parse h user start input).answer = .ok (.error (.mismatch e))) :
    ∃ steps, (g.plain f input).whole start = some (none, steps) ∧ e.Tells (Step.heard steps) ∧
      (e.Tells (Step.failuresAll steps) ↔ ∀ p t, (p, t) ∈ Step.failuresAll steps →
        (∀ x ∈ Step.failuresAll steps, x.1 ≤ p) →
          ∃ t', (p, t') ∈ Step.heard steps ∧ t'.display = t.display) ∧
      (Step.againAll (Step.pruneAll [] steps).1 ⊆ Step.outerAll (Step.pruneAll [] steps).1 →
        e.Tells (Step.failuresAll steps)) := by
  obtain ⟨r, steps, hwhole, hparse⟩ := Grammar.parse_eq (compile_safe hg) hf hstart user input
  cases r with
  | some v =>
    simp only at hparse
    rw [hparse] at he
    cases he
  | none =>
    obtain ⟨e', herror, hparse⟩ := hparse
    rw [hparse] at he
    cases he
    have htells := Step.performTwice_tells steps user herror
    have hiff := htells.iff_of_subset (Step.failuresAll_pruneAll_subset [] steps)
    refine ⟨steps, hwhole, htells, hiff, fun hagain => hiff.2 fun p t hp _ => ?_⟩
    have hvisits := fun v hv => (Plain.whole_visits hwhole v hv).1
    exact ⟨t, Step.failuresAll_subset_of_again_subset hvisits hagain hp, rfl⟩

/-- The error of a report, if there is one. -/
def Report.mismatch? {α : Type} (r : Report σ (Except RunError α)) : Option ParseError :=
  match r.answer with
  | .ok (.error (.mismatch e)) => some e
  | _ => none

theorem Report.answer_of_mismatch? {α : Type} {r : Report σ (Except RunError α)} {e : ParseError}
    (h : r.mismatch? = some e) : r.answer = .ok (.error (.mismatch e)) := by
  unfold mismatch? at h
  split at h
  · rename_i hr
    cases h
    exact hr
  · cases h

/-- A rule that is tried in a lookahead and met again outside of it, at the same offset. -/
def muffled : Grammar :=
  ⟨none, [
    .rule ⟨⟨0, 15⟩, ⟨"S", ⟨0, 1⟩⟩, .choice ⟨5, 15⟩ [
      .seq ⟨5, 11⟩ [.lookahead ⟨5, 7⟩ .negative (.ref (.mk ⟨6, 7⟩ ⟨"A", ⟨6, 7⟩⟩ [])),
        .literal ⟨8, 11⟩ "x"],
      .ref (.mk ⟨14, 15⟩ ⟨"A", ⟨14, 15⟩⟩ [])]⟩,
    .rule ⟨⟨16, 28⟩, ⟨"A", ⟨16, 17⟩⟩, .seq ⟨21, 28⟩ [.literal ⟨21, 24⟩ "a",
      .literal ⟨25, 28⟩ "b"]⟩]⟩

theorem failures_muffled : ((muffled.plain ⟨fun _ _ => .absent, fun _ _ => false⟩
    "ac".toList).whole "S").map (fun r => Step.failuresAll r.2) =
      some [(0, .literal "x"), (1, .literal "b")] := by
  have htext : "ac".toList = ['a', 'c'] := by decide +kernel
  rw [htext]
  simp only [Plain.whole, Plain.rule, Grammar.plain, muffled, Grammar.rules, List.filterMap_cons,
    List.filterMap_nil, Item.rule?, List.find?_cons]
  simp +decide [Plain.rule, Plain.expr, Plain.choice, Plain.sequence, Plain.literal, Plain.missed,
    Plain.lookahead, Reference.name, dropBytes?, byteLength]

/-- Plainly, its second rule fails at the second character; the error does not tell that. -/
theorem compile_tells_heard_muffled :
    (compile "muffled.peg" "S <- !A 'x' / A\nA <- 'a' 'b'".toList).answer = .ok (.ok muffled) ∧
      (muffled.parse (Handlers.none Unit) () "S" "ac".toList).mismatch? =
        some ⟨⟨1, 1, 0⟩, ⟨["\"x\""]⟩⟩ ∧
      ∃ steps, (muffled.plain ⟨fun _ _ => .absent, fun _ _ => false⟩ "ac".toList).whole "S" =
          some (none, steps) ∧
        (⟨⟨1, 1, 0⟩, ⟨["\"x\""]⟩⟩ : ParseError).Tells (Step.heard steps) ∧
        ¬ (⟨⟨1, 1, 0⟩, ⟨["\"x\""]⟩⟩ : ParseError).Tells (Step.failuresAll steps) := by
  have hg : (compile "muffled.peg" "S <- !A 'x' / A\nA <- 'a' 'b'".toList).answer =
      .ok (.ok muffled) := by decide +kernel
  have herror : (muffled.parse (Handlers.none Unit) () "S" "ac".toList).mismatch? =
      some ⟨⟨1, 1, 0⟩, ⟨["\"x\""]⟩⟩ := by decide +kernel
  obtain ⟨steps, hwhole, htells, -⟩ := compile_tells_heard hg (Handlers.none_pure Unit)
    (by decide +kernel) () "ac".toList (Report.answer_of_mismatch? herror)
  have hplain := failures_muffled
  rw [hwhole, Option.map_some, Option.some.injEq] at hplain
  refine ⟨hg, herror, steps, hwhole, htells, fun hall => ?_⟩
  have hle := hall.furthest (1, .literal "b") (by rw [hplain]; simp)
  exact absurd hle (by decide)

end Packrat

import Mathlib.Data.Finset.Card
import Mathlib.Data.Set.Finite.Basic
import Packrat.Proofs.Grammar.Instances

/-!
# Collecting the instances of a grammar

Each instance is collected once, before those that its body asks for, so the depth that is needed is
bounded by the number of instances.

* `Grammar.collect_cases` — what collecting an instance consists of.
* `Grammar.allInstances_nodup` — no instance is collected twice.
* `Grammar.allInstances_mono` — more depth gives the same instances.
* `Grammar.exists_allInstances` — if a grammar asks for finitely many instances, a depth above their
  number is enough.
* `Grammar.allInstances_error` — too little depth is all that can go wrong.
-/

set_option autoImplicit false

namespace Packrat.Grammar

variable {g : Grammar} {depth : Nat} {seen is : List Instance} {i : Instance}

section

variable {f : List Instance → Instance → Except Fault (List Instance)} {l : List Instance}

/-- What each addition keeps is kept by several. -/
theorem foldlM_keeps {P : List Instance → Prop}
    (hf : ∀ seen i is, P seen → f seen i = .ok is → P is) (l : List Instance) :
    ∀ {seen is : List Instance}, P seen → l.foldlM f seen = .ok is → P is := by
  induction l with
  | nil =>
    intro seen is hseen h
    cases h
    exact hseen
  | cons i l ih =>
    intro seen is hseen h
    obtain ⟨next, hnext, hrest⟩ := foldlM_cons_ok.1 h
    exact ih (hf seen i next hseen hnext) hrest

/-- Additions that one function answers are answered alike by another. -/
theorem foldlM_mono {f' : List Instance → Instance → Except Fault (List Instance)}
    (hf : ∀ seen i is, f seen i = .ok is → f' seen i = .ok is) (l : List Instance) :
    ∀ {seen is : List Instance}, l.foldlM f seen = .ok is → l.foldlM f' seen = .ok is := by
  induction l with
  | nil => exact fun h => h
  | cons i l ih =>
    intro seen is h
    obtain ⟨next, hnext, hrest⟩ := foldlM_cons_ok.1 h
    exact foldlM_cons_ok.2 ⟨next, hf seen i next hnext, ih hrest⟩

/-- Where each addition is answered from then on, so are several. -/
theorem exists_foldlM {P : List Instance → Prop} (l : List Instance)
    (hf : ∀ seen, P seen → ∀ i ∈ l, ∃ is, f seen i = .ok is ∧ P is) :
    ∀ {seen : List Instance}, P seen → ∃ is, l.foldlM f seen = .ok is := by
  induction l with
  | nil => exact fun {seen} _ => ⟨seen, rfl⟩
  | cons i l ih =>
    intro seen hseen
    obtain ⟨next, hnext, hP⟩ := hf seen hseen i (List.mem_cons_self ..)
    obtain ⟨is, his⟩ := ih (fun seen hseen j hj => hf seen hseen j (List.mem_cons_of_mem _ hj)) hP
    exact ⟨is, foldlM_cons_ok.2 ⟨next, hnext, his⟩⟩

/-- What goes wrong with several additions goes wrong with one of them. -/
theorem exists_of_foldlM_error {e : Fault} (l : List Instance) :
    ∀ {seen : List Instance}, l.foldlM f seen = .error e →
      ∃ seen', ∃ i ∈ l, f seen' i = .error e := by
  induction l with
  | nil =>
    intro seen h
    cases h
  | cons i l ih =>
    intro seen h
    rw [List.foldlM_cons] at h
    cases hf : f seen i with
    | error e' =>
      rw [hf] at h
      cases h
      exact ⟨seen, i, List.mem_cons_self .., hf⟩
    | ok next =>
      rw [hf] at h
      obtain ⟨seen', j, hj, he⟩ := ih h
      exact ⟨seen', j, List.mem_cons_of_mem _ hj, he⟩

end

/-- **What collecting an instance consists of**: nothing if it was seen, else it and all that its body
asks for. -/
theorem collect_cases (h : g.collect depth seen i = .ok is) : (i ∈ seen ∧ is = seen) ∨
    (i ∉ seen ∧ ∃ d t, depth = d + 1 ∧ g.lastTemplate? i.template = some t ∧
      ((scopeOf t i).instances t.expr).foldlM (collect g d) (seen ++ [i]) = .ok is) := by
  cases depth with
  | zero => cases h
  | succ d =>
    unfold collect at h
    split at h
    · rename_i hs
      cases h
      exact .inl ⟨hs, rfl⟩
    · rename_i hs
      split at h
      · cases h
      · rename_i t ht
        exact .inr ⟨hs, d, t, rfl, ht, h⟩

theorem collect_of_mem (depth : Nat) (h : i ∈ seen) : g.collect (depth + 1) seen i = .ok seen := by
  rw [collect, if_pos h]

theorem collect_of_not_mem {t : Template} (h : i ∉ seen) (ht : g.lastTemplate? i.template = some t) :
    g.collect (depth + 1) seen i =
      ((scopeOf t i).instances t.expr).foldlM (collect g depth) (seen ++ [i]) := by
  rw [collect, if_neg h, ht]

/-! ## No instance twice -/

theorem collect_nodup (depth : Nat) : ∀ (seen : List Instance) (i : Instance) (is : List Instance),
    seen.Nodup → g.collect depth seen i = .ok is → is.Nodup := by
  induction depth with
  | zero => intro seen i is _ h; cases h
  | succ depth ih =>
    intro seen i is hseen h
    obtain ⟨-, rfl⟩ | ⟨hnew, d, t, hd, -, hbody⟩ := collect_cases h
    · exact hseen
    · cases hd
      refine foldlM_keeps ih _ ?_ hbody
      exact List.nodup_append.2 ⟨hseen, List.nodup_singleton i, fun a ha b hb => by
        rw [List.mem_singleton.1 hb]
        exact fun he => hnew (he ▸ ha)⟩

theorem allInstances_nodup (h : g.allInstances depth = .ok is) : is.Nodup :=
  foldlM_keeps (collect_nodup depth) _ List.nodup_nil h

/-! ## Enough depth -/

theorem collect_mono {depth' : Nat} (hle : depth ≤ depth') :
    ∀ (seen : List Instance) (i : Instance) (is : List Instance),
      g.collect depth seen i = .ok is → g.collect depth' seen i = .ok is := by
  induction depth generalizing depth' with
  | zero => intro seen i is h; cases h
  | succ depth ih =>
    intro seen i is h
    obtain ⟨d', rfl⟩ : ∃ d', depth' = d' + 1 := ⟨depth' - 1, by omega⟩
    obtain ⟨hseen, rfl⟩ | ⟨hnew, d, t, hd, ht, hbody⟩ := collect_cases h
    · exact collect_of_mem d' hseen
    · cases hd
      rw [collect_of_not_mem hnew ht]
      exact foldlM_mono (ih (by omega)) _ hbody

/-- More depth gives the same instances. -/
theorem allInstances_mono {depth' : Nat} (hle : depth ≤ depth')
    (h : g.allInstances depth = .ok is) : g.allInstances depth' = .ok is :=
  foldlM_mono (collect_mono hle) _ h

theorem asks_of_mem_flatMap (h : i ∈ g.rules.flatMap fun r => Scope.instances [] r.expr) :
    g.Asks i := by
  obtain ⟨r, hr, hi⟩ := List.mem_flatMap.1 h
  exact .plain hr hi

/-- A grammar whose instances can be collected asks for finitely many. -/
theorem finite_of_allInstances (h : g.allInstances depth = .ok is) : {i | g.Asks i}.Finite := by
  have hset : {i | g.Asks i} = {i | i ∈ is} := Set.ext fun i => (mem_allInstances_iff h i).symm
  rw [hset]
  exact is.finite_toSet

section

variable (hdefined : ∀ i, g.Asks i → ∃ t, g.lastTemplate? i.template = some t)

include hdefined

/-- Those instances of `asked` that are not seen yet bound the depth. -/
theorem exists_collect {asked : Finset Instance} (hasked : ∀ i, g.Asks i → i ∈ asked) (depth : Nat) :
    ∀ (seen : List Instance) (i : Instance), g.Asks i →
      (asked.filter (· ∉ seen)).card < depth → ∃ is, g.collect depth seen i = .ok is := by
  induction depth with
  | zero => intro seen i _ h; omega
  | succ depth ih =>
    intro seen i hi hcard
    by_cases hs : i ∈ seen
    · exact ⟨seen, collect_of_mem depth hs⟩
    · obtain ⟨t, ht⟩ := hdefined i hi
      rw [collect_of_not_mem hs ht]
      -- the instance itself is now seen, and what is added later leaves even less unseen
      have hlt : (asked.filter (· ∉ seen ++ [i])).card < (asked.filter (· ∉ seen)).card := by
        refine Finset.card_lt_card (Finset.ssubset_iff_of_subset ?_ |>.2 ⟨i, ?_, ?_⟩)
        · refine fun j hj => Finset.mem_filter.2 ?_
          obtain ⟨hja, hjs⟩ := Finset.mem_filter.1 hj
          exact ⟨hja, fun h => hjs (List.mem_append_left _ h)⟩
        · exact Finset.mem_filter.2 ⟨hasked i hi, hs⟩
        · exact fun h => (Finset.mem_filter.1 h).2 (List.mem_append_right _ (List.mem_singleton_self i))
      refine exists_foldlM (P := fun later => seen ++ [i] ⊆ later) _ ?_ (List.Subset.refl _)
      intro later hlater j hj
      have hle : (asked.filter (· ∉ later)).card ≤ (asked.filter (· ∉ seen ++ [i])).card := by
        refine Finset.card_le_card fun k hk => Finset.mem_filter.2 ?_
        obtain ⟨hka, hks⟩ := Finset.mem_filter.1 hk
        exact ⟨hka, fun h => hks (hlater h)⟩
      have hasks : g.Asks j := .body hi ht hj
      obtain ⟨is, his⟩ := ih later j hasks (by omega)
      exact ⟨is, his, fun k hk => (collect_collected depth later j is hasks his).1.kept (hlater hk)⟩

/-- **If a grammar asks for finitely many instances, a depth above their number is enough.** -/
theorem exists_allInstances (hfinite : {i | g.Asks i}.Finite) :
    ∃ is, ∀ depth, hfinite.toFinset.card < depth → g.allInstances depth = .ok is := by
  have hasked : ∀ i, g.Asks i → i ∈ hfinite.toFinset := fun i hi => hfinite.mem_toFinset.2 hi
  have hleast : ∃ is, g.allInstances (hfinite.toFinset.card + 1) = .ok is := by
    refine exists_foldlM (P := fun _ => True) _ (fun seen _ i hi => ?_) trivial
    obtain ⟨is, his⟩ := exists_collect hdefined hasked (hfinite.toFinset.card + 1) seen i
      (asks_of_mem_flatMap hi) (Nat.lt_succ_of_le (Finset.card_filter_le _ _))
    exact ⟨is, his, trivial⟩
  obtain ⟨is, his⟩ := hleast
  exact ⟨is, fun depth hdepth => allInstances_mono hdepth his⟩

theorem collect_error {e : Fault} (depth : Nat) : ∀ (seen : List Instance) (i : Instance),
    g.Asks i → g.collect depth seen i = .error e → e = .exhausted := by
  induction depth with
  | zero =>
    intro seen i _ h
    cases h
    rfl
  | succ depth ih =>
    intro seen i hi h
    by_cases hs : i ∈ seen
    · rw [collect_of_mem depth hs] at h
      cases h
    · obtain ⟨t, ht⟩ := hdefined i hi
      rw [collect_of_not_mem hs ht] at h
      obtain ⟨later, j, hj, he⟩ := exists_of_foldlM_error _ h
      exact ih later j (.body hi ht hj) he

/-- **Too little depth is all that can go wrong.** -/
theorem allInstances_error {e : Fault} (h : g.allInstances depth = .error e) : e = .exhausted := by
  obtain ⟨seen, i, hi, he⟩ := exists_of_foldlM_error _ h
  exact collect_error hdefined depth seen i (asks_of_mem_flatMap hi) he

end

end Packrat.Grammar

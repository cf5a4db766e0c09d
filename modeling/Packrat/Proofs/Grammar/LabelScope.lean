import Packrat.Proofs.Grammar.Parts

/-!
# The labels of an expression

A label occurs at a path, and paths in lexicographic order are in the order of the text, an outer
label before those inside it.  A label in a branch of a choice is bound only as long as the branch.

* `Expr.labelAt?` — the label at a path; `Expr.BranchAt` — a branch of a choice is at a path.
* `Expr.Rebinds` — a label occurs again where the branches around its first occurrence still last.
* `Expr.Mentions`, `Expr.Leaves` — a label occurs anywhere, or outside all branches.
* `Expr.mentions_iff`, `Expr.leaves_iff`, `Expr.clashes_iff` — the same by the parts of an expression.
-/

set_option autoImplicit false

namespace Packrat.Expr

/-- The label that occurs at a path, if one does. -/
def labelAt? (e : Expr) (path : List Nat) : Option String :=
  match e.at? path with
  | some (.label _ name _) => some name.name
  | _ => none

/-- A choice between branches. -/
def IsChoice (e : Expr) : Prop := ∃ span branches, e = .choice span branches

/-- A branch of a choice is at a path. -/
def BranchAt (e : Expr) (path : List Nat) : Prop :=
  ∃ above k c, path = above ++ [k] ∧ e.at? above = some c ∧ c.IsChoice

/-- **A label occurs at `p` and later again at `q`, and every branch of a choice that contains the
earlier occurrence contains the later one, too.** -/
structure Rebinds (e : Expr) (name : String) (p q : List Nat) : Prop where
  earlier : e.labelAt? p = some name
  later : e.labelAt? q = some name
  before : p < q
  shared : ∀ branch, e.BranchAt branch → branch <+: p → branch <+: q

/-- Some label is bound again. -/
def Clashes (e : Expr) : Prop := ∃ name p q, e.Rebinds name p q

/-- A label occurs in an expression. -/
def Mentions (e : Expr) (name : String) : Prop := ∃ p, e.labelAt? p = some name

/-- A label occurs outside all branches of choices, so that it is bound after the expression. -/
def Leaves (e : Expr) (name : String) : Prop :=
  ∃ p, e.labelAt? p = some name ∧ ∀ branch, e.BranchAt branch → ¬ branch <+: p

variable {e x : Expr} {name : String} {k : Nat} {path p q : List Nat}

/-! ## Paths into a part -/

theorem labelAt?_cons (e : Expr) (k : Nat) (path : List Nat) :
    e.labelAt? (k :: path) = e.parts[k]?.bind (·.labelAt? path) := by
  unfold labelAt?
  rw [at?]
  cases e.parts[k]? with
  | none => rfl
  | some x => rfl

theorem labelAt?_cons_of_some (hx : e.parts[k]? = some x) :
    e.labelAt? (k :: path) = x.labelAt? path := by
  rw [labelAt?_cons, hx, Option.bind_some]

theorem exists_part_of_labelAt? (h : e.labelAt? (k :: path) = some name) :
    ∃ x, e.parts[k]? = some x ∧ x.labelAt? path = some name := by
  rw [labelAt?_cons] at h
  exact Option.bind_eq_some_iff.1 h

theorem not_branchAt_nil : ¬ e.BranchAt [] := by
  rintro ⟨above, k, c, hpath, -⟩
  cases above <;> cases hpath

theorem branchAt_cons :
    e.BranchAt (k :: path) ↔
      (path = [] ∧ e.IsChoice) ∨ ∃ x, e.parts[k]? = some x ∧ x.BranchAt path := by
  constructor
  · rintro ⟨above, j, c, hpath, hc, hchoice⟩
    cases above with
    | nil =>
      cases hpath
      cases hc
      exact .inl ⟨rfl, hchoice⟩
    | cons i above =>
      cases hpath
      obtain ⟨x, hx, hc⟩ := Option.bind_eq_some_iff.1 hc
      exact .inr ⟨x, hx, above, j, c, rfl, hc, hchoice⟩
  · rintro (⟨rfl, hchoice⟩ | ⟨x, hx, above, j, c, rfl, hc, hchoice⟩)
    · exact ⟨[], k, e, rfl, rfl, hchoice⟩
    · refine ⟨k :: above, j, c, rfl, ?_, hchoice⟩
      rw [at?, hx, Option.bind_some]
      exact hc

/-- No branch contains an occurrence in a part if the expression is no choice and none in the part
does. -/
theorem forall_branch_cons_iff (hx : e.parts[k]? = some x) :
    (∀ branch, e.BranchAt branch → ¬ branch <+: k :: path) ↔
      ¬ e.IsChoice ∧ ∀ branch, x.BranchAt branch → ¬ branch <+: path := by
  constructor
  · intro h
    refine ⟨fun hchoice => ?_, fun branch hb hpre => ?_⟩
    · exact h [k] (branchAt_cons.2 (.inl ⟨rfl, hchoice⟩)) (List.prefix_append [k] path)
    · exact h (k :: branch) (branchAt_cons.2 (.inr ⟨x, hx, hb⟩))
        (List.cons_prefix_cons.2 ⟨rfl, hpre⟩)
  · rintro ⟨hchoice, h⟩ branch hb hpre
    cases branch with
    | nil => exact not_branchAt_nil hb
    | cons j branch =>
      obtain ⟨rfl, hrest⟩ := List.cons_prefix_cons.1 hpre
      rcases branchAt_cons.1 hb with ⟨-, hc⟩ | ⟨y, hy, hb⟩
      · exact hchoice hc
      · rw [hx] at hy
        cases hy
        exact h branch hb hrest

/-! ## By parts -/

theorem mentions_iff : e.Mentions name ↔
    e.labelAt? [] = some name ∨ ∃ x ∈ e.parts, x.Mentions name := by
  constructor
  · rintro ⟨p, hp⟩
    cases p with
    | nil => exact .inl hp
    | cons k path =>
      obtain ⟨x, hx, hlabel⟩ := exists_part_of_labelAt? hp
      exact .inr ⟨x, List.mem_of_getElem? hx, path, hlabel⟩
  · rintro (h | ⟨x, hmem, path, hlabel⟩)
    · exact ⟨[], h⟩
    · obtain ⟨k, hx⟩ := List.mem_iff_getElem?.1 hmem
      exact ⟨k :: path, by rw [labelAt?_cons_of_some hx]; exact hlabel⟩

theorem leaves_iff : e.Leaves name ↔
    e.labelAt? [] = some name ∨ (¬ e.IsChoice ∧ ∃ x ∈ e.parts, x.Leaves name) := by
  constructor
  · rintro ⟨p, hp, hout⟩
    cases p with
    | nil => exact .inl hp
    | cons k path =>
      obtain ⟨x, hx, hlabel⟩ := exists_part_of_labelAt? hp
      obtain ⟨hchoice, hinside⟩ := (forall_branch_cons_iff hx).1 hout
      exact .inr ⟨hchoice, x, List.mem_of_getElem? hx, path, hlabel, hinside⟩
  · rintro (h | ⟨hchoice, x, hmem, path, hlabel, hinside⟩)
    · refine ⟨[], h, fun branch hb hpre => ?_⟩
      rw [List.prefix_nil.1 hpre] at hb
      exact not_branchAt_nil hb
    · obtain ⟨k, hx⟩ := List.mem_iff_getElem?.1 hmem
      exact ⟨k :: path, by rw [labelAt?_cons_of_some hx]; exact hlabel,
        (forall_branch_cons_iff hx).2 ⟨hchoice, hinside⟩⟩

/-- The label of an expression is bound again wherever it occurs inside. -/
theorem rebinds_nil_iff : e.Rebinds name [] q ↔
    e.labelAt? [] = some name ∧ e.labelAt? q = some name ∧ q ≠ [] := by
  constructor
  · intro h
    refine ⟨h.earlier, h.later, ?_⟩
    rintro rfl
    exact List.not_lt_nil _ h.before
  · rintro ⟨hp, hq, hne⟩
    refine ⟨hp, hq, ?_, fun branch hb hpre => ?_⟩
    · cases q with
      | nil => exact absurd rfl hne
      | cons k path => exact List.nil_lt_cons k path
    · rw [List.prefix_nil.1 hpre]
      exact List.nil_prefix

/-- Two occurrences in one part. -/
theorem rebinds_cons_iff (hx : e.parts[k]? = some x) :
    e.Rebinds name (k :: p) (k :: q) ↔ x.Rebinds name p q := by
  constructor
  · intro h
    refine ⟨labelAt?_cons_of_some hx ▸ h.earlier, labelAt?_cons_of_some hx ▸ h.later, ?_,
      fun branch hb hpre => ?_⟩
    · exact List.cons_lt_cons_self.1 h.before
    · exact (List.cons_prefix_cons.1 (h.shared (k :: branch) (branchAt_cons.2 (.inr ⟨x, hx, hb⟩))
        (List.cons_prefix_cons.2 ⟨rfl, hpre⟩))).2
  · intro h
    refine ⟨labelAt?_cons_of_some hx ▸ h.earlier, labelAt?_cons_of_some hx ▸ h.later, ?_,
      fun branch hb hpre => ?_⟩
    · exact List.cons_lt_cons_self.2 h.before
    · cases branch with
      | nil => exact List.nil_prefix
      | cons j branch =>
        obtain ⟨rfl, hrest⟩ := List.cons_prefix_cons.1 hpre
        refine List.cons_prefix_cons.2 ⟨rfl, ?_⟩
        rcases branchAt_cons.1 hb with ⟨rfl, -⟩ | ⟨y, hy, hb⟩
        · exact List.nil_prefix
        · rw [hx] at hy
          cases hy
          exact h.shared branch hb hrest

/-- Two occurrences in different parts: the earlier one must be bound after its part. -/
theorem rebinds_apart_iff {i j : Nat} {y : Expr} (hij : i < j) (hx : e.parts[i]? = some x)
    (hy : e.parts[j]? = some y) : e.Rebinds name (i :: p) (j :: q) ↔
      ¬ e.IsChoice ∧ (x.labelAt? p = some name ∧ ∀ branch, x.BranchAt branch → ¬ branch <+: p) ∧
        y.labelAt? q = some name := by
  -- a branch that contains the earlier one lies in its part, or is the part
  have happart : (∀ branch, e.BranchAt branch → branch <+: i :: p → branch <+: j :: q) ↔
      ∀ branch, e.BranchAt branch → ¬ branch <+: i :: p := by
    refine forall₂_congr fun branch hb => ⟨fun h hpre => ?_, fun h hpre => absurd hpre h⟩
    cases branch with
    | nil => exact not_branchAt_nil hb
    | cons k branch =>
      have hi := (List.cons_prefix_cons.1 hpre).1
      have hj := (List.cons_prefix_cons.1 (h hpre)).1
      omega
  rw [forall_branch_cons_iff hx] at happart
  constructor
  · intro h
    obtain ⟨hchoice, hinside⟩ := happart.1 h.shared
    exact ⟨hchoice, ⟨labelAt?_cons_of_some hx ▸ h.earlier, hinside⟩,
      labelAt?_cons_of_some hy ▸ h.later⟩
  · rintro ⟨hchoice, ⟨hp, hinside⟩, hq⟩
    exact ⟨by rw [labelAt?_cons_of_some hx]; exact hp, by rw [labelAt?_cons_of_some hy]; exact hq,
      List.cons_lt_cons_iff.2 (.inl hij), happart.2 ⟨hchoice, hinside⟩⟩

/-- **What an expression binds again** is its own label inside it, or what one of its parts binds
again, or, unless it is a choice, what one of its parts leaves bound and a later one mentions. -/
theorem clashes_iff : e.Clashes ↔
    (∃ name, e.labelAt? [] = some name ∧ ∃ x ∈ e.parts, x.Mentions name) ∨
      (∃ x ∈ e.parts, x.Clashes) ∨
      (¬ e.IsChoice ∧ ¬ e.parts.Pairwise fun x y => ∀ name, x.Leaves name → ¬ y.Mentions name) := by
  rw [List.pairwise_iff_getElem]
  constructor
  · rintro ⟨name, p, q, h⟩
    cases p with
    | nil =>
      obtain ⟨hp, hq, hne⟩ := rebinds_nil_iff.1 h
      cases q with
      | nil => exact absurd rfl hne
      | cons k path =>
        obtain ⟨x, hx, hlabel⟩ := exists_part_of_labelAt? hq
        exact .inl ⟨name, hp, x, List.mem_of_getElem? hx, path, hlabel⟩
    | cons i p =>
      cases q with
      | nil => exact absurd h.before (List.not_lt_nil _)
      | cons j q =>
        obtain ⟨x, hx, -⟩ := exists_part_of_labelAt? h.earlier
        obtain ⟨y, hy, -⟩ := exists_part_of_labelAt? h.later
        rcases List.cons_lt_cons_iff.1 h.before with hij | ⟨rfl, -⟩
        · obtain ⟨hchoice, hleaves, hmention⟩ := (rebinds_apart_iff hij hx hy).1 h
          refine .inr (.inr ⟨hchoice, fun hall => ?_⟩)
          obtain ⟨hi, rfl⟩ := List.getElem?_eq_some_iff.1 hx
          obtain ⟨hj, rfl⟩ := List.getElem?_eq_some_iff.1 hy
          exact hall i j hi hj hij name ⟨p, hleaves⟩ ⟨q, hmention⟩
        · exact .inr (.inl ⟨x, List.mem_of_getElem? hx, name, p, q, (rebinds_cons_iff hx).1 h⟩)
  · rintro (⟨name, hp, x, hmem, path, hlabel⟩ | ⟨x, hmem, name, p, q, h⟩ | ⟨hchoice, hnot⟩)
    · obtain ⟨k, hx⟩ := List.mem_iff_getElem?.1 hmem
      refine ⟨name, [], k :: path, rebinds_nil_iff.2 ⟨hp, ?_, List.cons_ne_nil _ _⟩⟩
      rw [labelAt?_cons_of_some hx]
      exact hlabel
    · obtain ⟨k, hx⟩ := List.mem_iff_getElem?.1 hmem
      exact ⟨name, k :: p, k :: q, (rebinds_cons_iff hx).2 h⟩
    · simp only [Classical.not_forall, Classical.not_not] at hnot
      obtain ⟨i, j, hi, hj, hij, name, ⟨p, hleaves⟩, q, hmention⟩ := hnot
      exact ⟨name, i :: p, j :: q, (rebinds_apart_iff hij (List.getElem?_eq_getElem hi)
        (List.getElem?_eq_getElem hj)).2 ⟨hchoice, hleaves, hmention⟩⟩

end Packrat.Expr

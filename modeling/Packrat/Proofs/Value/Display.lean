import Mathlib.Data.List.Nodup
import Packrat.Proofs.GrammarText.Shown
import Packrat.Proofs.Text.Delimited
import Packrat.Value

/-!
# What the written form of a value tells

Texts, words, numbers and brackets stand side by side in the written form of a value, and a text may hold
anything.  The first character tells which kind of value it is, and each value tells where it ends, so that
the written form tells the value.  Floating-point numbers are left out: a whole number is written as the
integer is.

* `quoteChars_unique` — a quoted text tells where it ends.
* `Value.intChars_inj` — the digits of an integer tell it.
* `Value.FloatFree` — values without floating-point numbers in them.
* `Value.kind`, `Value.FloatFree.kindOf_head` — the kind of a value, told by the first character.
* `Value.FloatFree.delimited` — where a value ends is clear, and so is the value.
* `Value.Keyed`, `Value.mapOf_keyed`, `Value.Keyed.same_self` — values whose maps have each key once, as maps
  that are made of pairs do, equal themselves.
* `Value.display_inj` — values with one written form are equal.
-/

set_option autoImplicit false

namespace Packrat

open Delimiting

/-- **A quoted text tells where it ends**, and which text it is. -/
theorem quoteChars_unique {s t : String} {cs ds : List Char}
    (h : quoteChars s.toList ++ cs = quoteChars t.toList ++ ds) : s = t ∧ cs = ds := by
  have hs := GrammarText.quoteChars_reads s cs
  rw [h] at hs
  have ht := GrammarText.quoteChars_reads t ds
  exact ⟨(hs.holds ht).symm, hs.unique ht⟩

namespace Value

/-! ### Integers -/

/-- A character that stands in the written form of an integer. -/
def isIntChar (c : Char) : Bool := c == '-' || c.isDigit

theorem isDigit_of_mem_decimal {n : Nat} {c : Char} (h : c ∈ Nat.toDigits 10 n) : c.isDigit = true :=
  Nat.isDigit_of_mem_toDigits (by decide) (by decide) h

theorem isIntChar_of_mem {i : Int} : ∀ c ∈ intChars i, isIntChar c = true := by
  intro c hc
  unfold intChars at hc
  split at hc
  · rcases List.mem_cons.1 hc with rfl | hc
    · rfl
    · simp [isIntChar, isDigit_of_mem_decimal hc]
  · simp [isIntChar, isDigit_of_mem_decimal hc]

theorem intChars_ne_nil (i : Int) : intChars i ≠ [] := by
  unfold intChars
  split
  · exact List.cons_ne_nil _ _
  · exact Nat.toDigits_ne_nil

theorem decimal_inj {m n : Nat} (h : Nat.toDigits 10 m = Nat.toDigits 10 n) : m = n := by
  rw [← Nat.ofDigitChars_ten_toDigits (n := m), h, Nat.ofDigitChars_ten_toDigits]

theorem minus_not_mem_decimal (n : Nat) : '-' ∉ Nat.toDigits 10 n := fun h =>
  absurd (isDigit_of_mem_decimal h) (by decide)

theorem intChars_inj {i j : Int} (h : intChars i = intChars j) : i = j := by
  unfold intChars at h
  by_cases hi : i < 0 <;> by_cases hj : j < 0
  · rw [if_pos hi, if_pos hj] at h
    have habs := decimal_inj (List.cons.inj h).2
    omega
  · rw [if_pos hi, if_neg hj] at h
    exact absurd (h ▸ List.mem_cons_self ..) (minus_not_mem_decimal j.natAbs)
  · rw [if_neg hi, if_pos hj] at h
    exact absurd (h ▸ List.mem_cons_self ..) (minus_not_mem_decimal i.natAbs)
  · rw [if_neg hi, if_neg hj] at h
    have habs := decimal_inj h
    omega

/-! ### Lists and maps -/

/-- The written form of an entry of a map. -/
def entryChars (e : String × Value) : List Char := quoteChars e.1.toList ++ (':' :: ' ' :: e.2.displayChars)

theorem displayItems_eq (vs : List Value) : displayItems vs = separated displayChars vs := by
  induction vs with
  | nil => rfl
  | cons v vs ih =>
    cases vs with
    | nil => simp [displayItems, separated, continued]
    | cons w vs =>
      rw [displayItems, ih]
      · simp [separated, continued]
      · exact List.cons_ne_nil _ _

theorem displayEntries_eq (es : List (String × Value)) : displayEntries es = separated entryChars es := by
  induction es with
  | nil => rfl
  | cons e es ih =>
    cases es with
    | nil => simp [displayEntries, separated, continued, entryChars]
    | cons f es =>
      rw [displayEntries, ih]
      · simp [separated, continued, entryChars]
      · exact List.cons_ne_nil _ _

theorem displayChars_list_append (vs : List Value) (cs : List Char) :
    (Value.list vs).displayChars ++ cs = '[' :: (separated displayChars vs ++ ']' :: cs) := by
  rw [displayChars, displayItems_eq, List.cons_append, List.append_assoc]
  rfl

theorem displayChars_map_append (es : List (String × Value)) (cs : List Char) :
    (Value.map es).displayChars ++ cs = '\x7b' :: (separated entryChars es ++ '\x7d' :: cs) := by
  rw [displayChars, displayEntries_eq, List.cons_append, List.append_assoc]
  rfl

/-! ### Kinds -/

/-- No floating-point number stands anywhere in the value. -/
inductive FloatFree : Value → Prop
  | absent : FloatFree .absent
  | bool (b : Bool) : FloatFree (.bool b)
  | text (s : String) : FloatFree (.text s)
  | int (i : Int) : FloatFree (.int i)
  | list {items : List Value} : (∀ v ∈ items, FloatFree v) → FloatFree (.list items)
  | map {entries : List (String × Value)} : (∀ e ∈ entries, FloatFree e.2) → FloatFree (.map entries)

/-- What kind of value it is. -/
inductive Kind where
  | absent | truth | text | number | list | map
  deriving DecidableEq, Repr

def kind : Value → Kind
  | .absent => .absent
  | .bool _ => .truth
  | .text _ => .text
  | .int _ => .number
  | .float _ => .number
  | .list _ => .list
  | .map _ => .map

/-- The kind of the values whose written forms begin with a character. -/
def kindOf (c : Char) : Option Kind :=
  if c = 'n' then some .absent
  else if c = 't' ∨ c = 'f' then some .truth
  else if c = '"' then some .text
  else if c = '[' then some .list
  else if c = '\x7b' then some .map
  else if isIntChar c then some .number
  else none

theorem kindOf_intChar {c : Char} (h : isIntChar c = true) : kindOf c = some .number := by
  have hne : ∀ d, isIntChar d = false → c ≠ d := by
    rintro d hd rfl
    rw [h] at hd
    cases hd
  unfold kindOf
  rw [if_neg (hne 'n' (by decide)), if_neg (by simp [hne 't' (by decide), hne 'f' (by decide)]),
    if_neg (hne '"' (by decide)), if_neg (hne '[' (by decide)), if_neg (hne '\x7b' (by decide)), if_pos h]

/-- **The first character tells the kind.** -/
theorem FloatFree.kindOf_head {v : Value} (hv : v.FloatFree) (cs : List Char) :
    (v.displayChars ++ cs).head?.bind kindOf = some v.kind := by
  cases hv with
  | absent => rfl
  | bool b => cases b <;> rfl
  | text s => rfl
  | int i =>
    obtain ⟨c, rest, hrest⟩ := List.exists_cons_of_ne_nil (intChars_ne_nil i)
    have hc : isIntChar c = true := isIntChar_of_mem c (hrest ▸ List.mem_cons_self ..)
    rw [displayChars, hrest]
    exact kindOf_intChar hc
  | list _ => rfl
  | map _ => rfl

theorem FloatFree.kind_eq {v w : Value} {cs ds : List Char} (hv : v.FloatFree) (hw : w.FloatFree)
    (h : v.displayChars ++ cs = w.displayChars ++ ds) : v.kind = w.kind := by
  have hkind := hv.kindOf_head cs
  rw [h, hw.kindOf_head ds] at hkind
  exact (Option.some.inj hkind).symm

/-! ### Where values end -/

/-- A text that stands after a value: nothing, or what begins with a comma or a closing bracket. -/
def Ends (cs : List Char) : Prop := ∀ c ∈ cs.head?, c = ',' ∨ c = ']' ∨ c = '\x7d'

theorem Ends.cons {c : Char} (h : c = ',' ∨ c = ']' ∨ c = '\x7d') (cs : List Char) : Ends (c :: cs) := by
  rintro d ⟨⟩
  exact h

theorem Ends.stops {cs : List Char} (h : Ends cs) : Stops isIntChar cs := by
  intro c hc
  rcases h c hc with rfl | rfl | rfl <;> decide

/-- An entry tells where it ends if its value does. -/
theorem entry_delimited {e : String × Value} (h : Delimited displayChars FloatFree Ends e.2) :
    Delimited entryChars (fun e => e.2.FloatFree) Ends e := by
  intro f cs ds hf hcs hds heq
  simp only [entryChars, List.append_assoc, List.cons_append] at heq
  obtain ⟨hkey, hrest⟩ := quoteChars_unique heq
  obtain ⟨hvalue, hends⟩ := h f.2 cs ds hf hcs hds (List.cons.inj (List.cons.inj hrest).2).2
  exact ⟨Prod.ext hkey hvalue, hends⟩

/-- No value begins as a list ends. -/
theorem head_ne_bracket (v : Value) (cs : List Char) (hv : v.FloatFree) :
    (v.displayChars ++ cs).head? ≠ some ']' := by
  intro hhead
  have hkind := hv.kindOf_head cs
  rw [hhead] at hkind
  cases hkind

/-- No entry begins as a map ends. -/
theorem head_ne_brace (e : String × Value) (cs : List Char) (_ : e.2.FloatFree) :
    (entryChars e ++ cs).head? ≠ some '\x7d' := by
  simp [entryChars, quoteChars]

/-- **Where a value ends is clear from the text, and so is the value.** -/
theorem FloatFree.delimited {v : Value} (hv : v.FloatFree) : Delimited displayChars FloatFree Ends v := by
  induction hv with
  | absent =>
    intro w cs ds hw _ _ h
    have hkind := FloatFree.absent.kind_eq hw h
    cases hw with
    | absent => exact ⟨rfl, List.append_cancel_left h⟩
    | _ => cases hkind
  | bool b =>
    intro w cs ds hw _ _ h
    have hkind := (FloatFree.bool b).kind_eq hw h
    cases hw with
    | bool b' => cases b <;> cases b' <;> simp_all [displayChars]
    | _ => cases hkind
  | text s =>
    intro w cs ds hw _ _ h
    have hkind := (FloatFree.text s).kind_eq hw h
    cases hw with
    | text t =>
      obtain ⟨rfl, hrest⟩ := quoteChars_unique h
      exact ⟨rfl, hrest⟩
    | _ => cases hkind
  | int i =>
    intro w cs ds hw hcs hds h
    have hkind := (FloatFree.int i).kind_eq hw h
    cases hw with
    | int j =>
      obtain ⟨hchars, hrest⟩ := run_unique isIntChar_of_mem isIntChar_of_mem hcs.stops hds.stops h
      exact ⟨by rw [intChars_inj hchars], hrest⟩
    | _ => cases hkind
  | list hitems ih =>
    intro w cs ds hw _ _ h
    have hkind := (FloatFree.list hitems).kind_eq hw h
    cases hw with
    | list hothers =>
      rw [displayChars_list_append, displayChars_list_append] at h
      obtain ⟨rfl, hrest⟩ := separated_unique (by decide) (.cons (.inl rfl)) (.cons (.inr (.inl rfl)))
        head_ne_bracket ih hitems hothers (List.cons.inj h).2
      exact ⟨rfl, hrest⟩
    | _ => cases hkind
  | map hentries ih =>
    intro w cs ds hw _ _ h
    have hkind := (FloatFree.map hentries).kind_eq hw h
    cases hw with
    | map hothers =>
      rw [displayChars_map_append, displayChars_map_append] at h
      obtain ⟨rfl, hrest⟩ := separated_unique (by decide) (.cons (.inl rfl)) (.cons (.inr (.inr rfl)))
        head_ne_brace (fun e he => entry_delimited (ih e he)) hentries hothers (List.cons.inj h).2
      exact ⟨rfl, hrest⟩
    | _ => cases hkind

/-! ### Equality -/

/-- Every map in the value has each of its keys once. -/
inductive Keyed : Value → Prop
  | absent : Keyed .absent
  | bool (b : Bool) : Keyed (.bool b)
  | text (s : String) : Keyed (.text s)
  | int (i : Int) : Keyed (.int i)
  | float (x : Binary64) : Keyed (.float x)
  | list {items : List Value} : (∀ v ∈ items, Keyed v) → Keyed (.list items)
  | map {entries : List (String × Value)} : (entries.map (·.1)).Nodup → (∀ e ∈ entries, Keyed e.2) →
      Keyed (.map entries)

/-- A key that is there keeps its place, and a new one comes last. -/
theorem insertEntry_keys (key : String) (v : Value) (entries : List (String × Value)) :
    (insertEntry key v entries).map (·.1) =
      if key ∈ entries.map (·.1) then entries.map (·.1) else entries.map (·.1) ++ [key] := by
  induction entries with
  | nil => rfl
  | cons e entries ih =>
    obtain ⟨k, w⟩ := e
    by_cases hk : k = key
    · simp [insertEntry, hk]
    · rw [insertEntry, if_neg hk, List.map_cons, ih]
      split <;> simp_all [eq_comm]

theorem mem_insertEntry {key : String} {v : Value} {entries : List (String × Value)} {e : String × Value}
    (he : e ∈ insertEntry key v entries) : e ∈ entries ∨ e.2 = v := by
  induction entries with
  | nil => exact .inr (by rw [List.mem_singleton.1 he])
  | cons f entries ih =>
    obtain ⟨k, w⟩ := f
    rw [insertEntry] at he
    split at he
    · rcases List.mem_cons.1 he with rfl | he
      · exact .inr rfl
      · exact .inl (List.mem_cons_of_mem _ he)
    · rcases List.mem_cons.1 he with rfl | he
      · exact .inl (List.mem_cons_self ..)
      · exact (ih he).imp_left (List.mem_cons_of_mem _)

/-- **A map that is made of pairs has each key once**, whatever keys the pairs repeat. -/
theorem mapOf_keyed {pairs : List (String × Value)} (h : ∀ p ∈ pairs, p.2.Keyed) : (mapOf pairs).Keyed := by
  have hfold : ∀ entries : List (String × Value), (Value.map entries).Keyed →
      (Value.map (pairs.foldl (fun entries p => insertEntry p.1 p.2 entries) entries)).Keyed := by
    induction pairs with
    | nil => exact fun _ hentries => hentries
    | cons p pairs ih =>
      rintro entries (_ | _ | _ | _ | _ | _ | ⟨hkeys, hvalues⟩)
      refine ih (fun q hq => h q (List.mem_cons_of_mem _ hq)) _ (.map ?_ fun e he => ?_)
      · rw [insertEntry_keys]
        split
        · exact hkeys
        · rename_i hnew
          exact List.nodup_append_comm.2 (List.nodup_cons.2 ⟨hnew, hkeys⟩)
      · rcases mem_insertEntry he with he | he
        · exact hvalues e he
        · exact he ▸ h p (List.mem_cons_self ..)
  exact hfold [] (.map List.nodup_nil (List.forall_mem_nil _))

/-- A key that stands once is looked up where it stands. -/
theorem lookup_of_mem {entries : List (String × Value)} (hkeys : (entries.map (·.1)).Nodup) {e : String × Value}
    (he : e ∈ entries) : entries.lookup e.1 = some e.2 := by
  obtain ⟨before, after, rfl⟩ := List.append_of_mem he
  refine List.lookup_eq_some_iff.2 ⟨before, after, rfl, fun f hf => ?_⟩
  rw [List.map_append, List.map_cons, List.nodup_append] at hkeys
  exact bne_iff_ne.2 (hkeys.2.2 f.1 (List.mem_map_of_mem hf) e.1 (List.mem_cons_self ..)).symm

theorem sameItems_self {items : List Value} (h : ∀ v ∈ items, v.same v = true) :
    sameItems items items = true := by
  induction items with
  | nil => rfl
  | cons v items ih =>
    rw [sameItems, h v (List.mem_cons_self ..), ih fun w hw => h w (List.mem_cons_of_mem _ hw)]
    rfl

/-- Entries have their likes in a map that they are from. -/
theorem sameEntries_of_mem {all : List (String × Value)} (hkeys : (all.map (·.1)).Nodup)
    (h : ∀ e ∈ all, e.2.same e.2 = true) {entries : List (String × Value)} (hmem : ∀ e ∈ entries, e ∈ all) :
    sameEntries entries all = true := by
  induction entries with
  | nil => rfl
  | cons e entries ih =>
    have he := hmem e (List.mem_cons_self ..)
    have hrest := ih fun f hf => hmem f (List.mem_cons_of_mem _ hf)
    rw [sameEntries, lookup_of_mem hkeys he, hrest, Bool.and_true]
    exact h e he

/-- **A value that has each key once equals itself.** -/
theorem Keyed.same_self {v : Value} (hkeyed : v.Keyed) (hfree : v.FloatFree) : v.same v = true := by
  induction hkeyed with
  | absent => rfl
  | bool b => simp [same]
  | text s => simp [same]
  | int i => simp [same]
  | float x => cases hfree
  | list _ ih =>
    cases hfree with
    | list hitems =>
      rw [same]
      exact sameItems_self fun v hv => ih v hv (hitems v hv)
  | map hkeys _ ih =>
    cases hfree with
    | map hentries =>
      have hsame := sameEntries_of_mem hkeys (fun e he => ih e he (hentries e he)) fun _ he => he
      rw [same, hsame, beq_self_eq_true]
      rfl

/-- **Values with one written form are equal**: item for item and entry for entry, in one order, and by
the equality of values if their maps have each key once. -/
theorem display_inj {v w : Value} (hv : v.FloatFree) (hw : w.FloatFree) (h : v.display = w.display) :
    v = w ∧ (v.Keyed → v.same w = true) := by
  have hchars : v.displayChars ++ [] = w.displayChars ++ [] := by
    rw [String.ofList_inj.1 h]
  have hend : Ends [] := fun c hc => absurd hc (by simp)
  obtain ⟨rfl, -⟩ := hv.delimited w [] [] hw hend hend hchars
  exact ⟨rfl, fun hkeyed => hkeyed.same_self hv⟩

/-- A map as it is collected, with a key that comes twice. -/
def collected : Value :=
  mapOf [("a]", .int 1), ("", .list [.absent, .text "\", \"b", .list []]), ("a]", .int (-3))]

/-- What is collected, written out. -/
def writtenOut : Value := .map [("a]", .int (-3)), ("", .list [.absent, .text "\", \"b", .list []])]

theorem collected_eq : collected = writtenOut := by
  simp [collected, mapOf, insertEntry, writtenOut]

theorem writtenOut_floatFree : writtenOut.FloatFree := by
  refine .map (List.forall_mem_cons.2 ⟨.int (-3), List.forall_mem_singleton.2 (.list ?_)⟩)
  exact List.forall_mem_cons.2 ⟨.absent, List.forall_mem_cons.2 ⟨.text _,
    List.forall_mem_singleton.2 (.list (List.forall_mem_nil _))⟩⟩

theorem collected_keyed : collected.Keyed := by
  refine mapOf_keyed (List.forall_mem_cons.2 ⟨.int 1, List.forall_mem_cons.2 ⟨.list ?_,
    List.forall_mem_singleton.2 (.int (-3))⟩⟩)
  exact List.forall_mem_cons.2 ⟨.absent, List.forall_mem_cons.2 ⟨.text _,
    List.forall_mem_singleton.2 (.list (List.forall_mem_nil _))⟩⟩

theorem display_inj_collected :
    collected.display = writtenOut.display ∧ collected = writtenOut ∧ collected.same writtenOut = true := by
  have hdisplay : collected.display = writtenOut.display := by decide +kernel
  have hinj := display_inj (collected_eq ▸ writtenOut_floatFree) writtenOut_floatFree hdisplay
  exact ⟨hdisplay, hinj.1, hinj.2 collected_keyed⟩

/-- A floating-point zero is written as the integer is. -/
example : (Value.float ⟨0⟩).display = (Value.int 0).display := by decide +kernel

end Value

end Packrat

import Packrat.Actions.Basic

/-!
# Terms for actions

A small language in which handlers can be written down as data.

* `Term` — constants, labels, lists, maps, text, 64-bit integers, equality, and a counter.
* `Term.eval` — the value over the labels; the counter goes up by one each time it is read.
* `Term.actionOf`, `Term.predicateOf` — a term as a handler; a predicate holds if the value is true.
-/

set_option autoImplicit false

namespace Packrat

/-- The four operations on integers. -/
inductive IntOp where
  | add
  | sub
  | mul
  | div
  deriving DecidableEq, Repr

/-- Whether an integer fits into 64 bits with a sign. -/
def fitsInt64 (i : Int) : Bool := decide (-(Nat.pow 2 63 : Nat) ≤ i ∧ i < (Nat.pow 2 63 : Nat))

/-- The result of an operation, if it exists and fits; division goes toward zero. -/
def IntOp.apply? (op : IntOp) (a b : Int) : Option Int :=
  let result :=
    match op with
    | .add => some (a + b)
    | .sub => some (a - b)
    | .mul => some (a * b)
    | .div => if b = 0 then none else some (a.tdiv b)
  result.filter fitsInt64

/-- The value of decimal digits; none if there are none or another character is among them. -/
def digitsValue? (ds : List Char) : Option Nat :=
  if ds.isEmpty || !ds.all Char.isDigit then none
  else some (ds.foldl (fun n d => 10 * n + (d.toNat - '0'.toNat)) 0)

/-- A 64-bit integer: an optional sign, then decimal digits. -/
def parseInt64? (cs : List Char) : Option Int :=
  let value :=
    match cs with
    | '-' :: ds => (digitsValue? ds).map fun n => -(n : Int)
    | '+' :: ds => (digitsValue? ds).map fun n => (n : Int)
    | ds => (digitsValue? ds).map fun n => (n : Int)
  value.filter fitsInt64

/-- Terms over the labels that are bound. -/
inductive Term where
  | const (v : Value)
  /-- The value of a label, or absent. -/
  | get (label : String)
  /-- The value of a label that has to be bound. -/
  | need (label : String)
  | list (items : List Term)
  | map (entries : List (String × Term))
  /-- The items of a value as a list. -/
  | items (t : Term)
  | append (s t : Term)
  /-- The text items of a value as one text. -/
  | join (t : Term)
  /-- The written form of a value. -/
  | show_ (t : Term)
  /-- The labels in order. -/
  | labels
  /-- The labels with their values in order. -/
  | bindings
  /-- The number of bound labels. -/
  | size
  /-- Whether no label is bound. -/
  | unbound
  /-- The counter. -/
  | counter
  /-- The integer that a text stands for, or absent. -/
  | int (t : Term)
  /-- The result of an operation on integers, or absent. -/
  | arith (op : IntOp) (s t : Term)
  | equal (s t : Term)
  deriving Repr, Inhabited

namespace Term

/-- An integer, or absent. -/
def ofInt? : Option Int → Value
  | some i => .int i
  | none => .absent

/-- The integer of a text value. -/
def intOf (v : Value) : Value := ofInt? (v.text? >>= fun s => parseInt64? s.toList)

/-- An operation on two values. -/
def arithOf (op : IntOp) (a b : Value) : Value :=
  ofInt? (do op.apply? (← a.int?) (← b.int?))

/-- The text items of a list as one text. -/
def joined (items : List Value) : String := String.join (items.filterMap Value.text?)

/-- A function of one value. -/
def eval1 (f : Value → Value) : Except Fault Value × Nat → Except Fault Value × Nat
  | (.ok v, n) => (.ok (f v), n)
  | (.error e, n) => (.error e, n)

/-- A function of two values, the second evaluated after the first. -/
def eval2 (f : Value → Value → Value) (first : Except Fault Value × Nat)
    (second : Nat → Except Fault Value × Nat) : Except Fault Value × Nat :=
  match first with
  | (.error e, n) => (.error e, n)
  | (.ok v, n) => eval1 (f v) (second n)

mutual

/-- The value of a term, and the counter after it. -/
def eval (b : Bindings) : Term → (counter : Nat) → Except Fault Value × Nat
  | .const v, n => (.ok v, n)
  | .get label, n => (.ok ((b.get? label).getD .absent), n)
  | .need label, n => (b.get label, n)
  | .list ts, n =>
    match evalAll b ts n with
    | (.ok vs, n) => (.ok (.list vs), n)
    | (.error f, n) => (.error f, n)
  | .map ts, n =>
    match evalEntries b ts n with
    | (.ok vs, n) => (.ok (Value.mapOf vs), n)
    | (.error f, n) => (.error f, n)
  | .items t, n => eval1 (fun v => .list v.items) (eval b t n)
  | .append s t, n => eval2 (fun v w => .list (v.items ++ w.items)) (eval b s n) (eval b t)
  | .join t, n => eval1 (fun v => .text (joined v.items)) (eval b t n)
  | .show_ t, n => eval1 (fun v => .text v.display) (eval b t n)
  | .labels, n => (.ok (.list (b.labels.map .text)), n)
  | .bindings, n => (.ok (.list (b.map fun p => .list [.text p.1, p.2])), n)
  | .size, n => (.ok (.int b.length), n)
  | .unbound, n => (.ok (.bool b.isEmpty), n)
  | .counter, n => (.ok (.int n), n + 1)
  | .int t, n => eval1 intOf (eval b t n)
  | .arith op s t, n => eval2 (arithOf op) (eval b s n) (eval b t)
  | .equal s t, n => eval2 (fun v w => .bool (v.same w)) (eval b s n) (eval b t)

/-- The values of several terms, the first evaluated first. -/
def evalAll (b : Bindings) : List Term → (counter : Nat) → Except Fault (List Value) × Nat
  | [], n => (.ok [], n)
  | t :: rest, n =>
    match eval b t n with
    | (.error f, n) => (.error f, n)
    | (.ok v, n) =>
      match evalAll b rest n with
      | (.error f, n) => (.error f, n)
      | (.ok vs, n) => (.ok (v :: vs), n)

/-- The values of several entries, the first evaluated first. -/
def evalEntries (b : Bindings) :
    List (String × Term) → (counter : Nat) → Except Fault (List (String × Value)) × Nat
  | [], n => (.ok [], n)
  | (key, t) :: rest, n =>
    match eval b t n with
    | (.error f, n) => (.error f, n)
    | (.ok v, n) =>
      match evalEntries b rest n with
      | (.error f, n) => (.error f, n)
      | (.ok vs, n) => (.ok ((key, v) :: vs), n)

end

/-- A term as an action. -/
def actionOf (t : Term) : Bindings → Nat → Except Fault Value × Nat := fun b n => eval b t n

/-- A term as a predicate: it holds if the value is true. -/
def predicateOf (t : Term) : Bindings → Nat → Except Fault Bool × Nat := fun b n =>
  match eval b t n with
  | (.ok v, n) => (.ok (v.bool? == some true), n)
  | (.error f, n) => (.error f, n)

end Term

end Packrat

import ProbTrace.Fault
import ProbTrace.Store
import ProbTrace.Value.Identity

/-!
# Equality and order of values

Values are equal when they agree and, outside of traces, a list is never a tuple.
Two items of sequences count as equal also when they are one and the same, so a
sequence with a result that is not a number is equal to itself.

Numbers are ordered by value, texts by code points, and a list with a list or a
tuple with a tuple by the first pair of unequal items, a proper beginning coming
first.  All other pairs have no order.  What is not a number is in no relation to any
number.
-/

namespace ProbTrace

/-- The relations that two values may be tested for. -/
inductive Relation where
  | less | greater | lessEqual | greaterEqual
  deriving DecidableEq

/-- Whether an order of the operands satisfies the relation. -/
def Relation.holds : Relation → Ordering → Bool
  | .less, o => o.isLT
  | .greater, o => o.isGT
  | .lessEqual, o => o.isLE
  | .greaterEqual, o => o.isGE

/-- The relation between two numbers. -/
def Relation.ofNumbers (r : Relation) (a b : Numeric) : Bool :=
  match a.compare? b with
  | some o => r.holds o
  | none => false

namespace Value

/-- The characters of a text or a symbol. -/
def characters? : Value → Option String
  | text s => some s
  | symbol s => some s
  | _ => none

/-- The relation between two values without parts. -/
def relateAtoms (r : Relation) (v w : Value) : Except Fault Bool :=
  match v.numeric?, w.numeric? with
  | some a, some b => .ok (r.ofNumbers a b)
  | _, _ =>
    match v.characters?, w.characters? with
    | some s, some t => .ok (r.holds (compare s t))
    | _, _ => .error .wrongType

end Value

mutual

/-- Whether two values are equal. -/
def Value.equals (s : Store) : Value → Value → Bool
  | .trace t, w =>
    match w with
    | .trace u => s.same (.trace t) (.trace u)
    | _ => false
  | .list vs, w =>
    match w with
    | .list ws => equalItems s vs ws
    | _ => false
  | .tuple vs, w =>
    if w.isTuple then equalItems s vs (w.items?.getD []) else false
  | .quoted v, w =>
    match w.isTuple, w.items? with
    | true, some [x] => v.identical x || v.equals s x
    | _, _ => false
  | .brackets vs, w =>
    match w.isTuple, w.items? with
    | true, some [.list ws] => equalItems s vs ws
    | _, _ => false
  | v, w => v.sameAtom w

/-- Whether two sequences are equal item by item. -/
def equalItems (s : Store) : List Value → List Value → Bool
  | [], [] => true
  | v :: vs, w :: ws => (v.identical w || v.equals s w) && equalItems s vs ws
  | _, _ => false

end

/-- Whether two items of sequences count as equal. -/
def Value.equalsItem (s : Store) (v w : Value) : Bool :=
  v.identical w || v.equals s w

mutual

/-- Test two values for a relation. -/
def Value.relate (s : Store) (r : Relation) : Value → Value → Except Fault Bool
  | .list vs, w =>
    match w with
    | .list ws => relateItems s r vs ws
    | _ => .error .wrongType
  | .tuple vs, w =>
    if w.isTuple then relateItems s r vs (w.items?.getD []) else .error .wrongType
  | .quoted v, w =>
    match w.isTuple, w.items? with
    | true, some (x :: xs) =>
      if v.equalsItem s x then .ok (r.holds (compare 0 xs.length)) else v.relate s r x
    | true, _ => .ok (r.holds .gt)
    | false, _ => .error .wrongType
  | .brackets vs, w =>
    match w.isTuple, w.items? with
    | true, some (.list ws :: xs) =>
      if equalItems s vs ws then .ok (r.holds (compare 0 xs.length)) else relateItems s r vs ws
    | true, some (_ :: _) => .error .wrongType
    | true, _ => .ok (r.holds .gt)
    | false, _ => .error .wrongType
  | v, w => v.relateAtoms r w

/-- Test two sequences for a relation: the first unequal pair decides, and
without one the lengths. -/
def relateItems (s : Store) (r : Relation) : List Value → List Value → Except Fault Bool
  | [], ws => .ok (r.holds (compare 0 ws.length))
  | _ :: _, [] => .ok (r.holds .gt)
  | v :: vs, w :: ws => if v.equalsItem s w then relateItems s r vs ws else v.relate s r w

end

end ProbTrace

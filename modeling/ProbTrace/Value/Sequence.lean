import ProbTrace.Value.Arithmetic

/-!
# Sequences

Lists, tuples and texts as sequences of items, where the items of a text are its
characters.  Positions may be counted from the end by negative numbers.
-/

namespace ProbTrace

/-- A character as a text. -/
def Value.ofChar (c : Char) : Value :=
  .text (String.singleton c)

namespace Value

/-- The items of any sequence, texts included. -/
def elements? (v : Value) : Option (List Value) :=
  match v.items? with
  | some vs => some vs
  | none => v.characters?.map fun s => s.toList.map ofChar

/-- The items of any sequence, or a fault if the value is none. -/
def expectElements (v : Value) : Except Fault (List Value) :=
  match v.elements? with
  | some vs => .ok vs
  | none => .error .wrongType

/-- Whether a value counts as nothing: null, false, zero or without items. -/
def isNothing (v : Value) : Bool :=
  match v with
  | null => true
  | _ =>
    match v.numeric?, v.elements? with
    | some a, _ => a.compare? (.int 0) == some .eq
    | none, some vs => vs.isEmpty
    | none, none => false

/-- The item at a position, counted from the end if negative. -/
def itemAt (items : List Value) (i : Int) : Except Fault Value :=
  let position := if i < 0 then i + items.length else i
  if position < 0 then .error .outOfRange
  else
    match items[position.toNat]? with
    | some v => .ok v
    | none => .error .outOfRange

/-- The first item of a sequence. -/
def first (v : Value) : Except Fault Value := do
  let vs ← v.expectElements
  itemAt vs 0

/-- The sequence without its first item, of the same kind. -/
def rest (v : Value) : Except Fault Value :=
  match v.characters?, v.items? with
  | some s, _ => .ok (text (String.ofList (s.toList.drop 1)))
  | none, some vs => .ok (v.sameKind (vs.drop 1))
  | none, none => .error .wrongType

/-- The item of a sequence at a position. -/
def nth (v position : Value) : Except Fault Value := do
  let vs ← v.expectElements
  match position.numeric? with
  | some (.int i) => itemAt vs i
  | _ => .error .wrongType

/-- The number of items of a sequence. -/
def length (v : Value) : Except Fault Value := do
  let vs ← v.expectElements
  return int vs.length

/-- A sequence with one more item in front. -/
def pair (head tail : Value) : Except Fault Value :=
  match tail.items? with
  | some vs => .ok (tail.sameKind (head :: vs))
  | none => .error (.invalidInputs .pairTail tail)

/-- The integers from zero up to a bound. -/
def range (bound : Value) : Except Fault Value :=
  match bound.numeric? with
  | some (.int i) => do
    if lengthLimit < i then throw .tooLarge
    checkMemory i.toNat
    return list ((List.range i.toNat).map fun (k : Nat) => int k)
  | _ => .error .wrongType

/-- The address made of keys. -/
def address (keys : List Value) : Except Fault Value :=
  match keys.find? fun v => v.key?.isNone with
  | some bad => .error (.invalidKey .inAddress bad (tuple keys))
  | none => .ok (tuple keys)

end Value
end ProbTrace

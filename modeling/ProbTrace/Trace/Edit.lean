import ProbTrace.Value.Sequence

/-!
# Reading and editing traces

The operations on traces by address.  An address is given as a value: a sequence
of keys or a single key.  Reading takes an invalid key for a missing child.
Editing creates the nodes that are missing on the way, one after the other, and
fails at the first invalid key or at the first missing child of a node that cannot be
written to; the nodes created before remain.
-/

namespace ProbTrace

/-- A computation that reads and writes the store and may fail; what was written
before a failure remains. -/
abbrev Edit := EStateM Fault Store

/-- The address that a value denotes, if all its keys are valid. -/
def Value.address? (v : Value) : Option Address :=
  match Address.ofValues v.addressItems with
  | (a, none) => some a
  | (_, some _) => none

namespace Store

/-- The node at an address given as a value. -/
def findAt? (s : Store) (t : Trace) (address : Value) : Option Trace :=
  address.address?.bind (s.find? t)

/-- The node at an address of a trace that may be missing. -/
def findBelow? (s : Store) (t? : Option Trace) (address : Value) : Option Trace :=
  t?.bind (s.findAt? · address)

/-- Whether there is a value at an address given as a value. -/
def hasAt (s : Store) (t : Trace) (address : Value) : Bool :=
  ((s.findAt? t address).bind s.value?).isSome

/-- The value at an address given as a value, or a fault if there is none. -/
def getAt (s : Store) (t : Trace) (address : Value) : Except Fault Value :=
  match (s.findAt? t address).bind s.value? with
  | some v => .ok v
  | none => .error (.noValueAt address.addressItems)

/-- The value at the root of a trace, or a fault if there is none. -/
def get (s : Store) (t : Trace) : Except Fault Value :=
  match s.value? t with
  | some v => .ok v
  | none => .error .noValue

/-- The child under a key given as a value, or a fault if there is none. -/
def getChild (s : Store) (t : Trace) (key : Value) : Except Fault Trace :=
  match key.key?.bind (s.child? t) with
  | some u => .ok u
  | none => .error (.noChild key)

/-- The values of a trace under addresses that go on from a first one.  The first one
must be a tuple if there is anything to go on to. -/
def entriesFrom (s : Store) (t : Trace) (start : Value) : Except Fault (List (Value × Value)) :=
  if !start.isTuple && !(s.children t).isEmpty then .error .wrongType
  else .ok ((s.entries t).map fun (a, v) =>
    (if a.isEmpty then start else .tuple (start.items?.getD [] ++ a.map Key.toValue), v))

end Store

namespace Edit

/-- A computation on values inside an edit. -/
def ofExcept {α : Type} : Except Fault α → Edit α
  | .ok a => pure a
  | .error f => throw f

/-- Add a cell. -/
def alloc (c : Cell) : Edit Trace := do
  let n ← modifyGet fun s =>
    let (s, n) := s.alloc c
    (n, s)
  return .cell n

end Edit

namespace Trace

/-- The cell of a trace that can be written to. -/
def writableCell (t : Trace) : Edit NodeId := do
  match t with
  | .cell n => if (← get).isWritable t then return n else throw (.readOnly t)
  | .tree _ _ => throw (.readOnly t)

/-- Set or clear the value at the root of a trace. -/
def put (t : Trace) (v : Option Value) : Edit Unit := do
  let n ← t.writableCell
  modify fun s => s.setValue n v

/-- Put a child under the root of a trace. -/
def putChild (t : Trace) (key : Value) (child : Trace) : Edit Unit := do
  let n ← t.writableCell
  match key.key? with
  | some k => modify fun s => s.setChild n k child
  | none => throw (.invalidKey .inTrace key .null)

/-- The node at an address, created if it is missing. -/
def reach (t : Trace) : Address → Edit Trace
  | [] => return t
  | k :: ks => do
    match (← get).child? t k with
    | some u => u.reach ks
    | none =>
      let n ← t.writableCell
      let u ← Edit.alloc {}
      modify fun s => s.setChild n k u
      u.reach ks

/-- The node at an address given as a value, created if it is missing. -/
def reachAt (t : Trace) (address : Value) : Edit Trace := do
  let (keys, bad) := Address.ofValues address.addressItems
  let u ← t.reach keys
  match bad with
  | none => return u
  | some key => throw (.invalidKey .inTrace key address)

/-- The node at an address of a trace that may be missing; it stays missing. -/
def reachBelow (t? : Option Trace) (address : Value) : Edit (Option Trace) :=
  t?.mapM fun t => t.reachAt address

/-- Set the value at an address given as a value. -/
def putAt (t : Trace) (address v : Value) : Edit Unit := do
  let _ ← t.writableCell
  let u ← t.reachAt address
  u.put (some v)

/-- A copy of a trace in which all nodes are writable or none is. -/
def copyAs (writable : Bool) (t : Trace) : Edit Trace :=
  modifyGet fun s =>
    let (s, u) := (s.outline t).toCells writable s
    (u, s)

/-- A copy of a trace that never changes. -/
def frozen (t : Trace) : Edit Trace :=
  t.copyAs false

/-- A copy of a trace that can be written to. -/
def thawed (t : Trace) : Edit Trace :=
  t.copyAs true

/-- A copy of a trace, writable if its root is. -/
def copy (t : Trace) : Edit Trace := do
  t.copyAs ((← get).isWritable t)

/-- A copy of a trace, writable as a value says: if it counts as something, or, if it is
null, if the root is writable. -/
def copyGiven (t : Trace) (flag : Value) : Edit Trace :=
  match flag with
  | .null => t.copy
  | _ => t.copyAs (!flag.isNothing)

/-- A value as a child: a trace as it is, and any other value as a leaf. -/
def ofChild (writable : Bool) : Value → Edit Trace
  | .trace t => return t
  | v => Edit.alloc { value := some v, writable := writable }

/-- The children of a new node.  Every key must be valid. -/
def makeChildren (writable : Bool) : List (Value × Value) → Edit (List (Key × Trace))
  | [] => return []
  | (key, child) :: rest =>
    match key.key? with
    | none => throw (.invalidKey .inTrace key .null)
    | some k => do
      let t ← ofChild writable child
      let ts ← makeChildren writable rest
      return (k, t) :: ts

/-- A new node with a value and children, writable or not. -/
def make (value : Option Value) (children : List (Value × Value)) (writable : Bool) :
    Edit Trace := do
  let cs ← makeChildren writable children
  Edit.alloc { value := value, children := cs, writable := writable }

/-- The writable trace that holds values at addresses; of two values at one address
the later counts. -/
def ofEntries (entries : List (Value × Value)) : Edit Trace := do
  let t ← Edit.alloc {}
  entries.forM fun entry => t.putAt entry.1 entry.2
  return t

end Trace
end ProbTrace

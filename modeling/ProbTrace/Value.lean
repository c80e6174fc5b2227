import ProbTrace.Key

/-!
# Values and traces

The values of the language, and the traces that records, observations,
interventions, expressions and patterns are made of.  A trace is either a tree
that is its own content, or a cell of the store.  Trees never change; whether a
cell does is for the store to say.

Closures, captured tags and results that are not numbers carry a serial number,
because they can be told apart only as themselves; everything else is compared by
content.
-/

namespace ProbTrace

/-- The position of a cell in the store. -/
abbrev NodeId := Nat

/-- The position of a frame in the table of frames. -/
abbrev FrameId := Nat

/-- Where names are looked up: frames from the innermost outwards, and then the
top level.  A chain of frames may also end without a top level. -/
inductive Scope where
  | top
  | absent
  | frame (id : FrameId) (outer : Scope)
  deriving DecidableEq, Inhabited

/-- The three traces of an evaluation: values that are forced, values that are
observed, and the record of the values produced.  Each may be missing. -/
structure Overlays (τ : Type) where
  intervene : Option τ := none
  target : Option τ := none
  output : Option τ := none

/-- No overlay at all. -/
def Overlays.empty {τ : Type} : Overlays τ := {}

/-- The procedures that see only the values of their arguments. -/
inductive Builtin where
  | add | subtract | multiply | divide
  | equal | notEqual | less | greater | lessEqual | greaterEqual
  | logicalNot
  | makeList | makeTuple | pair | address
  | first | rest | nth | length | range
  | exp | log
  | note
  deriving DecidableEq, Inhabited

/-- The primitive distributions: a coin with a bias, a number between two bounds,
and a normal number. -/
inductive Distribution where
  | flip | uniform | gaussian
  deriving DecidableEq, Inhabited

/-- The procedures that handle the overlays themselves. -/
inductive Special where
  | apply
  | map
  | random (d : Distribution)
  | scored
  deriving DecidableEq, Inhabited

mutual

/-- The values of the language. -/
inductive Value where
  | null
  | bool (b : Bool)
  | int (i : Int)
  | float (x : Float)
  /-- A binary64 result that is not a number, told apart from others by its serial. -/
  | undefined (serial : Nat)
  | text (s : String)
  | symbol (s : String)
  | list (items : List Value)
  | tuple (items : List Value)
  /-- A datum that was read after an apostrophe; a tuple of that one datum. -/
  | quoted (datum : Value)
  /-- Items that were read between square brackets; a tuple of one list. -/
  | brackets (items : List Value)
  | trace (t : Trace)
  /-- The overlays of an evaluation, captured as a value. -/
  | tag (serial : Nat) (overlays : Overlays Trace)
  /-- A procedure with its source expression and the scope it was made in. -/
  | closure (serial : Nat) (source : Trace) (scope : Scope) (name : Value)
  | builtin (b : Builtin)
  | special (s : Special)

/-- A node with an optional value and keyed children in order of creation. -/
inductive Trace where
  | tree (value : Option Value) (children : List (Key × Trace))
  | cell (node : NodeId)

end

instance : Inhabited Value := ⟨.null⟩

instance : Inhabited Trace := ⟨.tree none []⟩

/-- The tree without value and children. -/
def Trace.empty : Trace := .tree none []

/-- A tree that holds a value and has no children. -/
def Trace.leaf (v : Value) : Trace := .tree (some v) []

/-- A tree of a kind, with its children. -/
def Trace.node (kind : String) (children : List (Key × Trace)) : Trace :=
  .tree (some (.text kind)) children

/-- A key as a value. -/
def Key.toValue : Key → Value
  | .name s => .text s
  | .index i => .int i
  | .symbol s => .symbol s

/-- An address as a value. -/
def Address.toValue (a : Address) : Value :=
  .tuple (a.map Key.toValue)

namespace Value

/-- The key that a value is, if it may be used as one: a text, a symbol or an
integer.  A truth value is no key. -/
def key? : Value → Option Key
  | text s => some (.name s)
  | int i => some (.index i)
  | symbol s => some (.symbol s)
  | _ => none

/-- The items of a list or of any kind of tuple. -/
def items? : Value → Option (List Value)
  | list items => some items
  | tuple items => some items
  | quoted datum => some [datum]
  | brackets items => some [.list items]
  | _ => none

/-- Tuples proper, quoted data and bracketed items are the tuples. -/
def isTuple : Value → Bool
  | tuple _ => true
  | quoted _ => true
  | brackets _ => true
  | _ => false

/-- The items as a sequence of the same kind as the sequence they come from. -/
def sameKind (source : Value) (items : List Value) : Value :=
  if source.isTuple then tuple items else list items

/-- Whether a value is a text that reads so; a symbol is none. -/
def isText (v : Value) (s : String) : Bool :=
  match v with
  | text t => t == s
  | _ => false

/-- Only the null value and false count as false. -/
def isTruthy : Value → Bool
  | null => false
  | bool b => b
  | _ => true

/-- The keys of an address given as a sequence or as a single key. -/
def addressItems (v : Value) : List Value :=
  v.items?.getD [v]

@[simp] theorem key?_toValue (k : Key) : k.toValue.key? = some k := by
  cases k <;> rfl

end Value

/-- The valid keys in front of a sequence of values, and the first value that is
no key. -/
def Address.ofValues : List Value → Address × Option Value
  | [] => ([], none)
  | v :: vs =>
    match v.key? with
    | some k =>
      let (ks, bad) := Address.ofValues vs
      (k :: ks, bad)
    | none => ([], some v)

end ProbTrace

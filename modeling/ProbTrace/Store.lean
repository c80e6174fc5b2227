import ProbTrace.Value.Agreement

/-!
# The store of cells

The nodes that a run makes are cells, positions in an append-only table.  Reading is
uniform: a tree holds its value and children itself, a cell in the table.  Writing
changes one cell and no other.  A cell is made writable or not, and stays so.

The outline of a trace is the tree with the same structure; the values it holds stay
as they are.  The view of a value goes further and also takes the tree of every trace
inside the values, so that the view is the whole content of a value at a moment.
Both stop at a cell that was already met on the way from the root.
-/

namespace ProbTrace

/-- What a cell holds, and whether it can be written to. -/
structure Cell where
  value : Option Value := none
  children : List (Key × Trace) := []
  writable : Bool := true

/-- Put a child under a key: in place of the child there, or after all others. -/
def insertChild : List (Key × Trace) → Key → Trace → List (Key × Trace)
  | [], k, t => [(k, t)]
  | (j, u) :: rest, k, t => if j = k then (k, t) :: rest else (j, u) :: insertChild rest k t

@[simp] theorem childAt?_nil (k : Key) : childAt? [] k = none := rfl

theorem childAt?_cons (j : Key) (u : Trace) (rest : List (Key × Trace)) (k : Key) :
    childAt? ((j, u) :: rest) k = if j = k then some u else childAt? rest k := by
  by_cases h : j = k <;> simp [childAt?, h]

@[simp] theorem childAt?_insertChild (children : List (Key × Trace)) (k l : Key) (t : Trace) :
    childAt? (insertChild children k t) l = if k = l then some t else childAt? children l := by
  induction children with
  | nil => simp [insertChild, childAt?_cons]
  | cons c rest ih =>
    obtain ⟨j, u⟩ := c
    by_cases hjk : j = k
    · subst hjk
      by_cases hl : j = l <;> simp [insertChild, childAt?_cons, hl]
    · by_cases hl : j = l
      · subst hl
        simp [insertChild, childAt?_cons, hjk, Ne.symm hjk]
      · simp [insertChild, childAt?_cons, hjk, hl, ih]

/-- The table of cells. -/
structure Store where
  cells : Array Cell := #[]

namespace Store

/-- What a cell holds. -/
def cell (s : Store) (n : NodeId) : Cell :=
  s.cells[n]?.getD {}

/-- Whether the root of a trace can be written to. -/
def isWritable (s : Store) : Trace → Bool
  | .tree _ _ => false
  | .cell n => (s.cell n).writable

/-- The value at the root of a trace. -/
def value? (s : Store) : Trace → Option Value
  | .tree v _ => v
  | .cell n => (s.cell n).value

/-- The children of the root of a trace, in order of creation. -/
def children (s : Store) : Trace → List (Key × Trace)
  | .tree _ cs => cs
  | .cell n => (s.cell n).children

/-- The child of the root under a key. -/
def child? (s : Store) (t : Trace) (k : Key) : Option Trace :=
  childAt? (s.children t) k

/-- The node at an address. -/
def find? (s : Store) (t : Trace) : Address → Option Trace
  | [] => some t
  | k :: ks =>
    match s.child? t k with
    | some u => s.find? u ks
    | none => none

/-- The value at an address. -/
def valueAt? (s : Store) (t : Trace) (a : Address) : Option Value :=
  (s.find? t a).bind s.value?

/-- Add a cell. -/
def alloc (s : Store) (c : Cell) : Store × NodeId :=
  let n := s.cells.size
  ({ cells := s.cells.push c }, n)

/-- Set or clear the value of a cell. -/
def setValue (s : Store) (n : NodeId) (v : Option Value) : Store :=
  { cells := s.cells.modify n fun c => { c with value := v } }

/-- Put a child under a cell. -/
def setChild (s : Store) (n : NodeId) (k : Key) (t : Trace) : Store :=
  { cells := s.cells.modify n fun c => { c with children := insertChild c.children k t } }

end Store

mutual

/-- Follow the children of a trace, reading cells through `deref`. -/
def Trace.outline (deref : NodeId → Trace) : Trace → Trace
  | .tree v cs => .tree v (outlineChildren deref cs)
  | .cell n => deref n

/-- The outlines of the children of a node. -/
def outlineChildren (deref : NodeId → Trace) : List (Key × Trace) → List (Key × Trace)
  | [] => []
  | (k, t) :: rest => (k, t.outline deref) :: outlineChildren deref rest

end

mutual

/-- Replace every trace inside a value by its whole content, reading cells through
`deref`. -/
def Value.expand (deref : NodeId → Trace) : Value → Value
  | .list vs => .list (expandItems deref vs)
  | .tuple vs => .tuple (expandItems deref vs)
  | .quoted v => .quoted (v.expand deref)
  | .brackets vs => .brackets (expandItems deref vs)
  | .trace t => .trace (t.expand deref)
  | .closure serial source scope name => .closure serial source scope (name.expand deref)
  | v => v

/-- The contents of the items of a sequence. -/
def expandItems (deref : NodeId → Trace) : List Value → List Value
  | [] => []
  | v :: vs => v.expand deref :: expandItems deref vs

/-- The whole content of a trace. -/
def Trace.expand (deref : NodeId → Trace) : Trace → Trace
  | .tree (some v) cs => .tree (some (v.expand deref)) (expandChildren deref cs)
  | .tree none cs => .tree none (expandChildren deref cs)
  | .cell n => deref n

/-- The contents of the children of a node. -/
def expandChildren (deref : NodeId → Trace) : List (Key × Trace) → List (Key × Trace)
  | [] => []
  | (k, t) :: rest => (k, t.expand deref) :: expandChildren deref rest

end

namespace Store

/-- The tree of a cell, following at most so many cells in a row and none of those on
the path to it. -/
def outlineAt (s : Store) : Nat → List NodeId → NodeId → Trace
  | 0, _, n => .cell n
  | depth + 1, path, n =>
    if n ∈ path then .cell n
    else .tree (s.cell n).value
      (outlineChildren (s.outlineAt depth (n :: path)) (s.cell n).children)

/-- The whole content of a cell, following at most so many cells in a row and none of
those on the path to it. -/
def contentAt (s : Store) : Nat → List NodeId → NodeId → Trace
  | 0, _, n => .cell n
  | depth + 1, path, n =>
    if n ∈ path then .cell n
    else .tree ((s.cell n).value.map fun v => v.expand (s.contentAt depth (n :: path)))
      (expandChildren (s.contentAt depth (n :: path)) (s.cell n).children)

/-- The number of cells that can follow one another. -/
def depth (s : Store) : Nat :=
  s.cells.size + 1

/-- The tree with the same structure and the same values. -/
def outline (s : Store) (t : Trace) : Trace :=
  t.outline (s.outlineAt s.depth [])

/-- The whole content of a value at this moment. -/
def view (s : Store) (v : Value) : Value :=
  v.expand (s.contentAt s.depth [])

end Store

mutual

/-- The values of a tree with their addresses, a node before its children and
children in order. -/
def Trace.entries : Trace → List (Address × Value)
  | .tree (some v) cs => ([], v) :: childEntries cs
  | .tree none cs => childEntries cs
  | .cell _ => []

/-- The values below the children of a node. -/
def childEntries : List (Key × Trace) → List (Address × Value)
  | [] => []
  | (k, t) :: rest => t.entries.map (fun e => (k :: e.1, e.2)) ++ childEntries rest

end

mutual

/-- Make new cells of a tree, writable or not. -/
def Trace.toCells (writable : Bool) : Trace → Store → Store × Trace
  | .tree v cs, s =>
    let (s, children) := toChildCells writable cs s
    let (s, n) := s.alloc { value := v, children := children, writable := writable }
    (s, .cell n)
  | .cell n, s => (s, .cell n)

/-- Make new cells of the children of a node. -/
def toChildCells (writable : Bool) :
    List (Key × Trace) → Store → Store × List (Key × Trace)
  | [], s => (s, [])
  | (k, t) :: rest, s =>
    let (s, u) := t.toCells writable s
    let (s, us) := toChildCells writable rest s
    (s, (k, u) :: us)

end

/-- The values of a trace with their addresses. -/
def Store.entries (s : Store) (t : Trace) : List (Address × Value) :=
  (s.outline t).entries

/-- Whether two values agree at this moment. -/
def Store.same (s : Store) (v w : Value) : Bool :=
  (s.view v).same (s.view w)

end ProbTrace

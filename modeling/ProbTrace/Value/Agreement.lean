import ProbTrace.Value
import ProbTrace.Number.Binary64

/-!
# Agreement of values

Values agree when they have the same structure: numbers by their value, lists and
tuples item by item with each other, traces by value and children whatever the order
of the children and whether they can be written to.  Closures and tags agree only
with themselves, and what is not a number agrees with nothing.

Agreement is stated for trees: cells are first replaced by their content.
-/

namespace ProbTrace

/-- A number, exact or binary64.  Truth values count as zero and one. -/
inductive Numeric where
  | int (i : Int)
  | float (x : Float)

/-- The order of two numbers, exact across the two kinds; nothing if one of them is
not a number. -/
def Numeric.compare? : Numeric → Numeric → Option Ordering
  | .int i, .int j => some (compare i j)
  | .int i, .float y => Number.compareInt i y
  | .float x, .int j => (Number.compareInt j x).map Ordering.swap
  | .float x, .float y =>
    if x < y then some .lt
    else if x == y then some .eq
    else if y < x then some .gt
    else none

namespace Value

/-- The number that a value is. -/
def numeric? : Value → Option Numeric
  | bool b => some (.int (if b then 1 else 0))
  | int i => some (.int i)
  | float x => some (.float x)
  | undefined _ => some (.float Number.notANumber)
  | _ => none

/-- Whether two values without parts agree. -/
def sameAtom (v w : Value) : Bool :=
  match v.numeric?, w.numeric? with
  | some a, some b => a.compare? b == some .eq
  | none, none =>
    match v, w with
    | null, null => true
    | text s, text t => s == t
    | symbol s, symbol t => s == t
    | tag m _, tag n _ => m == n
    | closure m _ _ _, closure n _ _ _ => m == n
    | builtin a, builtin b => a == b
    | special a, special b => a == b
    | _, _ => false
  | _, _ => false

end Value

/-- The child under a key. -/
def childAt? (children : List (Key × Trace)) (k : Key) : Option Trace :=
  (children.find? fun c => c.1 == k).map Prod.snd

mutual

/-- Whether two values agree. -/
def Value.same : Value → Value → Bool
  | .trace t, w =>
    match w with
    | .trace u => t.same u
    | _ => false
  | .list vs, w =>
    match w.items? with
    | some ws => sameItems vs ws
    | none => false
  | .tuple vs, w =>
    match w.items? with
    | some ws => sameItems vs ws
    | none => false
  | .quoted v, w =>
    match w.items? with
    | some [x] => v.same x
    | _ => false
  | .brackets vs, w =>
    match w.items? with
    | some [x] =>
      match x.items? with
      | some ws => sameItems vs ws
      | none => false
    | _ => false
  | v, w => v.sameAtom w

/-- Whether two sequences agree item by item. -/
def sameItems : List Value → List Value → Bool
  | [], [] => true
  | v :: vs, w :: ws => v.same w && sameItems vs ws
  | _, _ => false

/-- Whether two traces agree. -/
def Trace.same : Trace → Trace → Bool
  | .cell m, u =>
    match u with
    | .cell n => m == n
    | _ => false
  | .tree none cs, u =>
    match u with
    | .tree none ds => cs.length == ds.length && sameChildren cs ds
    | _ => false
  | .tree (some v) cs, u =>
    match u with
    | .tree (some w) ds => v.same w && cs.length == ds.length && sameChildren cs ds
    | _ => false

/-- Whether each child agrees with the child under the same key on the other side. -/
def sameChildren : List (Key × Trace) → List (Key × Trace) → Bool
  | [], _ => true
  | (k, t) :: rest, ds =>
    match childAt? ds k with
    | some u => t.same u && sameChildren rest ds
    | none => false

end

end ProbTrace

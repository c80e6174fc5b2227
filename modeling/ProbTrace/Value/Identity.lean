import ProbTrace.Value

/-!
# Identity of values

Two results that are not numbers are never equal, and yet one result is the same as
itself.  The serial number of such a result makes the difference: two values with one
serial are one result.  Traces are the same when they are the same cell.

Values that come from outside of a run have no serial numbers.  Before a run uses
them, everything in them that is not a number is numbered.
-/

namespace ProbTrace

/-- Whether two values are one and the same result or the same cell. -/
def Value.identical : Value → Value → Bool
  | .undefined m, .undefined n => m == n
  | .trace (.cell m), .trace (.cell n) => m == n
  | _, _ => false

/-- Give the next serial number to a result that is not a number. -/
def Value.enroll : Value → Nat → Value × Nat
  | .float x, n => if x.isNaN then (.undefined n, n + 1) else (.float x, n)
  | v, n => (v, n)

mutual

/-- Give serial numbers to everything in a value that is not a number. -/
def Value.enrollAll : Value → Nat → Value × Nat
  | .list vs, n =>
    let (vs, n) := enrollItems vs n
    (.list vs, n)
  | .tuple vs, n =>
    let (vs, n) := enrollItems vs n
    (.tuple vs, n)
  | .quoted v, n =>
    let (v, n) := v.enrollAll n
    (.quoted v, n)
  | .brackets vs, n =>
    let (vs, n) := enrollItems vs n
    (.brackets vs, n)
  | .trace t, n =>
    let (t, n) := t.enrollAll n
    (.trace t, n)
  | v, n => v.enroll n

/-- Give serial numbers to the items of a sequence. -/
def enrollItems : List Value → Nat → List Value × Nat
  | [], n => ([], n)
  | v :: vs, n =>
    let (v, n) := v.enrollAll n
    let (vs, n) := enrollItems vs n
    (v :: vs, n)

/-- Give serial numbers to the values of a tree. -/
def Trace.enrollAll : Trace → Nat → Trace × Nat
  | .tree (some v) cs, n =>
    let (v, n) := v.enrollAll n
    let (cs, n) := enrollChildren cs n
    (.tree (some v) cs, n)
  | .tree none cs, n =>
    let (cs, n) := enrollChildren cs n
    (.tree none cs, n)
  | .cell i, n => (.cell i, n)

/-- Give serial numbers to the values below the children of a node. -/
def enrollChildren : List (Key × Trace) → Nat → List (Key × Trace) × Nat
  | [], n => ([], n)
  | (k, t) :: rest, n =>
    let (t, n) := t.enrollAll n
    let (rest, n) := enrollChildren rest n
    ((k, t) :: rest, n)

end

end ProbTrace

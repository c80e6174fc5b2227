import ProbTrace.Machine
import ProbTrace.Value.Sequence

/-!
# Builtin procedures

What the builtin procedures compute from the values of their arguments.  A wrong
number of arguments is a fault of type.  Equality and order look at the content of
traces; all other builtins take traces as they are.
-/

namespace ProbTrace
namespace Builtin

/-- Test two values for a relation. -/
def relation (s : Store) (r : Relation) (v w : Value) : Except Fault Value := do
  return .bool (← v.relate s r w)

/-- The logarithm of a number, to a base if one is given. -/
def logarithm (v : Value) (base? : Option Value) : Except Fault Value := do
  let x ← v.logarithm
  match base? with
  | none => return .float x
  | some base => Numeric.divide (.float x) (.float (← base.logarithm))

/-- The result of a builtin procedure, `note` apart. -/
def compute (s : Store) : Builtin → List Value → Except Fault Value
  | add, [] => .ok (.int 0)
  | add, v :: vs => vs.foldlM Value.add v
  | subtract, [v] => v.negate
  | subtract, v :: vs => vs.foldlM Value.subtract v
  | multiply, vs => vs.foldlM Value.multiply (.int 1)
  | divide, [v] => (Value.int 1).divide v
  | divide, v :: vs => vs.foldlM Value.divide v
  | equal, [v, w] => .ok (.bool (s.same v w))
  | notEqual, [v, w] => .ok (.bool (!s.same v w))
  | less, [v, w] => relation s .less v w
  | greater, [v, w] => relation s .greater v w
  | lessEqual, [v, w] => relation s .lessEqual v w
  | greaterEqual, [v, w] => relation s .greaterEqual v w
  | logicalNot, [v] => .ok (.bool (!v.isTruthy))
  | makeList, vs => .ok (.list vs)
  | makeTuple, vs => .ok (.tuple vs)
  | pair, [v, w] => v.pair w
  | address, vs => Value.address vs
  | first, [v] => v.first
  | rest, [v] => v.rest
  | nth, [v, i] => v.nth i
  | length, [v] => v.length
  | range, [v] => v.range
  | exp, [v] => return .float (← v.exponential)
  | log, [v] => logarithm v none
  | log, [v, base] => logarithm v (some base)
  | _, _ => .error .wrongType

/-- Call a builtin procedure.  `note` records its arguments and gives the last one. -/
def call (b : Builtin) (args : List Value) : Run Value := do
  match b with
  | note =>
    modify fun m => { m with notes := m.notes.push args }
    return args.getLast?.getD .null
  | _ => Run.enroll (← Run.ofExcept (b.compute (← Run.store) args))

/-- The builtins of the language under their names. -/
def table : List (String × Builtin) :=
  [("+", add), ("-", subtract), ("*", multiply), ("/", divide), ("=", equal), ("eq", equal),
   ("neq", notEqual), ("<", less), (">", greater), ("<=", lessEqual), (">=", greaterEqual),
   ("not", logicalNot), ("list", makeList), ("tuple", makeTuple), ("pair", pair),
   ("addr", address), ("first", first), ("rest", rest), ("nth", nth), ("length", length),
   ("range", range), ("exp", exp), ("log", log)]

/-- The builtin of a name. -/
def ofName? (name : String) : Option Builtin :=
  table.lookup name

end Builtin

namespace TopLevel

/-- The names every program can use. -/
def standardNames : List (String × Value) :=
  Builtin.table.map (fun (name, b) => (name, .builtin b)) ++
    [Special.apply, .map, .random .flip, .random .uniform, .random .gaussian].map fun s =>
      (s.baseName, .special s)

/-- The top level of a program. -/
def standard : TopLevel :=
  .names standardNames

/-- The top level with the procedures for looking into a run: `note`, which records
its arguments, and `scored`, which chooses its own score. -/
def instrumented : TopLevel :=
  .names (standardNames ++ [("note", .builtin .note), ("scored", .special .scored)])

end TopLevel
end ProbTrace

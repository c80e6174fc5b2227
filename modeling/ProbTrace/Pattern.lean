import ProbTrace.Scope
import ProbTrace.Value.Sequence

/-!
# Patterns

A pattern is a trace that says how inputs are taken apart.  A variable pattern
binds the whole input to its name.  A tuple pattern takes a sequence apart item by
item; if its second-to-last part is the rest marker, the last part receives the
items that remain.  Binding goes from left to right, and the bindings made before a
fault remain.
-/

namespace ProbTrace

namespace Pattern

/-- The kind of a variable, as a pattern and as an expression. -/
def variableKind : String := "variable"

/-- The kind of a tuple pattern. -/
def tupleKind : String := "tuple"

/-- The kind of the rest marker. -/
def restKind : String := "&"

/-- The key of the name of a variable. -/
def nameKey : Key := .name "name"

/-- The key of a definition's right-hand side when it has no name of its own. -/
def definiensKey : Key := .name "definiens"

/-- The name that binds without giving its name to a definition. -/
def wildcard : String := "_"

end Pattern

/-- The kind of a node: the text it holds. -/
def Value.kind? : Option Value → Option String
  | some (.text s) => some s
  | _ => none

/-- Whether a tree is of a kind. -/
def Trace.hasKind (kind : String) : Trace → Bool
  | .tree v _ => Value.kind? v == some kind
  | .cell _ => false

namespace Pattern

/-- A part of a tuple pattern: whether it is the rest marker, and how it binds. -/
structure Part where
  isRest : Bool
  bind : Value → Run Unit

/-- The parts of a tuple pattern in order, from position `i` on.  Every position
must have a part, and the rest marker may stand only before the last one. -/
def orderParts (parts : List (Key × Part)) (misplaced : Fault) (count : Nat) :
    Nat → Nat → Except Fault (List Part)
  | 0, _ => .ok []
  | left + 1, i =>
    match parts.lookup (.index i) with
    | none => .error (.noChild (.int i))
    | some part =>
      if part.isRest && i + 2 != count then .error misplaced
      else do
        let later ← orderParts parts misplaced count left (i + 1)
        return part :: later

/-- Bind parts to items from left to right.  The part after the rest marker
receives the remaining items as one sequence of the kind of `source`. -/
def bindParts (tooFew tooMany : Fault) (source : Value) : List Part → List Value → Run Unit
  | [], [] => return
  | [], _ :: _ => Run.raise tooMany
  | part :: parts, vs =>
    if part.isRest then
      match parts with
      | last :: _ => last.bind (source.sameKind vs)
      | [] => Run.raise tooMany
    else
      match vs with
      | [] => Run.raise tooFew
      | v :: vs => do
        part.bind v
        bindParts tooFew tooMany source parts vs

end Pattern

mutual

/-- Bind the names of a pattern that is a tree to the parts of an input. -/
def Trace.bindPattern (ctx : Context) (scope : Scope) : Trace → Value → Run Unit
  | .tree v cs => fun inputs =>
    let pattern : Value := .trace (.tree v cs)
    if Value.kind? v == some Pattern.variableKind then
      match (Trace.tree v cs).valueAt? [Pattern.nameKey] with
      | some name => Run.bindName ctx scope name inputs
      | none => Run.raise (.noValueAt [Pattern.nameKey.toValue])
    else if Value.kind? v == some Pattern.tupleKind then do
      let parts ← Run.ofExcept (Pattern.orderParts (patternParts ctx scope cs)
        (.misplacedRest pattern inputs) cs.length cs.length 0)
      match inputs.elements? with
      | none => Run.raise (.notASequence pattern inputs)
      | some items =>
        Pattern.bindParts (.tooFewInputs items cs.length pattern)
          (.tooManyInputs items cs.length pattern) inputs parts items
    else Run.raise (.unknownPattern pattern inputs)
  | .cell n => fun inputs => Run.raise (.unknownPattern (.trace (.cell n)) inputs)

/-- The parts of a tuple pattern under their keys. -/
def patternParts (ctx : Context) (scope : Scope) : List (Key × Trace) → List (Key × Pattern.Part)
  | [] => []
  | (k, t) :: rest =>
    (k, ⟨t.hasKind Pattern.restKind, t.bindPattern ctx scope⟩) :: patternParts ctx scope rest

end

/-- Bind the names of a pattern to the parts of an input. -/
def Run.matchBind (ctx : Context) (scope : Scope) (pattern inputs : Value) : Run Unit := do
  match pattern with
  | .trace t => ((← Run.store).outline t).bindPattern ctx scope inputs
  | _ => raise (.unknownPattern pattern inputs)

namespace Store

/-- The key under which the right-hand side of a definition is found and
evaluated: the name of a variable other than the wildcard, and else a fixed key. -/
def definiens (s : Store) (pattern : Value) : Except Fault Key :=
  match pattern with
  | .trace t =>
    if Value.kind? (s.value? t) == some Pattern.variableKind then do
      let name ← s.getAt t Pattern.nameKey.toValue
      if name.isText Pattern.wildcard then return Pattern.definiensKey
      match name.key? with
      | some k => return k
      | none => .error (.invalidKey .inAddress name (.tuple [name]))
    else return Pattern.definiensKey
  | _ => return Pattern.definiensKey

end Store
end ProbTrace

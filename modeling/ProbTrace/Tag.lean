import ProbTrace.Machine

/-!
# Captured tags

A tag is the overlays of an evaluation, captured as a value.  A tag with keys after
it is a quasi-address: it denotes the overlays at that address below the captured
ones.  A missing overlay stays missing, and the output gets the nodes on the way.
-/

namespace ProbTrace

namespace Value

/-- Whether a value is a tag or starts with one. -/
def isTagAddress : Value → Bool
  | tag _ _ => true
  | v =>
    match v.items? with
    | some (tag _ _ :: _) => true
    | _ => false

/-- The tag of a quasi-address and the keys after it, which must have a text. -/
def quasiAddress (v : Value) : Except Fault (Overlays Trace × Address) :=
  match v.items? with
  | none | some [] => .error (.emptyQuasiAddress v)
  | some (tag _ overlays :: keys) =>
    match Address.ofValues keys with
    | (a, none) => if a.hasText then .ok (overlays, a) else .error .wrongValue
    | (_, some bad) => .error (.invalidKey .inQuasiAddress bad (tuple keys))
  | some (_ :: _) => .error (.noCapturedTag v)

end Value

/-- Overlays with the node of an output at an address as their output. -/
def Overlays.reaching (o : Overlays Trace) (output : Option Trace) (a : Address) :
    Edit (Overlays Trace) := do
  let u ← output.mapM fun t => t.reach a
  return { o with output := u }

/-- The overlays at an address below given ones.  The values to force and to observe
are looked for before the output gets its nodes. -/
def Overlays.below (o : Overlays Trace) (a : Address) : Edit (Overlays Trace) := do
  let s ← get
  Overlays.reaching
    { intervene := o.intervene.bind (s.find? · a), target := o.target.bind (s.find? · a) }
    o.output a

/-- The overlays that a quasi-address denotes. -/
def Value.resolveTag (v : Value) : Edit (Overlays Trace) := do
  let (overlays, a) ← Edit.ofExcept v.quasiAddress
  overlays.below a

/-- Capture overlays as a value. -/
def Run.capture (o : Overlays Trace) : Run Value := do
  return .tag (← fresh) o

end ProbTrace

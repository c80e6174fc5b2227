import ProbTrace.Machine

/-!
# Scopes

A scope is a chain of frames that ends at the top level.  Looking up a name goes
outwards and takes the first binding met; binding a name changes the innermost
frame only.  The top level takes no bindings.

A name may be any value: the names of programs are texts, and other values are
taken as addresses inside a frame.
-/

namespace ProbTrace

namespace Trace

/-- The value at an address of a tree. -/
def valueAt? : Trace → Address → Option Value
  | .tree v _, [] => v
  | .tree _ cs, k :: ks =>
    match childAt? cs k with
    | some t => t.valueAt? ks
    | none => none
  | .cell _, _ => none

/-- Change the value at an address of a tree, adding the nodes that are missing. -/
def update (f : Option Value → Option Value) : Address → Trace → Trace
  | [], .tree v cs => .tree (f v) cs
  | k :: ks, .tree v cs =>
    .tree v (insertChild cs k (update f ks ((childAt? cs k).getD .empty)))
  | _, .cell n => .cell n

/-- The keys of the root of a tree, in order of creation. -/
def keys : Trace → List Key
  | .tree _ cs => cs.map Prod.fst
  | .cell _ => []

end Trace

/-- The name that no frame may bind. -/
def reservedName : String := "*parent*"

mutual

/-- Whether a value can be looked up in a table of names: neither it nor a part
of it can be changed. -/
def Value.isHashable : Value → Bool
  | .list _ => false
  | .brackets _ => false
  | .trace _ => false
  | .tuple items => allHashable items
  | .quoted datum => datum.isHashable
  | _ => true

/-- Whether all items of a tuple can be looked up. -/
def allHashable : List Value → Bool
  | [] => true
  | v :: vs => v.isHashable && allHashable vs

end

namespace TopLevel

/-- The value of a name.  A rule that finds nothing under a name leaves it unbound. -/
def resolve (top : TopLevel) (name : Value) : Except Fault Value :=
  match top with
  | names entries =>
    if name.isHashable then
      match name with
      | .text s =>
        match entries.lookup s with
        | some v => .ok v
        | none => .error (.unbound name)
      | _ => .error (.unbound name)
    else .error .wrongType
  | rule f =>
    match f name with
    | .ok v => .ok v
    | .error fault => .error (if fault.kind = .missing then .unbound name else fault)

/-- The text of a top level: how many names it has, or that a rule gives them. -/
def text : TopLevel → String
  | names entries => "<TopLevelEnvironment " ++ Number.intText entries.length ++ " names>"
  | rule _ => "<TopLevelEnvironment resolver>"

end TopLevel

/-- The bindings of a frame. -/
def Machine.bindings (m : Machine) (id : FrameId) : Trace :=
  m.frames[id]?.getD .empty

namespace Scope

/-- The value of a name: that of the innermost frame that binds it, and else that
of the top level. -/
def find (top : TopLevel) (m : Machine) (name : Value) : Scope → Except Fault Value
  | .frame id outer =>
    match name.address?.bind (m.bindings id).valueAt? with
    | some v => .ok v
    | none => find top m name outer
  | .top => top.resolve name
  | .absent => .error .noSuchOperation

/-- Whether the innermost frame binds a name. -/
def binds (m : Machine) (name : Value) : Scope → Bool
  | .frame id _ => (name.address?.bind (m.bindings id).valueAt?).isSome
  | _ => false

/-- The keys of the innermost frame. -/
def keys (m : Machine) : Scope → List Key
  | .frame id _ => (m.bindings id).keys
  | _ => []

/-- The text of a scope; none for a missing one. -/
def text? (top : TopLevel) (m : Machine) : Scope → Option String
  | .frame id _ => some (Fault.frameText (m.bindings id).keys)
  | .top => some top.text
  | .absent => none

/-- The bindings of the innermost frame under single keys, in order of creation. -/
def locals (m : Machine) : Scope → List (Key × Value)
  | .frame id _ =>
    (m.bindings id).keys.filterMap fun k => ((m.bindings id).valueAt? [k]).map fun v => (k, v)
  | _ => []

end Scope

namespace Run

/-- The text of a scope, which shows the keys of its innermost frame. -/
def scopeText? (ctx : Context) (scope : Scope) : Run (Option String) := do
  compose ((scope.keys (← get)).map Key.toValue)
  return scope.text? ctx.topLevel (← get)

/-- Look up a name. -/
def lookup (ctx : Context) (scope : Scope) (name : Value) : Run Value := do
  ofExcept (scope.find ctx.topLevel (← get) name)

/-- A new frame inside a scope. -/
def newFrame (outer : Scope) : Run Scope :=
  modifyGet fun m => (.frame m.frames.size outer, { m with frames := m.frames.push .empty })

/-- A new frame inside a scope that is there. -/
def extend (outer : Scope) : Run Scope :=
  match outer with
  | .absent => raise .noSuchOperation
  | _ => newFrame outer

/-- Bind a name in a frame. -/
def defineIn (id : FrameId) (name v : Value) : Run Unit := do
  if name.isText reservedName then
    raise (.reservedName ((← get).bindings id).keys)
  let (keys, bad) := Address.ofValues name.addressItems
  match bad with
  | none => modify fun m => { m with frames := m.frames.modify id (Trace.update (fun _ => v) keys) }
  | some key =>
    modify fun m => { m with frames := m.frames.modify id (Trace.update (fun w => w) keys) }
    raise (.invalidKey .inTrace key name)

/-- Bind a name in a scope that takes bindings. -/
def define (ctx : Context) (scope : Scope) (name v : Value) : Run Unit :=
  match scope with
  | .frame id _ => defineIn id name v
  | .top => raise (.topLevelDefinition name ctx.topLevel.text)
  | .absent => raise .noSuchOperation

/-- Bind a name in the innermost frame of a scope. -/
def bindName (ctx : Context) (scope : Scope) (name v : Value) : Run Unit := do
  match scope with
  | .frame id _ => defineIn id name v
  | _ => raise (.notAFrame name (scope.text? ctx.topLevel (← get)))

end Run
end ProbTrace

import ProbTrace.Builtin
import ProbTrace.Distribution
import ProbTrace.Expression
import ProbTrace.Tag

/-!
# Evaluation under overlays

Evaluation walks an expression and applies procedures while three traces are at
hand: values found in the intervention trace are forced, values found in the target
trace are observed, and every value produced is recorded in the output trace.  The
address of a value follows the shape of the expression that produced it.  Evaluation
gives a value and a score, the log-probability of what was observed.

Walking and applying call each other.  Each form is a definition of its own that is
given the two as parameters, and the two are tied together by the depth to which
they may call each other.
-/

namespace ProbTrace
namespace Evaluator

/-- The two recursive calls of an evaluation.  The score of a walk is always a
binary64 number; a procedure may state any value as its score. -/
structure Calls where
  walk : Trace → Scope → Address → Overlays Trace → Run (Value × Float)
  apply : Value → Value → Overlays Trace → Run (Value × Value)

/-- Inputs must be a list or a tuple. -/
def checkInputs (inputs : Value) : Except Fault (List Value) :=
  match inputs.items? with
  | some items => .ok items
  | none => .error (.invalidInputs .inputsAreSequence inputs)

/-- An output must be missing or a trace that can be written to. -/
def checkOutput (s : Store) : Option Trace → Except Fault Unit
  | none => .ok ()
  | some t =>
    if s.isWritable t then .ok () else .error (.invalidInputs .outputIsWritable (.trace t))

/-- Record a value at the root of the output. -/
def record (output : Option Trace) (v : Value) : Run Unit :=
  match output with
  | some t => Run.edit (t.put (some v))
  | none => return

/-- Add a score to a sum. -/
def addScore (total : Float) (score : Value) : Except Fault Float := do
  return total + (← score.toFloat)

/-- Report that an intervention disagrees with an observation of a call of a procedure,
which goes by a name. -/
def warnMismatch
    (ctx : Context) (target intervention proc : Value) (callee : String) : Run Unit := do
  if ctx.warnOnMismatch then
    Run.compose [target, intervention, proc]
    let s ← Run.store
    Run.notify (.mismatch (s.view target) (s.view intervention) callee)

/-- The value at the root of an overlay. -/
def overlayValue? (s : Store) (overlay : Option Trace) : Option Value :=
  overlay.bind s.value?

/-! ## Application of procedures -/

/-- Apply the overlays to the result of a call.  An observed value comes before a
forced one and a forced one before the computed one; an execution in which the first
two disagree is impossible. -/
def settle
    (ctx : Context) (proc : Value) (o : Overlays Trace)
    (value : Value) (score : Float) : Run (Value × Float) := do
  let s ← Run.store
  let forced := overlayValue? s o.intervene
  match overlayValue? s o.target with
  | none =>
    let final := forced.getD value
    record o.output final
    return (final, score)
  | some observed =>
    let clash := match forced with
      | some f => !s.same observed f
      | none => false
    if clash then
      warnMismatch ctx observed (forced.getD value) proc (s.view proc).procedureName
    record o.output observed
    return (observed, if clash then Number.negativeInfinity else score)

/-- Apply a distribution: score the observed value, or take the forced one, or draw
a new one. -/
def applyRandom
    (ctx : Context) (d : Distribution) (inputs : List Value) (o : Overlays Trace) :
    Run (Value × Float) := do
  let s ← Run.store
  let (value, score) ←
    match overlayValue? s o.target, overlayValue? s o.intervene with
    | some observed, some forced =>
      if s.same observed forced then do
        let score ← Run.ofExcept (d.logDensity s (observed :: inputs))
        pure (observed, score)
      else do
        warnMismatch ctx observed forced (.special (.random d)) d.name
        pure (observed, Number.negativeInfinity)
    | some observed, none => do
      let score ← Run.ofExcept (d.logDensity s (observed :: inputs))
      pure (observed, score)
    | none, some forced => pure (forced, 0.0)
    | none, none => do
      let drawn ← d.sample ctx inputs
      pure (drawn, 0.0)
  record o.output value
  return (value, score)

/-- Apply a procedure to each item, item `i` under the overlays at address `i`. -/
def mapItems
    (calls : Calls) (proc : Value) (o : Overlays Trace) :
    Nat → Float → List Value → Run (List Value × Float)
  | _, total, [] => return ([], total)
  | i, total, v :: vs => do
    let below ← Run.edit (o.below [.index i])
    let (w, score) ← calls.apply proc (.list [v]) below
    let total ← Run.ofExcept (addScore total score)
    let (ws, total) ← mapItems calls proc o (i + 1) total vs
    return (w :: ws, total)

/-- The fault of a special procedure that takes two inputs. -/
def needsTwo (inputs : List Value) (shape : String) : Fault :=
  if inputs.length < 2 then .tooFewInputs inputs 2 (.text shape)
  else .tooManyInputs inputs 2 (.text shape)

/-- Apply a special procedure. -/
def applySpecial
    (ctx : Context) (calls : Calls) (s : Special) (inputs : List Value) (o : Overlays Trace) :
    Run (Value × Value) :=
  match s with
  | .apply =>
    match inputs with
    | [proc, args] => calls.apply proc args o
    | _ => Run.raise (needsTwo inputs "(proc args)")
  | .map =>
    match inputs with
    | [proc, sequence] =>
      match sequence.items? with
      | none => Run.raise (.invalidInputs .mapSequence sequence)
      | some items => do
        let (ws, total) ← mapItems calls proc o 0 0.0 items
        let result := sequence.sameKind ws
        record o.output result
        return (result, .float total)
    | _ => Run.raise (needsTwo inputs "(fun seq)")
  | .random d => do
    let (v, score) ← applyRandom ctx d inputs o
    return (v, .float score)
  | .scored =>
    match inputs with
    | v :: score :: _ => return (v, score)
    | _ => Run.raise .outOfRange

/-- Evaluate an expression from the empty address. -/
def evalFrom
    (calls : Calls) (exp : Trace) (scope : Scope) (o : Overlays Trace) :
    Run (Value × Float) := do
  Run.ofExcept (checkOutput (← Run.store) o.output)
  calls.walk exp scope [] o

/-- The child of an expression under a key. -/
def part (exp : Trace) (key : Key) : Run Trace := do
  Run.ofExcept ((← Run.store).getChild exp key.toValue)

/-- Apply a closure: bind its pattern to the inputs in a new frame and evaluate its
body there. -/
def applyClosure
    (ctx : Context) (calls : Calls) (source : Trace) (scope : Scope)
    (inputs : Value) (o : Overlays Trace) : Run (Value × Float) := do
  let frame ← Run.newFrame scope
  let pattern ← part source (.name "pattern")
  Run.matchBind ctx frame (.trace pattern) inputs
  let body ← part source (.name "body")
  evalFrom calls body frame o

/-- Apply a procedure. -/
def applyWith
    (ctx : Context) (calls : Calls) (proc inputs : Value) (o : Overlays Trace) :
    Run (Value × Value) := do
  let items ← Run.ofExcept (checkInputs inputs)
  Run.ofExcept (checkOutput (← Run.store) o.output)
  match proc with
  | .special s => applySpecial ctx calls s items o
  | .closure _ source scope _ =>
    let (v, score) ← applyClosure ctx calls source scope inputs o
    let (v, score) ← settle ctx proc o v score
    return (v, .float score)
  | .builtin b =>
    let v ← b.call items
    let (v, score) ← settle ctx proc o v 0.0
    return (v, .float score)
  | _ =>
    Run.compose [proc]
    Run.notify (.notAProcedure ((← Run.store).view proc))
    Run.raise (.notAProcedure proc)

/-! ## Forms -/

/-- Walk so many numbered parts of an expression from a position on, adding their
scores to a sum. -/
def walkParts
    (calls : Calls) (exp : Trace) (scope : Scope) (address : Address) (o : Overlays Trace) :
    Nat → Nat → Float → Run (List Value × Float)
  | 0, _, total => return ([], total)
  | left + 1, i, total => do
    let sub ← part exp (.index i)
    let (v, score) ← calls.walk sub scope (address ++ [.index i]) o
    let (vs, total) ← walkParts calls exp scope address o left (i + 1) (total + score)
    return (v :: vs, total)

/-- The key of a call: the name of a variable, and else a fixed key. -/
def procedureKey (s : Store) (operator : Trace) : Except Fault Key :=
  if Value.kind? (s.value? operator) == some Expression.Kind.reference.word then do
    let name ← s.getAt operator Pattern.nameKey.toValue
    match name.key? with
    | some k => return k
    | none => .error (.invalidKey .ofProcedure name (.trace operator))
  else return .name "call"

/-- Walk all parts, then apply the first to the others under the overlays at the key
of the call. -/
def walkApplication
    (calls : Calls) (exp : Trace) (scope : Scope) (address : Address) (o : Overlays Trace) :
    Run (Value × Float) := do
  let count := ((← Run.store).children exp).length
  let (vs, total) ← walkParts calls exp scope address o count 0 0.0
  let operator ← part exp (.index 0)
  let key ← Run.ofExcept (procedureKey (← Run.store) operator)
  Run.compose [address.toValue, vs.headD .null, Address.toValue (address ++ [key])]
  let below ← Run.edit (o.below (address ++ [key]))
  let (v, score) ← calls.apply (vs.headD .null) (.list vs.tail) below
  let total ← Run.ofExcept (addScore total score)
  return (v, total)

/-- The value that a variable is bound to. -/
def walkReference (ctx : Context) (exp : Trace) (scope : Scope) : Run (Value × Float) := do
  let name ← Run.ofExcept ((← Run.store).getAt exp Pattern.nameKey.toValue)
  let v ← Run.lookup ctx scope name
  return (v, 0.0)

/-- The value that a literal holds. -/
def walkLiteral (exp : Trace) : Run (Value × Float) := do
  let v ← Run.ofExcept ((← Run.store).getAt exp (.text "value"))
  return (v, 0.0)

/-- A procedure of the expression and the scope; its body is not evaluated. -/
def walkGen (exp : Trace) (scope : Scope) : Run (Value × Float) := do
  let name := ((← Run.store).valueAt? exp [Pattern.nameKey]).getD .null
  Run.compose [name]
  return (.closure (← Run.fresh) exp scope name, 0.0)

/-- Walk the predicate, then the branch it chooses. -/
def walkConditional
    (calls : Calls) (exp : Trace) (scope : Scope) (address : Address) (o : Overlays Trace) :
    Run (Value × Float) := do
  let predicate ← part exp (.name "predicate")
  let (p, first) ← calls.walk predicate scope (address ++ [.name "predicate"]) o
  let key : Key := .name (if p.isTruthy then "then" else "else")
  Run.compose [address.toValue, p]
  let branch ← part exp key
  let (v, second) ← calls.walk branch scope (address ++ [key]) o
  return (v, first + second)

/-- Walk the statements in a new frame; the last one gives the value, and the empty
tree if there is none. -/
def walkBlock
    (calls : Calls) (exp : Trace) (scope : Scope) (address : Address) (o : Overlays Trace) :
    Run (Value × Float) := do
  let frame ← Run.newFrame scope
  let count := ((← Run.store).children exp).length
  let (vs, total) ← walkParts calls exp frame address o count 0 0.0
  return (vs.getLast?.getD (.trace .empty), total)

/-- Walk the right-hand side, bind the pattern in the current frame, and record the
value, unless it is a tag: the output would then refer to itself. -/
def walkDefinition
    (ctx : Context) (calls : Calls)
    (exp : Trace) (scope : Scope) (address : Address) (o : Overlays Trace) :
    Run (Value × Float) := do
  let pattern ← part exp (.name "pattern")
  let key ← Run.ofExcept ((← Run.store).definiens (.trace pattern))
  let rhs ← part exp key
  let (v, score) ← calls.walk rhs scope (address ++ [key]) o
  Run.matchBind ctx scope (.trace pattern) v
  match o.output with
  | some t =>
    if v.isTagAddress then return (v, score)
    Run.edit do
      let u ← t.reach (address ++ [key])
      u.put (some v)
    return (v, score)
  | none => return (v, score)

/-- Capture the overlays. -/
def walkThis (o : Overlays Trace) : Run (Value × Float) := do
  return (← Run.capture o, 0.0)

/-- Walk the tag, then evaluate the expression under the overlays it denotes. -/
def walkWithAddress
    (calls : Calls) (exp : Trace) (scope : Scope) (address : Address) (o : Overlays Trace) :
    Run (Value × Float) := do
  let tag ← part exp (.name "tag")
  let (t, first) ← calls.walk tag scope (address ++ [.name "tag"]) o
  let resolved ← Run.edit t.resolveTag
  let body ← part exp (.name "expression")
  let (v, second) ← evalFrom calls body scope resolved
  return (v, first + second)

/-- Walk an expression of a kind. -/
def walkKind
    (ctx : Context) (calls : Calls) (kind : Expression.Kind)
    (exp : Trace) (scope : Scope) (address : Address) (o : Overlays Trace) :
    Run (Value × Float) :=
  match kind with
  | .application => walkApplication calls exp scope address o
  | .reference => walkReference ctx exp scope
  | .literal => walkLiteral exp
  | .gen => walkGen exp scope
  | .conditional => walkConditional calls exp scope address o
  | .block => walkBlock calls exp scope address o
  | .definition => walkDefinition ctx calls exp scope address o
  | .this => walkThis o
  | .withAddress => walkWithAddress calls exp scope address o

/-- Stop because a value is no expression. -/
def rejectExpression (address : Address) (exp : Value) : Run (Value × Float) := do
  Run.compose [address.toValue, exp]
  Run.notify (.notAnExpression address ((← Run.store).view exp))
  Run.raise (.notAnExpression exp)

/-- Walk an expression at an address.  A value forced at the address replaces the
computed one and leaves the score. -/
def walkWith
    (ctx : Context) (calls : Calls)
    (exp : Trace) (scope : Scope) (address : Address) (o : Overlays Trace) :
    Run (Value × Float) := do
  match (Value.kind? ((← Run.store).value? exp)).bind Expression.Kind.ofWord? with
  | none => rejectExpression address (.trace exp)
  | some kind =>
    let (v, score) ← walkKind ctx calls kind exp scope address o
    let s ← Run.store
    match o.intervene.bind (s.valueAt? · address) with
    | some forced => return (forced, score)
    | none => return (v, score)

/-! ## Tying the knot -/

mutual

/-- Walk an expression to a depth of calls. -/
def walkAt (ctx : Context) :
    Nat → Trace → Scope → Address → Overlays Trace → Run (Value × Float)
  | 0 => fun _ _ _ _ => throw .tooDeep
  | depth + 1 => fun exp scope address o =>
    walkWith ctx ⟨walkAt ctx depth, applyAt ctx depth⟩ exp scope address o

/-- Apply a procedure to a depth of calls. -/
def applyAt (ctx : Context) :
    Nat → Value → Value → Overlays Trace → Run (Value × Value)
  | 0 => fun _ _ _ => throw .tooDeep
  | depth + 1 => fun proc inputs o =>
    applyWith ctx ⟨walkAt ctx depth, applyAt ctx depth⟩ proc inputs o

end

/-- The recursive calls to a depth. -/
def callsAt (ctx : Context) (depth : Nat) : Calls :=
  ⟨walkAt ctx depth, applyAt ctx depth⟩

/-- The depth that evaluations are given. -/
def depthLimit : Nat := 1000000

/-! ## Entry points -/

/-- The overlays with an output given as a value, which must be null or a trace that
can be written to. -/
def withOutput
    (s : Store) (intervene target : Option Trace) (output : Value) :
    Except Fault (Overlays Trace) :=
  match output with
  | .null => .ok { intervene, target }
  | .trace t => do
    checkOutput s (some t)
    return { intervene, target, output := some t }
  | _ => .error (.invalidInputs .outputIsWritable output)

/-- Evaluate an expression in a scope. -/
def eval
    (ctx : Context) (exp : Value) (scope : Scope)
    (intervene target : Option Trace) (output : Value) : Run (Value × Float) := do
  let o ← Run.ofExcept (withOutput (← Run.store) intervene target output)
  match exp with
  | .trace t => walkAt ctx depthLimit t scope [] o
  | _ => rejectExpression [] exp

/-- Apply a procedure to inputs. -/
def apply
    (ctx : Context) (proc inputs : Value)
    (intervene target : Option Trace) (output : Value) : Run (Value × Value) := do
  let _ ← Run.ofExcept (checkInputs inputs)
  let o ← Run.ofExcept (withOutput (← Run.store) intervene target output)
  applyAt ctx depthLimit proc inputs o

/-- Call a procedure without overlays from outside of any program.  Closures can only
be applied by evaluation. -/
def call (ctx : Context) (proc : Value) (inputs : List Value) : Run Value := do
  match proc with
  | .special s =>
    let (v, _) ← applySpecial ctx (callsAt ctx depthLimit) s inputs .empty
    return v
  | .builtin b => b.call inputs
  | _ => Run.raise .wrongType

/-- The result of a run from the start: its value, its full trace and its score. -/
structure Execution where
  value : Value
  trace : Trace
  score : Value

/-- Run a procedure with observed and forced values, recording into a new trace. -/
def infer
    (ctx : Context) (proc inputs : Value) (observed forced : Option Trace) : Run Execution := do
  let trace ← Run.edit (Edit.alloc {})
  let (value, score) ← apply ctx proc inputs forced observed (.trace trace)
  Run.compose [proc, value, score]
  return { value, trace, score := ← Run.enroll score }

end Evaluator
end ProbTrace

import ProbTrace.Evaluator

/-!
# Watched evaluation

What an evaluation does on its way is visible in its result only in part.  Here every
evaluation also keeps a log: which calls were made and what they returned, which
definitions were evaluated, which frames were opened and bound, and which addresses of
the output were written to.  Events carry the address of their place, relative to the
part of the evaluation that the log is of.

A watched computation runs as the computation it watches, by definition of its monad,
so watched evaluation is evaluation: `run_walkAt` and `run_applyAt`.
-/

namespace ProbTrace

/-- What an evaluation does at a place. -/
inductive Deed where
  /-- The walk of a part gave a value. -/
  | gave (v : Value)
  /-- A frame was opened for a block or for the body of a closure. -/
  | opened (scope : Scope) (source : Trace)
  /-- A pattern was bound in the innermost frame, which then had these bindings. -/
  | bound (scope : Scope) (pattern bindings : Trace)
  /-- An application is about to make a call. -/
  | invoked
  /-- A call is made. -/
  | called
  /-- A call found a forced value and an observed one that disagree. -/
  | clashed
  /-- A score was computed: that of a random choice, or a sum of scores. -/
  | rated (score : Float)
  /-- A call returned a value. -/
  | returned (proc : Value) (inputs : List Value) (v : Value)
  /-- A definition was evaluated and bound a value. -/
  | defined (v : Value)
  /-- A value was written to the output. -/
  | recorded (v : Value)
  /-- Evaluation is about to go on under the overlays of a captured tag. -/
  | relocated

/-- Something that an evaluation does, with its place. -/
structure Event where
  address : Address
  deed : Deed

/-- The event as seen from further up. -/
def Event.below (a : Address) (e : Event) : Event :=
  { e with address := a ++ e.address }

@[simp] theorem Event.below_below (a b : Address) (e : Event) :
    (e.below b).below a = e.below (a ++ b) := by
  simp [Event.below]

/-- The bindings of the innermost frame of a scope. -/
def Scope.bindings (m : Machine) : Scope → Trace
  | .frame id _ => m.bindings id
  | _ => .empty

/-- A computation on the state of a run, with its log. -/
structure Watched (α : Type) where
  run : Run α
  events : Machine → List Event

namespace Watched

variable {α β : Type}

/-- The log of two computations one after the other; a fault ends it. -/
protected def bind (x : Watched α) (f : α → Watched β) : Watched β where
  run := x.run >>= fun a => (f a).run
  events m := x.events m ++
    match x.run m with
    | .ok a m => (f a).events m
    | .error _ _ => []

instance : Monad Watched where
  pure a := ⟨pure a, fun _ => []⟩
  bind := Watched.bind

/-- A computation in which nothing happens that is worth an entry. -/
def watch (x : Run α) : Watched α :=
  ⟨x, fun _ => []⟩

/-- An entry of the log. -/
def note (d : Deed) : Watched Unit :=
  ⟨pure (), fun _ => [⟨[], d⟩]⟩

/-- A computation at a place below. -/
def within (a : Address) (x : Watched α) : Watched α :=
  ⟨x.run, fun m => (x.events m).map (Event.below a)⟩

/-- The two recursive calls of a watched evaluation. -/
structure Calls where
  walk : Trace → Scope → Address → Overlays Trace → Watched (Value × Float)
  apply : Value → Value → Overlays Trace → Watched (Value × Value)

/-! ## Application of procedures -/

/-- The entries of a call that has recorded its value and returns it. -/
def conclude (proc : Value) (inputs : List Value) (o : Overlays Trace) (v : Value) :
    Watched Unit := do
  if o.output.isSome then note (.recorded v)
  note (.returned proc inputs v)

/-- Bind a pattern. -/
def bindPattern (ctx : Context) (scope : Scope) (pattern : Trace) (v : Value) :
    Watched Unit := do
  watch (Run.matchBind ctx scope (.trace pattern) v)
  let m ← watch get
  note (.bound scope pattern (scope.bindings m))

/-- Check the output of a call or an evaluation. -/
def checkOutput (o : Overlays Trace) : Watched Unit :=
  watch do Run.ofExcept (Evaluator.checkOutput (← Run.store) o.output)

/-- The child of an expression under a key. -/
def part (exp : Trace) (key : Key) : Watched Trace :=
  watch (Evaluator.part exp key)

/-- Record the value of a call and return it. -/
def recordCall (proc : Value) (inputs : List Value) (o : Overlays Trace) (v : Value) :
    Watched Unit := do
  watch (Evaluator.record o.output v)
  conclude proc inputs o v

/-- The result of a call under overlays, and its score. -/
def verdict
    (ctx : Context) (proc : Value) (o : Overlays Trace) (value : Value) (score : Float) :
    Run (Value × Float) := do
  let s ← Run.store
  let forced := Evaluator.overlayValue? s o.intervene
  match Evaluator.overlayValue? s o.target with
  | none => return (forced.getD value, score)
  | some observed =>
    let clash := match forced with
      | some f => !s.same observed f
      | none => false
    if clash then
      Evaluator.warnMismatch ctx observed (forced.getD value) proc (s.view proc).procedureName
    return (observed, if clash then Number.negativeInfinity else score)

/-- Whether the overlays of a call force one value and observe another. -/
def clashes (s : Store) (o : Overlays Trace) : Bool :=
  match Evaluator.overlayValue? s o.target, Evaluator.overlayValue? s o.intervene with
  | some observed, some forced => !s.same observed forced
  | _, _ => false

/-- Enter that the overlays of a call disagree, if they do. -/
def noteClash (o : Overlays Trace) : Watched Unit := do
  let clash ← watch do return clashes (← Run.store) o
  if clash then note .clashed

/-- Apply the overlays to the result of a call. -/
def settle
    (ctx : Context) (proc : Value) (inputs : List Value) (o : Overlays Trace)
    (value : Value) (score : Float) : Watched (Value × Float) := do
  noteClash o
  let r ← watch (verdict ctx proc o value score)
  recordCall proc inputs o r.1
  return r

/-- Apply a builtin procedure. -/
def applyBuiltin (ctx : Context) (b : Builtin) (inputs : List Value) (o : Overlays Trace) :
    Watched (Value × Float) := do
  let v ← watch (b.call inputs)
  settle ctx (.builtin b) inputs o v 0.0

/-- The value of a random choice under overlays, and its score. -/
def choose
    (ctx : Context) (d : Distribution) (inputs : List Value) (o : Overlays Trace) :
    Run (Value × Float) := do
  let s ← Run.store
  match Evaluator.overlayValue? s o.target, Evaluator.overlayValue? s o.intervene with
  | some observed, some forced =>
    if s.same observed forced then do
      let score ← Run.ofExcept (d.logDensity s (observed :: inputs))
      pure (observed, score)
    else do
      Evaluator.warnMismatch ctx observed forced (.special (.random d)) d.name
      pure (observed, Number.negativeInfinity)
  | some observed, none => do
    let score ← Run.ofExcept (d.logDensity s (observed :: inputs))
    pure (observed, score)
  | none, some forced => pure (forced, 0.0)
  | none, none => do
    let drawn ← d.sample ctx inputs
    pure (drawn, 0.0)

/-- Apply a distribution. -/
def applyRandom
    (ctx : Context) (d : Distribution) (inputs : List Value) (o : Overlays Trace) :
    Watched (Value × Float) := do
  noteClash o
  let r ← watch (choose ctx d inputs o)
  note (.rated r.2)
  recordCall (.special (.random d)) inputs o r.1
  return r

/-- A sum of scores. -/
def rate (score : Float) : Watched Float := do
  note (.rated score)
  return score

/-- Add the score of a call to a sum. -/
def addScore (total : Float) (score : Value) : Watched Float := do
  rate (← watch (Run.ofExcept (Evaluator.addScore total score)))

/-- Apply a procedure to each item. -/
def mapItems
    (calls : Calls) (proc : Value) (o : Overlays Trace) :
    Nat → Float → List Value → Watched (List Value × Float)
  | _, total, [] => return ([], total)
  | i, total, v :: vs => do
    let below ← watch (Run.edit (o.below [.index i]))
    let (w, score) ← within [.index i] (calls.apply proc (.list [v]) below)
    let total ← addScore total score
    let (ws, total) ← mapItems calls proc o (i + 1) total vs
    return (w :: ws, total)

/-- Apply a special procedure. -/
def applySpecial
    (ctx : Context) (calls : Calls) (s : Special) (inputs : List Value) (o : Overlays Trace) :
    Watched (Value × Value) :=
  match s with
  | .apply =>
    match inputs with
    | [proc, args] => do
      let r ← calls.apply proc args o
      note (.returned (.special .apply) inputs r.1)
      return r
    | _ => watch (Run.raise (Evaluator.needsTwo inputs "(proc args)"))
  | .map =>
    match inputs with
    | [proc, sequence] =>
      match sequence.items? with
      | none => watch (Run.raise (.invalidInputs .mapSequence sequence))
      | some items => do
        let (ws, total) ← mapItems calls proc o 0 0.0 items
        let result := sequence.sameKind ws
        recordCall (.special .map) inputs o result
        return (result, .float total)
    | _ => watch (Run.raise (Evaluator.needsTwo inputs "(fun seq)"))
  | .random d => do
    let (v, score) ← applyRandom ctx d inputs o
    return (v, .float score)
  | .scored =>
    match inputs with
    | v :: score :: _ => do
      note (.returned (.special .scored) inputs v)
      return (v, score)
    | _ => watch (Run.raise .outOfRange)

/-- Evaluate an expression from the empty address. -/
def evalFrom
    (calls : Calls) (exp : Trace) (scope : Scope) (o : Overlays Trace) :
    Watched (Value × Float) := do
  checkOutput o
  calls.walk exp scope [] o

/-- Open a frame for a block or for the body of a closure. -/
def openFrame (source : Trace) (scope : Scope) : Watched Scope := do
  let frame ← watch (Run.newFrame scope)
  note (.opened frame source)
  return frame

/-- Open a frame for the body of a closure, with its pattern bound to the inputs. -/
def openClosure (ctx : Context) (source : Trace) (scope : Scope) (inputs : Value) :
    Watched (Scope × Trace) := do
  let frame ← openFrame source scope
  let pattern ← part source (.name "pattern")
  bindPattern ctx frame pattern inputs
  let body ← part source (.name "body")
  return (frame, body)

/-- Apply a closure. -/
def applyClosure
    (ctx : Context) (calls : Calls) (source : Trace) (scope : Scope)
    (inputs : Value) (o : Overlays Trace) : Watched (Value × Float) := do
  let (frame, body) ← openClosure ctx source scope inputs
  evalFrom calls body frame o

/-- Stop because a value is no procedure. -/
def rejectProcedure (proc : Value) : Watched (Value × Value) :=
  watch do
    Run.compose [proc]
    Run.notify (.notAProcedure ((← Run.store).view proc))
    Run.raise (.notAProcedure proc)

/-- Apply a procedure. -/
def applyWith
    (ctx : Context) (calls : Calls) (proc inputs : Value) (o : Overlays Trace) :
    Watched (Value × Value) := do
  note .called
  let items ← watch (Run.ofExcept (Evaluator.checkInputs inputs))
  checkOutput o
  match proc with
  | .special s => applySpecial ctx calls s items o
  | .closure _ source scope _ => do
    let (v, score) ← applyClosure ctx calls source scope inputs o
    let (v, score) ← settle ctx proc items o v score
    return (v, .float score)
  | .builtin b => do
    let (v, score) ← applyBuiltin ctx b items o
    return (v, .float score)
  | _ => rejectProcedure proc

/-! ## Forms -/

/-- Walk a part of an expression. -/
def descend
    (calls : Calls) (sub : Trace) (scope : Scope) (address : Address) (key : Key)
    (o : Overlays Trace) : Watched (Value × Float) :=
  within [key] do
    let r ← calls.walk sub scope (address ++ [key]) o
    note (.gave r.1)
    return r

/-- Walk numbered parts of an expression. -/
def walkParts
    (calls : Calls) (exp : Trace) (scope : Scope) (address : Address) (o : Overlays Trace) :
    Nat → Nat → Float → Watched (List Value × Float)
  | 0, _, total => return ([], total)
  | left + 1, i, total => do
    let sub ← part exp (.index i)
    let (v, score) ← descend calls sub scope address (.index i) o
    let total ← rate (total + score)
    let (vs, total) ← walkParts calls exp scope address o left (i + 1) total
    return (v :: vs, total)

/-- How many parts an expression has. -/
def countParts (exp : Trace) : Watched Nat :=
  watch do return ((← Run.store).children exp).length

/-- The key of the call that an application makes. -/
def callKey (exp : Trace) : Watched Key := do
  let operator ← part exp (.index 0)
  watch do Run.ofExcept (Evaluator.procedureKey (← Run.store) operator)

/-- The key of a call of a procedure and the overlays below it. -/
def invoke (exp : Trace) (address : Address) (proc : Value) (o : Overlays Trace) :
    Watched (Key × Overlays Trace) := do
  let key ← callKey exp
  watch (Run.compose [address.toValue, proc, Address.toValue (address ++ [key])])
  within [key] (note .invoked)
  let below ← watch (Run.edit (o.below (address ++ [key])))
  return (key, below)

/-- Walk all parts, then apply the first to the others. -/
def walkApplication
    (calls : Calls) (exp : Trace) (scope : Scope) (address : Address) (o : Overlays Trace) :
    Watched (Value × Float) := do
  let count ← countParts exp
  let (vs, total) ← walkParts calls exp scope address o count 0 0.0
  let (key, below) ← invoke exp address (vs.headD .null) o
  let (v, score) ← within [key] (calls.apply (vs.headD .null) (.list vs.tail) below)
  let total ← addScore total score
  return (v, total)

/-- Walk the predicate, then the branch it chooses. -/
def walkConditional
    (calls : Calls) (exp : Trace) (scope : Scope) (address : Address) (o : Overlays Trace) :
    Watched (Value × Float) := do
  let predicate ← part exp (.name "predicate")
  let (p, first) ← descend calls predicate scope address (.name "predicate") o
  let key : Key := .name (if p.isTruthy then "then" else "else")
  watch (Run.compose [address.toValue, p])
  let branch ← part exp key
  let (v, second) ← descend calls branch scope address key o
  let total ← rate (first + second)
  return (v, total)

/-- Walk the statements in a new frame. -/
def walkBlock
    (calls : Calls) (exp : Trace) (scope : Scope) (address : Address) (o : Overlays Trace) :
    Watched (Value × Float) := do
  let frame ← openFrame exp scope
  let count ← countParts exp
  let (vs, total) ← walkParts calls exp frame address o count 0 0.0
  return (vs.getLast?.getD (.trace .empty), total)

/-- The pattern of a definition, and its right-hand side with its key. -/
def openDefinition (exp : Trace) : Watched (Trace × Key × Trace) := do
  let pattern ← part exp (.name "pattern")
  let key ← watch do Run.ofExcept ((← Run.store).definiens (.trace pattern))
  let rhs ← part exp key
  return (pattern, key, rhs)

/-- Record the value of a definition at an address, unless it is a tag. -/
def recordDefinition (address : Address) (o : Overlays Trace) (v : Value) : Watched Unit :=
  match o.output with
  | some t =>
    if v.isTagAddress then return
    else do
      watch (Run.edit do
        let u ← t.reach address
        u.put (some v))
      note (.recorded v)
  | none => return

/-- Bind and record the value of a definition. -/
def define
    (ctx : Context) (scope : Scope) (address : Address) (key : Key) (o : Overlays Trace)
    (pattern : Trace) (v : Value) : Watched Unit :=
  within [key] do
    bindPattern ctx scope pattern v
    note (.defined v)
    recordDefinition (address ++ [key]) o v

/-- Walk the right-hand side, bind the pattern and record the value. -/
def walkDefinition
    (ctx : Context) (calls : Calls)
    (exp : Trace) (scope : Scope) (address : Address) (o : Overlays Trace) :
    Watched (Value × Float) := do
  let (pattern, key, rhs) ← openDefinition exp
  let (v, score) ← descend calls rhs scope address key o
  define ctx scope address key o pattern v
  return (v, score)

/-- The overlays that a tag denotes and the expression to evaluate under them. -/
def relocate (exp : Trace) (t : Value) : Watched (Overlays Trace × Trace) := do
  note .relocated
  let resolved ← watch (Run.edit t.resolveTag)
  let body ← part exp (.name "expression")
  return (resolved, body)

/-- Walk the tag, then evaluate the expression under the overlays it denotes.  What
happens there is entered at the place of the form. -/
def walkWithAddress
    (calls : Calls) (exp : Trace) (scope : Scope) (address : Address) (o : Overlays Trace) :
    Watched (Value × Float) := do
  let tag ← part exp (.name "tag")
  let (t, first) ← descend calls tag scope address (.name "tag") o
  let (resolved, body) ← relocate exp t
  let (v, second) ← evalFrom calls body scope resolved
  let total ← rate (first + second)
  return (v, total)

/-- Walk an expression of a kind. -/
def walkKind
    (ctx : Context) (calls : Calls) (kind : Expression.Kind)
    (exp : Trace) (scope : Scope) (address : Address) (o : Overlays Trace) :
    Watched (Value × Float) :=
  match kind with
  | .application => walkApplication calls exp scope address o
  | .reference => watch (Evaluator.walkReference ctx exp scope)
  | .literal => watch (Evaluator.walkLiteral exp)
  | .gen => watch (Evaluator.walkGen exp scope)
  | .conditional => walkConditional calls exp scope address o
  | .block => walkBlock calls exp scope address o
  | .definition => walkDefinition ctx calls exp scope address o
  | .this => watch (Evaluator.walkThis o)
  | .withAddress => walkWithAddress calls exp scope address o

/-- The kind that the root of an expression holds. -/
def kindOf (s : Store) (exp : Trace) : Option Expression.Kind :=
  (Value.kind? (s.value? exp)).bind Expression.Kind.ofWord?

/-- Replace a value by the one forced at an address, if there is one. -/
def force (address : Address) (o : Overlays Trace) (v : Value) : Watched Value :=
  watch do return (o.intervene.bind ((← Run.store).valueAt? · address)).getD v

/-- Walk an expression at an address. -/
def walkWith
    (ctx : Context) (calls : Calls)
    (exp : Trace) (scope : Scope) (address : Address) (o : Overlays Trace) :
    Watched (Value × Float) := do
  match ← watch (do return kindOf (← Run.store) exp) with
  | none => watch (Evaluator.rejectExpression address (.trace exp))
  | some kind =>
    let (v, score) ← walkKind ctx calls kind exp scope address o
    let v ← force address o v
    return (v, score)

mutual

/-- Walk an expression to a depth of calls. -/
def walkAt (ctx : Context) :
    Nat → Trace → Scope → Address → Overlays Trace → Watched (Value × Float)
  | 0 => fun _ _ _ _ => watch (throw .tooDeep)
  | depth + 1 => fun exp scope address o =>
    walkWith ctx ⟨walkAt ctx depth, applyAt ctx depth⟩ exp scope address o

/-- Apply a procedure to a depth of calls. -/
def applyAt (ctx : Context) :
    Nat → Value → Value → Overlays Trace → Watched (Value × Value)
  | 0 => fun _ _ _ => watch (throw .tooDeep)
  | depth + 1 => fun proc inputs o =>
    applyWith ctx ⟨walkAt ctx depth, applyAt ctx depth⟩ proc inputs o

end

/-- The recursive calls to a depth. -/
def callsAt (ctx : Context) (depth : Nat) : Calls :=
  ⟨walkAt ctx depth, applyAt ctx depth⟩

/-- The overlays of an evaluation from the start. -/
def overlays (intervene target : Option Trace) (output : Value) : Watched (Overlays Trace) :=
  watch do Run.ofExcept (Evaluator.withOutput (← Run.store) intervene target output)

/-- Evaluate an expression in a scope. -/
def eval
    (ctx : Context) (exp : Value) (scope : Scope)
    (intervene target : Option Trace) (output : Value) : Watched (Value × Float) := do
  let o ← overlays intervene target output
  match exp with
  | .trace t => walkAt ctx Evaluator.depthLimit t scope [] o
  | _ => watch (Evaluator.rejectExpression [] exp)

/-- Apply a procedure to inputs. -/
def apply
    (ctx : Context) (proc inputs : Value)
    (intervene target : Option Trace) (output : Value) : Watched (Value × Value) := do
  let _ ← watch (Run.ofExcept (Evaluator.checkInputs inputs))
  let o ← overlays intervene target output
  applyAt ctx Evaluator.depthLimit proc inputs o

/-- A computation with a new output. -/
def recording (f : Value → Watched α) : Watched (Trace × α) := do
  let output ← watch (Run.edit (Edit.alloc {}))
  let r ← f (.trace output)
  return (output, r)

/-- Run a procedure with observed and forced values, recording into a new trace. -/
def infer (ctx : Context) (proc inputs : Value) (observed forced : Option Trace) :
    Watched Evaluator.Execution := do
  let (trace, value, score) ← recording (apply ctx proc inputs forced observed)
  watch (Run.compose [proc, value, score])
  return { value, trace, score := ← watch (Run.enroll score) }

/-! ## Watching changes nothing -/

/-- The calls without their logs. -/
def Calls.unwatched (calls : Calls) : Evaluator.Calls where
  walk exp scope address o := (calls.walk exp scope address o).run
  apply proc inputs o := (calls.apply proc inputs o).run

variable (ctx : Context) (calls : Calls)

@[simp] theorem run_pure (a : α) : (pure a : Watched α).run = pure a := rfl

@[simp] theorem run_bind (x : Watched α) (f : α → Watched β) :
    (x >>= f).run = x.run >>= fun a => (f a).run := rfl

@[simp] theorem run_watch (x : Run α) : (watch x).run = x := rfl

@[simp] theorem run_note (d : Deed) : (note d).run = pure () := rfl

@[simp] theorem run_within (a : Address) (x : Watched α) : (within a x).run = x.run := rfl

theorem run_conclude (proc : Value) (inputs : List Value) (o : Overlays Trace) (v : Value) :
    (conclude proc inputs o v).run = pure () := by
  unfold conclude
  split <;> rfl

theorem run_recordCall (proc : Value) (inputs : List Value) (o : Overlays Trace) (v : Value) :
    (recordCall proc inputs o v).run = Evaluator.record o.output v := by
  simp only [recordCall, run_bind, run_watch, run_conclude, bind_pure_unit]

theorem run_noteClash (o : Overlays Trace) : (noteClash o).run = pure () := by
  unfold noteClash
  funext m
  rw [run_bind]
  show (if clashes m.store o then note .clashed else pure () : Watched Unit).run m = _
  split <;> rfl

@[simp] theorem run_rate (score : Float) : (rate score).run = pure score := rfl

theorem run_addScore (total : Float) (score : Value) :
    (addScore total score).run = Run.ofExcept (Evaluator.addScore total score) := by
  simp only [addScore, run_bind, run_watch, run_rate, bind_pure]

theorem run_settle
    (proc : Value) (inputs : List Value) (o : Overlays Trace) (value : Value) (score : Float) :
    (settle ctx proc inputs o value score).run = Evaluator.settle ctx proc o value score := by
  simp only [settle, Evaluator.settle, verdict, run_bind, run_noteClash, run_watch,
    run_recordCall, run_pure, bind_assoc, pure_bind]
  congr; funext s
  cases Evaluator.overlayValue? s o.target with
  | none => simp only [pure_bind]
  | some observed =>
    cases Evaluator.overlayValue? s o.intervene with
    | none => rfl
    | some forced =>
      dsimp only
      split <;> simp only [bind_assoc, pure_bind]

theorem run_applyRandom (d : Distribution) (inputs : List Value) (o : Overlays Trace) :
    (applyRandom ctx d inputs o).run = Evaluator.applyRandom ctx d inputs o := by
  simp only [applyRandom, Evaluator.applyRandom, choose, run_bind, run_noteClash, run_watch,
    run_note, run_recordCall, run_pure, bind_assoc, pure_bind]
  congr; funext s
  cases Evaluator.overlayValue? s o.target with
  | none => cases Evaluator.overlayValue? s o.intervene <;> simp only [bind_assoc, pure_bind]
  | some observed =>
    cases Evaluator.overlayValue? s o.intervene with
    | none => simp only [bind_assoc, pure_bind]
    | some forced =>
      dsimp only
      split <;> simp only [bind_assoc, pure_bind]

theorem run_bindPattern (scope : Scope) (pattern : Trace) (v : Value) :
    (bindPattern ctx scope pattern v).run = Run.matchBind ctx scope (.trace pattern) v := by
  have hget : (get >>= fun _ : Machine => pure ()) = (pure () : Run Unit) := rfl
  simp only [bindPattern, run_bind, run_watch, run_note, hget, bind_pure_unit]

theorem run_mapItems (proc : Value) (o : Overlays Trace) (i : Nat) (total : Float)
    (vs : List Value) :
    (mapItems calls proc o i total vs).run =
      Evaluator.mapItems calls.unwatched proc o i total vs := by
  induction vs generalizing i total with
  | nil => rfl
  | cons v vs ih =>
    simp only [mapItems, Evaluator.mapItems, run_bind, run_watch, run_within, run_addScore, ih]
    rfl

theorem run_applySpecial (s : Special) (inputs : List Value) (o : Overlays Trace) :
    (applySpecial ctx calls s inputs o).run =
      Evaluator.applySpecial ctx calls.unwatched s inputs o := by
  cases s with
  | apply =>
    rcases inputs with _ | ⟨proc, _ | ⟨args, _ | ⟨_, _⟩⟩⟩
    case cons.cons.nil => simp [applySpecial, Evaluator.applySpecial, Calls.unwatched]
    all_goals rfl
  | map =>
    rcases inputs with _ | ⟨proc, _ | ⟨sequence, _ | ⟨_, _⟩⟩⟩
    case cons.cons.nil =>
      cases h : sequence.items? with
      | none => simp only [applySpecial, Evaluator.applySpecial, h, run_watch]
      | some items =>
        simp only [applySpecial, Evaluator.applySpecial, h, run_bind, run_mapItems,
          run_recordCall]
        rfl
    all_goals rfl
  | random d =>
    simp only [applySpecial, run_bind, run_applyRandom]
    rfl
  | scored => rcases inputs with _ | ⟨_, _ | ⟨_, _⟩⟩ <;> rfl

theorem run_applyClosure
    (source : Trace) (scope : Scope) (inputs : Value) (o : Overlays Trace) :
    (applyClosure ctx calls source scope inputs o).run =
      Evaluator.applyClosure ctx calls.unwatched source scope inputs o := by
  simp only [applyClosure, openClosure, openFrame, part, run_bind, run_watch, run_note, run_bindPattern,
    run_pure, bind_assoc, pure_bind]
  rfl

theorem run_applyWith (proc inputs : Value) (o : Overlays Trace) :
    (applyWith ctx calls proc inputs o).run =
      Evaluator.applyWith ctx calls.unwatched proc inputs o := by
  simp only [applyWith, Evaluator.applyWith, run_bind, run_note, run_watch, checkOutput,
    bind_assoc, pure_bind]
  congr; funext items
  congr; funext s
  congr; funext _
  cases proc with
  | special s => exact run_applySpecial ctx calls s items o
  | closure serial source scope name =>
    simp only [run_bind, run_applyClosure, run_settle]
    rfl
  | builtin b =>
    simp only [run_bind, applyBuiltin, run_watch, run_settle, bind_assoc]
    rfl
  | _ => rfl

theorem run_descend
    (sub : Trace) (scope : Scope) (address : Address) (key : Key) (o : Overlays Trace) :
    (descend calls sub scope address key o).run =
      calls.unwatched.walk sub scope (address ++ [key]) o := by
  simp [descend, Calls.unwatched]

theorem run_walkParts
    (exp : Trace) (scope : Scope) (address : Address) (o : Overlays Trace)
    (left i : Nat) (total : Float) :
    (walkParts calls exp scope address o left i total).run =
      Evaluator.walkParts calls.unwatched exp scope address o left i total := by
  induction left generalizing i total with
  | zero => rfl
  | succ left ih =>
    simp only [walkParts, Evaluator.walkParts, part, run_bind, run_watch, run_descend, run_rate,
      pure_bind, ih]
    rfl

theorem run_recordDefinition (address : Address) (o : Overlays Trace) (v : Value) (score : Float) :
    (do
      (recordDefinition address o v).run
      return (v, score) : Run (Value × Float)) =
    match o.output with
    | some t =>
      if v.isTagAddress then return (v, score)
      else do
        Run.edit do
          let u ← t.reach address
          u.put (some v)
        return (v, score)
    | none => return (v, score) := by
  unfold recordDefinition
  cases o.output with
  | none => rfl
  | some t =>
    dsimp only
    split
    · rfl
    · simp

theorem run_walkDefinition
    (exp : Trace) (scope : Scope) (address : Address) (o : Overlays Trace) :
    (walkDefinition ctx calls exp scope address o).run =
      Evaluator.walkDefinition ctx calls.unwatched exp scope address o := by
  simp only [walkDefinition, openDefinition, define, part, run_bind, run_watch, run_within,
    run_note, run_descend, run_bindPattern, run_pure, bind_assoc, pure_bind, run_recordDefinition]
  rfl

theorem run_walkKind
    (kind : Expression.Kind) (exp : Trace) (scope : Scope) (address : Address)
    (o : Overlays Trace) :
    (walkKind ctx calls kind exp scope address o).run =
      Evaluator.walkKind ctx calls.unwatched kind exp scope address o := by
  cases kind with
  | application =>
    simp only [walkKind, walkApplication, countParts, invoke, callKey, part, run_bind, run_watch,
      run_note, run_within, run_walkParts, run_addScore, run_pure, bind_assoc, pure_bind]
    rfl
  | conditional =>
    simp only [walkKind, walkConditional, part, run_bind, run_watch, run_descend, run_rate,
      pure_bind]
    rfl
  | block =>
    simp only [walkKind, walkBlock, openFrame, countParts, run_bind, run_watch, run_note,
      run_walkParts, run_pure, bind_assoc, pure_bind]
    rfl
  | definition => exact run_walkDefinition ctx calls exp scope address o
  | withAddress =>
    simp only [walkKind, walkWithAddress, relocate, part, run_bind, run_watch, run_note,
      run_descend, run_rate, run_pure, bind_assoc, pure_bind]
    rfl
  | reference | literal | gen | this => rfl

theorem run_walkWith (exp : Trace) (scope : Scope) (address : Address) (o : Overlays Trace) :
    (walkWith ctx calls exp scope address o).run =
      Evaluator.walkWith ctx calls.unwatched exp scope address o := by
  simp only [walkWith, Evaluator.walkWith, run_bind, run_watch, bind_assoc, pure_bind, kindOf]
  congr; funext s
  cases (Value.kind? (s.value? exp)).bind Expression.Kind.ofWord? with
  | none => rfl
  | some kind =>
    simp only [run_bind, run_walkKind, force, run_watch, bind_assoc, pure_bind]
    congr; funext r
    congr; funext s
    cases o.intervene.bind (s.valueAt? · address) <;> rfl

/-- Watched calls without their logs are the calls of evaluation. -/
theorem unwatched_callsAt (depth : Nat) :
    (callsAt ctx depth).unwatched = Evaluator.callsAt ctx depth := by
  induction depth with
  | zero => simp only [callsAt, Calls.unwatched, Evaluator.callsAt, walkAt, applyAt,
      Evaluator.walkAt, Evaluator.applyAt, run_watch]
  | succ depth ih =>
    simp only [callsAt, Evaluator.callsAt] at ih
    simp only [callsAt, Calls.unwatched, Evaluator.callsAt, walkAt, applyAt, Evaluator.walkAt,
      Evaluator.applyAt, run_walkWith, run_applyWith, ← ih]

theorem run_walkAt
    (depth : Nat) (exp : Trace) (scope : Scope) (address : Address) (o : Overlays Trace) :
    (walkAt ctx depth exp scope address o).run =
      Evaluator.walkAt ctx depth exp scope address o :=
  congrArg (fun calls => calls.walk exp scope address o) (unwatched_callsAt ctx depth)

theorem run_applyAt (depth : Nat) (proc inputs : Value) (o : Overlays Trace) :
    (applyAt ctx depth proc inputs o).run = Evaluator.applyAt ctx depth proc inputs o :=
  congrArg (fun calls => calls.apply proc inputs o) (unwatched_callsAt ctx depth)

theorem run_eval
    (exp : Value) (scope : Scope) (intervene target : Option Trace) (output : Value) :
    (eval ctx exp scope intervene target output).run =
      Evaluator.eval ctx exp scope intervene target output := by
  simp only [eval, overlays, Evaluator.eval, run_bind, run_watch, bind_assoc]
  congr; funext s
  congr; funext o
  cases exp with
  | trace t => exact run_walkAt ctx _ t scope [] o
  | _ => rfl

theorem run_apply
    (proc inputs : Value) (intervene target : Option Trace) (output : Value) :
    (apply ctx proc inputs intervene target output).run =
      Evaluator.apply ctx proc inputs intervene target output := by
  simp only [apply, overlays, Evaluator.apply, run_bind, run_watch, bind_assoc, run_applyAt]

theorem run_infer (proc inputs : Value) (observed forced : Option Trace) :
    (infer ctx proc inputs observed forced).run =
      Evaluator.infer ctx proc inputs observed forced := by
  simp only [infer, recording, run_bind, run_watch, run_apply, run_pure, bind_assoc, pure_bind]
  rfl

/-! ## The laws of the monad -/

theorem events_bind (x : Watched α) (f : α → Watched β) (m : Machine) :
    (x >>= f).events m = x.events m ++
      match x.run m with
      | .ok a m => (f a).events m
      | .error _ _ => [] := rfl

theorem run_bind_apply (x : Watched α) (f : α → Watched β) (m : Machine) :
    (x >>= f).run m =
      match x.run m with
      | .ok a m => (f a).run m
      | .error h m => .error h m := by
  rw [run_bind]
  show EStateM.bind x.run (fun a => (f a).run) m = _
  unfold EStateM.bind
  cases x.run m <;> rfl

/-- The steps of two computations one after the other that return. -/
theorem bind_ok {x : Watched α} {f : α → Watched β} {m m'' : Machine} {b : β}
    (h : (x >>= f).run m = .ok b m'') :
    ∃ a m', x.run m = .ok a m' ∧ (f a).run m' = .ok b m'' ∧
      (x >>= f).events m = x.events m ++ (f a).events m' := by
  rw [run_bind_apply] at h
  rw [events_bind]
  split at h
  · rename_i a m' hrun
    exact ⟨a, m', hrun, h, rfl⟩
  · cases h

theorem ext_events {x y : Watched α} (hrun : x.run = y.run)
    (hevents : ∀ m, x.events m = y.events m) : x = y := by
  obtain ⟨r, es⟩ := x
  obtain ⟨r', es'⟩ := y
  cases hrun
  cases (funext hevents : es = es')
  rfl

instance : LawfulMonad Watched := LawfulMonad.mk' Watched
  (fun x => by
    refine ext_events (bind_pure x.run) fun m => ?_
    show x.events m ++ _ = _
    cases x.run m <;> exact List.append_nil _)
  (fun a f => ext_events (pure_bind a fun a => (f a).run) fun m => rfl)
  (fun x f g => by
    refine ext_events (bind_assoc x.run _ _) fun m => ?_
    rw [events_bind, events_bind, events_bind, run_bind_apply]
    cases x.run m with
    | error h m => simp
    | ok a m => simp only [events_bind, List.append_assoc])

section Frames

variable {m m' : Machine} {c : Scope}

theorem run_openFrame {source : Trace} : (openFrame source c).run m =
    .ok (.frame m.frames.size c) { m with frames := m.frames.push .empty } := rfl

theorem events_openFrame {source : Trace} :
    (openFrame source c).events m = [⟨[], .opened (.frame m.frames.size c) source⟩] := rfl

theorem events_bindPattern {ctx : Context} {pattern : Trace} {v : Value}
    (h : Run.matchBind ctx c (.trace pattern) v m = .ok () m') :
    (bindPattern ctx c pattern v).events m = [⟨[], .bound c pattern (c.bindings m')⟩] := by
  unfold bindPattern
  rw [events_bind, run_watch, h]
  rfl

theorem events_bindPattern_error {ctx : Context} {pattern : Trace} {v : Value} {f : Halt}
    (h : Run.matchBind ctx c (.trace pattern) v m = .error f m') :
    (bindPattern ctx c pattern v).events m = [] := by
  unfold bindPattern
  rw [events_bind, run_watch, h]
  rfl

end Frames

theorem watch_bind (x : Run α) (f : α → Run β) :
    watch (x >>= f) = watch x >>= fun a => watch (f a) := by
  refine ext_events rfl fun m => ?_
  rw [events_bind]
  show [] = [] ++ _
  cases (watch x).run m <;> rfl

end Watched

/-! ## Runs to look at -/

/-- Random numbers of a half each, at the standard top level. -/
def Context.halves : Context where
  topLevel := .standard
  stream _ := 0.5

/-- One half is at least zero and below one. -/
theorem Context.halves_stream (i : Nat) :
    0.0 ≤ Context.halves.stream i ∧ Context.halves.stream i < 1.0 := by
  have hhalf : (0.0 : Float) ≤ 0.5 ∧ (0.5 : Float) < 1.0 := by decide +kernel
  exact hhalf

/-- A machine with a cell to record into. -/
def Machine.oneCell : Machine where
  store := { cells := #[{}] }

/-- Whether a run returns. -/
def returns {α : Type} : EStateM.Result Halt Machine α → Bool
  | .ok _ _ => true
  | .error _ _ => false

theorem exists_of_returns {α : Type} {x : EStateM.Result Halt Machine α} (h : returns x = true) :
    ∃ a m, x = .ok a m := by
  cases x with
  | ok a m => exact ⟨a, m, rfl⟩
  | error _ _ => cases h

end ProbTrace

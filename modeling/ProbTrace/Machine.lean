import ProbTrace.Trace.Edit
import ProbTrace.Value.Identity

/-!
# The state of a run

A run evaluates expressions and applies procedures.  Its context is fixed: the
names of the top level, the random numbers to come and whether disagreements are
reported.  Its state is the store of cells, the frames of bindings, the
random numbers taken so far, and what was noted and reported on the way.

A run ends with a value, with a fault, or because it went deeper than it was
allowed to; what was written before a fault remains.
-/

namespace ProbTrace

/-- The names known outside of all frames. -/
inductive TopLevel where
  | names (entries : List (String × Value))
  | rule (resolve : Value → Except Fault Value)

/-- What a run may consult and never changes. -/
structure Context where
  topLevel : TopLevel
  /-- The random numbers, each at least zero and below one. -/
  stream : Nat → Float
  /-- Report an intervention that disagrees with an observation. -/
  warnOnMismatch : Bool := true

/-- What a run reports besides its result. -/
inductive Notice where
  /-- An intervention disagreed with the observation of a call. -/
  | mismatch (target intervention : Value) (callee : String)
  | notAnExpression (address : Address) (expression : Value)
  | notAProcedure (v : Value)

/-- The state of a run. -/
structure Machine where
  store : Store := {}
  /-- The bindings of the frames, as trees. -/
  frames : Array Trace := #[]
  /-- How many serial numbers were given out. -/
  serials : Nat := 0
  /-- How many random numbers were taken. -/
  draws : Nat := 0
  /-- The second of a pair of normal deviates, not used yet. -/
  spare : Option Float := none
  notes : Array (List Value) := #[]
  notices : Array Notice := #[]

namespace Store

/-- Whether a value has a text, as things are now. -/
def hasText (s : Store) (v : Value) : Bool :=
  (s.view v).hasText

/-- A sequence has a text if all its items have. -/
theorem hasText_items {s : Store} {vs : List Value} :
    allHaveText (expandItems (s.contentAt s.depth []) vs) = true ↔ ∀ v ∈ vs, s.hasText v = true := by
  induction vs with
  | nil => exact ⟨fun _ _ h => (List.not_mem_nil h).elim, fun _ => rfl⟩
  | cons v vs ih =>
    rw [expandItems, allHaveText, Bool.and_eq_true, ih, List.forall_mem_cons]
    rfl

theorem hasText_key (s : Store) (k : Key) : s.hasText k.toValue = k.hasText := by
  cases k <;> rfl

theorem hasText_address (s : Store) (a : Address) : s.hasText a.toValue = a.hasText := by
  show allHaveText (expandItems (s.contentAt s.depth []) (a.map Key.toValue)) = a.all Key.hasText
  induction a with
  | nil => rfl
  | cons k a ih =>
    rw [List.map_cons, expandItems, allHaveText, ih, List.all_cons, ← s.hasText_key k]
    rfl

/-- The text of a value, as things are now. -/
def text (s : Store) (v : Value) : Except Fault String :=
  if s.hasText v then .ok (s.view v).render else .error .wrongValue

/-- The fault that is raised for a cause: the message is composed at once, which fails
if a value that it shows has no text. -/
def raised (s : Store) (f : Fault) : Fault :=
  if f.shown.all s.hasText then f else .wrongValue

theorem raised_cases (s : Store) (f : Fault) : s.raised f = f ∨ s.raised f = .wrongValue := by
  unfold raised
  split
  · exact .inl rfl
  · exact .inr rfl

theorem raised_of_hasText {s : Store} {f : Fault} (h : ∀ v ∈ f.shown, s.hasText v = true) :
    s.raised f = f := by
  unfold raised
  rw [if_pos (List.all_eq_true.mpr h)]

theorem raised_of_not_hasText {s : Store} {f : Fault} {v : Value} (hv : v ∈ f.shown)
    (h : s.hasText v = false) : s.raised f = .wrongValue := by
  refine if_neg fun hall => ?_
  exact Bool.false_ne_true (h.symm.trans (List.all_eq_true.mp hall v hv))

end Store

/-- Why a run stops without a result. -/
inductive Halt where
  | fault (f : Fault)
  | tooDeep

/-- A computation on the state of a run. -/
abbrev Run := EStateM Halt Machine

namespace Run

/-- Stop with a fault. -/
def raise {α : Type} (f : Fault) : Run α := fun m =>
  .error (.fault (m.store.raised f)) m

/-- Compose a text that shows values, such as a log record.  Nothing is kept of it, but
composing fails if a value has no text. -/
def compose (shown : List Value) : Run Unit := fun m =>
  if shown.all m.store.hasText then .ok () m else .error (.fault .wrongValue) m

theorem compose_cases (shown : List Value) (m : Machine) :
    compose shown m = .ok () m ∨ compose shown m = .error (.fault .wrongValue) m := by
  unfold compose
  split
  · exact .inl rfl
  · exact .inr rfl

/-- A text is composed before a computation goes on, or the computation stops there. -/
theorem compose_bind_cases {α : Type} (shown : List Value) (f : Unit → Run α) (m : Machine) :
    (compose shown >>= f) m = f () m ∨
      (compose shown >>= f) m = .error (.fault .wrongValue) m := by
  show EStateM.bind (compose shown) f m = _ ∨ EStateM.bind (compose shown) f m = _
  unfold EStateM.bind
  rcases compose_cases shown m with h | h
  · rw [h]
    exact .inl rfl
  · rw [h]
    exact .inr rfl

/-- A computation on values inside a run. -/
def ofExcept {α : Type} : Except Fault α → Run α
  | .ok a => pure a
  | .error f => raise f

/-- The current store. -/
def store : Run Store :=
  return (← get).store

theorem store_bind {α : Type} {f : Store → Run α} (m : Machine) :
    (store >>= f) m = f m.store m := rfl

/-- An edit of the store inside a run.  The state gives up the store meanwhile, so
that it is edited in place. -/
def edit {α : Type} (e : Edit α) : Run α := fun m =>
  let s := m.store
  let m := { m with store := {} }
  match e s with
  | .ok a s => .ok a { m with store := s }
  | .error f s => .error (.fault (s.raised f)) { m with store := s }

/-- A serial number that nothing in the run has yet. -/
def fresh : Run Nat :=
  modifyGet fun m => (m.serials, { m with serials := m.serials + 1 })

/-- The result of an operation as a value of the run. -/
def enroll (v : Value) : Run Value :=
  modifyGet fun m =>
    let (v, n) := v.enroll m.serials
    (v, { m with serials := n })

/-- A value from outside as a value of the run. -/
def receive (v : Value) : Run Value :=
  modifyGet fun m =>
    let (v, n) := v.enrollAll m.serials
    (v, { m with serials := n })

/-- A tree from outside, such as an expression, as a trace of the run. -/
def receiveTrace (t : Trace) : Run Trace :=
  modifyGet fun m =>
    let (t, n) := t.enrollAll m.serials
    (t, { m with serials := n })

/-- Take the next random number. -/
def draw (ctx : Context) : Run Float :=
  modifyGet fun m => (ctx.stream m.draws, { m with draws := m.draws + 1 })

/-- Report something. -/
def notify (n : Notice) : Run Unit :=
  modify fun m => { m with notices := m.notices.push n }

end Run

/-- The text of a report. -/
def Notice.text : Notice → String
  | mismatch target intervention callee =>
    "value mismatch! target=" ++ target.render ++ " intervention=" ++ intervention.render ++
      " in call to " ++ callee
  | notAnExpression address expression =>
    "walk: not a code expression at " ++ address.toValue.render ++ ": " ++ expression.render
  | notAProcedure v => "infer_apply: not a procedure: " ++ v.render

end ProbTrace

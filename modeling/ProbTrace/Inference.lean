import ProbTrace.Evaluator

/-!
# Inference by sampling

Rejection sampling, importance sampling and resampling, all by running a model
against observed values.  Every run records into a trace of its own, and the
observed values are only read.
-/

namespace ProbTrace
namespace Inference

open Evaluator

/-- A model with its inputs and what was observed of it. -/
structure Query where
  model : Value
  inputs : Value := .list []
  observed : Option Trace := none

/-- One run of the model. -/
def Query.run (ctx : Context) (q : Query) : Run Execution :=
  infer ctx q.model q.inputs q.observed none

/-- The number of repetitions that a value asks for. -/
def repetitions (v : Value) : Except Fault Nat :=
  match v.numeric? with
  | some (.int i) => .ok i.toNat
  | _ => .error .wrongType

/-- The traces and scores of so many runs. -/
def particles (ctx : Context) (q : Query) : Nat → Run (List (Trace × Value))
  | 0 => return []
  | n + 1 => do
    let execution ← q.run ctx
    let rest ← particles ctx q n
    return (execution.trace, execution.score) :: rest

/-- Weighted samples: the traces of runs with their scores as log weights. -/
def importance (ctx : Context) (q : Query) (count : Value) : Run (List (Trace × Value)) := do
  particles ctx q (← Run.ofExcept (repetitions count))

/-- The greatest of some values; of those that are not in order, the first. -/
def greatest : Value → List Value → Except Fault Value
  | top, [] => .ok top
  | top, v :: vs => do
    if ← v.relateAtoms .greater top then greatest v vs else greatest top vs

/-- The exponentials of scores relative to one of them. -/
def relativeWeights (top : Value) (scores : List Value) : Except Fault (List Float) :=
  scores.mapM fun score => do (← score.subtract top).exponential

/-- The sum of numbers from left to right. -/
def total (xs : List Float) : Float :=
  xs.foldl (· + ·) 0.0

/-- The logarithm of the sum of the exponentials of scores. -/
def logSumExp : List Value → Except Fault Value
  | [] => .error .wrongValue
  | score :: scores => do
    let top ← greatest score scores
    if top.sameAtom (.float Number.negativeInfinity) then return top
    let weights ← relativeWeights top (score :: scores)
    top.add (.float (← logOfFloat (total weights)))

/-- One of several weighted runs, chosen in proportion to the weights. -/
def resample (ctx : Context) (q : Query) (count : Value) : Run Trace := do
  let ps ← importance ctx q count
  let scores := ps.map Prod.snd
  let sum ← Run.ofExcept (logSumExp scores)
  if sum.sameAtom (.float Number.negativeInfinity) then Run.raise (.weightless count)
  let weights ← Run.ofExcept (relativeWeights sum scores)
  let i ← Random.choose ctx weights
  match ps[i]? with
  | some p => return p.1
  | none => Run.raise .outOfRange

end Inference
end ProbTrace
